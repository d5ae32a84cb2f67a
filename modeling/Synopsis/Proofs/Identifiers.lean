import Synopsis.Proofs.Groups

/-!
# Types written as identifiers

The type that an identifier names is written as an identifier again by `identifierOf`, which leaves
out the number. **What is written names the same type** (`readIdentifier_identifierOf`).
-/

namespace Synopsis

/-- The parts of an identifier with the underscore between them. -/
def joinParts (first second : List Char) : List Char :=
  first ++ if second = [] then [] else '_' :: second

/-- The name of the type of an identifier with these parts. -/
def partsName (first second : List Char) : String :=
  String.ofList (capitalized first ++ capitalized second)

/-- What an identifier is made of, its number aside: one part of upper case letters, or two. -/
structure AreParts (first second : List Char) : Prop where
  ne_nil : first ≠ []
  first : ∀ c ∈ first, c.isUpper
  second : ∀ c ∈ second, c.isUpper

/-- What names a type has one part or two, and then digits. -/
theorem exists_parts_of_readIdentifier {identifier name : String} {number : Option String}
    (h : readIdentifier identifier = .ok (name, number)) :
    ∃ first second digits, AreParts first second ∧ (∀ c ∈ digits, c.isDigit) ∧
      identifier = String.ofList (joinParts first second ++ digits) ∧
      name = partsName first second := by
  have hupper (cs : List Char) : ∀ c ∈ cs.takeWhile Char.isUpper, c.isUpper :=
    fun c hc => List.mem_takeWhile_imp hc
  have hparts {second digits : List Char} (hsecond : ∀ c ∈ second, c.isUpper)
      (hrest : ('_' ∈ (identifier.toList.dropWhile Char.isUpper).head? → second ≠ []) →
        identifier.toList.dropWhile Char.isUpper =
          (if second = [] then [] else '_' :: second) ++ digits)
      (h : (if (identifier.toList.takeWhile Char.isUpper).isEmpty ||
          (decide ((identifier.toList.dropWhile Char.isUpper).head? = some '_') &&
            second.isEmpty) || !digits.all Char.isDigit then
        Except.error (TypeError.invalidIdentifier identifier)
      else .ok (partsName (identifier.toList.takeWhile Char.isUpper) second,
        if digits.isEmpty then none else some (String.ofList digits))) = .ok (name, number)) :
      ∃ first second digits, AreParts first second ∧ (∀ c ∈ digits, c.isDigit) ∧
        identifier = String.ofList (joinParts first second ++ digits) ∧
        name = partsName first second := by
    split at h
    · cases h
    · next hvalid =>
      simp only [Bool.or_eq_true, Bool.and_eq_true, decide_eq_true_eq, List.isEmpty_iff,
        Bool.not_eq_true', Bool.not_eq_false, not_or, not_and, List.all_eq_true] at hvalid
      cases h
      refine ⟨_, second, digits, ⟨hvalid.1.1, hupper _, hsecond⟩, hvalid.2, ?_, rfl⟩
      rw [joinParts, List.append_assoc, ← hrest hvalid.1.2, List.takeWhile_append_dropWhile,
        String.ofList_toList]
  simp only [readIdentifier] at h
  split at h
  · next rest heq =>
    refine hparts (hupper rest) (fun hne => ?_) h
    rw [heq, if_neg (hne (by simp [heq])), List.cons_append, List.takeWhile_append_dropWhile]
  · have hnone : ∀ c ∈ ([] : List Char), c.isUpper := by simp
    exact hparts hnone (fun _ => rfl) h

section Parts

variable {first second : List Char}

theorem flatMap_toLower (cs : List Char) :
    (cs.map Char.toLower).flatMap (fun c => if c.isUpper then ['_', c] else [c.toUpper]) =
      cs.map Char.toUpper := by
  induction cs with
  | nil => rfl
  | cons c cs ih => simp [ih]

theorem map_toUpper_of_isUpper (h : ∀ c ∈ first, c.isUpper) : first.map Char.toUpper = first := by
  refine (List.map_congr_left fun c hc => ?_).trans (List.map_id first)
  exact Char.toUpper_eq_of_not_isLower (Char.not_isLower_of_isUpper (h c hc))

theorem identifierOf_partsName (h : AreParts first second) :
    (identifierOf (partsName first second)).toList = joinParts first second := by
  cases first with
  | nil => exact absurd rfl h.ne_nil
  | cons c cs =>
    have hc : c.toUpper = c := List.head_eq_of_cons_eq (map_toUpper_of_isUpper h.first)
    have hcs : cs.map Char.toUpper = cs :=
      List.tail_eq_of_cons_eq (map_toUpper_of_isUpper h.first)
    cases second with
    | nil => simp [identifierOf, partsName, joinParts, capitalized, flatMap_toLower, hc, hcs]
    | cons d ds =>
      have hd : d.isUpper := h.second d (by simp)
      have hds : ds.map Char.toUpper = ds :=
        List.tail_eq_of_cons_eq (map_toUpper_of_isUpper h.second)
      simp [identifierOf, partsName, joinParts, capitalized, flatMap_toLower, hc, hcs, hd, hds]

theorem isUpper_underscore : Char.isUpper '_' = false := by decide

theorem isUpper_of_isDigit {c : Char} (h : c.isDigit) : c.isUpper = false := by
  simp only [Char.isUpper, Char.isDigit, UInt32.le_iff_toNat_le, ge_iff_le, Bool.and_eq_true,
    decide_eq_true_eq, decide_eq_false_iff_not] at *
  have : 'A'.val.toNat = 65 := rfl
  have : '9'.val.toNat = 57 := rfl
  omega

theorem readIdentifier_joinParts (h : AreParts first second) {digits : List Char}
    (hdigits : ∀ c ∈ digits, c.isDigit) :
    readIdentifier (String.ofList (joinParts first second ++ digits)) =
      .ok (partsName first second,
        if digits = [] then none else some (String.ofList digits)) := by
  have htake {cs rest : List Char} (hcs : ∀ c ∈ cs, c.isUpper)
      (hrest : ∀ c ∈ rest.head?, c.isUpper = false) :
      (cs ++ rest).takeWhile Char.isUpper = cs ∧ (cs ++ rest).dropWhile Char.isUpper = rest := by
    rw [List.takeWhile_append_of_pos hcs, List.dropWhile_append_of_pos hcs]
    cases rest with
    | nil => simp
    | cons c rest => simp [hrest c rfl]
  have hhead : ∀ c ∈ digits.head?, c.isUpper = false :=
    fun c hc => isUpper_of_isDigit (hdigits c (List.mem_of_mem_head? hc))
  have hall : digits.all Char.isDigit = true := List.all_eq_true.2 hdigits
  by_cases hsecond : second = []
  · obtain ⟨hfirst, hrest⟩ := htake h.first hhead
    cases digits with
    | nil =>
      rw [List.append_nil] at hfirst hrest
      simp [readIdentifier, joinParts, partsName, hsecond, hfirst, hrest, h.ne_nil]
    | cons d ds =>
      -- a digit is no underscore, so no second part is looked for
      have hd : d ≠ '_' := by
        rintro rfl
        exact absurd (hdigits '_' (by simp)) (by decide)
      simp [readIdentifier, joinParts, partsName, hsecond, hfirst, hrest, h.ne_nil, hall, hd]
  · obtain ⟨hfirst, hrest⟩ := @htake first ('_' :: (second ++ digits)) h.first
      (by simp [isUpper_underscore])
    obtain ⟨hsecond', hrest'⟩ := htake h.second hhead
    simp [readIdentifier, joinParts, partsName, hsecond, hfirst, hrest, hsecond', hrest', h.ne_nil,
      hall]

theorem isIdentifier_joinParts (h : AreParts first second) {digits : List Char}
    (hdigits : ∀ c ∈ digits, c.isDigit) :
    IsIdentifier (String.ofList (joinParts first second ++ digits)) := by
  have hupper {c : Char} (hc : c.isUpper) : Lexeme.identifierTail c := by
    simp [Lexeme.identifierTail, Char.isAlphanum, Char.isAlpha, hc]
  have htail : ∀ c ∈ joinParts first second ++ digits, Lexeme.identifierTail c := by
    intro c hc
    rw [joinParts, List.append_assoc, List.mem_append, List.mem_append] at hc
    rcases hc with hc | hc | hc
    · exact hupper (h.first c hc)
    · split_ifs at hc
      · simp at hc
      · rcases List.mem_cons.1 hc with rfl | hc
        · decide
        · exact hupper (h.second c hc)
    · simp [Lexeme.identifierTail, Char.isAlphanum, hdigits c hc]
  obtain ⟨c, cs, hfirst⟩ := List.exists_cons_of_ne_nil h.ne_nil
  rw [hfirst, joinParts] at htail ⊢
  rw [IsIdentifier, String.toList_ofList]
  refine Lexeme.isWhole_leading_iff.2 ⟨h.first c (by simp [hfirst]), fun d hd => ?_⟩
  exact htail d (List.mem_cons_of_mem _ hd)

end Parts

theorem isIdentifier_of_readIdentifier {identifier name : String} {number : Option String}
    (h : readIdentifier identifier = .ok (name, number)) : IsIdentifier identifier := by
  obtain ⟨first, second, digits, hparts, hdigits, htext, -⟩ := exists_parts_of_readIdentifier h
  rw [htext]
  exact isIdentifier_joinParts hparts hdigits

/-- **A type that an identifier names is written as an identifier that names it.** -/
theorem readIdentifier_identifierOf {identifier name : String} {number : Option String}
    (h : readIdentifier identifier = .ok (name, number)) :
    IsIdentifier (identifierOf name) ∧ readIdentifier (identifierOf name) = .ok (name, none) := by
  obtain ⟨first, second, digits, hparts, -, -, rfl⟩ := exists_parts_of_readIdentifier h
  have hwritten : identifierOf (partsName first second) =
      String.ofList (joinParts first second ++ []) := by
    rw [List.append_nil, ← identifierOf_partsName hparts, String.ofList_toList]
  have hdigits : ∀ c ∈ ([] : List Char), c.isDigit := by simp
  rw [hwritten]
  exact ⟨isIdentifier_joinParts hparts hdigits, readIdentifier_joinParts hparts hdigits⟩

theorem groupText_types {names : List String} (htwo : 2 ≤ names.length)
    (hnamed : ∀ name ∈ names, ∃ identifier number, readIdentifier identifier = .ok (name, number)) :
    GroupText (writeAlternatives (names.map identifierOf)).toList (.types names) := by
  have hne : names.map identifierOf ≠ [] := by
    rw [ne_eq, List.map_eq_nil_iff]
    rintro rfl
    exact absurd htwo (by decide)
  have hids : ∀ identifier ∈ names.map identifierOf, IsIdentifier identifier := by
    intro identifier hmem
    obtain ⟨name, hname, rfl⟩ := List.mem_map.1 hmem
    obtain ⟨written, number, hread⟩ := hnamed name hname
    exact (readIdentifier_identifierOf hread).1
  have hitems := @itemsText_identifiers (names.map identifierOf) [] [] hne hids
  refine ⟨[], _, _, by simp [IsBlanks], hitems, .types (by simpa using htwo) ?_,
    toList_writeAlternatives _⟩
  rw [List.nil_append, List.forall₂_map_left_iff, List.forall₂_same]
  intro name hname
  obtain ⟨written, number, hread⟩ := hnamed name hname
  exact ⟨none, (readIdentifier_identifierOf hread).2⟩

/-- **The types of a group are written as a group that names them.** -/
theorem GroupText.write_types {cs : List Char} {names : List String}
    (h : GroupText cs (.types names)) :
    GroupText (writeAlternatives (names.map identifierOf)).toList (.types names) :=
  groupText_types h.types_named.1 h.types_named.2

end Synopsis
