import Synopsis.Proofs.InlineOptions
import Synopsis.Proofs.Meanings
import Synopsis.Proofs.Words

/-!
# Labels and the types they name

The label of an inline option is the name of its type in upper case. Upper case joins the words of a
name, while an identifier has an underscore between two words, and the digits at its end are no part
of the name. So the label of a type of one word names that type (`Registry.labels_of_isOneWord`), and
that of any other may name no type at all.

Conversely, a label without an underscore is read as a name of one segment. Such a name is not taken
apart, so it is only read where it stands for a type (`Registry.labels_of_resolve`). Therefore, as
soon as a text that starts with described options is read, the labels among them name types, whatever
types the options have (`Reader.labels_of_options`).
-/

namespace Synopsis

open Lexeme (optionTail)

/-! ## Labels -/

/-- The label, read as an identifier, stands for the type. -/
def Registry.Labels (r : Registry) (label : String) (t : ValueType) : Prop :=
  ∃ name number, readIdentifier label = .ok (name, number) ∧ r.get? name = some t

namespace Registry.Labels

variable {r : Registry} {label : String} {t : ValueType}

theorem reads (h : r.Labels label t) (numbered : List String) :
    ReadsType ⟨r, numbered⟩ t label ⟨r, numbered⟩ := by
  obtain ⟨name, number, hname, hget⟩ := h
  exact .identifier (isIdentifier_of_readIdentifier hname) hname (Registry.resolve_of_get? hget)

end Registry.Labels

/-! ## Names in upper case -/

theorem upperChar_of_isAlphanum {c : Char} (hc : c.isAlphanum) :
    upperChar c = [c.toUpper] ∧ c.toUpper.isAlphanum := by
  have hall : ∀ n < 123, (Char.ofNat n).isAlphanum →
      upperChar (Char.ofNat n) = [(Char.ofNat n).toUpper] ∧ (Char.ofNat n).toUpper.isAlphanum := by
    decide +kernel
  have hc' := hall c.toNat (Nat.lt_succ_of_le (Lexeme.isAlphanum_bounds hc).2)
  rw [Char.ofNat_toNat] at hc'
  exact hc' hc

theorem toList_upperCase {text : String} (h : ∀ c ∈ text.toList, c.isAlphanum) :
    (upperCase text).toList = text.toList.map Char.toUpper := by
  rw [upperCase, String.toList_ofList, ← List.flatMap_pure_eq_map]
  exact List.flatMap_congr fun c hc => (upperChar_of_isAlphanum (h c hc)).1

/-- The name of a type in upper case is an identifier without an underscore. -/
theorem isIdentifier_upperCase {name : String} (h : isTypeName name) :
    IsIdentifier (upperCase name) ∧ '_' ∉ (upperCase name).toList := by
  obtain ⟨c, cs, hname, hupper, halphanum⟩ := Registry.head_of_isTypeName h
  have hlist : (upperCase name).toList = (c :: cs).map Char.toUpper := by
    rw [toList_upperCase (hname ▸ halphanum), hname]
  have hall : ∀ d ∈ (c :: cs).map Char.toUpper, d.isAlphanum :=
    List.forall_mem_map.2 fun d hd => (upperChar_of_isAlphanum (halphanum d hd)).2
  have hc : c.toUpper = c := Char.toUpper_eq_of_not_isLower (Char.not_isLower_of_isUpper hupper)
  rw [IsIdentifier, hlist]
  constructor
  · rw [List.map_cons] at hall ⊢
    refine Lexeme.isWhole_leading_iff.2 ⟨by rwa [hc], fun d hd => ?_⟩
    simp [hall d (List.mem_cons_of_mem _ hd)]
  · intro hmem
    exact absurd (hall '_' hmem) (by decide)

/-! ## Names of one part -/

theorem nameSegments_of_not_isUpper (c : Char) {cs : List Char} (h : ∀ d ∈ cs, ¬d.isUpper) :
    nameSegments (c :: cs) = [c :: cs] := by
  induction cs generalizing c with
  | nil => rfl
  | cons d cs ih =>
    rw [List.forall_mem_cons] at h
    rw [nameSegments, ih d h.2]
    simp [h.1]

theorem get?_of_resolve_segment {r r' : Registry} {name : String} {t : ValueType}
    (hname : nameSegments name.toList = [name.toList]) (h : Registry.resolve name r = .ok t r') :
    r.get? name = some t := by
  unfold Registry.resolve at h
  cases hget : r.get? name with
  | some found =>
    rw [hget] at h
    obtain ⟨rfl, -⟩ := EStateM.Result.ok.inj h
    rfl
  | none =>
    -- no segment is left that a base could be found under
    simp only [hget, hname, Registry.derive, List.flatten_nil, List.append_nil,
      String.ofList_toList, Option.map_none] at h
    split at h <;> cases h

/-- An identifier without an underscore that is resolved stands for the type. -/
theorem Registry.labels_of_resolve {r r' : Registry} {label name : String} {number : Option String}
    {t : ValueType} (hlabel : '_' ∉ label.toList) (hname : readIdentifier label = .ok (name, number))
    (h : resolve name r = .ok t r') : r.Labels label t := by
  obtain ⟨first, second, digits, hparts, -, rfl, rfl⟩ := exists_parts_of_readIdentifier hname
  have hsecond : second = [] := by
    by_contra hne
    exact hlabel (by simp [joinParts, hne])
  obtain ⟨c, cs, rfl⟩ := List.exists_cons_of_ne_nil hparts.ne_nil
  refine ⟨_, _, hname, get?_of_resolve_segment ?_ h⟩
  have hlower : ∀ d ∈ cs.map Char.toLower, ¬d.isUpper :=
    List.forall_mem_map.2 fun d _ => by simp
  simpa [partsName, hsecond, capitalized] using nameSegments_of_not_isUpper c hlower

/-- The name is one capitalized word. -/
def isOneWord (name : String) : Bool :=
  match name.toList with
  | [] => false
  | c :: cs => c.isUpper && cs.all Char.isLower

theorem head_of_isOneWord {name : String} (h : isOneWord name) :
    ∃ c cs, name.toList = c :: cs ∧ c.isUpper ∧ ∀ d ∈ cs, d.isLower := by
  unfold isOneWord at h
  cases hname : name.toList with
  | nil => simp [hname] at h
  | cons c cs =>
    simp only [hname, Bool.and_eq_true, List.all_eq_true] at h
    exact ⟨c, cs, rfl, h⟩

/-- A name of one word in upper case is read as the name. -/
theorem readIdentifier_upperCase {name : String} (h : isOneWord name) :
    readIdentifier (upperCase name) = .ok (name, none) := by
  obtain ⟨c, cs, hlist, hc, hcs⟩ := head_of_isOneWord h
  have halphanum : ∀ d ∈ name.toList, d.isAlphanum := by
    rw [hlist, List.forall_mem_cons]
    exact ⟨by simp [Char.isAlphanum, Char.isAlpha, hc],
      fun d hd => by simp [Char.isAlphanum, Char.isAlpha, hcs d hd]⟩
  have hupper : c.toUpper = c := Char.toUpper_eq_of_not_isLower (Char.not_isLower_of_isUpper hc)
  have hparts : AreParts (c :: cs.map Char.toUpper) [] := by
    refine ⟨by simp, List.forall_mem_cons.2 ⟨hc, List.forall_mem_map.2 fun d hd => ?_⟩, by simp⟩
    simp [Char.isAlpha, hcs d hd]
  have hlabel : upperCase name = String.ofList (joinParts (c :: cs.map Char.toUpper) [] ++ []) := by
    rw [← String.toList_inj, toList_upperCase halphanum, hlist]
    simp [joinParts, hupper]
  have hback : (cs.map Char.toUpper).map Char.toLower = cs := by
    rw [List.map_map]
    refine (List.map_congr_left fun d hd => ?_).trans (List.map_id cs)
    simp [Char.toLower_eq_of_not_isUpper (Char.not_isUpper_of_isLower (hcs d hd))]
  have hread : partsName (c :: cs.map Char.toUpper) [] = name := by
    rw [← String.toList_inj, hlist]
    simp [partsName, capitalized, hback]
  rw [hlabel, readIdentifier_joinParts hparts (by simp), hread]
  rfl

theorem Registry.labels_of_isOneWord {r : Registry} {name : String} {t : ValueType}
    (hname : isOneWord name) (h : r.get? name = some t) : r.Labels (upperCase name) t :=
  ⟨name, none, readIdentifier_upperCase hname, h⟩

/-! ## Options with labels -/

/-- The option is described in brackets, with a label that is an identifier of one part. -/
structure OptionSpec.Labelled (o : OptionSpec) (label : String) : Prop extends Spelled o where
  form : o.form = .bracketed
  arity : o.arity = .required
  metavar : o.metavar = some label
  identifier : IsIdentifier label
  onePart : '_' ∉ label.toList

namespace Reader

variable {s s' : ReaderState} {o : OptionSpec} {label : String} {after : List Char}

/-- Where an identifier of one part is read as a type, it names the type. -/
theorem labels_of_valueType {type : ValueType} {found : String} (hlabel : IsIdentifier label)
    (honePart : '_' ∉ label.toList) (hrest : s.rest = label.toList ++ after)
    (hafter : Lexeme.StopsAt optionTail after) (h : valueType s = .ok (type, found) s') :
    s.registry.Labels label type := by
  obtain ⟨hfound, hopen⟩ := identifier_complete hlabel hrest hafter
  rcases valueType_ok_iff.1 h with ⟨hgroup, -⟩ | ⟨-, -, hwritten, name, number, r, hname, htype, -⟩
  · rw [hopen] at hgroup
    cases hgroup
  · rw [hwritten, hfound, String.ofList_toList] at hname
    exact Registry.labels_of_resolve honePart hname htype

/-- **Where an option with a label is read, the label names a type.** -/
theorem labels_of_reader {declared : List Declaration} (ho : o.Labelled label)
    (hrest : s.rest = o.describe.toList ++ after) (h : o.form.reader s = .ok declared s') :
    ∃ t, s.registry.Labels label t := by
  have htaken : (o.taken.write o.metavar).toList = '=' :: label.toList := by
    simp [OptionSpec.taken, ho.arity, ho.metavar, TakenValue.write]
  rw [o.toList_describe, ho.form, htaken] at hrest
  simp only [List.append_assoc, List.cons_append] at hrest
  rw [ho.form] at h
  obtain ⟨found, s₁, value, metavar, s₂, text, s₃, hfound, hvalue, -⟩ :=
    (optionGroup_ok_iff (Lexeme.startsWith_iff.2 ⟨_, hrest⟩)).1 h
  obtain ⟨found', s₁', hfound', -, hrest₁, hknown₁⟩ :=
    groupSpellings_complete ho.toSpelled hrest (Or.inl rfl)
  cases hfound.symm.trans hfound'
  have hequals : Lexeme.startsWith "=" (pastBlanks s₁).rest = true := by
    rw [hrest₁]
    rfl
  rcases takenValue_ok_iff.1 hvalue with ⟨-, type, label', htype, -, -⟩ | ⟨hnone, -⟩ | ⟨hnone, -⟩
  · have hlabels := labels_of_valueType ho.identifier ho.onePart (rest_past hrest₁)
      (Lexeme.stopsAt_cons rfl) htype
    refine ⟨type, ?_⟩
    have hregistry : (past "=" (pastBlanks s₁)).registry = s.registry :=
      congrArg Known.registry ((known_past _ _).trans hknown₁)
    rwa [hregistry] at hlabels
  · rw [hequals] at hnone
    cases hnone
  · rw [hequals] at hnone
    cases hnone

theorem spelled_of_or {r : Registry} (ho : o.Describable r ∨ ∃ label, o.Labelled label) :
    o.Spelled := by
  rcases ho with ho | ⟨label, ho⟩
  · exact ho.toSpelled
  · exact ho.toSpelled

/-- **Where described options are read, the labels among them name types.** -/
theorem labels_of_options {fuel : Nat} {os : List OptionSpec} {parts : List String} {r : Registry}
    {found : List Declaration × List Declaration}
    (hos : ∀ o ∈ os, o.Describable r ∨ ∃ label, o.Labelled label)
    (hparts : ∀ part ∈ parts, IsPart part) (hs : s.registry = r)
    (hrest : trimStart s.rest = joined (os.map OptionSpec.describe ++ parts))
    (hfuel : s.rest.length < fuel) (h : options fuel s = .ok found s') :
    ∀ o ∈ os, ∀ label, o.Labelled label → ∃ t, r.Labels label t := by
  induction os generalizing fuel s found with
  | nil => simp
  | cons o os ih =>
    obtain ⟨fuel, rfl⟩ : ∃ n, fuel = n + 1 := ⟨fuel - 1, by omega⟩
    rw [List.forall_mem_cons] at hos ⊢
    obtain ⟨hopening, hfront, hends, hnext⟩ :=
      front_described (spelled_of_or hos.1) (fun o ho => spelled_of_or (hos.2 o ho)) hparts hrest
    obtain ⟨declared, s₁, rest, hread, hrest', -⟩ := (options_succ_ok_iff hopening).1 h
    have hlabels (label : String) (ho : o.Labelled label) : ∃ t, r.Labels label t := by
      have := labels_of_reader ho hfront hread
      rwa [show (pastBlanks s).registry = r from hs] at this
    -- with the type that its label names, the option is read as it is described
    obtain ⟨o₁, ho₁, hdescribe, hform⟩ :
        ∃ o₁ : OptionSpec, o₁.Describable r ∧ o₁.describe = o.describe ∧ o₁.form = o.form := by
      rcases hos.1 with ho | ⟨label, ho⟩
      · exact ⟨o, ho, rfl, rfl⟩
      · obtain ⟨t, ht⟩ := hlabels label ho
        refine ⟨{ o with type := t }, ⟨⟨ho.ne_nil, ho.valid⟩, fun numbered => ?_⟩, rfl, rfl⟩
        have hvalue : ReadsValue ⟨r, numbered⟩ (.required t) (some label) ⟨r, numbered⟩ :=
          .required (ht.reads numbered)
        simpa [OptionSpec.taken, ho.arity, ho.metavar] using hvalue
    obtain ⟨s₂, hs₂, hknown₂, hiff⟩ :=
      reader_described ho₁ (s := pastBlanks s) hs (hdescribe ▸ hfront) hends
    rw [hform] at hiff
    obtain ⟨-, -, rfl⟩ := (hiff _ _).1 hread
    obtain ⟨hrest₁, hlength⟩ := hnext s₁ hs₂
    have hregistry₁ : s₁.registry = r := (congrArg Known.registry hknown₂).trans hs
    exact ⟨hlabels, ih hos.2 hregistry₁ hrest₁ (by omega) hrest'⟩

end Reader

end Synopsis
