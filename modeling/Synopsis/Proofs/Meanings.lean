import Synopsis.Proofs.Primitives

/-!
# What a name means

The registry keeps what it synthesizes, so what stands in it depends on what was asked of it
before. What a name *means* does not: `Registry.meaning` reads a name off a registry without keeping
anything, and every type that is kept is what its own name means.

`Agrees r₀ r` says that `r` has come from `r₀` by steps that leave every meaning as it was: what `r`
holds beyond `r₀` is of one of a few forms. It stands under the name of a type, under a word, or
under alternatives, of words or of types. No two of these forms have a name in common, and each name
leaves one type of its form (`Shaped.unique`). So a step that looks a name up finds what it would
have made, or what `r₀` had there already.
-/

namespace Synopsis

namespace Registry

/-! ## Meanings -/

/-- The type that a chain of segments stands for: the one registered under the longest ending, with
a derived type for each segment before it. -/
def means (r : Registry) : List (List Char) → Option ValueType
  | [] => none
  | segment :: rest =>
    let name := String.ofList (segment ++ rest.flatten)
    match r.get? name with
    | some t => some t
    | none => (r.means rest).map (.derived name (String.ofList segment))

/-- The type that the name of a type stands for. -/
def meaning (r : Registry) (name : String) : Option ValueType := r.means (nameSegments name.toList)

/-- A chain of segments means what the name that it makes up means. -/
theorem meaning_flatten {r : Registry} {segments : List (List Char)}
    (h : nameSegments segments.flatten = segments) :
    r.meaning (String.ofList segments.flatten) = r.means segments := by
  rw [meaning, String.toList_ofList, h]

theorem nameSegments_tail {cs segment : List Char} {rest : List (List Char)}
    (h : nameSegments cs = segment :: rest) :
    nameSegments rest.flatten = rest ∧ (rest ≠ [] → rest.flatten.head?.any Char.isUpper) := by
  induction cs generalizing segment rest with
  | nil => simp [nameSegments] at h
  | cons c cs ih =>
    rw [nameSegments] at h
    cases hsegments : nameSegments cs with
    | nil =>
      rw [hsegments] at h
      obtain ⟨-, rfl⟩ := List.cons.inj h
      exact ⟨rfl, fun hne => absurd rfl hne⟩
    | cons first others =>
      simp only [hsegments] at h
      by_cases hupper : first.head?.any Char.isUpper
      · rw [if_pos hupper] at h
        obtain ⟨-, rfl⟩ := List.cons.inj h
        have hflatten : (first :: others).flatten = cs := by
          rw [← hsegments]
          exact flatten_nameSegments cs
        refine ⟨by rw [hflatten, hsegments], fun _ => ?_⟩
        cases first with
        | nil => simp at hupper
        | cons d ds => simpa using hupper
      · rw [if_neg hupper] at h
        obtain ⟨-, rfl⟩ := List.cons.inj h
        exact ih hsegments

theorem isTypeName_tail {cs segment : List Char} {rest : List (List Char)}
    (h : nameSegments cs = segment :: rest) (hvalid : isTypeName (String.ofList cs))
    (hne : rest ≠ []) : isTypeName (String.ofList rest.flatten) := by
  have hupper := (nameSegments_tail h).2 hne
  have hsplit : segment ++ rest.flatten = cs := by
    rw [← flatten_nameSegments cs, h, List.flatten_cons]
  have halphanum : ∀ c ∈ rest.flatten, c.isAlphanum := by
    intro c hc
    have hmem : c ∈ cs := hsplit ▸ List.mem_append_right _ hc
    cases cs with
    | nil => simp at hmem
    | cons d ds =>
      simp only [isTypeName, String.toList_ofList, Bool.and_eq_true, List.all_eq_true] at hvalid
      rcases List.mem_cons.1 hmem with rfl | hmem
      · simp [Char.isAlphanum, Char.isAlpha, hvalid.1]
      · exact hvalid.2 c hmem
  cases hrest : rest.flatten with
  | nil => simp [hrest] at hupper
  | cons c cs' =>
    rw [hrest] at hupper halphanum
    simp only [isTypeName, String.toList_ofList, Bool.and_eq_true, List.all_eq_true]
    exact ⟨by simpa using hupper, fun d hd => halphanum d (List.mem_cons_of_mem _ hd)⟩

theorem exists_segments {name : String} (h : isTypeName name) :
    ∃ segment rest, nameSegments name.toList = segment :: rest := by
  cases hsegments : nameSegments name.toList with
  | nil =>
    have hflatten := flatten_nameSegments name.toList
    rw [hsegments] at hflatten
    rw [isTypeName, ← hflatten] at h
    simp at h
  | cons segment rest => exact ⟨segment, rest, rfl⟩

theorem meaning_of_get? {r : Registry} {name : String} {t : ValueType} (hvalid : isTypeName name)
    (h : r.get? name = some t) : r.meaning name = some t := by
  obtain ⟨segment, rest, hsegments⟩ := exists_segments hvalid
  have hname : String.ofList (segment ++ rest.flatten) = name := by
    rw [← List.flatten_cons, ← hsegments, flatten_nameSegments, String.ofList_toList]
  rw [meaning, hsegments, means]
  simp only [hname, h]

/-! ## The forms of names -/

/-- The type has the name of a type, and is what that name means. -/
structure IsMeant (r : Registry) (t : ValueType) : Prop where
  valid : isTypeName t.name
  own : r.meaning t.name = some t

/-- The types that can be kept, by the form of their names. -/
inductive Shaped (r : Registry) : ValueType → Prop
  | named {t : ValueType} (h : r.IsMeant t) : Shaped r t
  | word {text : String} (h : IsWord text) : Shaped r (.word text)
  | choice {words : List String} (hne : words ≠ []) (h : ∀ word ∈ words, IsWord word) :
      Shaped r (.choice words)
  | union {members : List ValueType} (hunites : ValueType.Unites members)
      (h : ∀ t ∈ members, r.IsMeant t) : Shaped r (.union members)

theorem head_of_isTypeName {name : String} (h : isTypeName name) :
    ∃ c cs, name.toList = c :: cs ∧ c.isUpper ∧ ∀ d ∈ c :: cs, d.isAlphanum := by
  unfold isTypeName at h
  cases hname : name.toList with
  | nil => simp [hname] at h
  | cons c cs =>
    simp only [hname, Bool.and_eq_true, List.all_eq_true] at h
    refine ⟨c, cs, rfl, h.1, List.forall_mem_cons.2 ⟨?_, h.2⟩⟩
    simp [Char.isAlphanum, Char.isAlpha, h.1]

theorem not_isTypeName_of_isWord {text : String} (h : IsWord text) : ¬isTypeName text := by
  intro hvalid
  obtain ⟨c, cs, htext, hupper, -⟩ := head_of_isTypeName hvalid
  obtain ⟨d, ds, htext', hlower⟩ := h.head
  rw [htext] at htext'
  obtain ⟨rfl, -⟩ := List.cons.inj htext'
  exact Char.not_isUpper_of_isLower hlower hupper

theorem not_isTypeName_alternatives (parts : List String) :
    ¬isTypeName (writeAlternatives parts) := by
  intro hvalid
  obtain ⟨c, cs, htext, hupper, -⟩ := head_of_isTypeName hvalid
  rw [toList_writeAlternatives] at htext
  obtain ⟨rfl, -⟩ := List.cons.inj htext
  exact absurd hupper (by decide)

theorem ne_alternatives_of_isWord {text : String} (h : IsWord text) (parts : List String) :
    text ≠ writeAlternatives parts := by
  rintro rfl
  obtain ⟨c, cs, htext, hlower⟩ := h.head
  rw [toList_writeAlternatives] at htext
  obtain ⟨rfl, -⟩ := List.cons.inj htext
  exact absurd hlower (by decide)

theorem IsMeant.ne_word {r : Registry} {t : ValueType} (h : r.IsMeant t) {text : String}
    (hword : IsWord text) : t.name ≠ text := by
  rintro rfl
  exact not_isTypeName_of_isWord hword h.valid

theorem IsMeant.ne_alternatives {r : Registry} {t : ValueType} (h : r.IsMeant t)
    (parts : List String) : t.name ≠ writeAlternatives parts := by
  intro heq
  exact not_isTypeName_alternatives parts (heq ▸ h.valid)

theorem bar_notMem_of_isWord {text : String} (h : IsWord text) : '|' ∉ text.toList := by
  obtain ⟨c, cs, htext, hlower⟩ := h.head
  rw [IsWord, htext] at h
  have htail := (Lexeme.isWhole_leading_iff.1 h).2
  intro hmem
  rw [htext] at hmem
  rcases List.mem_cons.1 hmem with rfl | hmem
  · exact absurd hlower (by decide)
  · exact absurd (htail '|' hmem) (by decide)

theorem bar_notMem_of_isTypeName {name : String} (h : isTypeName name) : '|' ∉ name.toList := by
  obtain ⟨c, cs, hname, -, halphanum⟩ := head_of_isTypeName h
  intro hmem
  exact absurd (halphanum '|' (hname ▸ hmem)) (by decide)

/-- Alternatives without a bar of their own are what they are written as. -/
theorem writeAlternatives_injective {parts parts' : List String} (hne : parts ≠ [])
    (hne' : parts' ≠ []) (hbar : ∀ part ∈ parts, '|' ∉ part.toList)
    (hbar' : ∀ part ∈ parts', '|' ∉ part.toList)
    (h : writeAlternatives parts = writeAlternatives parts') : parts = parts' := by
  have hlist := congrArg String.toList h
  rw [toList_writeAlternatives, toList_writeAlternatives] at hlist
  have hbarred : barred parts = barred parts' := by simpa using hlist
  have hsplit (texts : List String) (hne : texts ≠ []) (hbar : ∀ text ∈ texts, '|' ∉ text.toList) :
      (barred texts).splitOn '|' = texts.map String.toList := by
    refine List.splitOn_intercalate '|' (fun cs hcs => ?_) (by simpa using hne)
    obtain ⟨text, htext, rfl⟩ := List.mem_map.1 hcs
    exact hbar text htext
  have hmap : parts.map String.toList = parts'.map String.toList := by
    rw [← hsplit parts hne hbar, ← hsplit parts' hne' hbar', hbarred]
  exact List.map_injective_iff.2 (fun _ _ => String.toList_injective) hmap

theorem names_eq_map (members : List ValueType) :
    ValueType.names members = members.map ValueType.name := by
  induction members with
  | nil => rfl
  | cons t members ih => rw [ValueType.names, ih, List.map_cons]

/-- A choice lists words and a union lists names of types, so they are written differently. -/
theorem name_choice_ne_name_union {words : List String} {members : List ValueType}
    (hne : words ≠ []) (hwords : ∀ word ∈ words, IsWord word) (hne' : members ≠ [])
    (hmembers : ∀ t ∈ members, isTypeName t.name) :
    (ValueType.choice words).name ≠ (ValueType.union members).name := by
  intro heq
  rw [ValueType.name, ValueType.name, names_eq_map] at heq
  have hparts := writeAlternatives_injective hne (by simpa using hne')
    (fun word hword => bar_notMem_of_isWord (hwords word hword))
    (List.forall_mem_map.2 fun t ht => bar_notMem_of_isTypeName (hmembers t ht)) heq
  obtain ⟨word, hword⟩ := List.exists_mem_of_ne_nil words hne
  obtain ⟨t, ht, htname⟩ := List.mem_map.1 (hparts ▸ hword)
  exact not_isTypeName_of_isWord (hwords word hword) (htname ▸ hmembers t ht)

/-- **A name leaves one type of its form**, and no two forms have a name in common. -/
theorem Shaped.unique {r : Registry} {t t' : ValueType} (h : r.Shaped t) (h' : r.Shaped t')
    (hname : t.name = t'.name) : t = t' := by
  cases h with
  | named h =>
    cases h' with
    | named h' =>
      have hown := h.own
      rw [hname, h'.own] at hown
      exact (Option.some.inj hown).symm
    | word hword => exact absurd hname (h.ne_word hword)
    | choice => exact absurd hname (h.ne_alternatives _)
    | union => exact absurd hname (h.ne_alternatives _)
  | word hword =>
    cases h' with
    | named h' => exact absurd hname.symm (h'.ne_word hword)
    | word => exact congrArg ValueType.word hname
    | choice => exact absurd hname (ne_alternatives_of_isWord hword _)
    | union => exact absurd hname (ne_alternatives_of_isWord hword _)
  | choice hne hwords =>
    cases h' with
    | named h' => exact absurd hname.symm (h'.ne_alternatives _)
    | word hword => exact absurd hname.symm (ne_alternatives_of_isWord hword _)
    | choice hne' hwords' =>
      rw [writeAlternatives_injective hne hne' (fun w hw => bar_notMem_of_isWord (hwords w hw))
        (fun w hw => bar_notMem_of_isWord (hwords' w hw)) hname]
    | union hunites hmembers =>
      exact absurd hname
        (name_choice_ne_name_union hne hwords hunites.ne_nil fun t ht => (hmembers t ht).valid)
  | @union members hunites hmembers =>
    cases h' with
    | named h' => exact absurd hname.symm (h'.ne_alternatives _)
    | word hword => exact absurd hname.symm (ne_alternatives_of_isWord hword _)
    | choice hne' hwords =>
      exact absurd hname.symm
        (name_choice_ne_name_union hne' hwords hunites.ne_nil fun t ht => (hmembers t ht).valid)
    | @union members' hunites' hmembers' =>
      rw [ValueType.name, ValueType.name, names_eq_map, names_eq_map] at hname
      have hbar {members : List ValueType} (hmembers : ∀ t ∈ members, r.IsMeant t) :
          ∀ name ∈ members.map ValueType.name, '|' ∉ name.toList :=
        List.forall_mem_map.2 fun t ht => bar_notMem_of_isTypeName (hmembers t ht).valid
      have hnames := writeAlternatives_injective (by simpa using hunites.ne_nil)
        (by simpa using hunites'.ne_nil) (hbar hmembers) (hbar hmembers') hname
      -- both are what the names mean
      have hmeanings {members : List ValueType} (hmembers : ∀ t ∈ members, r.IsMeant t) :
          (members.map ValueType.name).map r.meaning = members.map some := by
        rw [List.map_map]
        exact List.map_congr_left fun t ht => (hmembers t ht).own
      have hsome : members.map some = members'.map some := by
        rw [← hmeanings hmembers, ← hmeanings hmembers', hnames]
      rw [List.map_injective_iff.2 (Option.some_injective _) hsome]

theorem Shaped.isMeant {r : Registry} {t : ValueType} (h : r.Shaped t)
    (hvalid : isTypeName t.name) : r.IsMeant t := by
  cases h with
  | named h => exact h
  | word hword => exact absurd hvalid (not_isTypeName_of_isWord hword)
  | choice => exact absurd hvalid (not_isTypeName_alternatives _)
  | union => exact absurd hvalid (not_isTypeName_alternatives _)

/-! ## Registries that agree -/

/-- Types stand under their own names. An alias is the name of a type, and stands for another one,
which is there and is no alias of something else. -/
structure Orderly (r : Registry) : Prop where
  named : ∀ name t, r.types.get? name = some t → t.name = name
  valid : ∀ name target, r.aliases.get? name = some target → isTypeName name
  targets : ∀ name target, r.aliases.get? name = some target → isTypeName target ∧
    (r.types.get? target).isSome ∧ (r.aliases.get? target).getD target = target

/-- What is registered is orderly, as its names are free: what an alias stands for is there, and no
later name hides it. -/
theorem Orderly.register {r r' : Registry} {p : Primitive} (h : r.Orderly)
    (hp : r.register p = .ok r') : r'.Orderly := by
  have hnames := names_of_register hp
  have hfree := free_of_register hp
  rw [eq_add_of_register hp]
  refine ⟨fun name t ht => ?_, fun name target ht => ?_, fun name target ht => ?_⟩
  · rw [get?_types_add] at ht
    split_ifs at ht with hname
    · rw [← Option.some.inj ht, ← hname]
      rfl
    · exact h.named name t ht
  all_goals
    rw [get?_aliases_add] at ht
    split_ifs at ht with hmem
  · exact (hnames name (by simp [hmem])).1
  · exact h.valid name target ht
  · -- an alias of the same name stands for the primitive itself
    obtain rfl := Option.some.inj ht
    refine ⟨(hnames p.name (by simp)).1, by simp [get?_types_add], ?_⟩
    rw [get?_aliases_add, (hfree p.name (by simp)).2]
    split_ifs <;> rfl
  · obtain ⟨hvalid, hsome, hself⟩ := h.targets name target ht
    have hused (hmem : target ∈ p.name :: p.aliases) : False := by
      rw [(hfree target hmem).1] at hsome
      simp at hsome
    refine ⟨hvalid, ?_, ?_⟩
    · rwa [get?_types_add, if_neg fun heq => hused (by simp [heq])]
    · rwa [get?_aliases_add, if_neg fun hmem => hused (by simp [hmem])]

theorem Orderly.keep {r : Registry} (h : r.Orderly) (t : ValueType) : (r.keep t).2.Orderly := by
  refine ⟨fun name found hfound => ?_, by simpa using h.valid, fun name target htarget => ?_⟩
  · cases hkept : r.types.get? t.name with
    | some kept =>
      rw [keep_of_some hkept] at hfound
      exact h.named name found hfound
    | none =>
      simp only [keep_of_none hkept, Dict.get?_insert] at hfound
      split_ifs at hfound with hname
      · rw [← Option.some.inj hfound, hname]
      · exact h.named name found hfound
  · rw [aliases_keep] at htarget ⊢
    obtain ⟨hvalid, hsome, hself⟩ := h.targets name target htarget
    obtain ⟨found, hfound⟩ := Option.isSome_iff_exists.1 hsome
    exact ⟨hvalid, by simp [types_keep_of_some hfound t], hself⟩

theorem orderly_empty : Orderly empty :=
  ⟨by simp [Registry.empty], by simp [Registry.empty], by simp [Registry.empty]⟩

/-- **A registry as a host makes it is orderly.** -/
theorem Reachable.orderly {r : Registry} (h : Reachable r) : r.Orderly := by
  induction h with
  | empty => exact orderly_empty
  | register _ hp ih => exact ih.register hp
  | keep _ t ih => exact ih.keep t

section Orderly

variable {r : Registry} {name : String}

theorem Orderly.closed (h : r.Orderly) : r.Closed := fun name target htarget =>
  (h.targets name target htarget).2.1

theorem Orderly.aliases_eq_none (h : r.Orderly) (hname : ¬isTypeName name) :
    r.aliases.get? name = none :=
  Option.eq_none_iff_forall_not_mem.2 fun target htarget => hname (h.valid name target htarget)

/-- What a name stands for stands under its own name. -/
theorem Orderly.get?_own (h : r.Orderly) {t : ValueType} (hget : r.get? name = some t) :
    r.get? t.name = some t := by
  unfold get? at hget ⊢
  have hname := h.named _ t hget
  have hself : (r.aliases.get? t.name).getD t.name = t.name := by
    rw [hname]
    cases halias : r.aliases.get? name with
    | none => simp [halias]
    | some target => exact (h.targets name target halias).2.2
  rw [hself, hname, hget]

theorem Orderly.isMeant (h : r.Orderly) {t : ValueType} (hvalid : isTypeName name)
    (hget : r.get? name = some t) : r.IsMeant t := by
  have hvalid' : isTypeName t.name := by
    rw [h.named _ t hget]
    cases halias : r.aliases.get? name with
    | none => exact hvalid
    | some target => exact (h.targets name target halias).1
  exact ⟨hvalid', meaning_of_get? hvalid' (h.get?_own hget)⟩

end Orderly

/-- The registry `r` has come from `r₀` by steps that leave every meaning as it was. -/
structure Agrees (r₀ r : Registry) : Prop where
  orderly : r₀.Orderly
  aliases : r.aliases = r₀.aliases
  /-- What was there is there. -/
  types : ∀ name t, r₀.types.get? name = some t → r.types.get? name = some t
  /-- What is new has one of the forms, under its own name. -/
  shaped : ∀ name t, r.types.get? name = some t →
    r₀.types.get? name = some t ∨ t.name = name ∧ r₀.Shaped t

theorem Orderly.agrees {r : Registry} (h : r.Orderly) : Agrees r r :=
  ⟨h, rfl, fun _ _ ht => ht, fun _ _ ht => Or.inl ht⟩

/-- **A registry as a host makes it agrees with itself.** -/
theorem Reachable.agrees {r : Registry} (h : Reachable r) : Agrees r r := h.orderly.agrees

theorem Hosted.agrees {r : Registry} (h : Hosted r) : Agrees r r := h.reachable.agrees

/-! ## Steps that find what they would make -/

namespace Agrees

variable {r₀ r : Registry} {t : ValueType} {name : String}

theorem orderly_after (hr : Agrees r₀ r) : r.Orderly := by
  refine ⟨fun name t h => (hr.shaped name t h).elim (hr.orderly.named name t) And.left, ?_, ?_⟩
  all_goals rw [hr.aliases]
  · exact hr.orderly.valid
  · intro name target htarget
    obtain ⟨hvalid, hsome, hself⟩ := hr.orderly.targets name target htarget
    obtain ⟨found, hfound⟩ := Option.isSome_iff_exists.1 hsome
    exact ⟨hvalid, by simp [hr.types _ _ hfound], hself⟩

theorem sound (hr : Agrees r₀ r) : r.Sound fun _ => True :=
  ⟨hr.orderly_after.named, fun name target h => (hr.orderly_after.targets name target h).1,
    fun _ _ _ _ _ => trivial⟩

theorem get?_of_get? (hr : Agrees r₀ r) (h : r₀.get? name = some t) : r.get? name = some t := by
  unfold get? at h ⊢
  rw [hr.aliases]
  exact hr.types _ t h

theorem isMeant (hr : Agrees r₀ r) (hvalid : isTypeName name) (h : r.get? name = some t) :
    r₀.meaning name = some t ∧ r₀.IsMeant t := by
  cases hget : r₀.get? name with
  | some found =>
    rw [hr.get?_of_get? hget] at h
    obtain rfl := Option.some.inj h
    exact ⟨meaning_of_get? hvalid hget, hr.orderly.isMeant hvalid hget⟩
  | none =>
    -- no alias has the name, so what stands there is new
    have hnone := hr.orderly.closed.aliases_of_get? hget
    unfold get? at h hget
    rw [hr.aliases, hnone, Option.getD_none] at h
    rw [hnone, Option.getD_none] at hget
    rcases hr.shaped name t h with hold | ⟨rfl, hshaped⟩
    · rw [hget] at hold
      simp at hold
    · exact ⟨(hshaped.isMeant hvalid).own, hshaped.isMeant hvalid⟩

/-- **Keeping a type of one of the forms** gives what the first registry had under its name, or the
type itself, and leaves every meaning as it was. -/
theorem keep (hr : Agrees r₀ r) (ht : r₀.Shaped t) :
    ∃ r', r.keep t = ((r₀.types.get? t.name).getD t, r') ∧ Agrees r₀ r' := by
  cases hkept : r.types.get? t.name with
  | some kept =>
    refine ⟨r, ?_, hr⟩
    rw [keep_of_some hkept]
    cases hold : r₀.types.get? t.name with
    | some found =>
      rw [hr.types _ _ hold] at hkept
      rw [Option.some.inj hkept, Option.getD_some]
    | none =>
      rcases hr.shaped _ _ hkept with hfound | ⟨hname, hshaped⟩
      · rw [hold] at hfound
        simp at hfound
      · rw [hshaped.unique ht hname, Option.getD_none]
  | none =>
    have hold : r₀.types.get? t.name = none :=
      Option.eq_none_iff_forall_not_mem.2 fun found hfound => by
        rw [hr.types _ found hfound] at hkept
        simp at hkept
    refine ⟨{ r with types := r.types.insert t.name t }, ?_, hr.orderly, hr.aliases,
      fun name found h => ?_, fun name found h => ?_⟩
    · rw [keep_of_none hkept, hold, Option.getD_none]
    · rw [Dict.get?_insert, if_neg fun heq => by simp [heq, h] at hold]
      exact hr.types name found h
    · rw [Dict.get?_insert] at h
      split_ifs at h with hname
      · obtain rfl := Option.some.inj h
        exact Or.inr ⟨hname, ht⟩
      · exact hr.shaped name found h

theorem findOrKeep (hr : Agrees r₀ r) (ht : r₀.Shaped t) (hname : ¬isTypeName t.name) :
    ∃ r', Registry.findOrKeep t r = .ok ((r₀.types.get? t.name).getD t) r' ∧ Agrees r₀ r' := by
  obtain ⟨r', hkept, hr'⟩ := hr.keep ht
  have hget : r.get? t.name = r.types.get? t.name := by
    unfold get?
    rw [hr.aliases, hr.orderly.aliases_eq_none hname, Option.getD_none]
  cases hfound : r.types.get? t.name with
  | some found =>
    rw [keep_of_some hfound] at hkept
    obtain ⟨rfl, rfl⟩ := Prod.mk.inj hkept
    exact ⟨r, findOrKeep_ok_iff.2 (Or.inl ⟨hget.trans hfound, rfl⟩), hr⟩
  | none =>
    refine ⟨r', findOrKeep_ok_iff.2 (Or.inr ⟨hget.trans hfound, ?_⟩), hr'⟩
    unfold keeping
    rw [hkept]

/-- **Deriving a type comes to what the chain means**, whatever is kept already. -/
theorem derive (hr : Agrees r₀ r) {segments : List (List Char)}
    (hsegments : nameSegments segments.flatten = segments)
    (hvalid : segments ≠ [] → isTypeName (String.ofList segments.flatten)) :
    r.derive segments = none ∧ r₀.means segments = none ∨
      ∃ t r', r.derive segments = some (t, r') ∧ r₀.means segments = some t ∧ r₀.IsMeant t ∧
        Agrees r₀ r' := by
  induction segments with
  | nil => exact Or.inl ⟨rfl, rfl⟩
  | cons segment rest ih =>
    have hvalid' := hvalid (List.cons_ne_nil _ _)
    have hchain := meaning_flatten (r := r₀) hsegments
    rw [List.flatten_cons] at hvalid' hchain
    rw [← hchain, Registry.derive]
    generalize hname : String.ofList (segment ++ rest.flatten) = name at *
    cases hget : r.get? name with
    | some found =>
      obtain ⟨hmeans, hmeant⟩ := hr.isMeant hvalid' hget
      exact Or.inr ⟨found, r, rfl, hmeans, hmeant, hr⟩
    | none =>
      have hget₀ : r₀.get? name = none :=
        Option.eq_none_iff_forall_not_mem.2 fun found hfound => by
          rw [hr.get?_of_get? hfound] at hget
          simp at hget
      have hmeans : r₀.meaning name = (r₀.means rest).map (.derived name (String.ofList segment)) := by
        rw [hchain, Registry.means]
        simp only [hname, hget₀]
      have htail := isTypeName_tail hsegments (by rwa [List.flatten_cons, hname])
      rcases ih (nameSegments_tail hsegments).1 htail with
        ⟨hnone, hnone'⟩ | ⟨base, r₁, hbase, hbase', -, hr₁⟩
      · exact Or.inl ⟨by rw [hnone]; rfl, by rw [hmeans, hnone']; rfl⟩
      · rw [hbase', Option.map_some] at hmeans
        have hderived : r₀.IsMeant (.derived name (String.ofList segment) base) := ⟨hvalid', hmeans⟩
        obtain ⟨r', hkept, hr'⟩ := hr₁.keep (.named hderived)
        have hfree : r₀.types.get? name = none := by
          unfold get? at hget₀
          rwa [hr.orderly.closed.aliases_of_get? hget₀, Option.getD_none] at hget₀
        rw [ValueType.name, hfree, Option.getD_none] at hkept
        exact Or.inr ⟨_, r', by simp only [hbase, Option.map_some, hkept], hmeans, hderived, hr'⟩

/-- **Resolving the name of a type comes to what it means.** -/
theorem resolve (hr : Agrees r₀ r) (hvalid : isTypeName name) :
    Registry.resolve name r = .error (.unknown name) r ∧ r₀.meaning name = none ∨
      ∃ t r', Registry.resolve name r = .ok t r' ∧ r₀.meaning name = some t ∧ r₀.IsMeant t ∧
        Agrees r₀ r' := by
  unfold Registry.resolve
  cases hget : r.get? name with
  | some found =>
    obtain ⟨hmeans, hmeant⟩ := hr.isMeant hvalid hget
    exact Or.inr ⟨found, r, rfl, hmeans, hmeant, hr⟩
  | none =>
    have hflatten := flatten_nameSegments name.toList
    simp only [if_pos hvalid]
    rcases hr.derive (by rw [hflatten]) (fun _ => by rwa [hflatten, String.ofList_toList]) with
      ⟨hnone, hmeans⟩ | ⟨t, r', hderived, hmeans, hmeant, hr'⟩
    · exact Or.inl ⟨by rw [hnone], hmeans⟩
    · exact Or.inr ⟨t, r', by rw [hderived], hmeans, hmeant, hr'⟩

end Agrees

end Registry

end Synopsis
