import Synopsis.Proofs.Calls
import Synopsis.Proofs.Denotations
import Synopsis.Proofs.Refinements

/-!
# What is asked for is received

All that a registry synthesizes stands in one dictionary, under a name that is written from the
request: a union is named after its members, a choice after its words, and a word is its own name.
A request is answered with what stands under its name.

**Theorem (`Registry.received_of_plain`).** That is what was asked for, whatever was called before,
if all words that are ever asked for are plain: they have no marks of alternatives, and are not
names of types.

**Names tell the forms apart.** The types that a registry then holds refine a primitive that is
registered, or are plain words, or choices of some (`Registry.Admits`). The first are named as types
are or after such types, so no name of theirs is a plain word, and no part of one is. And the parts
of alternatives can be told from how they are written.

**Names tell members apart.** A type that is held is the only one of its name that is
(`Registry.Holds`), so unions with the same names of members have the same members.
-/

namespace Synopsis

/-! ## Plain words -/

/-- The word has no marks and is not the name of a type. -/
def IsPlainWord (text : String) : Prop := (∀ c ∈ text.toList, ¬IsMark c) ∧ ¬isTypeName text

instance (text : String) : Decidable (IsPlainWord text) :=
  have : Decidable (∀ c ∈ text.toList, ¬IsMark c) := List.decidableBAll _ _
  inferInstanceAs (Decidable (_ ∧ ¬isTypeName text))

theorem not_isPlainWord_alternatives (parts : List String) :
    ¬IsPlainWord (writeAlternatives parts) := fun h =>
  h.1 '(' (open_mem_writeAlternatives parts) (Or.inl rfl)

theorem IsPlainWord.isBracketed {text : String} (h : IsPlainWord text) : IsBracketed text :=
  isBracketed_of_unmarked h.1

theorem ValueType.Refines.not_isPlainWord {p : Primitive} {t : ValueType} (h : t.Refines p) :
    ¬IsPlainWord t.name := by
  rcases h.named with hname | ⟨members, rfl⟩
  · exact fun hplain => hplain.2 hname
  · exact not_isPlainWord_alternatives _

/-- A union of refinements is not named as a choice of plain words is. -/
theorem name_union_ne_name_choice {p : Primitive} {members : List ValueType} {words : List String}
    (hne : members ≠ []) (hmembers : ∀ s ∈ members, s.Refines p) (hne' : words ≠ [])
    (hwords : ∀ word ∈ words, IsPlainWord word) :
    (ValueType.union members).name ≠ (ValueType.choice words).name := by
  intro heq
  rw [ValueType.name, ValueType.name, Registry.names_eq_map] at heq
  have hnames : members.map ValueType.name = words :=
    writeAlternatives_injective_of_bracketed (by simpa using hne) hne'
      (List.forall_mem_map.2 fun s hs => (hmembers s hs).isBracketed)
      (fun word hword => (hwords word hword).isBracketed) heq
  obtain ⟨s, hs⟩ := List.exists_mem_of_ne_nil members hne
  have hword : s.name ∈ words := hnames ▸ List.mem_map_of_mem hs
  exact (hmembers s hs).not_isPlainWord (hwords _ hword)

namespace Registry

/-! ## What a registry holds -/

/-- The type refines a primitive that is registered, or is a word of the kind `Q`, or a choice of
such words. -/
inductive Admits (r : Registry) (Q : String → Prop) : ValueType → Prop
  | refining {p : Primitive} {t : ValueType} (hp : r.get? p.name = some (.primitive p))
      (h : t.Refines p) : Admits r Q t
  | word {text : String} (h : Q text) : Admits r Q (.word text)
  | choice {words : List String} (hne : words ≠ []) (h : ∀ word ∈ words, Q word) :
      Admits r Q (.choice words)

/-- The registry is whole and its types are of these forms, for words that are plain. -/
structure Regular (r : Registry) (Q : String → Prop) : Prop where
  plain : ∀ text, Q text → IsPlainWord text
  whole : r.Whole
  admits : ∀ name t, r.types.get? name = some t → r.Admits Q t

section Regular

variable {Q : String → Prop} {r r' : Registry} {t : ValueType} {p : Primitive}
  {members : List ValueType} {words : List String} {name text : String}

theorem Admits.later (h : r.Admits Q t) (hlater : Later r r') : r'.Admits Q t := by
  cases h with
  | refining hp h => exact .refining (hlater.get? _ _ hp) h
  | word h => exact .word h
  | choice hne h => exact .choice hne h

theorem fst_keep (h : ∀ found, r.types.get? t.name = some found → found = t) :
    (r.keep t).1 = t := by
  cases hkept : r.types.get? t.name with
  | some kept =>
    rw [keep_of_some hkept]
    exact h kept hkept
  | none => rw [keep_of_none hkept]

namespace Regular

theorem admits_of_holds (h : r.Regular Q) (ht : r.Holds t) : r.Admits Q t :=
  h.admits t.name t (ht t (.self t))

/-- A type that refines no primitive ends in itself, under a name that no primitive has. -/
theorem refines_or_canonicalName_eq (h : r.Regular Q) (ht : r.Admits Q t) :
    (∃ p, r.get? p.name = some (.primitive p) ∧ t.Refines p) ∨
      t.canonicalName = t.name ∧ ¬isTypeName t.name := by
  cases ht with
  | refining hp h => exact Or.inl ⟨_, hp, h⟩
  | word hword => exact Or.inr ⟨rfl, (h.plain _ hword).2⟩
  | choice => exact Or.inr ⟨rfl, not_isTypeName_alternatives _⟩

theorem refines_of_isTypeName (h : r.Regular Q) (ht : r.Admits Q t) (hname : isTypeName t.name) :
    ∃ p, r.get? p.name = some (.primitive p) ∧ t.Refines p :=
  (h.refines_or_canonicalName_eq ht).resolve_right fun hother => hother.2 hname

theorem of_alternatives (h : r.Regular Q) (ht : r.Admits Q t) {parts : List String}
    (hname : t.name = writeAlternatives parts) :
    (∃ p members, t = .union members ∧ members ≠ [] ∧ ∀ s ∈ members, s.Refines p) ∨
      ∃ words, t = .choice words ∧ words ≠ [] ∧ ∀ word ∈ words, Q word := by
  cases ht with
  | refining hp hrefines =>
    rcases hrefines.named with hvalid | ⟨members, rfl⟩
    · exact absurd (hname ▸ hvalid) (not_isTypeName_alternatives parts)
    · cases hrefines with
      | union hne hmembers => exact Or.inl ⟨_, members, rfl, hne, hmembers⟩
  | word hword =>
    exact absurd (hname ▸ h.plain _ hword) (not_isPlainWord_alternatives parts)
  | choice hne hwords => exact Or.inr ⟨_, rfl, hne, hwords⟩

/-! ## What stands under a name -/

/-- Types that are held are told by their names. -/
theorem eq_of_names {members' : List ValueType} (h : ∀ s ∈ members, r.Holds s)
    (h' : ∀ s ∈ members', r.Holds s)
    (hnames : members.map ValueType.name = members'.map ValueType.name) : members = members' := by
  have hlookup {types : List ValueType} (htypes : ∀ s ∈ types, r.Holds s) :
      (types.map ValueType.name).map r.types.get? = types.map some := by
    rw [List.map_map]
    exact List.map_congr_left fun s hs => htypes s hs s (.self s)
  have hsome : members.map some = members'.map some := by
    rw [← hlookup h, ← hlookup h', hnames]
  exact List.map_injective_iff.2 (Option.some_injective _) hsome

/-- **Under the name of a union stands the union**, if its members are held. -/
theorem eq_union (h : r.Regular Q) (hne : members ≠ [])
    (hmembers : ∀ s ∈ members, r.Holds s ∧ s.Refines p)
    (hfound : r.types.get? (ValueType.union members).name = some t) : t = .union members := by
  have hname := h.whole.orderly.named _ t hfound
  rcases h.of_alternatives (h.admits _ t hfound) hname with
    ⟨q, members', rfl, hne', hrefines⟩ | ⟨words, rfl, hne', hwords⟩
  · have hheld (s : ValueType) (hs : s ∈ members') : r.Holds s := fun s' hs' =>
      h.whole.holds _ _ hfound s' (.member hs hs')
    rw [ValueType.name, ValueType.name, names_eq_map, names_eq_map] at hname
    have hnames := writeAlternatives_injective_of_bracketed (by simpa using hne')
      (by simpa using hne) (List.forall_mem_map.2 fun s hs => (hrefines s hs).isBracketed)
      (List.forall_mem_map.2 fun s hs => (hmembers s hs).2.isBracketed) hname
    rw [eq_of_names hheld (fun s hs => (hmembers s hs).1) hnames]
  · exact absurd hname.symm (name_union_ne_name_choice hne (fun s hs => (hmembers s hs).2) hne'
      fun word hword => h.plain _ (hwords word hword))

/-- **Under the name of a choice stands the choice**, if its words are plain. -/
theorem eq_choice (h : r.Regular Q) (hne : words ≠ []) (hwords : ∀ word ∈ words, IsPlainWord word)
    (hfound : r.types.get? (ValueType.choice words).name = some t) : t = .choice words := by
  have hname := h.whole.orderly.named _ t hfound
  rcases h.of_alternatives (h.admits _ t hfound) hname with
    ⟨q, members, rfl, hne', hrefines⟩ | ⟨words', rfl, hne', hwords'⟩
  · exact absurd hname (name_union_ne_name_choice hne' hrefines hne hwords)
  · rw [writeAlternatives_injective_of_bracketed hne' hne
      (fun word hword => (h.plain _ (hwords' word hword)).isBracketed)
      (fun word hword => (hwords word hword).isBracketed) hname]

/-- **Under a plain word stands the word.** -/
theorem eq_word (h : r.Regular Q) (htext : IsPlainWord text)
    (hfound : r.types.get? text = some t) : t = .word text := by
  have hname := h.whole.orderly.named _ t hfound
  cases h.admits _ t hfound with
  | refining _ hrefines => exact absurd (hname ▸ htext) hrefines.not_isPlainWord
  | word => exact congrArg ValueType.word hname
  | choice => exact absurd (hname ▸ htext) (not_isPlainWord_alternatives _)

/-! ## Steps -/

theorem keep (h : r.Regular Q) (hparts : ∀ s : ValueType, s.Part t → s = t ∨ r.Holds s)
    (ht : r.Admits Q t) : (r.keep t).2.Regular Q := by
  refine ⟨h.plain, (h.whole.keep hparts).1, fun name found hfound => ?_⟩
  have hlater := (grows_keep r t).later
  cases hkept : r.types.get? t.name with
  | some kept =>
    rw [keep_of_some hkept] at hfound ⊢
    exact h.admits name found hfound
  | none =>
    rw [keep_of_none hkept] at hfound hlater ⊢
    replace hfound : (r.types.insert t.name t).get? name = some found := hfound
    rw [Dict.get?_insert] at hfound
    split_ifs at hfound
    · exact (Option.some.inj hfound ▸ ht).later hlater
    · exact (h.admits name found hfound).later hlater

theorem register (h : r.Regular Q) (hp : r.register p = .ok r') : r'.Regular Q := by
  have hlater := later_of_register hp
  have hvalid := (names_of_register hp p.name (by simp)).1
  have hself : r'.get? p.name = some (.primitive p) :=
    (get?_of_register h.whole.orderly.closed hp).2 (Or.inr ⟨rfl, List.mem_cons_self⟩)
  refine ⟨h.plain, (h.whole.register hp).1, fun name t ht => ?_⟩
  rw [eq_add_of_register hp, get?_types_add] at ht
  split_ifs at ht
  · obtain rfl := Option.some.inj ht
    exact .refining hself (.primitive hvalid)
  · exact (h.admits name t ht).later hlater

theorem of_resolve (h : r.Regular Q) (hname : isTypeName name)
    (hrun : Registry.resolve name r = .ok t r') :
    r'.Regular Q ∧ r'.Holds t ∧ isTypeName t.name := by
  refine @resolve_induction r r' name t
    (fun t r' => r'.Regular Q ∧ r'.Holds t ∧ isTypeName t.name) ?_ ?_ hname hrun
  · intro name t hname hget
    exact ⟨h, h.whole.holds_of_get? hget, (h.whole.orderly.isMeant hname hget).valid⟩
  · intro name lead base r₁ hname ⟨h₁, hbase, hvalid⟩
    obtain ⟨p, hp, hrefines⟩ := h₁.refines_of_isTypeName (h₁.admits_of_holds hbase) hvalid
    have hparts (s : ValueType) (hs : s.Part (.derived name lead base)) :
        s = .derived name lead base ∨ r₁.Holds s := hbase.parts_derived hs
    have hregular := h₁.keep hparts (.refining hp (.derived hname hrefines))
    refine ⟨hregular, (h₁.whole.keep hparts).2, ?_⟩
    rw [hregular.whole.orderly.named _ _ (types_keep r₁ (.derived name lead base))]
    exact hname

theorem resolve (h : r.Regular Q) (name : String) :
    (stateAfter (Registry.resolve name r)).Regular Q := by
  by_cases hname : isTypeName name
  · rcases h.whole.orderly.agrees.resolve hname with ⟨hrun, -⟩ | ⟨t, r', hrun, -, -, -⟩
    · rwa [hrun]
    · rw [hrun]
      exact (h.of_resolve hname hrun).1
  · rwa [stateAfter_resolve hname]

theorem resolveAll (h : r.Regular Q) (names : List String) :
    (stateAfter (names.mapM Registry.resolve r)).Regular Q := by
  induction names generalizing r with
  | nil => exact h
  | cons name names ih =>
    rw [List.mapM_cons]
    refine stateAfter_bind_of (motive := fun r : Registry => r.Regular Q) (h.resolve name)
      fun t r₁ _ h₁ => ?_
    exact stateAfter_bind_of (motive := fun r : Registry => r.Regular Q) (ih h₁)
      fun ts r₂ _ h₂ => h₂

/-- **Members that unite refine one primitive.** A type that refines none ends in itself, and so in
nothing that a type of another name ends in. -/
theorem refines_of_unites (h : r.Regular Q) (hunites : ValueType.Unites members)
    (hheld : ∀ s ∈ members, r.Holds s) :
    ∃ p, r.get? p.name = some (.primitive p) ∧ ∀ s ∈ members, s.Refines p := by
  obtain ⟨name, hcanonical⟩ := hunites.canonical
  have hforms (s : ValueType) (hs : s ∈ members) :=
    h.refines_or_canonicalName_eq (h.admits_of_holds (hheld s hs))
  by_cases hvalid : isTypeName name
  · have hrefines (s : ValueType) (hs : s ∈ members) :
        ∃ p, r.get? p.name = some (.primitive p) ∧ s.Refines p :=
      (hforms s hs).resolve_right fun ⟨hself, hother⟩ =>
        hother (by rwa [← hself, hcanonical s hs])
    obtain ⟨s, hs⟩ := List.exists_mem_of_ne_nil members hunites.ne_nil
    obtain ⟨p, hp, hsp⟩ := hrefines s hs
    refine ⟨p, hp, fun s' hs' => ?_⟩
    obtain ⟨p', hp', hsp'⟩ := hrefines s' hs'
    have hname : p'.name = p.name := by
      rw [← hsp'.canonicalName_eq, ← hsp.canonicalName_eq, hcanonical s hs, hcanonical s' hs']
    rw [hname, hp] at hp'
    obtain rfl : p = p' := by simpa using hp'
    exact hsp'
  · have hnames (s : ValueType) (hs : s ∈ members) : s.name = name := by
      rcases hforms s hs with ⟨p, -, hsp⟩ | ⟨hself, -⟩
      · have hname : p.name = name := hsp.canonicalName_eq.symm.trans (hcanonical s hs)
        exact absurd (hname ▸ hsp.isTypeName_name) hvalid
      · exact hself.symm.trans (hcanonical s hs)
    exact absurd hnames (hunites.not_all_named name)

/-- **Members that unite come to their union**, whether it is found or kept. -/
theorem findOrKeep_union (h : r.Regular Q) (hunites : ValueType.Unites members)
    (hheld : ∀ s ∈ members, r.Holds s) :
    ∃ r', findOrKeep (.union members) r = .ok (.union members) r' ∧ r'.Regular Q := by
  obtain ⟨p, hp, hrefines⟩ := h.refines_of_unites hunites hheld
  have hget := h.whole.orderly.get?_eq
    (not_isTypeName_alternatives (ValueType.names members))
  cases hfound : r.types.get? (ValueType.union members).name with
  | some found =>
    obtain rfl := h.eq_union hunites.ne_nil (fun s hs => ⟨hheld s hs, hrefines s hs⟩) hfound
    exact ⟨r, findOrKeep_ok_iff.2 (Or.inl ⟨hget.trans hfound, rfl⟩), h⟩
  | none =>
    refine ⟨_, findOrKeep_ok_iff.2 (Or.inr ⟨hget.trans hfound, ?_⟩),
      h.keep (fun s hs => Holds.parts_union hheld hs)
        (.refining hp (.union hunites.ne_nil hrefines))⟩
    unfold keeping
    rw [keep_of_none hfound]

/-- What types come to as members does not depend on what else the registry holds. -/
theorem unite (h : r.Regular Q) {resolved : List ValueType} (hheld : ∀ s ∈ resolved, r.Holds s) :
    (stateAfter (Registry.unite resolved r)).Regular Q ∧
      outcome (Registry.unite resolved r) =
        match rejection? (membersOf resolved) with
        | some e => .error e
        | none => .ok (.union (membersOf resolved)) := by
  rw [unite_eq]
  cases hrejected : rejection? (membersOf resolved) with
  | some e => exact ⟨h, rfl⟩
  | none =>
    have hunites := (rejection?_eq_none_iff resolved).1 hrejected
    obtain ⟨r', hrun, h'⟩ := h.findOrKeep_union hunites
      fun s hs => hheld s (mem_of_mem_membersOf hs)
    simp only [hrun]
    exact ⟨h', rfl⟩

theorem union (h : r.Regular Q) (names : List String) :
    (stateAfter (Registry.union names r)).Regular Q := by
  rw [union_eq]
  exact stateAfter_bind_of (motive := fun r : Registry => r.Regular Q) (h.resolveAll names)
    fun ts r₁ hts h₁ => (h₁.unite (h.whole.holds_of_resolveAll hts)).1

/-- **A union is what its names are resolved to**, one by one. -/
theorem outcome_union (h : r.Regular Q) {names : List String} {resolved : List ValueType}
    (hresolved : List.Forall₂ r.Resolves names resolved) :
    (∀ s ∈ resolved, ∀ s' ∈ resolved, s.name = s'.name → s = s') ∧
      outcome (Registry.union names r) =
        match rejection? (membersOf resolved) with
        | some e => .error e
        | none => .ok (.union (membersOf resolved)) := by
  obtain ⟨r', hrun⟩ := h.whole.orderly.resolved.resolveAll_iff.2 hresolved
  have hheld := h.whole.holds_of_resolveAll hrun
  have h' := h.resolveAll names
  rw [hrun] at h'
  refine ⟨fun s hs s' hs' => (hheld s hs).eq (hheld s' hs') (.self s) (.self s'), ?_⟩
  rw [union_eq]
  show outcome (EStateM.bind (names.mapM Registry.resolve) Registry.unite r) = _
  unfold EStateM.bind
  rw [hrun]
  exact (h'.unite hheld).2

theorem members_of_union (h : r.Regular Q) {names : List String}
    (hunion : Registry.union names r = .ok t r') :
    ∃ members, t = .union members ∧ ∀ s, s ∈ members ↔ r.Denotes names s := by
  have hrun := hunion
  rw [union_eq, keeping_bind_ok_iff] at hrun
  obtain ⟨resolved, r₁, hrun, -⟩ := hrun
  have hresolved := h.whole.orderly.resolved.resolveAll_iff.1 ⟨r₁, hrun⟩
  obtain ⟨hnames, houtcome⟩ := h.outcome_union hresolved
  rw [hunion] at houtcome
  cases hrejected : rejection? (membersOf resolved) with
  | some e => simp [hrejected, outcome] at houtcome
  | none =>
    rw [hrejected] at houtcome
    refine ⟨membersOf resolved, Except.ok.inj houtcome, fun s => ?_⟩
    rw [mem_membersOf hnames, mem_iff_denotes hresolved]

theorem fst_choice (h : r.Regular Q) (hne : words ≠ []) (hwords : ∀ word ∈ words, IsPlainWord word) :
    (Registry.choice words r).1 = .choice words :=
  fst_keep fun _ hfound => h.eq_choice hne hwords hfound

theorem fst_word (h : r.Regular Q) (htext : IsPlainWord text) :
    (Registry.word text r).1 = .word text :=
  fst_keep fun _ hfound => h.eq_word htext hfound

end Regular

/-! ## Calls -/

/-- The words that the call asks for are of the kind `Q`; a choice is between one at least. -/
def Call.AsksIn (Q : String → Prop) : Call → Prop
  | .choice words => words ≠ [] ∧ ∀ word ∈ words, Q word
  | .word text => Q text
  | _ => True

instance (Q : String → Prop) [DecidablePred Q] (call : Call) : Decidable (call.AsksIn Q) :=
  match call with
  | .choice words => inferInstanceAs (Decidable (words ≠ [] ∧ ∀ word ∈ words, Q word))
  | .word text => inferInstanceAs (Decidable (Q text))
  | .register _ | .resolve _ | .union _ | .canonicalName _ => isTrue trivial

theorem Reply.snd_ofRun {α : Type} (reply : α → Reply) (run : EStateM.Result TypeError Registry α) :
    (Reply.ofRun reply run).2 = stateAfter run := by
  cases run <;> rfl

theorem regular_empty (hQ : ∀ text, Q text → IsPlainWord text) : empty.Regular Q :=
  ⟨hQ, whole_empty, by simp [Registry.empty]⟩

/-- **A call for words of the kind, or for no words, leaves a registry regular.** -/
theorem Regular.answer (h : r.Regular Q) {call : Call} (hcall : call.AsksIn Q) :
    (r.answer call).2.Regular Q := by
  cases call with
  | register p =>
    cases hp : r.register p with
    | ok r' =>
      rw [answer_of_registered hp]
      exact h.register hp
    | error e =>
      rw [answer_of_refused hp]
      exact h
  | resolve name =>
    rw [Registry.answer, Reply.snd_ofRun]
    exact h.resolve name
  | union names =>
    rw [Registry.answer, Reply.snd_ofRun]
    exact h.union names
  | choice words =>
    refine h.keep (fun s hs => ?_) (.choice hcall.1 hcall.2)
    cases hs
    exact Or.inl rfl
  | word text =>
    refine h.keep (fun s hs => ?_) (.word hcall)
    cases hs
    exact Or.inl rfl
  | canonicalName name =>
    rw [Registry.answer, Reply.snd_ofRun]
    exact stateAfter_bind_of (motive := fun r : Registry => r.Regular Q) (h.resolve name)
      fun t r' _ h' => h'

theorem Regular.after (h : r.Regular Q) {calls : List Call}
    (hcalls : ∀ call ∈ calls, call.AsksIn Q) : (r.after calls).Regular Q := by
  induction calls generalizing r with
  | nil => exact h
  | cons call calls ih =>
    rw [List.forall_mem_cons] at hcalls
    exact ih (h.answer hcalls.1) hcalls.2

end Regular

/-- **What is asked for is received**, whatever was called before: as long as all words asked for are
plain, a choice lists its words and reads each of them as itself and nothing else, so does a word,
the members of a union are what its names are resolved to, and the name of a type is resolved to
none of these three. -/
theorem received_of_plain {calls : List Call} (hcalls : ∀ call ∈ calls, call.AsksIn IsPlainWord) :
    (∀ words, words ≠ [] → (∀ word ∈ words, IsPlainWord word) →
      (choice words (empty.after calls)).1.choices? = some words ∧
        ∀ text, (choice words (empty.after calls)).1.read? text =
          if text ∈ words then some (.text text) else none) ∧
    (∀ word, IsPlainWord word →
      (Registry.word word (empty.after calls)).1.choices? = some [word] ∧
        ∀ text, (Registry.word word (empty.after calls)).1.read? text =
          if text = word then some (.text text) else none) ∧
    (∀ names t r', union names (empty.after calls) = .ok t r' →
      ∃ members, t.members? = some members ∧
        ∀ s, s ∈ members ↔ (empty.after calls).Denotes names s) ∧
    ∀ name t, isTypeName name → (empty.after calls).Resolves name t →
      t.choices? = none ∧ t.members? = none := by
  have hregular : (empty.after calls).Regular IsPlainWord :=
    (regular_empty fun _ htext => htext).after hcalls
  refine ⟨fun words hne hwords => ?_, fun word hword => ?_, fun names t r' hunion => ?_,
    fun name t hname ht => ?_⟩
  · rw [hregular.fst_choice hne hwords]
    exact ⟨rfl, fun text => rfl⟩
  · rw [hregular.fst_word hword]
    exact ⟨rfl, fun text => rfl⟩
  · obtain ⟨members, rfl, hmembers⟩ := hregular.members_of_union hunion
    exact ⟨members, rfl, hmembers⟩
  · obtain ⟨r', hrun⟩ := ht
    obtain ⟨hregular', hheld, hvalid⟩ := hregular.of_resolve hname hrun
    obtain ⟨p, -, hrefines⟩ :=
      hregular'.refines_of_isTypeName (hregular'.admits_of_holds hheld) hvalid
    cases hrefines with
    | primitive => exact ⟨rfl, rfl⟩
    | derived => exact ⟨rfl, rfl⟩
    | union => exact absurd hvalid (not_isTypeName_alternatives _)

/-- A choice and a union after calls for words, and for types that the union is made of. -/
theorem received_afterOthers :
    ∃ calls : List Call, calls =
      [.register .int, .word "fast", .resolve "BigInt", .choice ["fast"], .union ["Int", "BigInt"]] ∧
      (∀ call ∈ calls, call.AsksIn IsPlainWord) ∧
      (choice ["fast", "slow"] (empty.after calls)).1.read? "slow" = some (.text "slow") ∧
      ∃ t r' members, union ["OldInt", "Integer"] (empty.after calls) = .ok t r' ∧
        t.members? = some members ∧
        ∀ s, s ∈ members ↔ (empty.after calls).Denotes ["OldInt", "Integer"] s := by
  have hcalls : ∀ call ∈ ([.register .int, .word "fast", .resolve "BigInt", .choice ["fast"],
      .union ["Int", "BigInt"]] : List Call), call.AsksIn IsPlainWord := by
    decide +kernel
  obtain ⟨hchoice, -, hunion, -⟩ := received_of_plain hcalls
  refine ⟨_, rfl, hcalls, ?_, ?_⟩
  · rw [(hchoice ["fast", "slow"] (by decide) (by decide +kernel)).2, if_pos (by decide)]
  · obtain ⟨t, r', hrun, -⟩ := exists_of_succeedsWith (union ["OldInt", "Integer"]
      (empty.after [.register .int, .word "fast", .resolve "BigInt", .choice ["fast"],
        .union ["Int", "BigInt"]])) (fun _ _ => true) (by decide +kernel)
    obtain ⟨members, hmembers, hmem⟩ := hunion _ t r' hrun
    exact ⟨t, r', members, hrun, hmembers, hmem⟩

/-- A word that is written like a choice is received in its place. -/
theorem received_wordForChoice :
    (choice ["a", "b"] (empty.after [.word "(a|b)"])).1.choices? = some ["(a|b)"] ∧
      (choice ["a", "b"] (empty.after [.word "(a|b)"])).1.read? "a" = none := by
  have hword : (choice ["a", "b"] (empty.after [.word "(a|b)"])).1 = .word "(a|b)" := by
    cbv
  rw [hword]
  exact ⟨rfl, rfl⟩

end Registry

end Synopsis
