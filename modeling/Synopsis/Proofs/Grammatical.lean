import Synopsis.Proofs.Descriptions
import Synopsis.Proofs.Histories
import Synopsis.Proofs.Syntax

/-!
# The terms that are read

**Theorem (`Outline.grammatical_of_read`).** Whatever text is read on a registry in use, its terms
are positional syntax (`Term.Grammatical`): a layout can be made of them, and every segment adds a
parameter to it.

Most of this is a matter of the reader alone. The type of a union is not: the registry may have
had one under its name already. So the registry is followed from the start, through what the host
registers and what the compiled texts leave, also those that fail: all it has are types of a few
forms (`Registry.Tidy`), and under the name of a union stands nothing but a union
(`ValueType.Formed.of_name_union`).
-/

namespace Synopsis

/-! ## The forms of types -/

namespace ValueType

/-- A type of one of the forms that a registry keeps. -/
inductive Formed : ValueType → Prop
  | named {t : ValueType} (h : isTypeName t.name) : Formed t
  | word {text : String} (h : IsWord text) : Formed (.word text)
  | choice {words : List String} (hne : words ≠ []) (h : ∀ word ∈ words, IsWord word) :
      Formed (.choice words)
  | union {members : List ValueType} (h : Unites members) : Formed (.union members)

/-- What stands under the name of a union is one, and its members unite. -/
theorem Formed.of_name_union {t : ValueType} (h : t.Formed) {members : List ValueType}
    (hne : members ≠ []) (hvalid : ∀ t ∈ members, isTypeName t.name)
    (hname : t.name = (ValueType.union members).name) :
    ∃ members', t = .union members' ∧ Unites members' := by
  cases h with
  | named h => exact absurd (hname ▸ h) (Registry.not_isTypeName_alternatives _)
  | word h => exact absurd hname (Registry.ne_alternatives_of_isWord h _)
  | choice hne' h =>
    exact absurd hname (Registry.name_choice_ne_name_union hne' h hne hvalid)
  | union h => exact ⟨_, rfl, h⟩

end ValueType

theorem Registry.Shaped.formed {r : Registry} {t : ValueType} (h : r.Shaped t) : t.Formed := by
  cases h with
  | named h => exact .named h.valid
  | word h => exact .word h
  | choice hne h => exact .choice hne h
  | union hunites h => exact .union hunites

/-! ## Registries in use -/

namespace Registry

/-- A registry in use: a host registers primitives in it and resolves names, and texts are compiled
on it, of which any may fail. -/
inductive InUse : Registry → Prop
  | empty : InUse empty
  | register {r r' : Registry} {p : Primitive} (h : InUse r) (hp : r.register p = .ok r') : InUse r'
  | resolve {r : Registry} (h : InUse r) (name : String) :
      InUse (stateAfter (Registry.resolve name r))
  | compile {r : Registry} (h : InUse r) (text : String) : InUse (stateAfter (Usage.compile text r))

theorem Hosted.inUse {r : Registry} (h : Hosted r) : InUse r := by
  induction h with
  | empty => exact .empty
  | register _ hp ih => exact ih.register hp

/-- A registry whose types are of the forms that are kept. -/
structure Tidy (r : Registry) : Prop where
  orderly : r.Orderly
  formed : ∀ name t, r.types.get? name = some t → t.Formed

theorem Tidy.register {r r' : Registry} {p : Primitive} (h : r.Tidy) (hp : r.register p = .ok r') :
    r'.Tidy := by
  refine ⟨h.orderly.register hp, fun name t ht => ?_⟩
  rw [eq_add_of_register hp] at ht
  change (r.types.insert p.name (.primitive p)).get? name = some t at ht
  rw [Dict.get?_insert] at ht
  split_ifs at ht
  · obtain rfl := Option.some.inj ht
    exact .named (names_of_register hp p.name (by simp)).1
  · exact h.formed name t ht

theorem Agrees.tidy {r₀ r : Registry} (hr : Agrees r₀ r) (h : r₀.Tidy) : r.Tidy :=
  ⟨hr.orderly_after, fun name t ht =>
    (hr.shaped name t ht).elim (h.formed name t) fun hnew => hnew.2.formed⟩

/-- **A registry in use is tidy.** -/
theorem InUse.tidy {r : Registry} (h : InUse r) : r.Tidy := by
  induction h with
  | empty => exact ⟨orderly_empty, by simp [Registry.empty]⟩
  | register _ hp ih => exact ih.register hp
  | @resolve r _ name ih =>
    have hagrees := ih.orderly.agrees
    by_cases hvalid : isTypeName name
    · exact (alike_resolve hvalid r r ⟨hagrees, hagrees⟩).related.1.tidy ih
    · rwa [stateAfter_resolve hvalid]
  | @compile r _ text ih =>
    have hagrees := ih.orderly.agrees
    exact (Usage.alike_compile r r ⟨hagrees, hagrees⟩).related.1.tidy ih

/-- **What a union comes to on a tidy registry is a union**, also where it is found there. -/
theorem Tidy.unites_of_union {r r' : Registry} (hr : r.Tidy) {names : List String}
    (hvalid : ∀ name ∈ names, isTypeName name) {t : ValueType} (h : union names r = .ok t r') :
    ∃ members, t = .union members ∧ ValueType.Unites members := by
  have hagrees := hr.orderly.agrees
  rw [union_eq, keeping_bind_ok_iff] at h
  obtain ⟨resolved, r₁, hresolved, hunite⟩ := h
  have hagrees₁ : Agrees r r₁ := agrees_of_alike
    (alike_mapM fun name hname => alike_resolve (hvalid name hname)) hagrees hresolved
  have hmeant := isMeant_of_mapM_resolve hvalid hagrees hresolved
  obtain ⟨hunites, hfind⟩ := unites_of_unite hunite
  have hmembers : ∀ t ∈ membersOf resolved, r.IsMeant t :=
    fun t ht => hmeant t (mem_of_mem_membersOf ht)
  obtain ⟨r₂, hfound, -⟩ :=
    hagrees₁.findOrKeep (.union hunites hmembers) (not_isTypeName_alternatives _)
  rw [hfound] at hfind
  obtain ⟨rfl, -⟩ := EStateM.Result.ok.inj hfind
  cases hkept : r.types.get? (ValueType.union (membersOf resolved)).name with
  | none => exact ⟨_, rfl, hunites⟩
  | some kept =>
    exact (hr.formed _ kept hkept).of_name_union hunites.ne_nil (fun t ht => (hmembers t ht).valid)
      (hr.orderly.named _ kept hkept)

end Registry

/-! ## Grammatical terms -/

namespace Term

/-- A term that stands for one parameter. A choice is between words that are told apart, a union of
types that end in one. -/
inductive IsLeaf : Term → Prop
  | word (text : String) : IsLeaf (.word text)
  | typed (type : ValueType) (identifier : String) (number : Option String) :
      IsLeaf (.typed type identifier number)
  | choice {type : ValueType} {words : List String} (htwo : 2 ≤ words.length)
      (hdistinct : words.Nodup) : IsLeaf (.choice type words)
  | union {members : List ValueType} {names : List String} (h : ValueType.Unites members) :
      IsLeaf (.union (.union members) names)

/-- Terms that are positional syntax, and so can be laid out. -/
structure Grammatical (ts : List Term) : Prop extends WellFormed IsLeaf ts where
  /-- Every leaf is one that a layout has a parameter for. -/
  laidOut : ∀ leaf ∈ leavesOf 0 ts, ∀ r, leaf.term.subject? r ≠ none
  /-- Every segment has a leaf. -/
  contributes : ∀ segment ∈ levelsOf ts, ∀ depth, leavesOf depth segment ≠ []
  /-- The parameters of a layout are the leaves, in order. -/
  numbered : ∀ r layout r', Layout.ofTerms ts r = .ok layout r' →
    Numbered 0 (leavesOf 0 ts) layout.parameters

theorem IsLeaf.subject?_ne_none {t : Term} (h : t.IsLeaf) (r : Registry) : t.subject? r ≠ none := by
  cases h <;> simp [subject?]

end Term

/-! ## Terms that are read -/

theorem ReadsOne.isLeaf {k k' : Known} {t : Term} (h : ReadsOne k t k') (hk : k.registry.Tidy) :
    t.IsLeaf := by
  cases h with
  | word => exact .word _
  | typed => exact .typed _ _ _
  | choice hgroup =>
    obtain ⟨cs, htext⟩ := hgroup
    obtain ⟨htwo, hdistinct, -⟩ := htext.words_distinct
    exact .choice htwo hdistinct
  | @union names _ _ hgroup htype =>
    obtain ⟨cs, htext⟩ := hgroup
    have hvalid : ∀ name ∈ names, isTypeName name := by
      intro name hname
      obtain ⟨identifier, number, hread⟩ := htext.types_named.2 name hname
      exact isTypeName_of_readIdentifier hread
    obtain ⟨members, rfl, hunites⟩ := hk.unites_of_union hvalid htype
    exact .union hunites

/-- A segment that is not empty has a leaf, if it is read: its first term is one or holds one. -/
theorem ReadsLevel.leavesOf_ne_nil {depth : Nat} {seen : Bool} {k k' : Known} {ts : List Term}
    (h : ReadsLevel depth seen k ts k') (hdepth : depth ≠ 0) (hne : ts ≠ []) (d : Nat) :
    Term.leavesOf d ts ≠ [] := by
  induction h generalizing d with
  | done => exact absurd rfl hne
  | one h rest ih => simp [Term.leavesOf, h.leaves_eq]
  | repeated h hword rest ih | optional h rest ih => simp [Term.leavesOf, Term.leaves]
  | segment hinner h rest ihinner ih =>
    exact List.append_ne_nil_of_left_ne_nil (ihinner (Nat.succ_ne_zero _) hinner (d + 1)) _
  | rest => exact absurd rfl hdepth

namespace Outline

/-- **The terms of a text are grammatical**, whatever the registry has kept. -/
theorem grammatical_of_read {text : String} {r r' : Registry} {outline : Outline} (hr : r.InUse)
    (h : read text r = .ok outline r') : Term.Grammatical outline.terms := by
  have hagrees := hr.tidy.orderly.agrees
  have htidy : r'.Tidy := (Registry.agrees_of_alike alike_read hagrees h).tidy hr.tidy
  obtain ⟨-, hreadable⟩ := rereadable_of_read hr.tidy.orderly.closed h
  obtain ⟨numbered, hlevel⟩ := (hreadable r' (.refl r')).terms
  have hleaves (leaf : Leaf) (hleaf : leaf ∈ Term.leavesOf 0 outline.terms) : leaf.term.IsLeaf := by
    obtain ⟨_, _, hone⟩ := hlevel.readsOne_of_mem htidy.orderly.closed hleaf (.refl r')
    exact hone.isLeaf htidy
  exact {
    toWellFormed := hlevel.wellFormed hleaves
    laidOut := fun leaf hleaf => (hleaves leaf hleaf).subject?_ne_none
    contributes := fun segment hsegment => by
      obtain ⟨hne, _, _, _, hread⟩ := hlevel.of_mem_levelsOf hsegment
      exact hread.leavesOf_ne_nil (Nat.succ_ne_zero _) hne
    numbered := fun r₁ layout r₂ hlayout => (Layout.fits_of_ofTerms hlevel.level hlayout).numbered }

/-- A text is read after one that failed, which has kept the union that is found, and a type that the
host has registered since. -/
theorem grammatical_afterUnfinished :
    ∃ r r' outline,
      (stateAfter (Usage.compile "(INT|BIG_INT) (fast|slow" Registry.standard)).register
        { Primitive.string with name := "File", aliases := [] } = .ok r ∧
      r.InUse ∧ r.contains "(BigInt|Int)" = true ∧
      read "(BIG_INT|INT) INT2 [(fast|slow) [FILE]...] ..." r = .ok outline r' ∧
      Term.Grammatical outline.terms := by
  generalize hleft : stateAfter (Usage.compile "(INT|BIG_INT) (fast|slow" Registry.standard) = left
  generalize hfile : { Primitive.string with name := "File", aliases := [] } = file
  have hinUse : left.InUse := hleft ▸ Registry.hosted_standard.inUse.compile _
  obtain ⟨r, hregister⟩ := failing_isOk_iff.1
    (show (left.register file).isOk = true by rw [← hleft, ← hfile]; decide +kernel)
  have hr := hinUse.register hregister
  obtain rfl := Registry.eq_add_of_register hregister
  obtain ⟨outline, r', hread, -⟩ := exists_of_succeedsWith
    (read "(BIG_INT|INT) INT2 [(fast|slow) [FILE]...] ..." (left.add file)) (fun _ _ => true)
    (by rw [← hleft, ← hfile]; decide +kernel)
  exact ⟨_, r', outline, hregister, hr, by rw [← hleft, ← hfile]; decide +kernel, hread,
    grammatical_of_read hr hread⟩

end Outline

end Synopsis
