import Synopsis.Proofs.Alike

/-!
# Compiling after other texts

Compiling a text keeps types in the registry, also when it fails, and the next text is compiled on
what is left. **None of this can be told from what the next text comes to**
(`Usage.compile_after_compiling`): on a registry that a host has filled, a text compiles to the same
usage or fails with the same error, whatever has been compiled before.

Compiling is alike, from the outline of the text to the layout of its terms. Taken from one and the
same state on both sides this says that it leaves a registry which agrees with the first one
(`Usage.agrees_afterCompiling`); taken from two states, that it comes to the same.
-/

namespace Synopsis

variable {r₀ : Registry}

/-! ## Outlines and options -/

theorem alike_read {text : String} : Alike (Registry.Same r₀) (Outline.read text) := by
  intro r r' hr
  have hrun := @Reader.alike_outline r₀ { rest := text.toList, registry := r }
    { rest := text.toList, registry := r' } ⟨rfl, rfl, rfl, hr⟩
  unfold Outline.read
  generalize Reader.outline { rest := text.toList, registry := r } = run at hrun ⊢
  generalize Reader.outline { rest := text.toList, registry := r' } = run' at hrun ⊢
  cases hrun with
  | ok h => exact .ok h.registry
  | error h => exact .error h.registry

namespace OptionSpec

theorem alike_resolveType {name : String} (hvalid : isTypeName name) :
    Alike (Registry.Same r₀) (resolveType name) := by
  have heq : resolveType name = EStateM.adaptExcept OptionError.type (Registry.resolve name) := by
    funext r
    unfold resolveType EStateM.adaptExcept
    cases Registry.resolve name r <;> rfl
  rw [heq]
  exact (Registry.alike_resolve hvalid).adaptExcept OptionError.type

theorem alike_reconcile {mandatory optional : List Declaration} :
    Alike (Registry.Same r₀) (reconcile mandatory optional) := by
  refine (alike_resolveType (by decide)).bind fun boolean _ => ?_
  refine (alike_resolveType (by decide)).bind fun count _ => ?_
  cases ofDeclarations mandatory optional boolean count with
  | ok options => exact alike_pure options
  | error e => exact alike_throw e

end OptionSpec

/-! ## Layouts -/

/-- A term stands for one parameter or none, whatever is kept. -/
theorem Term.same_subject {t : Term} (ht : t.Sound fun _ => True) {r r' : Registry}
    (hr : Registry.Same r₀ r r') :
    t.subject? r = none ∧ t.subject? r' = none ∨
      ∃ subject r₁ r₁', t.subject? r = some (subject, r₁) ∧ t.subject? r' = some (subject, r₁') ∧
        Registry.Same r₀ r₁ r₁' := by
  cases t with
  | word text =>
    obtain ⟨r₁, hkept, hr₁⟩ := hr.1.keep (.word ht)
    obtain ⟨r₁', hkept', hr₁'⟩ := hr.2.keep (.word ht)
    refine Or.inr ⟨((r₀.types.get? text).getD (.word text), text, text), r₁, r₁', ?_, ?_, hr₁, hr₁'⟩
    · simp only [Term.subject?, Registry.word, hkept, ValueType.name]
    · simp only [Term.subject?, Registry.word, hkept', ValueType.name]
  | typed type identifier number => exact Or.inr ⟨_, r, r', rfl, rfl, hr⟩
  | union type names => exact Or.inr ⟨_, r, r', rfl, rfl, hr⟩
  | choice type words => exact Or.inr ⟨_, r, r', rfl, rfl, hr⟩
  | option d => exact Or.inl ⟨rfl, rfl⟩
  | list element minimum note => exact Or.inl ⟨rfl, rfl⟩
  | segment terms => exact Or.inl ⟨rfl, rfl⟩
  | rest => exact Or.inl ⟨rfl, rfl⟩

namespace Layout

theorem alike_gather {deepest index : Nat} {list : Option String} {leaves : List Leaf}
    (hleaves : ∀ leaf ∈ leaves, leaf.term.Sound fun _ => True) :
    Alike (Registry.Same r₀) (gather deepest leaves index list) := by
  induction leaves generalizing index list with
  | nil => exact alike_pure []
  | cons leaf leaves ih =>
    rw [List.forall_mem_cons] at hleaves
    intro r r' hr
    rw [gather, get_bind_apply, get_bind_apply]
    rcases Term.same_subject hleaves.1 hr with
      ⟨hnone, hnone'⟩ | ⟨⟨type, typeName, identifier⟩, r₁, r₁', hsome, hsome', hr₁⟩
    · rw [hnone, hnone']
      exact ih hleaves.2 r r' hr
    · rw [hsome, hsome']
      dsimp only
      rw [set_bind_apply, set_bind_apply]
      refine Alike.ite ?_ ?_ r₁ r₁' hr₁
      · cases list with
        | some first => exact alike_throw_bind _ _
        | none =>
          refine .ite (alike_throw_bind _ _) ?_
          exact (ih hleaves.2).bind fun rest _ => alike_pure _
      · exact (ih hleaves.2).bind fun rest _ => alike_pure _

theorem alike_ofTerms {terms : List Term}
    (hleaves : ∀ leaf ∈ Term.leavesOf 0 terms, leaf.term.Sound fun _ => True) :
    Alike (Registry.Same r₀) (ofTerms terms) := by
  refine (alike_gather hleaves).bind fun parameters _ => .ite ?_ (alike_pure _)
  split
  · exact alike_throw_bind _ _
  · exact alike_pure _

end Layout

/-! ## Usages -/

namespace Usage

theorem alike_building {ε α : Type} {error : ε → UsageError} {step : EStateM ε Registry α}
    (h : Alike (Registry.Same r₀) step) : Alike (Registry.Same r₀) (building error step) := by
  have heq : building error step = EStateM.adaptExcept error step := by
    funext r
    unfold building EStateM.adaptExcept
    cases step r <;> rfl
  rw [heq]
  exact h.adaptExcept error

theorem sound_of_gives {text : String} {outline : Outline}
    (h : Gives (Registry.Same r₀) (building .grammar (Outline.read text)) outline) :
    ∀ leaf ∈ Term.leavesOf 0 outline.terms, leaf.term.Sound fun _ => True := by
  obtain ⟨r, r', r₁, hr, hread⟩ := h
  exact (Outline.sound_of_read hr.1.sound (building_ok_iff.1 hread)).2.2.1

/-- **A text is compiled alike**, whatever has been kept. -/
theorem alike_compile {text : String} : Alike (Registry.Same r₀) (compile text) := by
  refine (alike_building alike_read).bind fun outline houtline => ?_
  refine (alike_building OptionSpec.alike_reconcile).bind fun options _ => ?_
  refine (alike_building (Layout.alike_ofTerms (sound_of_gives houtline))).bind fun layout _ => ?_
  cases tableOf options with
  | ok switches => exact alike_pure _
  | error e => exact alike_throw e

/-- The registry after compiling texts one by one, each of which may fail. -/
def afterCompiling (texts : List String) (r : Registry) : Registry :=
  texts.foldl (fun r text => stateAfter (compile text r)) r

/-- What has been compiled leaves a registry that agrees with the first one. -/
theorem agrees_afterCompiling (texts : List String) {r : Registry} (hr : r₀.Agrees r) :
    r₀.Agrees (afterCompiling texts r) := by
  induction texts generalizing r with
  | nil => exact hr
  | cons text texts ih => exact ih (alike_compile r r ⟨hr, hr⟩).related.1

/-- **Compiling is independent of what has been compiled before.** On a registry that holds what a
host has registered and nothing else, a text compiles to the same usage, or fails with the same
error, after any texts, whether they compiled or not. -/
theorem compile_after_compiling {r : Registry} (hr : r.Hosted) (texts : List String)
    (text : String) :
    outcome (compile text (afterCompiling texts r)) = outcome (compile text r) :=
  (alike_compile _ _ ⟨agrees_afterCompiling texts hr.agrees, hr.agrees⟩).outcome_eq

/-- The first text fails with a derived type and a choice kept, the second keeps a union and a word;
the third, which asks for all of them, cannot tell. -/
theorem compile_after_unfinished :
    ∃ kept u,
      afterCompiling ["[--size=BIG_INT] (fast|slow) (INT|", "(fast|slow) (INT|BIG_INT) slow"]
        Registry.standard = kept ∧
      (outcome (compile "[--size=BIG_INT] (fast|slow) (INT|" Registry.standard)).isOk = false ∧
      ["BigInt", "(fast|slow)", "(BigInt|Int)", "slow"].all kept.contains = true ∧
      outcome (compile "[--size=(BIG_INT|INT)] (fast|slow) BIG_INT [slow]" kept) = .ok u ∧
      outcome (compile "[--size=(BIG_INT|INT)] (fast|slow) BIG_INT [slow]" Registry.standard) =
        .ok u := by
  have hafter := compile_after_compiling Registry.hosted_standard
    ["[--size=BIG_INT] (fast|slow) (INT|", "(fast|slow) (INT|BIG_INT) slow"]
    "[--size=(BIG_INT|INT)] (fast|slow) BIG_INT [slow]"
  have hok : (outcome (compile "[--size=(BIG_INT|INT)] (fast|slow) BIG_INT [slow]"
      Registry.standard)).isOk = true := by decide +kernel
  cases hu : outcome (compile "[--size=(BIG_INT|INT)] (fast|slow) BIG_INT [slow]"
      Registry.standard) with
  | error e =>
    rw [hu] at hok
    simp [Except.isOk, Except.toBool] at hok
  | ok u =>
    rw [hu] at hafter
    exact ⟨_, u, rfl, by decide +kernel, by decide +kernel, hafter, rfl⟩

end Usage

end Synopsis
