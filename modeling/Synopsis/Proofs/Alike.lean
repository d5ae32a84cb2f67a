import Synopsis.Proofs.Meanings

/-!
# Runs that come to the same

Two runs of a step are the same (`SameRun`) when they give one result or one error and leave related
states. A step is `Alike` for a relation on states when it runs the same from related states.

On the registry, states are related when they agree with one registry (`Registry.Same`): every step
there is alike, as it finds what it would have made. On the state of a reader, they are also at one
place of the text (`ReaderState.Same`). A reader is made of steps that are alike, so it reads one
text in one way, error and place of the error included, whatever the registry has kept.
-/

namespace Synopsis

/-! ## Steps in general -/

section Steps

variable {ε σ α β : Type} {R : σ → σ → Prop}

/-- Two runs with one result or one error, and states that are related. -/
inductive SameRun (R : σ → σ → Prop) : EStateM.Result ε σ α → EStateM.Result ε σ α → Prop
  | ok {a : α} {s s' : σ} (h : R s s') : SameRun R (.ok a s) (.ok a s')
  | error {e : ε} {s s' : σ} (h : R s s') : SameRun R (.error e s) (.error e s')

/-- What a run comes to, the state that it leaves aside. -/
def outcome : EStateM.Result ε σ α → Except ε α
  | .ok a _ => .ok a
  | .error e _ => .error e

/-- The state that a run leaves, also when it fails. -/
def stateAfter : EStateM.Result ε σ α → σ
  | .ok _ s => s
  | .error _ s => s

/-- What holds after a step, and after the next one from there, holds after both. -/
theorem stateAfter_bind_of {motive : σ → Prop} {x : EStateM ε σ α} {f : α → EStateM ε σ β} {s : σ}
    (hx : motive (stateAfter (x s)))
    (hf : ∀ a s', x s = .ok a s' → motive s' → motive (stateAfter (f a s'))) :
    motive (stateAfter ((x >>= f) s)) := by
  show motive (stateAfter (EStateM.bind x f s))
  unfold EStateM.bind
  cases hrun : x s with
  | ok a s' =>
    rw [hrun] at hx
    exact hf a s' hrun hx
  | error e s' =>
    rw [hrun] at hx
    exact hx

theorem SameRun.outcome_eq {run run' : EStateM.Result ε σ α} (h : SameRun R run run') :
    outcome run = outcome run' := by
  cases h <;> rfl

theorem SameRun.related {run run' : EStateM.Result ε σ α} (h : SameRun R run run') :
    R (stateAfter run) (stateAfter run') := by
  cases h with
  | ok h => exact h
  | error h => exact h

/-- The step runs the same from related states. -/
def Alike (R : σ → σ → Prop) (step : EStateM ε σ α) : Prop :=
  ∀ s s', R s s' → SameRun R (step s) (step s')

/-- The step comes to `a` from one of the related states. -/
def Gives (R : σ → σ → Prop) (step : EStateM ε σ α) (a : α) : Prop :=
  ∃ s s' s₁, R s s' ∧ step s = .ok a s₁

theorem alike_pure (a : α) : Alike R (pure a : EStateM ε σ α) := by
  intro s s' h
  exact .ok h

theorem alike_throw (e : ε) : Alike R (throw e : EStateM ε σ α) := by
  intro s s' h
  exact .error h

theorem Alike.bind {x : EStateM ε σ α} {f : α → EStateM ε σ β} (hx : Alike R x)
    (hf : ∀ a, Gives R x a → Alike R (f a)) : Alike R (x >>= f) := by
  intro s s' h
  have hrun := hx s s' h
  show SameRun R (EStateM.bind x f s) (EStateM.bind x f s')
  unfold EStateM.bind
  generalize hs : x s = run at hrun ⊢
  generalize x s' = run' at hrun ⊢
  cases hrun with
  | @ok a s₁ _ h₁ => exact hf a ⟨s, s', s₁, h, hs⟩ _ _ h₁
  | error h₁ => exact .error h₁

theorem Alike.ite {c : Prop} [Decidable c] {x y : EStateM ε σ α} (hx : Alike R x)
    (hy : Alike R y) : Alike R (if c then x else y) := by
  by_cases hc : c
  · rwa [if_pos hc]
  · rwa [if_neg hc]

theorem alike_throw_bind (e : ε) (f : α → EStateM ε σ β) :
    Alike R ((throw e : EStateM ε σ α) >>= f) := by
  intro s s' h
  exact .error h

theorem alike_modify {f : σ → σ} (hf : ∀ s s', R s s' → R (f s) (f s')) :
    Alike R (modify f : EStateM ε σ PUnit) := by
  intro s s' h
  exact .ok (hf s s' h)

theorem get_bind_apply (k : σ → EStateM ε σ α) (s : σ) :
    (get >>= k : EStateM ε σ α) s = k s s := rfl

theorem set_bind_apply (t : σ) (k : PUnit → EStateM ε σ α) (s : σ) :
    (set t >>= k : EStateM ε σ α) s = k ⟨⟩ t := rfl

/-- A step that reads the state, and goes on in one way from related states. -/
theorem alike_get {k : σ → EStateM ε σ α} (hk : ∀ s s', R s s' → k s = k s')
    (h : ∀ s, Alike R (k s)) : Alike R (get >>= k) := by
  intro s s' hs
  rw [get_bind_apply, get_bind_apply, ← hk s s' hs]
  exact h s s s' hs

theorem Alike.adaptExcept {ε' : Type} {step : EStateM ε σ α} (h : Alike R step) (f : ε → ε') :
    Alike R (step.adaptExcept f) := by
  intro s s' hs
  have hrun := h s s' hs
  unfold EStateM.adaptExcept
  generalize step s = run at hrun ⊢
  generalize step s' = run' at hrun ⊢
  cases hrun with
  | ok h₁ => exact .ok h₁
  | error h₁ => exact .error h₁

theorem alike_mapM {f : α → EStateM ε σ β} {as : List α} (hf : ∀ a ∈ as, Alike R (f a)) :
    Alike R (as.mapM f) := by
  induction as with
  | nil => exact alike_pure []
  | cons a as ih =>
    rw [List.forall_mem_cons] at hf
    rw [List.mapM_cons]
    exact hf.1.bind fun b _ => (ih hf.2).bind fun bs _ => alike_pure (b :: bs)

end Steps

/-! ## Steps on the registry -/

namespace Registry

/-- Both registries agree with one. -/
def Same (r₀ r r' : Registry) : Prop := Agrees r₀ r ∧ Agrees r₀ r'

variable {r₀ : Registry}

/-- What is alike and comes to something on a registry comes to the same on one that agrees. -/
theorem ok_of_alike {α : Type} {step : Step α} (h : Alike (Same r₀) step) {r r₁ : Registry} {a : α}
    (hr : Agrees r₀ r) (hok : step r₀ = .ok a r₁) : ∃ r', step r = .ok a r' ∧ Agrees r₀ r' := by
  have hrun := h r₀ r ⟨hr.orderly.agrees, hr⟩
  rw [hok] at hrun
  cases hstep : step r with
  | ok b r' =>
    rw [hstep] at hrun
    cases hrun with
    | ok h => exact ⟨r', rfl, h.2⟩
  | error e r' =>
    rw [hstep] at hrun
    cases hrun

/-- What a step that is alike leaves agrees with the first registry. -/
theorem agrees_of_alike {ε α : Type} {step : EStateM ε Registry α} (h : Alike (Same r₀) step)
    {r r' : Registry} {a : α} (hr : Agrees r₀ r) (hok : step r = .ok a r') : Agrees r₀ r' := by
  have hrun := (h r r ⟨hr, hr⟩).related.1
  rw [hok] at hrun
  exact hrun

theorem alike_resolve {name : String} (hvalid : isTypeName name) :
    Alike (Same r₀) (resolve name) := by
  intro r r' ⟨hr, hr'⟩
  rcases hr.resolve hvalid with ⟨hrun, hnone⟩ | ⟨t, r₁, hrun, hmeans, -, hr₁⟩
  · rcases hr'.resolve hvalid with ⟨hrun', -⟩ | ⟨t', r₁', hrun', hmeans', -, hr₁'⟩
    · rw [hrun, hrun']
      exact .error ⟨hr, hr'⟩
    · rw [hnone] at hmeans'
      simp at hmeans'
  · rcases hr'.resolve hvalid with ⟨hrun', hnone'⟩ | ⟨t', r₁', hrun', hmeans', -, hr₁'⟩
    · rw [hnone'] at hmeans
      simp at hmeans
    · rw [hmeans] at hmeans'
      obtain rfl := Option.some.inj hmeans'
      rw [hrun, hrun']
      exact .ok ⟨hr₁, hr₁'⟩

theorem stateAfter_resolve {name : String} (hvalid : ¬isTypeName name) (r : Registry) :
    stateAfter (resolve name r) = r := by
  unfold resolve
  cases r.get? name with
  | some t => rfl
  | none => simp only [if_neg hvalid]; rfl

/-- What names are resolved to are types that their own names mean. -/
theorem isMeant_of_mapM_resolve {names : List String} (hvalid : ∀ name ∈ names, isTypeName name)
    {r r₁ : Registry} {ts : List ValueType} (hr : Agrees r₀ r)
    (h : names.mapM resolve r = .ok ts r₁) : ∀ t ∈ ts, r₀.IsMeant t := by
  induction names generalizing r ts with
  | nil =>
    obtain ⟨rfl, -⟩ := by simpa using h
    simp
  | cons name names ih =>
    rw [List.forall_mem_cons] at hvalid
    simp only [List.mapM_cons, keeping_bind_ok_iff, keeping_pure_ok_iff] at h
    obtain ⟨t, r₂, ht, ts, r₃, hts, rfl, rfl⟩ := h
    rcases hr.resolve hvalid.1 with ⟨hrun, -⟩ | ⟨t', r₂', hrun, -, hmeant, hr₂⟩
    · rw [hrun] at ht
      cases ht
    · rw [hrun] at ht
      cases ht
      exact List.forall_mem_cons.2 ⟨hmeant, ih hvalid.2 hr₂ hts⟩

theorem alike_keeping {t : ValueType} (ht : r₀.Shaped t) : Alike (Same r₀) (keeping t) := by
  intro r r' ⟨hr, hr'⟩
  obtain ⟨r₁, hkept, hr₁⟩ := hr.keep ht
  obtain ⟨r₁', hkept', hr₁'⟩ := hr'.keep ht
  unfold keeping
  rw [hkept, hkept']
  exact .ok ⟨hr₁, hr₁'⟩

theorem alike_findOrKeep {t : ValueType} (ht : r₀.Shaped t) (hname : ¬isTypeName t.name) :
    Alike (Same r₀) (findOrKeep t) := by
  intro r r' ⟨hr, hr'⟩
  obtain ⟨r₁, hrun, hr₁⟩ := hr.findOrKeep ht hname
  obtain ⟨r₁', hrun', hr₁'⟩ := hr'.findOrKeep ht hname
  rw [hrun, hrun']
  exact .ok ⟨hr₁, hr₁'⟩

theorem alike_unite {resolved : List ValueType} (h : ∀ t ∈ resolved, r₀.IsMeant t) :
    Alike (Same r₀) (unite resolved) := by
  intro r r' hr
  rw [unite_eq, unite_eq]
  cases hrejected : rejection? (membersOf resolved) with
  | some e => exact .error hr
  | none =>
    have hunites := (rejection?_eq_none_iff resolved).1 hrejected
    refine alike_findOrKeep (.union hunites fun t ht => ?_) (not_isTypeName_alternatives _) r r' hr
    exact h t (mem_of_mem_membersOf ht)

/-- **A union of types that names stand for is made alike.** -/
theorem alike_union {names : List String} (hvalid : ∀ name ∈ names, isTypeName name) :
    Alike (Same r₀) (union names) := by
  rw [union_eq]
  refine (alike_mapM fun name hname => alike_resolve (hvalid name hname)).bind ?_
  intro resolved ⟨r, r', r₁, ⟨hr, _⟩, hresolved⟩
  exact alike_unite (isMeant_of_mapM_resolve hvalid hr hresolved)

/-- The alternatives are words, or names of types. -/
def Lists : Alternatives → Prop
  | .words words => words ≠ [] ∧ ∀ word ∈ words, IsWord word
  | .types names => ∀ name ∈ names, isTypeName name

theorem alike_group {group : Alternatives} (h : Lists group) :
    Alike (Same r₀) group.resolve := by
  cases group with
  | words words => exact alike_keeping (.choice h.1 h.2)
  | types names => exact alike_union h

end Registry

/-! ## Steps of a reader -/

/-- Both readers are at one place of a text, have met the same numbers, and their registries agree
with one. -/
structure ReaderState.Same (r₀ : Registry) (s s' : ReaderState) : Prop where
  rest : s.rest = s'.rest
  offset : s.offset = s'.offset
  numbered : s.numbered = s'.numbered
  registry : Registry.Same r₀ s.registry s'.registry

namespace Reader

variable {α : Type} {r₀ : Registry}

theorem same_advance {s s' : ReaderState} (h : ReaderState.Same r₀ s s') (n : Nat) :
    ReaderState.Same r₀ (s.advance n) (s'.advance n) := by
  refine ⟨?_, ?_, h.numbered, h.registry⟩
  · rw [ReaderState.rest_advance, ReaderState.rest_advance, h.rest]
  · simp only [ReaderState.advance, h.rest, h.offset]

theorem alike_advance (n : Nat) :
    Alike (ReaderState.Same r₀) (modify (·.advance n) : Reader PUnit) :=
  alike_modify fun _ _ h => same_advance h n

theorem alike_remaining : Alike (ReaderState.Same r₀) remaining := by
  refine alike_get (fun s s' h => ?_) fun s => alike_pure s.rest
  rw [h.rest]

theorem alike_offset : Alike (ReaderState.Same r₀) offset := by
  refine alike_get (fun s s' h => ?_) fun s => alike_pure s.offset
  rw [h.offset]

theorem alike_fail {kind : FaultKind} {detail : String} {start : Nat} :
    Alike (ReaderState.Same r₀) (fail kind detail start : Reader α) :=
  alike_offset.bind fun _ _ => alike_throw _

theorem alike_fail_bind {β : Type} {kind : FaultKind} {detail : String} {start : Nat}
    {f : β → Reader α} : Alike (ReaderState.Same r₀) (fail kind detail start >>= f) := by
  have hfail (b : β) : ¬Gives (ReaderState.Same r₀) (fail kind detail start : Reader β) b := by
    intro ⟨s, s', s₁, _, h⟩
    exact fail_ok_iff.1 h
  exact alike_fail.bind fun b hb => absurd hb (hfail b)

theorem alike_accept {lexeme : List Char → List Char} :
    Alike (ReaderState.Same r₀) (accept lexeme) := by
  refine alike_remaining.bind fun cs _ => ?_
  exact (alike_advance _).bind fun _ _ => alike_pure _

theorem alike_acceptMark {mark : String} : Alike (ReaderState.Same r₀) (acceptMark mark) := by
  refine alike_remaining.bind fun cs _ => ?_
  exact .ite ((alike_advance _).bind fun _ _ => alike_pure true) (alike_pure false)

theorem alike_skipBlanks : Alike (ReaderState.Same r₀) skipBlanks :=
  alike_accept.bind fun _ _ => alike_pure ()

theorem alike_acceptMarkBlanks {mark : String} :
    Alike (ReaderState.Same r₀) (acceptMarkBlanks mark) := by
  refine alike_acceptMark.bind fun found _ => ?_
  exact .ite (alike_skipBlanks.bind fun _ _ => alike_pure _) (alike_pure _)

theorem alike_expectBoundary : Alike (ReaderState.Same r₀) expectBoundary := by
  refine alike_remaining.bind fun cs _ => ?_
  exact .ite (alike_pure ()) (alike_offset.bind fun _ _ => alike_fail)

theorem alike_rejectNote : Alike (ReaderState.Same r₀) rejectNote := by
  refine alike_remaining.bind fun cs _ => ?_
  exact .ite (alike_offset.bind fun _ _ => alike_fail) (alike_pure ())

theorem alike_note : Alike (ReaderState.Same r₀) note := by
  refine alike_remaining.bind fun cs _ => ?_
  cases Lexeme.note? cs with
  | none => exact alike_pure none
  | some found => exact (alike_advance _).bind fun _ _ => alike_pure _

theorem alike_resolving {start : Nat} {step : Registry.Step α}
    (h : Alike (Registry.Same r₀) step) : Alike (ReaderState.Same r₀) (resolving start step) := by
  intro s s' hs
  have hrun := h s.registry s'.registry hs.registry
  unfold resolving
  rw [hs.offset]
  generalize step s.registry = run at hrun ⊢
  generalize step s'.registry = run' at hrun ⊢
  cases hrun with
  | ok hr => exact .ok ⟨hs.rest, rfl, hs.numbered, hr⟩
  | error hr => exact .error ⟨hs.rest, rfl, hs.numbered, hr⟩

theorem alike_identified {start : Nat} {identifier : String} :
    Alike (ReaderState.Same r₀) (identified start identifier) := by
  unfold identified
  cases readIdentifier identifier with
  | ok named => exact alike_pure named
  | error e => exact alike_fail

theorem isTypeName_of_gives {start : Nat} {identifier : String} {named : String × Option String}
    (h : Gives (ReaderState.Same r₀) (identified start identifier) named) :
    isTypeName named.1 := by
  obtain ⟨s, s', s₁, -, h⟩ := h
  exact isTypeName_of_readIdentifier (identified_ok_iff.1 h).1

/-! ### Alternatives and types -/

theorem alike_item {items : Listed} : Alike (ReaderState.Same r₀) (item items) := by
  refine alike_offset.bind fun start _ => alike_accept.bind fun identifier _ => ?_
  refine .ite (alike_pure _) (alike_accept.bind fun word _ => ?_)
  exact .ite alike_fail_bind (.ite alike_fail_bind (alike_pure _))

theorem alike_listed {fuel : Nat} {items : Listed} :
    Alike (ReaderState.Same r₀) (listed fuel items) := by
  induction fuel generalizing items with
  | zero => exact alike_pure items
  | succ fuel ih =>
    refine alike_item.bind fun items _ => alike_skipBlanks.bind fun _ _ => ?_
    exact alike_acceptMarkBlanks.bind fun more _ => .ite ih (alike_pure items)

theorem alike_alternatives : Alike (ReaderState.Same r₀) alternatives := by
  refine alike_offset.bind fun start _ => alike_acceptMarkBlanks.bind fun _ _ => ?_
  refine alike_remaining.bind fun cs _ => alike_listed.bind fun items _ => ?_
  refine alike_acceptMark.bind fun closed _ => ?_
  refine .ite (.ite alike_fail_bind (.ite alike_fail_bind (.ite ?_ (alike_pure _)))) alike_fail_bind
  refine (alike_mapM fun item _ => ?_).bind fun names _ => alike_pure _
  exact alike_identified.bind fun named _ => alike_pure _

theorem lists_of_gives {group : Alternatives}
    (h : Gives (ReaderState.Same r₀) alternatives group) : Registry.Lists group := by
  obtain ⟨s, s', s₁, -, h⟩ := h
  obtain ⟨_, s₀, items, s₂, -, hlisted, -, hmeans, -⟩ := alternatives_ok_iff.1 h
  obtain ⟨cs, -, hitems, -⟩ := listed_sound hlisted (Nat.lt_succ_self _)
  have htext : GroupText ('(' :: ([] ++ cs ++ [')'])) group :=
    ⟨[], cs, _, by simp [IsBlanks], hitems, hmeans, rfl⟩
  cases group with
  | words words =>
    obtain ⟨htwo, -, hwords⟩ := htext.words_distinct
    exact ⟨List.ne_nil_of_length_pos (by omega), hwords⟩
  | types names =>
    obtain ⟨-, hnames⟩ := htext.types_named
    intro name hname
    obtain ⟨identifier, number, hread⟩ := hnames name hname
    exact isTypeName_of_readIdentifier hread

theorem alike_alternativesType {start : Nat} {group : Alternatives} (h : Registry.Lists group) :
    Alike (ReaderState.Same r₀) (alternativesType start group) := by
  rw [alternativesType_eq]
  exact alike_resolving (Registry.alike_group h)

theorem alike_valueType : Alike (ReaderState.Same r₀) valueType := by
  refine alike_offset.bind fun start _ => alike_remaining.bind fun before _ => .ite ?_ ?_
  · refine alike_alternatives.bind fun group hgroup => ?_
    refine (alike_alternativesType (lists_of_gives hgroup)).bind fun type _ => ?_
    exact alike_remaining.bind fun after _ => alike_pure _
  · refine alike_accept.bind fun identifier _ => .ite alike_fail_bind ?_
    refine alike_identified.bind fun named hnamed => ?_
    refine (alike_resolving (Registry.alike_resolve (isTypeName_of_gives hnamed))).bind ?_
    exact fun type _ => alike_pure _

/-! ### Options -/

theorem alike_spelling : Alike (ReaderState.Same r₀) spelling := by
  refine alike_offset.bind fun start _ => alike_accept.bind fun word _ => ?_
  exact .ite alike_fail_bind (.ite (alike_pure _) alike_fail_bind)

theorem alike_spellings {fuel : Nat} : Alike (ReaderState.Same r₀) (spellings fuel) := by
  induction fuel with
  | zero => exact alike_pure []
  | succ fuel ih =>
    refine alike_spelling.bind fun first _ => alike_skipBlanks.bind fun _ _ => ?_
    refine alike_acceptMarkBlanks.bind fun more _ => .ite ?_ (alike_pure [first])
    exact ih.bind fun rest _ => alike_pure _

theorem alike_takenValue : Alike (ReaderState.Same r₀) takenValue := by
  refine alike_offset.bind fun start _ => alike_acceptMark.bind fun required _ => .ite ?_ ?_
  · exact alike_valueType.bind fun value _ => alike_pure _
  · refine alike_acceptMark.bind fun optional _ => .ite ?_ (alike_pure _)
    refine alike_valueType.bind fun value _ => alike_acceptMark.bind fun closed _ => ?_
    exact .ite (alike_pure _) alike_fail_bind

theorem alike_rejectRepeats {seen : List String} {spellings : List (String × Nat)} :
    Alike (ReaderState.Same r₀) (rejectRepeats seen spellings) := by
  induction spellings generalizing seen with
  | nil => exact alike_pure ()
  | cons spelling rest ih => exact .ite (alike_throw_bind _ _) ih

theorem alike_declareLong {shared : Shared} {spellings : List (String × Nat)}
    {declared : List Declaration} {short : Option String} :
    Alike (ReaderState.Same r₀) (declareLong shared spellings declared short) := by
  induction spellings generalizing declared short with
  | nil => exact alike_pure _
  | cons spelling rest ih =>
    refine .ite ?_ (.ite alike_fail_bind ih)
    exact .ite (.ite ih alike_fail_bind) ih

theorem alike_declarations {spellings : List (String × Nat)} {shared : Shared} :
    Alike (ReaderState.Same r₀) (declarations spellings shared) := by
  refine alike_rejectRepeats.bind fun _ _ => alike_declareLong.bind fun declared _ => ?_
  obtain ⟨declared, _ | spelling⟩ := declared
  · exact alike_pure declared
  · exact alike_pure _

theorem alike_optionGroup {opener closer : String} :
    Alike (ReaderState.Same r₀) (optionGroup opener closer) := by
  refine alike_offset.bind fun start _ => alike_acceptMarkBlanks.bind fun _ _ => ?_
  refine alike_remaining.bind fun cs _ => alike_spellings.bind fun spellings _ => ?_
  refine alike_skipBlanks.bind fun _ _ => alike_takenValue.bind fun value _ => ?_
  refine alike_skipBlanks.bind fun _ _ => alike_acceptMark.bind fun closed _ => ?_
  refine .ite ?_ alike_fail_bind
  refine alike_acceptMark.bind fun recurs _ => alike_note.bind fun note _ => ?_
  exact alike_declarations

theorem alike_bareOption : Alike (ReaderState.Same r₀) bareOption := by
  refine alike_spelling.bind fun spelling _ => alike_takenValue.bind fun value _ => ?_
  refine alike_acceptMark.bind fun recurs _ => alike_expectBoundary.bind fun _ _ => ?_
  exact alike_note.bind fun note _ => alike_declarations

theorem alike_options {fuel : Nat} : Alike (ReaderState.Same r₀) (options fuel) := by
  induction fuel with
  | zero => exact alike_pure _
  | succ fuel ih =>
    refine alike_skipBlanks.bind fun _ _ => alike_remaining.bind fun cs _ => ?_
    cases optionForm? cs with
    | none => exact alike_pure _
    | some form =>
      cases form with
      | bracketed => exact alike_optionGroup.bind fun declared _ => ih.bind fun _ _ => alike_pure _
      | parenthesized =>
        exact alike_optionGroup.bind fun declared _ => ih.bind fun _ _ => alike_pure _
      | bare => exact alike_bareOption.bind fun declared _ => ih.bind fun _ _ => alike_pure _

/-! ### Terms -/

theorem alike_words {fuel : Nat} : Alike (ReaderState.Same r₀) (words fuel) := by
  induction fuel with
  | zero => exact alike_pure []
  | succ fuel ih =>
    refine alike_remaining.bind fun cs _ => .ite (alike_pure []) ?_
    refine alike_accept.bind fun _ _ => alike_skipBlanks.bind fun _ _ => ?_
    exact ih.bind fun rest _ => alike_pure _

theorem alike_meet {identifier : String} :
    Alike (ReaderState.Same r₀)
      (modify fun s => { s with numbered := identifier :: s.numbered } : Reader PUnit) := by
  intro s s' h
  refine .ok ⟨h.rest, h.offset, ?_, h.registry⟩
  simp only [h.numbered]

theorem alike_typed : Alike (ReaderState.Same r₀) typed := by
  refine alike_offset.bind fun start _ => alike_accept.bind fun identifier _ => ?_
  refine alike_identified.bind fun named hnamed => ?_
  refine (alike_resolving (Registry.alike_resolve (isTypeName_of_gives hnamed))).bind ?_
  intro type _
  refine .ite ?_ (alike_pure _)
  refine alike_get (fun s s' h => ?_) fun s => ?_
  · simp only [h.numbered]
  · exact .ite alike_fail_bind (alike_meet.bind fun _ _ => alike_pure _)

theorem alike_grouped : Alike (ReaderState.Same r₀) grouped := by
  refine alike_offset.bind fun start _ => alike_alternatives.bind fun group hgroup => ?_
  refine (alike_alternativesType (lists_of_gives hgroup)).bind fun type _ => ?_
  cases group with
  | words words => exact alike_pure _
  | types names => exact alike_pure _

theorem alike_repeatable {term : Term} : Alike (ReaderState.Same r₀) (repeatable term) := by
  refine alike_acceptMark.bind fun recurs _ => .ite ?_ ?_
  · exact alike_expectBoundary.bind fun _ _ => alike_note.bind fun note _ => alike_pure _
  · exact alike_expectBoundary.bind fun _ _ => alike_rejectNote.bind fun _ _ => alike_pure _

theorem alike_wordTerm : Alike (ReaderState.Same r₀) wordTerm := by
  refine alike_accept.bind fun word _ => alike_expectBoundary.bind fun _ _ => ?_
  exact alike_rejectNote.bind fun _ _ => alike_pure _

theorem alike_repeatedSegment {terms : List Term} {start : Nat} :
    Alike (ReaderState.Same r₀) (repeatedSegment terms start) := by
  refine .ite alike_fail_bind ?_
  split
  · exact alike_fail
  · exact alike_fail
  · exact alike_fail
  · exact alike_fail
  · exact alike_expectBoundary.bind fun _ _ => alike_note.bind fun note _ => alike_pure _

theorem alike_segmentTerm {terms : List Term} {seen : Bool} {start : Nat} :
    Alike (ReaderState.Same r₀) (segmentTerm terms seen start) := by
  refine alike_skipBlanks.bind fun _ _ => alike_acceptMark.bind fun closed _ => ?_
  refine .ite ?_ alike_fail_bind
  refine alike_acceptMark.bind fun recurs _ => .ite alike_repeatedSegment ?_
  refine .ite alike_fail_bind (.ite alike_fail_bind ?_)
  exact alike_rejectNote.bind fun _ _ => alike_pure _

theorem alike_restTerm {depth start : Nat} :
    Alike (ReaderState.Same r₀) (restTerm depth start) := by
  refine alike_acceptMark.bind fun _ _ => alike_skipBlanks.bind fun _ _ => ?_
  exact alike_remaining.bind fun cs _ => .ite alike_fail_bind (alike_pure _)

theorem alike_terms {fuel depth : Nat} {seen : Bool} :
    Alike (ReaderState.Same r₀) (terms fuel depth seen) := by
  induction fuel generalizing depth seen with
  | zero => exact alike_pure []
  | succ fuel ih =>
    refine alike_skipBlanks.bind fun _ _ => alike_offset.bind fun start _ => ?_
    refine alike_remaining.bind fun cs _ => ?_
    cases opening cs with
    | levelEnd => exact alike_pure []
    | segment =>
      refine alike_acceptMark.bind fun _ _ => ih.bind fun inner _ => ?_
      exact alike_segmentTerm.bind fun term _ => ih.bind fun rest _ => alike_pure _
    | rest => exact alike_restTerm.bind fun term _ => alike_pure _
    | group =>
      refine alike_grouped.bind fun one _ => alike_repeatable.bind fun term _ => ?_
      exact ih.bind fun rest _ => alike_pure _
    | identifier =>
      refine alike_typed.bind fun one _ => alike_repeatable.bind fun term _ => ?_
      exact ih.bind fun rest _ => alike_pure _
    | word => exact alike_wordTerm.bind fun term _ => ih.bind fun rest _ => alike_pure _
    | option => exact alike_accept.bind fun _ _ => alike_fail
    | unexpected => exact alike_fail

/-- **A text is read alike.** -/
theorem alike_outline : Alike (ReaderState.Same r₀) outline := by
  refine alike_skipBlanks.bind fun _ _ => alike_remaining.bind fun cs _ => ?_
  refine alike_words.bind fun words _ => alike_options.bind fun declared _ => ?_
  refine alike_terms.bind fun terms _ => alike_skipBlanks.bind fun _ _ => ?_
  refine alike_remaining.bind fun after _ => .ite (alike_pure _) ?_
  exact alike_offset.bind fun start _ => alike_fail_bind

end Reader

end Synopsis
