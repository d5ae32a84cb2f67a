import Synopsis.Proofs.Fillings

/-!
# Traces of evaluations

The evaluations of an invocation make its calls, one after the other. They complete all of them
(`Invocation.Completes`), or they break off at the first that is not answered (`Invocation.Breaks`):
the evaluator fails, or what it answers with cannot be read.

**What an evaluation sees** is what stands by then (`Invocation.Made`). The keys are those that the
invocation binds and that no call is left for, this one included, besides the key of the tail
(`Completes.exists_stands_iff`). A key that is seen once is seen from then on, with the same value
(`Invocation.sees_of_traces`).
-/

namespace Synopsis

namespace Invocation

section Traces

variable (inv : Invocation) (g : Gathered) (evaluator : Evaluator)

/-- The texts that have arrived at the parameters of an invocation once the calls in `done` are
answered. -/
def arrivalsAfter (done : List (Call × String)) : List (ValueType × String) :=
  written (inv.payloadsRead g) ++ done.map fun a => (a.1.type, a.2)

/-- The text answers the call: its type reads it, and makes no second claim on the file topic. -/
structure Accepts (done : List (Call × String)) (c : Call) (text : String) : Prop where
  readable : c.type.CanRead text
  claimed : topicsAmong (inv.arrivalsAfter g (done ++ [(c, text)])) ≤ 1

/-- The evaluation makes the call, once the calls in `done` are answered: it sees what stands under
each key by then, and nothing else. -/
structure Made (done : List (Call × String)) (c : Call) (e : Evaluation) : Prop where
  expression : e.expression = c.expression
  answer : e.answer = evaluator e.expression e.view
  sees : ∀ key v, e.view key = some v ↔ inv.Stands g done key v

/-- The evaluations make the calls, one after the other, and each is answered. -/
inductive Completes :
    List (Call × String) → List Call → List Evaluation → List (Call × String) → Prop
  | nil {done : List (Call × String)} : Completes done [] [] done
  | cons {done done' : List (Call × String)} {c : Call} {calls : List Call} {e : Evaluation}
      {log : List Evaluation} {text : String} (hmade : Made inv g evaluator done c e)
      (hanswer : e.answer = .ok text) (haccepts : inv.Accepts g done c text)
      (hrest : Completes (done ++ [(c, text)]) calls log done') :
      Completes done (c :: calls) (e :: log) done'

/-- The evaluations make the calls up to one that is not answered. -/
def Breaks (done : List (Call × String)) (calls : List Call) (log : List Evaluation) : Prop :=
  ∃ first c later log' e done', calls = first ++ c :: later ∧ log = log' ++ [e] ∧
    Completes inv g evaluator done first log' done' ∧ Made inv g evaluator done' c e ∧
    ∀ text, e.answer = .ok text → ¬inv.Accepts g done' c text

/-- What an evaluation sees after others: the tail, and the keys that the invocation binds and that
no call is left for, those with the values that the others saw. -/
structure Sees (before : List Evaluation) (e : Evaluation) : Prop where
  bound : ∀ key, (∃ v, e.view key = some v) ↔ key = tailKey ∧ g.tail.isSome ∨
    inv.Binds g key ∧ ∀ c ∈ (inv.calls g).drop before.length, c.key ≠ key
  kept : ∀ earlier ∈ before, ∀ key v, earlier.view key = some v → e.view key = some v

end Traces

variable {inv : Invocation} {g : Gathered} {evaluator : Evaluator}
  {done done' more : List (Call × String)} {calls calls' : List Call} {log log' : List Evaluation}

/-! ## Traces after one another -/

theorem Completes.append (h : Completes inv g evaluator done calls log more)
    (h' : Completes inv g evaluator more calls' log' done') :
    Completes inv g evaluator done (calls ++ calls') (log ++ log') done' := by
  induction h with
  | nil => exact h'
  | cons hmade hanswer haccepts _ ih => exact .cons hmade hanswer haccepts (ih h')

theorem Completes.breaks (h : Completes inv g evaluator done calls log more)
    (h' : Breaks inv g evaluator more calls' log') :
    Breaks inv g evaluator done (calls ++ calls') (log ++ log') := by
  obtain ⟨first, c, later, log'', e, done', rfl, rfl, hfirst, hmade, hrefused⟩ := h'
  exact ⟨calls ++ first, c, later, log ++ log'', e, done', by simp, by simp, h.append hfirst, hmade,
    hrefused⟩

theorem Breaks.append (h : Breaks inv g evaluator done calls log) (calls' : List Call) :
    Breaks inv g evaluator done (calls ++ calls') log := by
  obtain ⟨first, c, later, log', e, done', rfl, rfl, hfirst, hmade, hrefused⟩ := h
  exact ⟨first, c, later ++ calls', log', e, done', by simp, rfl, hfirst, hmade, hrefused⟩

theorem Completes.split (h : Completes inv g evaluator done calls (log ++ log') done') :
    ∃ first later more, calls = first ++ later ∧ Completes inv g evaluator done first log more ∧
      Completes inv g evaluator more later log' done' := by
  induction log generalizing done calls with
  | nil => exact ⟨[], calls, done, rfl, .nil, h⟩
  | cons e log ih =>
    cases h with
    | cons hmade hanswer haccepts hrest =>
      obtain ⟨first, later, more, rfl, hfirst, hlater⟩ := ih hrest
      exact ⟨_ :: first, later, more, rfl, .cons hmade hanswer haccepts hfirst, hlater⟩

theorem Completes.answers (h : Completes inv g evaluator done calls log done') :
    log.length = calls.length ∧ ∃ more, done' = done ++ more ∧ more.map (·.1) = calls ∧
      ∀ a ∈ more, a.1.type.CanRead a.2 := by
  induction h with
  | nil => exact ⟨rfl, [], by simp⟩
  | @cons done done' c calls e log text _ _ haccepts _ ih =>
    obtain ⟨hlength, more, rfl, rfl, hreadable⟩ := ih
    exact ⟨congrArg (· + 1) hlength, (c, text) :: more, List.append_assoc .., rfl,
      List.forall_mem_cons.2 ⟨haccepts.readable, hreadable⟩⟩

/-! ## What evaluations see -/

/-- Each evaluation makes a call, once those before it are answered. -/
theorem made_of_traces {before after : List Evaluation} {e : Evaluation}
    (h : (∃ done, Completes inv g evaluator [] calls (before ++ e :: after) done) ∨
      Breaks inv g evaluator [] calls (before ++ e :: after)) :
    ∃ first c later done, calls = first ++ c :: later ∧
      Completes inv g evaluator [] first before done ∧ Made inv g evaluator done c e := by
  rcases h with ⟨done, h⟩ | ⟨first, c, later, log, e', done, rfl, hlog, hfirst, hmade, -⟩
  · obtain ⟨first, later, more, rfl, hfirst, hlater⟩ := h.split
    cases hlater with
    | cons hmade => exact ⟨first, _, _, more, rfl, hfirst, hmade⟩
  · rcases List.eq_nil_or_concat after with rfl | ⟨after, e'', rfl⟩
    · obtain ⟨rfl, heq⟩ := List.append_inj' hlog rfl
      obtain rfl := List.singleton_inj.1 heq
      exact ⟨first, c, later, done, rfl, hfirst, hmade⟩
    · rw [List.concat_eq_append, ← List.cons_append, ← List.append_assoc] at hlog
      obtain ⟨rfl, -⟩ := List.append_inj' hlog rfl
      obtain ⟨first, rest, more, rfl, hbefore, hlater⟩ := hfirst.split
      cases hlater with
      | cons hmade => exact ⟨first, _, _, more, List.append_assoc .., hbefore, hmade⟩

theorem exists_filledBy_iff_left {bindings : List Binding} {later : List Call} {b : Binding}
    (hnodup : (bindings.map Binding.key).Nodup) (hb : b ∈ bindings)
    (hcalls : bindings.flatMap Binding.calls = done.map (·.1) ++ later)
    (hreadable : ∀ a ∈ done, a.1.type.CanRead a.2) :
    (∃ v, b.FilledBy (textsFor done b.key) v) ↔ ∀ c ∈ later, c.key ≠ b.key := by
  have hown := filter_calls hnodup hb
  rw [hcalls, List.filter_append, List.filter_map] at hown
  have htexts : ∀ text ∈ textsFor done b.key, b.type.CanRead text := by
    intro text htext
    obtain ⟨a, ha, rfl⟩ := List.mem_map.1 htext
    have hcall : a.1 ∈ b.calls := hown ▸ List.mem_append_left _ (List.mem_map_of_mem ha)
    rw [← (Binding.of_mem_calls hcall).2]
    exact hreadable a (List.mem_filter.1 ha).1
  have hlength : b.calls.length =
      (textsFor done b.key).length + (later.filter (·.key = b.key)).length := by
    rw [← hown, List.length_append, List.length_map, textsFor, List.length_map]
    rfl
  have hleft : (∀ c ∈ later, c.key ≠ b.key) ↔ (later.filter (·.key = b.key)).length = 0 := by
    simp
  rw [Binding.exists_filledBy_iff htexts, hleft]
  omega

section Bound

variable (hu : inv.usage.Keyed) (hpasses : inv.Passes g)

include hu hpasses

theorem Stands.append {key : String} {v : Value} (h : inv.Stands g done key v)
    (more : List (Call × String)) : inv.Stands g (done ++ more) key v := by
  obtain ⟨bindings, claimed, hsettle⟩ := (inv.exists_settle_iff g).2 hpasses
  obtain ⟨arranged, options, positionals, defaulted, hsettled, rfl⟩ := settled_of_settle hsettle
  rw [hsettled.stands_iff hu] at h ⊢
  rw [Visible, textsFor_append]
  refine h.imp_right ?_
  rintro ⟨b, hb, heq, hfilled⟩
  exact ⟨b, hb, heq, hfilled.append _⟩

/-- What an evaluation sees stands in the end. -/
theorem Completes.stands_of_mem (h : Completes inv g evaluator done calls log done')
    {e : Evaluation} (he : e ∈ log) {key : String} {v : Value} (hv : e.view key = some v) :
    inv.Stands g done' key v := by
  obtain ⟨before, after, rfl⟩ := List.append_of_mem he
  obtain ⟨first, later, more, rfl, -, hlater⟩ := h.split
  cases hlater with
  | cons hmade _ _ hrest =>
    obtain ⟨-, more', rfl, -⟩ := hrest.answers
    rw [List.append_assoc]
    exact ((hmade.sees key v).1 hv).append hu hpasses _

/-- **What stands is the tail and the keys that no call is left for.** -/
theorem Completes.exists_stands_iff (hregulated : inv.Regulated g) {first later : List Call}
    (hcalls : inv.calls g = first ++ later) (h : Completes inv g evaluator [] first log done)
    (key : String) :
    (∃ v, inv.Stands g done key v) ↔ key = tailKey ∧ g.tail.isSome ∨
      inv.Binds g key ∧ ∀ c ∈ later, c.key ≠ key := by
  obtain ⟨bindings, claimed, hsettle⟩ := (inv.exists_settle_iff g).2 hpasses
  obtain ⟨arranged, options, positionals, defaulted, hsettled, rfl⟩ := settled_of_settle hsettle
  have hleft (b : Binding) (hb : b ∈ options ++ positionals ++ defaulted) :
      (∃ v, b.FilledBy (textsFor done b.key) v) ↔ ∀ c ∈ later, c.key ≠ b.key := by
    obtain ⟨-, _, rfl, rfl, hreadable⟩ := h.answers
    exact exists_filledBy_iff_left (hsettled.nodup hu) hb
      ((hsettled.calls_eq hregulated).trans hcalls) hreadable
  simp only [hsettled.stands_iff hu, hsettled.binds_iff, Visible]
  constructor
  · rintro ⟨v, ⟨rfl, htail⟩ | ⟨b, hb, rfl, hv⟩⟩
    · obtain ⟨tokens, htokens, -⟩ := Option.map_eq_some_iff.1 htail
      exact Or.inl ⟨rfl, by rw [htokens]; rfl⟩
    · exact Or.inr ⟨⟨b, hb, rfl⟩, (hleft b hb).1 ⟨v, hv⟩⟩
  · rintro (⟨rfl, htail⟩ | ⟨⟨b, hb, rfl⟩, hnone⟩)
    · obtain ⟨tokens, htokens⟩ := Option.isSome_iff_exists.1 htail
      exact ⟨.tail tokens, Or.inl ⟨rfl, by rw [htokens]; rfl⟩⟩
    · obtain ⟨v, hv⟩ := (hleft b hb).2 hnone
      exact ⟨v, Or.inr ⟨b, hb, rfl, hv⟩⟩

/-- **What each evaluation sees.** -/
theorem sees_of_traces (hregulated : inv.Regulated g)
    (h : (∃ done, Completes inv g evaluator [] (inv.calls g) log done) ∨
      Breaks inv g evaluator [] (inv.calls g) log) {before after : List Evaluation} {e : Evaluation}
    (hlog : log = before ++ e :: after) : inv.Sees g before e := by
  subst hlog
  obtain ⟨first, c, later, done, hcalls, hbefore, hmade⟩ := made_of_traces h
  refine ⟨fun key => ?_, fun earlier hearlier key v hv => ?_⟩
  · have hdrop : (inv.calls g).drop before.length = c :: later := by
      rw [hcalls, hbefore.answers.1, List.drop_left]
    rw [hdrop, ← hbefore.exists_stands_iff hu hpasses hregulated hcalls key]
    exact exists_congr fun v => hmade.sees key v
  · exact (hmade.sees key v).2 (hbefore.stands_of_mem hu hpasses hearlier hv)

end Bound

end Invocation

end Synopsis
