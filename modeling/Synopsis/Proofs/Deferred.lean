import Synopsis.Proofs.Sides
import Synopsis.Proofs.Traces

/-!
# When expressions are evaluated

**Theorem (`Usage.traced_of_finish`).** If anything is wrong with what an invocation has directly,
nothing is evaluated. Otherwise the evaluations are the calls of the invocation, one for each
expression on the command line: those of the options in the order of the usage, then those of the
positionals, up to the first that is not answered. Each of them sees the tail and the keys that no
call is left for, with the values that the environment has in the end.

**Steps.** A step of resolving `Ran` some calls if they are completed by it, or break off where it
fails. A sequence of two steps runs the calls of both (`Ran.bind`), so that resolving is taken apart
as it is written.

**What is seen.** The invariant is that what is seen is what stands. It holds between bindings, but
not within one: once the last expression of a binding is answered its value stands, but it is not
seen until the binding is completed. Before that nothing stands under the key of the binding, since
one of its expressions is open. So the entries of a binding all see what stood before it
(`seen_unfinished_iff`), and completing the binding restores the invariant (`seen_completed_iff`).
-/

namespace Synopsis

namespace Invocation

section Running

variable {inv : Invocation} {g : Gathered} {evaluator : Evaluator} {ready : Dict Value}
  {done done' more : List (Call × String)} {calls calls' : List Call} {s s' : Resolution}

/-! ## Steps -/

/-- The file topic is claimed by what has arrived. -/
def Claims (inv : Invocation) (g : Gathered) (done : List (Call × String)) (s : Resolution) : Prop :=
  claims s.claimed = topicsAmong (inv.arrivalsAfter g done)

/-- What a step comes to that is to make the calls: they are completed, and what it comes to is as
`Q` says, or it fails where the calls break off. -/
inductive Ran {α : Type} (inv : Invocation) (g : Gathered) (evaluator : Evaluator) (s : Resolution)
    (done : List (Call × String)) (calls : List Call)
    (Q : α → Resolution → List (Call × String) → Prop) :
    EStateM.Result InvokeError Resolution α → Prop
  | ok {a : α} {s' : Resolution} {log : List Evaluation} {done' : List (Call × String)}
      (hlog : s'.evaluations = s.evaluations ++ log)
      (hcompletes : Completes inv g evaluator done calls log done')
      (hclaims : inv.Claims g done' s') (hQ : Q a s' done') :
      Ran inv g evaluator s done calls Q (.ok a s')
  | error {e : InvokeError} {s' : Resolution} {log : List Evaluation}
      (hlog : s'.evaluations = s.evaluations ++ log)
      (hbreaks : Breaks inv g evaluator done calls log) :
      Ran inv g evaluator s done calls Q (.error e s')

section Steps

variable {α β : Type} {Q : α → Resolution → List (Call × String) → Prop}
  {R : β → Resolution → List (Call × String) → Prop}

theorem ran_pure (hclaims : inv.Claims g done s) {a : α} (hQ : Q a s done) :
    Ran inv g evaluator s done [] Q ((pure a : Resolving α) s) :=
  .ok (by simp) .nil hclaims hQ

/-- Two steps make the calls of the one and then those of the other. -/
theorem Ran.bind {x : Resolving α} {f : α → Resolving β}
    (h : Ran inv g evaluator s done calls Q (x s))
    (hf : ∀ a s' done', inv.Claims g done' s' → Q a s' done' →
      Ran inv g evaluator s' done' calls' R (f a s')) :
    Ran inv g evaluator s done (calls ++ calls') R ((x >>= f) s) := by
  cases hx : x s with
  | error e s₁ =>
    have heq : (x >>= f) s = .error e s₁ := keeping_bind_error_iff.2 (Or.inl hx)
    rw [hx] at h
    rw [heq]
    cases h with
    | error hlog hbreaks => exact .error hlog (hbreaks.append calls')
  | ok a s₁ =>
    have heq : (x >>= f) s = f a s₁ := by simp [Bind.bind, EStateM.bind, hx]
    rw [hx] at h
    rw [heq]
    cases h with
    | @ok _ _ log₁ done₁ hlog hcompletes hclaims hQ =>
      have hnext := hf a s₁ done₁ hclaims hQ
      cases hy : f a s₁ with
      | error e s₂ =>
        rw [hy] at hnext
        cases hnext with
        | error hlog' hbreaks =>
          exact .error (by rw [hlog', hlog, List.append_assoc]) (hcompletes.breaks hbreaks)
      | ok b s₂ =>
        rw [hy] at hnext
        cases hnext with
        | ok hlog' hcompletes' hclaims' hR =>
          exact .ok (by rw [hlog', hlog, List.append_assoc]) (hcompletes.append hcompletes')
            hclaims' hR

theorem Ran.imp {Q' : α → Resolution → List (Call × String) → Prop}
    {result : EStateM.Result InvokeError Resolution α}
    (h : Ran inv g evaluator s done calls Q result)
    (hQ : ∀ a s' done', Q a s' done' → Q' a s' done') :
    Ran inv g evaluator s done calls Q' result := by
  cases h with
  | ok hlog hcompletes hclaims h => exact .ok hlog hcompletes hclaims (hQ _ _ _ h)
  | error hlog hbreaks => exact .error hlog hbreaks

theorem Ran.bind_pure {x : Resolving α} (h : Ran inv g evaluator s done calls Q (x s)) {f : α → β}
    (hf : ∀ a s' done', Q a s' done' → R (f a) s' done') :
    Ran inv g evaluator s done calls R ((x >>= fun a => pure (f a)) s) := by
  simpa using h.bind fun a s' done' hclaims hQ => ran_pure hclaims (hf a s' done' hQ)

end Steps

/-! ## One binding -/

variable {b : Binding}

theorem topicsAmong_arrivalsAfter (c : Call) (text : String) :
    topicsAmong (inv.arrivalsAfter g (done ++ [(c, text)])) =
      topicsAmong (inv.arrivalsAfter g done) + topicsAmong [(c.type, text)] := by
  simp [arrivalsAfter, Nat.add_assoc]

theorem accepts_iff (hclaims : inv.Claims g done s) (c : Call) (parameter text : String) :
    (∃ v claimed, Claiming.read c.type parameter text s.claimed = .ok (v, claimed)) ↔
      inv.Accepts g done c text := by
  have hwritten : written [(c.type, .text text)] = [(c.type, text)] := rfl
  rw [(Claiming.checks_read c.type parameter text).succeeds_iff, hwritten, hclaims,
    ← topicsAmong_arrivalsAfter]
  constructor
  · rintro ⟨-, hreadable, hclaimed⟩
    exact ⟨hreadable (c.type, text) (by simp), hclaimed⟩
  · intro ⟨hreadable, hclaimed⟩
    exact ⟨trivial, by simpa [Readable] using hreadable, hclaimed⟩

/-- The calls in `more` are answered, all of them for the binding, which is not completed by it. -/
structure Answering (b : Binding) (s : Resolution) (done more : List (Call × String))
    (s' : Resolution) (done' : List (Call × String)) : Prop where
  completed : s'.completed = s.completed
  done_eq : done' = done ++ more
  key_eq : ∀ a ∈ more, a.1.key = b.key

theorem Answering.refl (b : Binding) (s : Resolution) (done : List (Call × String)) :
    Answering b s done [] s done := ⟨rfl, by simp, by simp⟩

theorem Answering.trans {s₁ : Resolution} {done₁ more' : List (Call × String)}
    (h : Answering b s done more s₁ done₁) (h' : Answering b s₁ done₁ more' s' done') :
    Answering b s done (more ++ more') s' done' where
  completed := h'.completed.trans h.completed
  done_eq := by rw [h'.done_eq, h.done_eq, List.append_assoc]
  key_eq := List.forall_mem_append.2 ⟨h.key_eq, h'.key_eq⟩

variable (evaluator ready b)

theorem ran_resolveEntry_deferred (hclaims : inv.Claims g done s)
    (hsees : ∀ key v, seen ready s key = some v ↔ inv.Stands g done key v) (expression : String) :
    Ran inv g evaluator s done [⟨b.key, b.type, expression⟩]
      (fun v s' done' => ∃ text, b.type.Reads text v ∧
        Answering b s done [(⟨b.key, b.type, expression⟩, text)] s' done')
      (resolveEntry evaluator ready b (.deferred expression) s) := by
  have hmade : Made inv g evaluator done ⟨b.key, b.type, expression⟩
      ⟨expression, seen ready s, evaluator expression (seen ready s)⟩ := ⟨rfl, rfl, hsees⟩
  rw [resolveEntry_deferred_eq]
  cases hanswer : evaluator expression (seen ready s) with
  | error complaint =>
    rw [hanswer] at hmade
    exact .error rfl ⟨[], _, [], [], _, done, rfl, rfl, .nil, hmade, by simp⟩
  | ok text =>
    rw [hanswer] at hmade
    have haccepts := accepts_iff hclaims ⟨b.key, b.type, expression⟩ b.parameter text
    simp only
    cases hclaiming : claiming (Claiming.read b.type b.parameter text)
        { s with evaluations := s.evaluations ++ [⟨expression, seen ready s, .ok text⟩] } with
    | error e s' =>
      obtain ⟨hread, rfl⟩ := claiming_error_iff.1 hclaiming
      refine .error rfl ⟨[], _, [], [], _, done, rfl, rfl, .nil, hmade, fun text' heq h => ?_⟩
      obtain rfl := Except.ok.inj heq
      obtain ⟨v, claimed, hok⟩ := haccepts.2 h
      exact absurd (hok.symm.trans hread) (by simp)
    | ok v s' =>
      obtain ⟨claimed, hread, rfl⟩ := claiming_ok_iff.1 hclaiming
      refine .ok rfl (.cons hmade rfl (haccepts.1 ⟨v, claimed, hread⟩) .nil) ?_
        ⟨text, Claiming.reads_of_read hread, rfl, rfl, by simp⟩
      unfold Claims
      rw [topicsAmong_arrivalsAfter, ← hclaims]
      exact (Claiming.takes_read b.type b.parameter text).of_ok hread

theorem ran_resolveEntry (hclaims : inv.Claims g done s) (entry : Entry)
    (hsees : entry.expression? ≠ none →
      ∀ key v, seen ready s key = some v ↔ inv.Stands g done key v) :
    Ran inv g evaluator s done (entry.expression?.toList.map (⟨b.key, b.type, ·⟩))
      (fun v s' done' => ∃ more, Answering b s done more s' done' ∧
        more.length = entry.expression?.toList.length ∧
        entry.FilledBy b.type (more.map (·.2)) v)
      (resolveEntry evaluator ready b entry s) := by
  cases entry with
  | ready value => exact ran_pure hclaims ⟨[], .refl b s done, rfl, rfl⟩
  | deferred expression =>
    have hsees' := hsees (by simp [Entry.expression?])
    refine (ran_resolveEntry_deferred evaluator ready b hclaims hsees' expression).imp ?_
    intro v s' done' h
    obtain ⟨text, hreads, hanswering⟩ := h
    exact ⟨_, hanswering, rfl, hreads⟩

/-- What resolving entries comes to: the texts fill them. Before the last of their expressions is
answered, what is seen stays as it is. -/
theorem ran_mapM (hclaims : inv.Claims g done s) (entries : List Entry)
    (hsees : ∀ more, (∀ a ∈ more, a.1.key = b.key) →
      more.length < (entries.filterMap Entry.expression?).length →
      ∀ key v, seen ready s key = some v ↔ inv.Stands g (done ++ more) key v) :
    Ran inv g evaluator s done
      ((entries.filterMap Entry.expression?).map (⟨b.key, b.type, ·⟩))
      (fun values s' done' => ∃ more, Answering b s done more s' done' ∧
        Fills b.type entries (more.map (·.2)) values)
      (entries.mapM (resolveEntry evaluator ready b) s) := by
  induction entries generalizing s done with
  | nil => exact ran_pure hclaims ⟨[], .refl b s done, .nil⟩
  | cons entry entries ih =>
    have hexpressions : (entry :: entries).filterMap Entry.expression? =
        entry.expression?.toList ++ entries.filterMap Entry.expression? := by
      cases entry <;> rfl
    rw [hexpressions, List.length_append] at hsees
    rw [hexpressions, List.mapM_cons, List.map_append]
    refine (ran_resolveEntry evaluator ready b hclaims entry fun hne => ?_).bind
      fun v s₁ done₁ hclaims₁ h => ?_
    · simpa using hsees [] (by simp) (by cases hexpression : entry.expression? <;> simp_all)
    · obtain ⟨more, hanswering, hlength, hfilled⟩ := h
      refine (ih hclaims₁ fun more' hkey hlt => ?_).bind_pure fun values s₂ done₂ h => ?_
      · have hsees' := hsees (more ++ more') (List.forall_mem_append.2 ⟨hanswering.key_eq, hkey⟩)
          (by rw [List.length_append]; omega)
        rw [hanswering.done_eq, List.append_assoc]
        unfold seen at hsees' ⊢
        rwa [hanswering.completed]
      · obtain ⟨more', hanswering', hfills⟩ := h
        refine ⟨more ++ more', hanswering.trans hanswering', ?_⟩
        rw [List.map_append]
        exact Entry.FilledBy.cons_append hfilled (by rw [List.length_map, hlength]) hfills

theorem ran_slot (hclaims : inv.Claims g done s) (entries : Slot Entry)
    (hsees : ∀ more, (∀ a ∈ more, a.1.key = b.key) →
      more.length < (entries.values.filterMap Entry.expression?).length →
      ∀ key v, seen ready s key = some v ↔ inv.Stands g (done ++ more) key v) :
    Ran inv g evaluator s done
      ((entries.values.filterMap Entry.expression?).map (⟨b.key, b.type, ·⟩))
      (fun values s' done' => ∃ more, Answering b s done more s' done' ∧
        entries.FilledBy b.type (more.map (·.2)) values)
      (entries.mapM (resolveEntry evaluator ready b) s) := by
  cases entries with
  | list entries =>
    refine (ran_mapM evaluator ready b hclaims entries hsees).bind_pure fun values s' done' h => ?_
    obtain ⟨more, hanswering, hfills⟩ := h
    exact ⟨more, hanswering, .list hfills⟩
  | single entry =>
    have hexpressions : [entry].filterMap Entry.expression? = entry.expression?.toList := by
      cases entry <;> rfl
    rw [Slot.values_single, hexpressions] at hsees ⊢
    refine (ran_resolveEntry evaluator ready b hclaims entry fun hne => ?_).bind_pure
      fun v s' done' h => ?_
    · simpa using hsees [] (by simp) (by cases hexpression : entry.expression? <;> simp_all)
    · obtain ⟨more, hanswering, -, hfilled⟩ := h
      exact ⟨more, hanswering, .single hfilled⟩

/-! ## All bindings -/

section Bindings

variable {b} {bindings : List Binding} {tail : Option (List Token)}

section Standing

variable {ready} (hstands : ∀ done key v, inv.Stands g done key v ↔ Visible bindings tail done key v)
  (hmore : ∀ a ∈ more, a.1.key = b.key)
include hstands hmore

theorem stands_append_of_ne {key : String} (hne : b.key ≠ key) (v : Value) :
    inv.Stands g (done ++ more) key v ↔ inv.Stands g done key v := by
  rw [hstands, hstands]
  refine visible_congr ?_
  rw [textsFor_append, textsFor_eq_nil fun a ha => (hmore a ha).trans_ne hne, List.append_nil]

variable (hnodup : (bindings.map Binding.key).Nodup) (hb : b ∈ bindings) (htail : b.key ≠ tailKey)
  (hfresh : ∀ a ∈ done, a.1.key ≠ b.key)
include hnodup hb htail hfresh

theorem stands_append_own (v : Value) :
    inv.Stands g (done ++ more) b.key v ↔ b.FilledBy (more.map (·.2)) v := by
  rw [hstands, visible_own hnodup hb htail, textsFor_append, textsFor_eq_nil hfresh,
    textsFor_eq_map hmore, List.nil_append]

theorem not_stands_of_lt (hlt : more.length < b.calls.length) (v : Value) :
    ¬inv.Stands g (done ++ more) b.key v := by
  rw [stands_append_own hstands hmore hnodup hb htail hfresh]
  intro hfilled
  have hlength := hfilled.length_le
  rw [List.length_map] at hlength
  omega

/-- Until its last call is answered, nothing stands under the key of the binding. -/
theorem seen_unfinished_iff (hsees : ∀ key v, seen ready s key = some v ↔ inv.Stands g done key v)
    (hlt : more.length < b.calls.length) (key : String) (v : Value) :
    seen ready s key = some v ↔ inv.Stands g (done ++ more) key v := by
  rw [hsees]
  by_cases heq : b.key = key
  · subst heq
    have hnone : ([] : List (Call × String)).length < b.calls.length := Nat.zero_lt_of_lt hlt
    have hbefore := not_stands_of_lt hstands (by simp) hnodup hb htail hfresh hnone v
    rw [List.append_nil] at hbefore
    exact iff_of_false hbefore (not_stands_of_lt hstands hmore hnodup hb htail hfresh hlt v)
  · exact (stands_append_of_ne hstands hmore heq v).symm

/-- Completing a binding shows what stands under its key. -/
theorem seen_completed_iff (hsees : ∀ key v, seen ready s key = some v ↔ inv.Stands g done key v)
    {value : Value} (hvalue : b.FilledBy (more.map (·.2)) value) (key : String) (v : Value) :
    ((s.completed.insert b.key value).get? key).or (ready.get? key) = some v ↔
      inv.Stands g (done ++ more) key v := by
  rw [Dict.get?_insert]
  by_cases heq : b.key = key
  · subst heq
    rw [if_pos rfl, stands_append_own hstands hmore hnodup hb htail hfresh, Option.some_or,
      Option.some.injEq]
    exact ⟨fun h => h ▸ hvalue, fun h => hvalue.unique h⟩
  · rw [if_neg heq, stands_append_of_ne hstands hmore heq]
    exact hsees key v

end Standing

/-- What resolving a binding comes to: what is seen afterwards is what stands. -/
theorem ran_resolveBinding
    (hstands : ∀ done key v, inv.Stands g done key v ↔ Visible bindings tail done key v)
    (hnodup : (bindings.map Binding.key).Nodup) (hb : b ∈ bindings) (htail : b.key ≠ tailKey)
    (hclaims : inv.Claims g done s) (hfresh : ∀ a ∈ done, a.1.key ≠ b.key)
    (hsees : ∀ key v, seen ready s key = some v ↔ inv.Stands g done key v) :
    Ran inv g evaluator s done b.calls
      (fun _ s' done' => (∃ more, done' = done ++ more ∧ ∀ a ∈ more, a.1.key = b.key) ∧
        ∀ key v, seen ready s' key = some v ↔ inv.Stands g done' key v)
      (resolveBinding evaluator ready b s) := by
  unfold resolveBinding
  cases hbound : b.bound with
  | ready value =>
    have hcalls : b.calls = [] := by rw [Binding.calls, hbound]
    rw [hcalls]
    exact ran_pure hclaims ⟨⟨[], by simp, by simp⟩, hsees⟩
  | pending entries =>
    have hcalls : b.calls =
        (entries.values.filterMap Entry.expression?).map (⟨b.key, b.type, ·⟩) := by
      rw [Binding.calls, hbound]
    have hslot := ran_slot evaluator ready b hclaims entries fun more hmore hlt =>
      seen_unfinished_iff hstands hmore hnodup hb htail hfresh hsees
        (by rwa [hcalls, List.length_map])
    rw [← hcalls] at hslot
    rw [← List.append_nil b.calls]
    refine hslot.bind fun values s₁ done₁ hclaims₁ h => ?_
    obtain ⟨more, ⟨hcompleted, rfl, hmore⟩, hfilled⟩ := h
    have hvalue : b.FilledBy (more.map (·.2)) (values.collect b.type) := by
      unfold Binding.FilledBy
      rw [hbound]
      exact ⟨values, hfilled, rfl⟩
    refine .ok (List.append_nil _).symm .nil hclaims₁ ⟨⟨more, rfl, hmore⟩, fun key v => ?_⟩
    show ((s₁.completed.insert b.key _).get? key).or _ = _ ↔ _
    rw [hcompleted]
    exact seen_completed_iff hstands hmore hnodup hb htail hfresh hsees hvalue key v

/-- **What resolving comes to**: the calls for the bindings are made one after the other, and each
sees what stands by then. -/
theorem ran_resolve
    (hstands : ∀ done key v, inv.Stands g done key v ↔ Visible bindings tail done key v)
    (hnodup : (bindings.map Binding.key).Nodup) (htail : ∀ b ∈ bindings, b.key ≠ tailKey)
    {later : List Binding} (hlater : later.Sublist bindings) (hclaims : inv.Claims g done s)
    (hfresh : ∀ a ∈ done, ∀ b ∈ later, a.1.key ≠ b.key)
    (hsees : ∀ key v, seen ready s key = some v ↔ inv.Stands g done key v) :
    Ran inv g evaluator s done (later.flatMap Binding.calls)
      (fun _ s' done' => ∀ key v, seen ready s' key = some v ↔ inv.Stands g done' key v)
      (resolve evaluator ready later s) := by
  induction later generalizing s done with
  | nil => exact ran_pure hclaims hsees
  | cons b later ih =>
    have hb : b ∈ bindings := hlater.subset (by simp)
    have hkeys := hnodup.sublist (hlater.map Binding.key)
    rw [List.map_cons, List.nodup_cons] at hkeys
    rw [List.flatMap_cons]
    refine (ran_resolveBinding evaluator ready hstands hnodup hb (htail b hb) hclaims
      (fun a ha => hfresh a ha b (by simp)) hsees).bind fun _ s₁ done₁ hclaims₁ h => ?_
    obtain ⟨⟨more, rfl, hmore⟩, hsees₁⟩ := h
    refine ih ((List.sublist_cons_self b later).trans hlater) hclaims₁ ?_ hsees₁
    rw [List.forall_mem_append]
    refine ⟨fun a ha b' hb' => hfresh a ha b' (by simp [hb']), fun a ha b' hb' heq => ?_⟩
    exact hkeys.1 ((hmore a ha).symm.trans heq ▸ List.mem_map_of_mem hb')

/-- Before anything is evaluated, what is ready is seen, and the tail. -/
theorem seen_direct_iff (hnodup : (bindings.map Binding.key).Nodup)
    (htail : ∀ b ∈ bindings, b.key ≠ tailKey) (hready : ∀ b ∈ bindings, b.calls = [] → b.IsReady)
    (claimed : Option String) (key : String) (v : Value) :
    seen (direct bindings tail) { claimed } key = some v ↔ Visible bindings tail [] key v := by
  show (direct bindings tail).get? key = some v ↔ _
  by_cases hkey : key = tailKey
  · rw [hkey, get?_direct_tailKey hnodup htail tail]
    constructor
    · exact fun h => Or.inl ⟨rfl, h⟩
    · rintro (⟨-, h⟩ | ⟨b, hb, heq, -⟩)
      · exact h
      · exact absurd heq (htail b hb)
  rw [get?_direct bindings tail hkey]
  obtain ⟨hbound, hunbound⟩ := get?_foldl_enterReady hnodup Dict.empty key
  by_cases howned : ∃ b ∈ bindings, b.key = key
  · obtain ⟨b, hb, rfl⟩ := howned
    rw [visible_own hnodup hb hkey]
    by_cases hb' : b.IsReady
    · obtain ⟨value, hvalue⟩ := hb'
      rw [hbound b hb rfl value hvalue, Binding.FilledBy, hvalue]
      simp [eq_comm]
    · refine iff_of_false ?_ fun hfilled => hb' (hready b hb ?_)
      · rw [hunbound fun b' hb'' heq => ?_]
        · simp
        · rwa [List.inj_on_of_nodup_map hnodup hb'' hb heq]
      · exact List.length_eq_zero_iff.1 (Nat.le_zero.1 hfilled.length_le)
  · rw [hunbound fun b hb heq => absurd ⟨b, hb, heq⟩ howned]
    refine iff_of_false (by simp) ?_
    rintro (⟨heq, -⟩ | ⟨b, hb, heq, -⟩)
    · exact hkey heq
    · exact howned ⟨b, hb, heq⟩

end Bindings

/-! ## Invocations -/

theorem claims_of_settle {bindings : List Binding} {claimed : Option String}
    (h : settle inv.usage inv.defaults g none = .ok (bindings, claimed)) :
    inv.Claims g [] { claimed } := by
  have hclaims := (checks_settle inv g).of_ok h
  rw [claims_none, Nat.zero_add] at hclaims
  simpa [Claims, arrivalsAfter] using hclaims

theorem error_of_not_passes (h : ¬inv.Passes g) (evaluator : Evaluator) :
    (inv.outcome g evaluator).evaluations = [] ∧
      ∃ e, (inv.outcome g evaluator).result = .error e := by
  cases hsettle : settle inv.usage inv.defaults g none with
  | error e => exact ⟨by simp [outcome, hsettle], e, by simp [outcome, hsettle]⟩
  | ok result => exact absurd ((inv.exists_settle_iff g).1 ⟨_, _, hsettle⟩) h

theorem Stands.ne_positionalsKey (hu : inv.usage.Keyed) {key : String} {v : Value}
    (h : inv.Stands g done key v) : key ≠ positionalsKey := by
  cases h with
  | option ho => exact (hu.optionKeys _ ho).ne_positionalsKey
  | dealt => exact positionalKey_ne_positionalsKey _
  | defaulted => exact positionalKey_ne_positionalsKey _
  | tail => decide

/-- **What an invocation evaluates**, once nothing that it has directly is wrong. -/
theorem traced_of_outcome (hu : inv.usage.Keyed) (hregulated : inv.Regulated g)
    (hpasses : inv.Passes g) (evaluator : Evaluator) :
    (∃ env done, (inv.outcome g evaluator).result = .ok env ∧
      Completes inv g evaluator [] (inv.calls g) (inv.outcome g evaluator).evaluations done ∧
      ∀ key v, inv.Stands g done key v → env.get? key = some v) ∨
    ∃ e, (inv.outcome g evaluator).result = .error e ∧
      Breaks inv g evaluator [] (inv.calls g) (inv.outcome g evaluator).evaluations := by
  obtain ⟨bindings, claimed, hsettle⟩ := (inv.exists_settle_iff g).2 hpasses
  obtain ⟨arranged, options, positionals, defaulted, hsettled, rfl⟩ := settled_of_settle hsettle
  have hnodup := hsettled.nodup hu
  have htail := hsettled.key_ne_tailKey hu
  have hready := hsettled.isReady_of_calls
  have hstands (done : List (Call × String)) (key : String) (v : Value) :=
    @Settled.stands_iff inv g _ _ _ _ done key v hsettled hu
  have hran := ran_resolve evaluator _ hstands hnodup htail (List.Sublist.refl _)
    (claims_of_settle hsettle) (by simp) fun key v =>
      (seen_direct_iff hnodup htail hready claimed key v).trans (hstands [] key v).symm
  rw [hsettled.calls_eq hregulated] at hran
  unfold outcome
  simp only [hsettle]
  generalize resolve evaluator (direct (options ++ positionals ++ defaulted) g.tail)
    (options ++ positionals ++ defaulted) { claimed } = result at hran ⊢
  cases hran with
  | error hlog hbreaks =>
    obtain rfl := hlog.symm
    exact Or.inr ⟨_, rfl, hbreaks⟩
  | @ok _ s' _ done hlog hcompletes _ hsees =>
    obtain rfl := hlog.symm
    refine Or.inl ⟨_, done, rfl, hcompletes, fun key v hv =>
      get?_publish_of_some (hv.ne_positionalsKey hu) ?_⟩
    rw [Dict.get?_extend]
    exact (hsees key v).2 hv

end Running

theorem tolerates_of_foldlM_feed {inv inv' : Invocation} {g g' : Gathered}
    {occurrences : List Occurrence} (hg : inv.gathered = some g)
    (htolerated : inv.usage.Tolerates g.occurrences)
    (h : occurrences.foldlM feed inv = .ok inv') (hg' : inv'.gathered = some g') :
    inv.usage.Tolerates g'.occurrences := by
  induction occurrences generalizing inv g with
  | nil =>
    obtain rfl := by simpa using h
    obtain rfl := Option.some.inj (hg.symm.trans hg')
    exact htolerated
  | cons occurrence occurrences ih =>
    rw [List.foldlM_cons, failing_bind_ok_iff] at h
    obtain ⟨inv₁, hfirst, hrest⟩ := h
    obtain ⟨_, g₁, hg₁, hadd, rfl⟩ := feed_ok_iff.1 hfirst
    obtain rfl := Option.some.inj (hg.symm.trans hg₁)
    have hadmits := (Gathered.exists_add_iff htolerated).1 ⟨g₁, hadd⟩
    exact @ih { inv with gathered := some g₁ } g₁ rfl
      (hadmits.tolerates_after (Gathered.after_of_add hadd)) hrest

end Invocation

namespace Usage

variable {text : String} {r r' : Registry} {u : Usage} {tokens : List Token}
  {defaults : Dict DefaultValue} {inv : Invocation}

theorem regulated_of_fed (h : compile text r = .ok u r') (herror : (u.scan tokens).error = none)
    {g : Gathered}
    (hfed : (u.scan tokens).occurrences.foldlM Invocation.feed { usage := u, defaults } =
      .ok { usage := u, defaults, gathered := some g }) :
    Invocation.Regulated { usage := u, defaults, gathered := some g } g := by
  obtain ⟨g', heq, hafter⟩ := Invocation.after_of_foldlM_feed rfl hfed
  obtain rfl : g = g' := by simpa using heq
  have hempty : u.Tolerates (Gathered.occurrences {}) := fun _ _ _ _ => Nat.zero_le _
  have htolerated := Invocation.tolerates_of_foldlM_feed rfl hempty hfed rfl
  refine ⟨fun o ho _ hflag payload hpayload => ?_, fun o ho hrecurs => ?_⟩
  · rw [hafter.named] at hpayload
    have hcarries := carries_of_scan h herror ho payload hpayload
    cases payload with
    | implied on => rfl
    | text written => rfl
    | deferred expression =>
      have hnone : o.isFlag = false := hcarries
      simp [hflag] at hnone
  · exact htolerated o.key o (option?_of_mem h ho) hrecurs

/-- The calls are the expressions on the command line: those of the options, in the order of the
usage, and then those of the positionals. -/
theorem expressions_of_calls (h : compile text r = .ok u r') {g : Gathered}
    (hafter : Gathered.After {} (u.scan tokens).occurrences g)
    (hinv : inv.usage = u) (harranged : ∃ slots, u.layout.arrange g.positionals = .ok slots) :
    (inv.calls g).map Call.expression =
      (u.options.flatMap fun o =>
        ((u.scan tokens).payloads o.key).filterMap Payload.expression?) ++
      (u.scan tokens).positionals.filterMap Payload.expression? := by
  subst hinv
  obtain ⟨slots, harrange⟩ := harranged
  obtain ⟨-, hassigns, -⟩ := Layout.arrange_sound (fits_of_compile h) harrange
  have hdealt : slots.flatMap (fun s => s.2.values.filterMap Payload.expression?) =
      (inv.usage.scan tokens).positionals.filterMap Payload.expression? := by
    rw [← List.filterMap_flatMap, hassigns.all]
    exact congrArg _ hafter.positionals
  rw [Invocation.calls, Invocation.slots_eq harrange, List.map_append, List.map_flatMap,
    List.map_flatMap]
  simp only [expressions_callsFor]
  rw [hdealt]
  refine congrArg (· ++ _) (List.flatMap_congr fun o _ => ?_)
  rw [hafter.named]
  rfl

/-- **Expressions are evaluated once each, in the order of declaration, and after everything that is
direct.** Where a command line is fed, whatever the host defaults and the evaluator are:

* nothing is evaluated if anything direct is wrong;
* otherwise the calls are the expressions on the command line, first those of the options in the
  order of the usage, each option's as they occur, and then those of the positionals;
* the evaluations make all of the calls and there is an environment, or they break off at the first
  call that the evaluator fails on or whose answer cannot be read, and there is none;
* each evaluation sees the tail and the keys that are bound and that no call is left for, and a value
  that is seen is the final one. -/
theorem traced_of_finish (h : compile text r = .ok u r') (herror : (u.scan tokens).error = none)
    (hfed : (u.scan tokens).occurrences.foldlM Invocation.feed { usage := u, defaults } = .ok inv)
    (evaluator : Evaluator) :
    ∃ g, inv.gathered = some g ∧
      (¬inv.Passes g → (inv.finish evaluator).1.evaluations = [] ∧
        ∃ e, (inv.finish evaluator).1.result = .error e) ∧
      (inv.Passes g →
        (inv.calls g).map Call.expression =
          (u.options.flatMap fun o =>
            ((u.scan tokens).payloads o.key).filterMap Payload.expression?) ++
          (u.scan tokens).positionals.filterMap Payload.expression? ∧
        ((∃ env done, (inv.finish evaluator).1.result = .ok env ∧
            inv.Completes g evaluator [] (inv.calls g) (inv.finish evaluator).1.evaluations done ∧
            ∀ e ∈ (inv.finish evaluator).1.evaluations, ∀ key v, e.view key = some v →
              env.get? key = some v) ∨
          ∃ e, (inv.finish evaluator).1.result = .error e ∧
            inv.Breaks g evaluator [] (inv.calls g) (inv.finish evaluator).1.evaluations) ∧
        ∀ before e after, (inv.finish evaluator).1.evaluations = before ++ e :: after →
          inv.Sees g before e) := by
  have hu := keyed_of_compile h
  obtain ⟨g, rfl, hafter⟩ := Invocation.after_of_foldlM_feed rfl hfed
  have hregulated := regulated_of_fed h herror hfed
  refine ⟨g, rfl, fun hfails => Invocation.error_of_not_passes hfails evaluator, fun hpasses => ?_⟩
  refine ⟨expressions_of_calls h hafter rfl hpasses.arranged, ?_⟩
  rcases Invocation.traced_of_outcome hu hregulated hpasses evaluator with
    ⟨env, done, hresult, hcompletes, hfinal⟩ | ⟨e, hresult, hbreaks⟩
  · refine ⟨Or.inl ⟨env, done, hresult, hcompletes, fun e he key v hv => ?_⟩, fun before e after => ?_⟩
    · exact hfinal key v (hcompletes.stands_of_mem hu hpasses he hv)
    · exact Invocation.sees_of_traces hu hpasses hregulated (Or.inl ⟨done, hcompletes⟩)
  · refine ⟨Or.inr ⟨e, hresult, hbreaks⟩, fun before e after => ?_⟩
    exact Invocation.sees_of_traces hu hpasses hregulated (Or.inr hbreaks)

/-- Options before a positional that is written first, and a list of which one element waits. -/
theorem traced_positionalFirst :
    ∃ u r' inv g env done, compile "[--n=INT]... [--m=STR] STR" Registry.standard = .ok u r' ∧
      (u.scan [⟨.positionalExpression, "p"⟩, ⟨.name, "--m"⟩, ⟨.namedExpression, "q"⟩,
        ⟨.name, "--n"⟩, ⟨.namedValue, "1"⟩, ⟨.name, "--n"⟩,
        ⟨.namedExpression, "2"⟩]).occurrences.foldlM Invocation.feed { usage := u } = .ok inv ∧
      inv.gathered = some g ∧
      (inv.finish fun expression _ => .ok expression).1.result = .ok env ∧
      (inv.calls g).map Call.expression = ["2", "q", "p"] ∧
      inv.Completes g (fun expression _ => .ok expression) [] (inv.calls g)
        (inv.finish fun expression _ => .ok expression).1.evaluations done := by
  obtain ⟨u, r', inv, env, hcompile, hfed, henv, hsatisfied⟩ :=
    @exists_of_run "[--n=INT]... [--m=STR] STR"
      [⟨.positionalExpression, "p"⟩, ⟨.name, "--m"⟩, ⟨.namedExpression, "q"⟩,
        ⟨.name, "--n"⟩, ⟨.namedValue, "1"⟩, ⟨.name, "--n"⟩, ⟨.namedExpression, "2"⟩]
      Dict.empty (fun expression _ => .ok expression)
      (fun u _ =>
        let scanned := u.scan [⟨.positionalExpression, "p"⟩, ⟨.name, "--m"⟩, ⟨.namedExpression, "q"⟩,
          ⟨.name, "--n"⟩, ⟨.namedValue, "1"⟩, ⟨.name, "--n"⟩, ⟨.namedExpression, "2"⟩]
        scanned.error.isNone &&
          (u.options.flatMap fun o => (scanned.payloads o.key).filterMap Payload.expression?) ++
            scanned.positionals.filterMap Payload.expression? = ["2", "q", "p"])
      (by decide +kernel)
  simp only [Bool.and_eq_true, Option.isNone_iff_eq_none, decide_eq_true_eq] at hsatisfied
  obtain ⟨herror, hexpressions⟩ := hsatisfied
  obtain ⟨g, hg, hfails, hpasses⟩ :=
    traced_of_finish hcompile herror hfed fun expression _ => .ok expression
  by_cases hdirect : inv.Passes g
  · obtain ⟨hcalls, ⟨env', done, -, hcompletes, -⟩ | ⟨e, hresult, -⟩, -⟩ := hpasses hdirect
    · exact ⟨u, r', inv, g, env, done, hcompile, hfed, hg, henv, hcalls.trans hexpressions, hcompletes⟩
    · exact absurd (henv.symm.trans hresult) (by simp)
  · obtain ⟨-, e, hresult⟩ := hfails hdirect
    exact absurd (henv.symm.trans hresult) (by simp)

end Usage

end Synopsis
