import Synopsis.Invocation.Resolving
import Synopsis.Proofs.Bindings
import Synopsis.Proofs.Dictionaries

/-!
# What resolving comes to

Resolving computes each pending binding from its entries and leaves every other key alone, so that
the values of an invocation are those of its bindings, one by one (`valued_of_resolve`). What an
expression sees on the way does not matter here: any answer of the evaluator is read by the type of
the parameter it is for.
-/

namespace Synopsis

/-- What an entry comes to, an expression by some answer to it. -/
def Entry.Resolves (evaluator : Evaluator) (type : ValueType) : Entry → Value → Prop
  | .ready value, v => v = value
  | .deferred expression, v =>
    ∃ view text, evaluator expression view = .ok text ∧ type.Reads text v

/-- The value that a binding comes to. -/
def Binding.Gets (evaluator : Evaluator) (b : Binding) (v : Value) : Prop :=
  match b.bound with
  | .ready value => v = value
  | .pending entries =>
    ∃ values, entries.Rel (Entry.Resolves evaluator b.type) values ∧ v = values.collect b.type

/-- The binding is ready. -/
def Binding.IsReady (b : Binding) : Prop := ∃ value, b.bound = .ready value

theorem reads_all_of_mapM_value? {entries : List Entry} {values : List Value}
    (h : entries.mapM Entry.value? = some values) : entries = values.map Entry.ready := by
  induction entries generalizing values with
  | nil =>
    obtain rfl := by simpa using h
    rfl
  | cons entry entries ih =>
    simp only [List.mapM_cons, Option.bind_eq_bind, Option.bind_eq_some_iff] at h
    obtain ⟨value, hvalue, values, hvalues, h⟩ := h
    obtain rfl := by simpa using h
    cases entry with
    | ready v =>
      obtain rfl := by simpa [Entry.value?] using hvalue
      rw [ih hvalues, List.map_cons]
    | deferred expression => simp [Entry.value?] at hvalue

theorem Binding.gets_ofEntries {evaluator : Evaluator} {b : Binding} {entries : Slot Entry}
    {v : Value} (hb : b.bound = .ofEntries b.type entries) (h : b.Gets evaluator v) :
    ∃ values, entries.Rel (Entry.Resolves evaluator b.type) values ∧ v = values.collect b.type := by
  unfold Binding.Gets at h
  rw [hb] at h
  cases entries with
  | single entry =>
    cases entry with
    | ready value => exact ⟨.single value, .single rfl, h⟩
    | deferred expression => exact h
  | list entries =>
    unfold Bound.ofEntries at h
    cases hvalues : entries.mapM Entry.value? with
    | some values =>
      simp only [hvalues] at h
      refine ⟨.list values, .list ?_, h⟩
      rw [reads_all_of_mapM_value? hvalues, List.forall₂_map_left_iff]
      exact List.forall₂_same.2 fun _ _ => rfl
    | none =>
      simp only [hvalues] at h
      exact h

namespace Invocation

variable {evaluator : Evaluator} {ready : Dict Value} {b : Binding} {s s' : Resolution}

theorem claiming_ok_iff {α : Type} {step : Claiming α} {a : α} :
    claiming step s = .ok a s' ↔
      ∃ claimed, step s.claimed = .ok (a, claimed) ∧ s' = { s with claimed } := by
  unfold claiming
  cases step s.claimed with
  | ok result =>
    obtain ⟨a', claimed⟩ := result
    simp only [EStateM.Result.ok.injEq, Except.ok.injEq, Prod.mk.injEq]
    constructor
    · rintro ⟨rfl, rfl⟩
      exact ⟨claimed, ⟨rfl, rfl⟩, rfl⟩
    · rintro ⟨_, ⟨rfl, rfl⟩, rfl⟩
      exact ⟨rfl, rfl⟩
  | error e => simp

theorem claiming_error_iff {α : Type} {step : Claiming α} {e : InvokeError} {s s' : Resolution} :
    claiming step s = .error e s' ↔ step s.claimed = .error e ∧ s' = s := by
  unfold claiming
  cases step s.claimed <;> simp [eq_comm]

/-! ## One binding -/

/-- What an expression sees: the pending bindings that are resolved, and what is ready. -/
def seen (ready : Dict Value) (s : Resolution) : View :=
  fun key => (s.completed.get? key).or (ready.get? key)

/-- Resolving an expression is calling the evaluator once, with what is seen by then, and reading
its answer. -/
theorem resolveEntry_deferred_eq (expression : String) :
    resolveEntry evaluator ready b (.deferred expression) s =
      match evaluator expression (seen ready s) with
      | .error complaint => .error (.bind (.evaluation b.parameter complaint))
          { s with evaluations := s.evaluations ++
            [⟨expression, seen ready s, .error complaint⟩] }
      | .ok text => claiming (Claiming.read b.type b.parameter text)
          { s with evaluations := s.evaluations ++ [⟨expression, seen ready s, .ok text⟩] } := by
  unfold seen
  cases hanswer : evaluator expression fun key => (s.completed.get? key).or (ready.get? key) <;>
    simp [resolveEntry, bind, EStateM.bind, get, getThe, MonadStateOf.get, EStateM.get, modify,
      modifyGet, MonadStateOf.modifyGet, EStateM.modifyGet, hanswer, throw, throwThe,
      MonadExceptOf.throw, EStateM.throw]

theorem resolveEntry_deferred (expression : String) :
    ∃ view, resolveEntry evaluator ready b (.deferred expression) s =
      match evaluator expression view with
      | .error complaint => .error (.bind (.evaluation b.parameter complaint))
          { s with evaluations := s.evaluations ++ [⟨expression, view, .error complaint⟩] }
      | .ok text => claiming (Claiming.read b.type b.parameter text)
          { s with evaluations := s.evaluations ++ [⟨expression, view, .ok text⟩] } :=
  ⟨seen ready s, resolveEntry_deferred_eq expression⟩

theorem answered_of_resolveEntry {expression : String} {v : Value}
    (h : resolveEntry evaluator ready b (.deferred expression) s = .ok v s') :
    ∃ view text claimed, evaluator expression view = .ok text ∧
      Claiming.read b.type b.parameter text s.claimed = .ok (v, claimed) ∧
      s' = { s with claimed, evaluations := s.evaluations ++ [⟨expression, view, .ok text⟩] } := by
  obtain ⟨view, hview⟩ := @resolveEntry_deferred evaluator ready b s expression
  rw [hview] at h
  cases hanswer : evaluator expression view with
  | error complaint => simp [hanswer] at h
  | ok text =>
    simp only [hanswer] at h
    obtain ⟨claimed, hread, rfl⟩ := claiming_ok_iff.1 h
    exact ⟨view, text, claimed, hanswer, hread, rfl⟩

theorem resolves_of_resolveEntry {entry : Entry} {v : Value}
    (h : resolveEntry evaluator ready b entry s = .ok v s') :
    entry.Resolves evaluator b.type v ∧ s'.completed = s.completed := by
  cases entry with
  | ready value =>
    obtain ⟨rfl, rfl⟩ := keeping_pure_ok_iff.1 h
    exact ⟨rfl, rfl⟩
  | deferred expression =>
    obtain ⟨view, text, claimed, hanswer, hread, rfl⟩ := answered_of_resolveEntry h
    exact ⟨⟨view, text, hanswer, Claiming.reads_of_read hread⟩, rfl⟩

theorem resolves_of_mapM {entries : List Entry} {values : List Value}
    (h : entries.mapM (resolveEntry evaluator ready b) s = .ok values s') :
    List.Forall₂ (Entry.Resolves evaluator b.type) entries values ∧
      s'.completed = s.completed := by
  induction entries generalizing s values with
  | nil =>
    obtain ⟨rfl, rfl⟩ := by simpa using h
    exact ⟨.nil, rfl⟩
  | cons entry entries ih =>
    simp only [List.mapM_cons, keeping_bind_ok_iff, keeping_pure_ok_iff] at h
    obtain ⟨v, s₁, hv, values, s₂, hvalues, rfl, rfl⟩ := h
    obtain ⟨hv, hcompleted⟩ := resolves_of_resolveEntry hv
    obtain ⟨hvalues, hcompleted'⟩ := ih hvalues
    exact ⟨.cons hv hvalues, hcompleted'.trans hcompleted⟩

theorem resolves_of_slot_mapM {entries : Slot Entry} {values : Slot Value}
    (h : entries.mapM (resolveEntry evaluator ready b) s = .ok values s') :
    entries.Rel (Entry.Resolves evaluator b.type) values ∧ s'.completed = s.completed := by
  cases entries with
  | single entry =>
    simp only [Slot.mapM, keeping_bind_ok_iff, keeping_pure_ok_iff] at h
    obtain ⟨v, s₁, hv, rfl, rfl⟩ := h
    exact (resolves_of_resolveEntry hv).imp_left .single
  | list entries =>
    simp only [Slot.mapM, keeping_bind_ok_iff, keeping_pure_ok_iff] at h
    obtain ⟨vs, s₁, hvs, rfl, rfl⟩ := h
    exact (resolves_of_mapM hvs).imp_left .list

/-- Resolving a binding does nothing, or completes it. -/
theorem gets_of_resolveBinding (h : resolveBinding evaluator ready b s = .ok () s') :
    b.IsReady ∧ s' = s ∨
      ¬b.IsReady ∧ ∃ v, b.Gets evaluator v ∧ s'.completed = s.completed.insert b.key v := by
  unfold resolveBinding at h
  unfold Binding.IsReady Binding.Gets
  cases hbound : b.bound with
  | ready value =>
    rw [hbound] at h
    obtain ⟨-, rfl⟩ := keeping_pure_ok_iff.1 h
    exact Or.inl ⟨⟨value, rfl⟩, rfl⟩
  | pending entries =>
    simp only [hbound, keeping_bind_ok_iff, keeping_modify_ok_iff] at h
    obtain ⟨values, s₁, hvalues, -, rfl⟩ := h
    obtain ⟨hvalues, hcompleted⟩ := resolves_of_slot_mapM hvalues
    refine Or.inr ⟨by simp, _, ⟨values, hvalues, rfl⟩, ?_⟩
    rw [← hcompleted]

/-! ## All bindings -/

/-- What resolving bindings comes to: each pending one has its value under its key, and what stands
under any other key stays. -/
theorem completed_of_resolve {bindings : List Binding}
    (hnodup : (bindings.map Binding.key).Nodup)
    (h : resolve evaluator ready bindings s = .ok () s') :
    (∀ b ∈ bindings, ¬b.IsReady → ∃ v, s'.completed.get? b.key = some v ∧ b.Gets evaluator v) ∧
      ∀ key, (∀ b ∈ bindings, b.key = key → b.IsReady) →
        s'.completed.get? key = s.completed.get? key := by
  induction bindings generalizing s with
  | nil =>
    obtain ⟨-, rfl⟩ := keeping_pure_ok_iff.1 h
    exact ⟨by simp, by simp⟩
  | cons b bindings ih =>
    rw [List.map_cons, List.nodup_cons] at hnodup
    simp only [resolve, keeping_bind_ok_iff] at h
    obtain ⟨_, s₁, hb, hrest⟩ := h
    -- no later binding has this key
    have hlater (b' : Binding) (hb' : b' ∈ bindings) : b'.key ≠ b.key := fun heq =>
      hnodup.1 (heq ▸ List.mem_map_of_mem hb')
    rcases gets_of_resolveBinding hb with ⟨hready, rfl⟩ | ⟨hpending, v, hv, hcompleted⟩
    · obtain ⟨hgets, hother⟩ := ih hnodup.2 hrest
      refine ⟨?_, fun key hkey => hother key fun b' hb' => hkey b' (by simp [hb'])⟩
      intro b' hb' hpending
      rcases List.mem_cons.1 hb' with rfl | hb'
      · exact absurd hready hpending
      · exact hgets b' hb' hpending
    · obtain ⟨hgets, hother⟩ := ih hnodup.2 hrest
      constructor
      · intro b' hb' hpending'
        rcases List.mem_cons.1 hb' with rfl | hb'
        · refine ⟨v, ?_, hv⟩
          rw [hother _ fun b'' hb'' heq => absurd heq (hlater b'' hb''), hcompleted,
            Dict.get?_insert, if_pos rfl]
        · exact hgets b' hb' hpending'
      · intro key hkey
        have hne : b.key ≠ key := fun heq => hpending (hkey b (by simp) heq)
        rw [hother key fun b' hb' => hkey b' (by simp [hb']), hcompleted, Dict.get?_insert,
          if_neg hne]

/-! ## The values of an invocation -/

/-- The values of an invocation: what each binding gets under its key, the tail, and nothing else. -/
structure Valued (evaluator : Evaluator) (bindings : List Binding) (tail : Option (List Token))
    (values : Dict Value) : Prop where
  of_binding : ∀ b ∈ bindings, ∃ v, values.get? b.key = some v ∧ b.Gets evaluator v
  of_tail : values.get? tailKey = tail.map Value.tail
  only : ∀ key, key ≠ tailKey → (∀ b ∈ bindings, b.key ≠ key) → values.get? key = none

/-- A ready binding enters its value. -/
def enterReady (d : Dict Value) (b : Binding) : Dict Value :=
  match b.bound with
  | .ready value => d.insert b.key value
  | .pending _ => d

theorem direct_eq (bindings : List Binding) (tail : Option (List Token)) :
    direct bindings tail =
      match tail with
      | some tokens => (bindings.foldl enterReady Dict.empty).insert tailKey (.tail tokens)
      | none => bindings.foldl enterReady Dict.empty := rfl

theorem get?_foldl_enterReady {bindings : List Binding} (hnodup : (bindings.map Binding.key).Nodup)
    (d : Dict Value) (key : String) :
    (∀ b ∈ bindings, b.key = key → ∀ v, b.bound = .ready v →
        (bindings.foldl enterReady d).get? key = some v) ∧
      ((∀ b ∈ bindings, b.key = key → ¬b.IsReady) →
        (bindings.foldl enterReady d).get? key = d.get? key) := by
  induction bindings generalizing d with
  | nil => simp
  | cons b bindings ih =>
    rw [List.map_cons, List.nodup_cons] at hnodup
    rw [List.foldl_cons]
    refine ⟨?_, ?_⟩
    · intro b' hb' heq v hv
      rcases List.mem_cons.1 hb' with rfl | hb'
      · -- no later binding has this key
        have hlater (b'' : Binding) (hb'' : b'' ∈ bindings) : b''.key ≠ key := fun heq' =>
          hnodup.1 (heq.trans heq'.symm ▸ List.mem_map_of_mem hb'')
        rw [(ih hnodup.2 _).2 fun b'' hb'' heq' => absurd heq' (hlater b'' hb'')]
        simp [enterReady, hv, heq]
      · exact (ih hnodup.2 _).1 b' hb' heq v hv
    · intro hpending
      rw [(ih hnodup.2 _).2 fun b' hb' => hpending b' (by simp [hb'])]
      cases hbound : b.bound with
      | ready value =>
        have hne : b.key ≠ key := fun heq => hpending b (by simp) heq ⟨value, hbound⟩
        simp [enterReady, hbound, hne]
      | pending entries => simp [enterReady, hbound]

theorem get?_direct (bindings : List Binding) (tail : Option (List Token)) {key : String}
    (hkey : key ≠ tailKey) :
    (direct bindings tail).get? key = (bindings.foldl enterReady Dict.empty).get? key := by
  rw [direct_eq]
  cases tail with
  | none => rfl
  | some tokens => rw [Dict.get?_insert, if_neg (Ne.symm hkey)]

theorem get?_direct_tailKey {bindings : List Binding} (hnodup : (bindings.map Binding.key).Nodup)
    (htail : ∀ b ∈ bindings, b.key ≠ tailKey) (tail : Option (List Token)) :
    (direct bindings tail).get? tailKey = tail.map Value.tail := by
  rw [direct_eq]
  cases tail with
  | none =>
    exact (get?_foldl_enterReady hnodup Dict.empty tailKey).2 fun b hb heq =>
      absurd heq (htail b hb)
  | some tokens => simp

/-- **The values are those of the bindings**, once every pending one is resolved. -/
theorem valued_of_resolve {bindings : List Binding} (hnodup : (bindings.map Binding.key).Nodup)
    (htail : ∀ b ∈ bindings, b.key ≠ tailKey) {tail : Option (List Token)}
    {claimed : Option String}
    (h : resolve evaluator (direct bindings tail) bindings { claimed } = .ok () s') :
    Valued evaluator bindings tail ((direct bindings tail).extend s'.completed) := by
  obtain ⟨hgets, hother⟩ := completed_of_resolve hnodup h
  have hget := Dict.get?_extend (direct bindings tail) s'.completed
  refine ⟨?_, ?_, ?_⟩
  · intro b hb
    rw [hget]
    by_cases hready : b.IsReady
    · obtain ⟨v, hv⟩ := hready
      have hunresolved : s'.completed.get? b.key = none := by
        refine hother b.key fun b' hb' heq => ?_
        obtain rfl := List.inj_on_of_nodup_map hnodup hb' hb heq
        exact ⟨v, hv⟩
      refine ⟨v, ?_, ?_⟩
      · rw [hunresolved, get?_direct bindings tail (htail b hb)]
        exact (get?_foldl_enterReady hnodup Dict.empty b.key).1 b hb rfl v hv
      · unfold Binding.Gets
        rw [hv]
    · obtain ⟨v, hv, hgets⟩ := hgets b hb hready
      exact ⟨v, by rw [hv]; rfl, hgets⟩
  · rw [hget, hother tailKey fun b hb heq => absurd heq (htail b hb)]
    exact get?_direct_tailKey hnodup htail tail
  · intro key hkey hne
    rw [hget, hother key fun b hb heq => absurd heq (hne b hb), get?_direct bindings tail hkey]
    exact (get?_foldl_enterReady hnodup Dict.empty key).2 fun b hb heq => absurd heq (hne b hb)

end Invocation

end Synopsis
