import Synopsis.Proofs.Checks

/-!
# The file topic is bound once

**Theorem (`Invocation.topic_boundOnce`).** Where the host and the usage bring no file topic into
an invocation, an environment holds at most one under the keys that its parameters bind. If two of
the texts that arrive at parameters are read as the file topic, the invocation fails, and it
complains of the second only if there are two.

The argument counts claims. Settling `Takes` the payloads that parameters are read from: it makes a
claim for each of them that is read as the file topic, and complains of a claim only where it would
be the second. A step on the resolution `Awaits` answers in the same way, and so do two in sequence.
So what an invocation claims is what arrives (`Invocation.claims_of_outcome`), and a claim is made at
most once.

The topics that are bound are no more than the claims: settling binds what the payloads account for,
and resolving adds no topic without a claim (`Invocation.topics_of_resolve`).
-/

namespace Synopsis

/-! ## Steps that await answers -/

/-- The text that an evaluation answers with. -/
def Evaluation.arrivals (t : ValueType) (e : Evaluation) : List (ValueType × String) :=
  match e.answer with
  | .ok text => [(t, text)]
  | .error _ => []

/-- The texts that an evaluator answers with, each for the type that awaits it. -/
def answered : List ValueType → List Evaluation → List (ValueType × String)
  | t :: types, e :: log => e.arrivals t ++ answered types log
  | _, _ => []

theorem answered_append {types : List ValueType} {log : List Evaluation}
    (h : log.length = types.length) (types' : List ValueType) (log' : List Evaluation) :
    answered (types ++ types') (log ++ log') = answered types log ++ answered types' log' := by
  induction types generalizing log with
  | nil =>
    obtain rfl := List.length_eq_zero_iff.1 h
    rfl
  | cons t types ih =>
    obtain ⟨e, log, rfl⟩ := List.exists_cons_of_length_eq_add_one h
    rw [List.cons_append, List.cons_append, answered, answered, ih (by simpa using h),
      List.append_assoc]

theorem topicsAmong_answered_le (types types' : List ValueType) (log : List Evaluation) :
    topicsAmong (answered types log) ≤ topicsAmong (answered (types ++ types') log) := by
  induction types generalizing log with
  | nil => simp [answered]
  | cons t types ih =>
    cases log with
    | nil => simp [answered]
    | cons e log =>
      rw [List.cons_append, answered, answered, topicsAmong_append, topicsAmong_append]
      exact Nat.add_le_add_left (ih log) _

namespace Invocation

section Awaits

variable {α β : Type} {types types' : List ValueType}

/-- The step evaluates an expression for each of the types, claims the file topic for those answers
that are read as it, and complains of a claim only where it would be the second. -/
structure Awaits (types : List ValueType) (step : Resolving α) : Prop where
  of_ok : ∀ {s a s'}, step s = .ok a s' → ∃ log, log.length = types.length ∧
    s'.evaluations = s.evaluations ++ log ∧
    claims s'.claimed = claims s.claimed + topicsAmong (answered types log)
  of_error : ∀ {s e s'}, step s = .error e s' → e.IsReuse → ∃ log,
    s'.evaluations = s.evaluations ++ log ∧
    2 ≤ claims s.claimed + topicsAmong (answered types log)

theorem awaits_pure (a : α) : Awaits [] (pure a : Resolving α) where
  of_ok h := by
    obtain ⟨-, rfl⟩ := keeping_pure_ok_iff.1 h
    exact ⟨[], rfl, by simp, rfl⟩
  of_error h := by simp [pure, EStateM.pure] at h

theorem awaits_modify {f : Resolution → Resolution}
    (hf : ∀ s, (f s).evaluations = s.evaluations ∧ (f s).claimed = s.claimed) :
    Awaits [] (modify f : Resolving PUnit) where
  of_ok {s _ s'} h := by
    obtain rfl := keeping_modify_ok_iff.1 h
    exact ⟨[], rfl, by simp [(hf s).1], by rw [(hf s).2]; rfl⟩
  of_error h := by simp [modify, modifyGet, MonadStateOf.modifyGet, EStateM.modifyGet] at h

theorem Awaits.bind {step : Resolving α} {f : α → Resolving β} (h : Awaits types step)
    (hf : ∀ a, Awaits types' (f a)) : Awaits (types ++ types') (step >>= f) where
  of_ok hok := by
    obtain ⟨a, s₁, ha, hb⟩ := keeping_bind_ok_iff.1 hok
    obtain ⟨log, hlength, hlog, hclaims⟩ := h.of_ok ha
    obtain ⟨log', hlength', hlog', hclaims'⟩ := (hf a).of_ok hb
    refine ⟨log ++ log', by simp [hlength, hlength'], by simp [hlog', hlog], ?_⟩
    rw [hclaims', hclaims, answered_append hlength, topicsAmong_append, Nat.add_assoc]
  of_error herror hreuse := by
    rcases keeping_bind_error_iff.1 herror with herror | ⟨a, s₁, ha, herror⟩
    · obtain ⟨log, hlog, hclaims⟩ := h.of_error herror hreuse
      have := topicsAmong_answered_le types types' log
      exact ⟨log, hlog, by omega⟩
    · obtain ⟨log, hlength, hlog, hclaims⟩ := h.of_ok ha
      obtain ⟨log', hlog', hclaims'⟩ := (hf a).of_error herror hreuse
      refine ⟨log ++ log', by simp [hlog', hlog], ?_⟩
      rw [answered_append hlength, topicsAmong_append]
      omega

theorem Awaits.bind_pure {step : Resolving α} (h : Awaits types step) (f : α → β) :
    Awaits types (step >>= fun a => pure (f a)) := by
  simpa using h.bind fun a => awaits_pure (f a)

theorem awaits_mapM {f : α → Resolving β} {ts : α → List ValueType} (hf : ∀ a, Awaits (ts a) (f a))
    (as : List α) : Awaits (as.flatMap ts) (as.mapM f) := by
  induction as with
  | nil => exact awaits_pure []
  | cons a as ih =>
    rw [List.mapM_cons, List.flatMap_cons]
    exact (hf a).bind fun b => ih.bind_pure (b :: ·)

end Awaits

variable (evaluator : Evaluator) (ready : Dict Value)

theorem awaits_resolveEntry (b : Binding) (entry : Entry) :
    Awaits (entry.awaited b.type) (resolveEntry evaluator ready b entry) := by
  cases entry with
  | ready value => exact awaits_pure value
  | deferred expression =>
    -- what the log holds once the answer is there
    have hanswered (text : String) (view : View) :
        topicsAmong (answered [b.type] [⟨expression, view, .ok text⟩]) =
          topicsAmong (written [(b.type, .text text)]) := rfl
    constructor
    · intro s v s' h
      obtain ⟨view, text, claimed, -, hread, rfl⟩ := answered_of_resolveEntry h
      refine ⟨[⟨expression, view, .ok text⟩], rfl, rfl, ?_⟩
      rw [Entry.awaited, hanswered]
      exact (Claiming.takes_read b.type b.parameter text).of_ok hread
    · intro s e s' h hreuse
      obtain ⟨view, hview⟩ := @resolveEntry_deferred evaluator ready b s expression
      rw [hview] at h
      cases hanswer : evaluator expression view with
      | error complaint =>
        obtain ⟨first, second, rfl⟩ := hreuse
        simp [hanswer] at h
      | ok text =>
        simp only [hanswer] at h
        obtain ⟨hread, rfl⟩ := claiming_error_iff.1 h
        refine ⟨[⟨expression, view, .ok text⟩], rfl, ?_⟩
        rw [Entry.awaited, hanswered]
        exact (Claiming.takes_read b.type b.parameter text).of_error hread hreuse

theorem awaits_slot (b : Binding) (entries : Slot Entry) :
    Awaits (entries.values.flatMap (Entry.awaited b.type))
      (entries.mapM (resolveEntry evaluator ready b)) := by
  cases entries with
  | single entry =>
    rw [Slot.values_single, List.flatMap_singleton]
    exact (awaits_resolveEntry evaluator ready b entry).bind_pure Slot.single
  | list entries => exact (awaits_mapM (awaits_resolveEntry evaluator ready b) entries).bind_pure _

theorem awaits_resolveBinding (b : Binding) :
    Awaits b.awaited (resolveBinding evaluator ready b) := by
  unfold resolveBinding Binding.awaited
  cases b.bound with
  | ready value => exact awaits_pure ()
  | pending entries =>
    show Awaits (entries.values.flatMap (Entry.awaited b.type)) (_ >>= _)
    rw [← List.append_nil (entries.values.flatMap _)]
    exact (awaits_slot evaluator ready b entries).bind fun values =>
      awaits_modify fun s => ⟨rfl, rfl⟩

/-- **Resolving evaluates what the bindings await**, and claims the file topic for the answers. -/
theorem awaits_resolve (bindings : List Binding) :
    Awaits (bindings.flatMap Binding.awaited) (resolve evaluator ready bindings) := by
  induction bindings with
  | nil => exact awaits_pure ()
  | cons b bindings ih => exact (awaits_resolveBinding evaluator ready b).bind fun _ => ih

end Invocation

/-! ## The topics of a dictionary -/

namespace Dict

/-- The topics in all values of a dictionary. -/
def topics (d : Dict Value) : Nat := (d.entries.map (·.2.topics)).sum

theorem topics_insert_le (d : Dict Value) (key : String) (v : Value) :
    (d.insert key v).topics ≤ d.topics + v.topics := by
  show ((insertEntry key v d.entries).map (·.2.topics)).sum ≤
    (d.entries.map (·.2.topics)).sum + v.topics
  induction d.entries with
  | nil => simp [insertEntry]
  | cons e es ih =>
    rw [insertEntry]
    split_ifs <;> simp only [List.map_cons, List.sum_cons] <;> omega

theorem topics_extend_le (d e : Dict Value) : (d.extend e).topics ≤ d.topics + e.topics := by
  show (e.entries.foldl (fun d entry => d.insert entry.1 entry.2) d).topics ≤
    d.topics + (e.entries.map (·.2.topics)).sum
  induction e.entries generalizing d with
  | nil => simp
  | cons entry es ih =>
    rw [List.foldl_cons, List.map_cons, List.sum_cons]
    have := ih (d.insert entry.1 entry.2)
    have := topics_insert_le d entry.1 entry.2
    omega

theorem contains_extend {α : Type} {d e : Dict α} {key : String}
    (h : d.contains key ∨ e.contains key) : (d.extend e).contains key := by
  rw [contains, get?_extend, Option.isSome_or, Bool.or_eq_true]
  exact h.symm

theorem sum_map_ite_le {keys : List String} (hkeys : keys.Nodup) (key : String) (n : Nat) :
    (keys.map fun k => if key = k then n else 0).sum ≤ n := by
  induction keys with
  | nil => simp
  | cons k keys ih =>
    rw [List.nodup_cons] at hkeys
    rw [List.map_cons, List.sum_cons]
    by_cases heq : key = k
    · -- no later key is this one
      have hnone : keys.map (fun k' => if key = k' then n else 0) = keys.map fun _ => 0 :=
        List.map_congr_left fun k' hk' => if_neg fun h => hkeys.1 (by rwa [← heq, h])
      rw [if_pos heq, hnone]
      simp
    · simpa [heq] using ih hkeys.2

/-- The topics under distinct keys are among those of the dictionary. -/
theorem sum_topics_le (d : Dict Value) {keys : List String} (hkeys : keys.Nodup) :
    (keys.map fun key => ((d.get? key).map Value.topics).getD 0).sum ≤ d.topics := by
  show (keys.map fun key => ((findEntry key d.entries).map Value.topics).getD 0).sum ≤
    (d.entries.map (·.2.topics)).sum
  induction d.entries with
  | nil => simp [findEntry]
  | cons e es ih =>
    have hsplit (key : String) : ((findEntry key (e :: es)).map Value.topics).getD 0 ≤
        (if e.1 = key then e.2.topics else 0) + ((findEntry key es).map Value.topics).getD 0 := by
      rw [findEntry]
      split_ifs <;> simp
    calc _ ≤ (keys.map fun key => (if e.1 = key then e.2.topics else 0) +
            ((findEntry key es).map Value.topics).getD 0).sum :=
          List.sum_le_sum fun key _ => hsplit key
      _ = (keys.map fun key => if e.1 = key then e.2.topics else 0).sum +
            (keys.map fun key => ((findEntry key es).map Value.topics).getD 0).sum :=
          List.sum_map_add
      _ ≤ _ := by
          rw [List.map_cons, List.sum_cons]
          exact Nat.add_le_add (sum_map_ite_le hkeys e.1 _) ih

end Dict

/-! ## The topics that are bound -/

namespace Invocation

variable {evaluator : Evaluator} {ready : Dict Value} {b : Binding} {s s' : Resolution}

theorem topics_of_resolveEntry (hb : b.type.Over Primitive.TopicFree) {entry : Entry} {v : Value}
    (h : resolveEntry evaluator ready b entry s = .ok v s') :
    v.topics + claims s.claimed = entry.topics + claims s'.claimed := by
  cases entry with
  | ready value =>
    obtain ⟨rfl, rfl⟩ := keeping_pure_ok_iff.1 h
    rfl
  | deferred expression =>
    obtain ⟨view, text, claimed, -, hread, rfl⟩ := answered_of_resolveEntry h
    have hclaims := (Claiming.takes_read b.type b.parameter text).of_ok hread
    have htopics := ValueType.topics_of_reads hb (Claiming.reads_of_read hread)
    have hwritten : written [(b.type, .text text)] = [(b.type, text)] := rfl
    rw [hwritten, ← htopics] at hclaims
    simp only [Entry.topics]
    omega

theorem topics_of_mapM (hb : b.type.Over Primitive.TopicFree) {entries : List Entry}
    {values : List Value}
    (h : entries.mapM (resolveEntry evaluator ready b) s = .ok values s') :
    Value.topicsOf values + claims s.claimed =
      (entries.map Entry.topics).sum + claims s'.claimed := by
  induction entries generalizing s values with
  | nil =>
    obtain ⟨rfl, rfl⟩ := by simpa using h
    rfl
  | cons entry entries ih =>
    simp only [List.mapM_cons, keeping_bind_ok_iff, keeping_pure_ok_iff] at h
    obtain ⟨v, s₁, hv, values, s₂, hvalues, rfl, rfl⟩ := h
    have := topics_of_resolveEntry hb hv
    have := ih hvalues
    simp only [Value.topicsOf, List.map_cons, List.sum_cons]
    omega

/-- What a slot is collected to holds no more topics than its entries and the claims made. -/
theorem topics_of_slot (hb : b.type.Over Primitive.TopicFree) {entries : Slot Entry}
    {values : Slot Value} (h : entries.mapM (resolveEntry evaluator ready b) s = .ok values s') :
    (values.collect b.type).topics + claims s.claimed ≤
      (entries.values.map Entry.topics).sum + claims s'.claimed := by
  cases entries with
  | single entry =>
    simp only [Slot.mapM, keeping_bind_ok_iff, keeping_pure_ok_iff] at h
    obtain ⟨v, s₁, hv, rfl, rfl⟩ := h
    simpa [Slot.collect] using (topics_of_resolveEntry hb hv).le
  | list entries =>
    simp only [Slot.mapM, keeping_bind_ok_iff, keeping_pure_ok_iff] at h
    obtain ⟨vs, s₁, hvs, rfl, rfl⟩ := h
    exact (Nat.add_le_add_right (ValueType.topics_collect_le hb vs) _).trans
      (topics_of_mapM hb hvs).le

theorem topics_of_resolveBinding (hb : b.type.Over Primitive.TopicFree)
    (h : resolveBinding evaluator ready b s = .ok () s') :
    s'.completed.topics + claims s.claimed ≤
      s.completed.topics + b.topicsHeld + claims s'.claimed := by
  unfold resolveBinding at h
  unfold Binding.topicsHeld
  cases hbound : b.bound with
  | ready value =>
    rw [hbound] at h
    obtain ⟨-, rfl⟩ := keeping_pure_ok_iff.1 h
    exact le_rfl
  | pending entries =>
    simp only [hbound, keeping_bind_ok_iff, keeping_modify_ok_iff] at h
    obtain ⟨values, s₁, hvalues, -, rfl⟩ := h
    have hcompleted := (resolves_of_slot_mapM hvalues).2
    have := topics_of_slot hb hvalues
    have := Dict.topics_insert_le s₁.completed b.key (values.collect b.type)
    rw [← hcompleted]
    simp only
    omega

/-- **Resolving adds no topic without a claim.** -/
theorem topics_of_resolve {bindings : List Binding}
    (hbindings : ∀ b ∈ bindings, b.type.Over Primitive.TopicFree)
    (h : resolve evaluator ready bindings s = .ok () s') :
    s'.completed.topics + claims s.claimed ≤
      s.completed.topics + (bindings.map Binding.topicsHeld).sum + claims s'.claimed := by
  induction bindings generalizing s with
  | nil =>
    obtain ⟨-, rfl⟩ := keeping_pure_ok_iff.1 h
    exact le_rfl
  | cons b bindings ih =>
    rw [List.forall_mem_cons] at hbindings
    simp only [resolve, keeping_bind_ok_iff] at h
    obtain ⟨_, s₁, hb, hrest⟩ := h
    have := topics_of_resolveBinding hbindings.1 hb
    have := ih hbindings.2 hrest
    rw [List.map_cons, List.sum_cons]
    omega

theorem topics_foldl_enterReady (bindings : List Binding) (d : Dict Value) :
    (bindings.foldl enterReady d).topics ≤ d.topics + (bindings.map Binding.topicsReady).sum := by
  induction bindings generalizing d with
  | nil => simp
  | cons b bindings ih =>
    have hb : (enterReady d b).topics ≤ d.topics + b.topicsReady := by
      unfold enterReady Binding.topicsReady
      cases b.bound with
      | ready value => exact Dict.topics_insert_le d b.key value
      | pending entries => exact le_rfl
    rw [List.foldl_cons, List.map_cons, List.sum_cons]
    have := ih (enterReady d b)
    omega

theorem topics_direct_le (bindings : List Binding) (tail : Option (List Token)) :
    (direct bindings tail).topics ≤ (bindings.map Binding.topicsReady).sum := by
  have hready : (bindings.foldl enterReady Dict.empty).topics ≤ _ :=
    topics_foldl_enterReady bindings Dict.empty
  have hempty : (Dict.empty : Dict Value).topics = 0 := rfl
  rw [direct_eq]
  cases tail with
  | none => simpa [hempty] using hready
  | some tokens =>
    have := Dict.topics_insert_le (bindings.foldl enterReady Dict.empty) tailKey (.tail tokens)
    simp only [Value.topics] at this ⊢
    omega

/-! ### The keys that are bound -/

theorem contains_foldl_enterReady {bindings : List Binding} {d : Dict Value} {key : String}
    (h : d.contains key ∨ ∃ b ∈ bindings, b.key = key ∧ b.IsReady) :
    (bindings.foldl enterReady d).contains key := by
  induction bindings generalizing d with
  | nil => simpa using h
  | cons b bindings ih =>
    rw [List.foldl_cons]
    refine ih ?_
    rcases h with hd | ⟨b', hb', hkey, hready⟩
    · left
      unfold enterReady
      cases b.bound with
      | ready value =>
        rw [Dict.contains, Dict.get?_insert]
        split_ifs
        · rfl
        · exact hd
      | pending entries => exact hd
    · rcases List.mem_cons.1 hb' with rfl | hb'
      · obtain ⟨value, hvalue⟩ := hready
        exact Or.inl (by simp [enterReady, hvalue, hkey, Dict.contains])
      · exact Or.inr ⟨b', hb', hkey, hready⟩

theorem contains_direct {bindings : List Binding} {tail : Option (List Token)} {key : String}
    (h : ∃ b ∈ bindings, b.key = key ∧ b.IsReady) : (direct bindings tail).contains key := by
  have hready := contains_foldl_enterReady (d := Dict.empty) (Or.inr h)
  rw [direct_eq]
  cases tail with
  | none => exact hready
  | some tokens =>
    show Dict.contains (Dict.insert _ tailKey _) key
    rw [Dict.contains, Dict.get?_insert]
    split_ifs
    · rfl
    · exact hready

theorem contains_of_resolve {bindings : List Binding} {key : String}
    (h : resolve evaluator ready bindings s = .ok () s')
    (hkey : s.completed.contains key ∨ ∃ b ∈ bindings, b.key = key ∧ ¬b.IsReady) :
    s'.completed.contains key := by
  induction bindings generalizing s with
  | nil =>
    obtain ⟨-, rfl⟩ := keeping_pure_ok_iff.1 h
    simpa using hkey
  | cons b bindings ih =>
    simp only [resolve, keeping_bind_ok_iff] at h
    obtain ⟨_, s₁, hb, hrest⟩ := h
    refine ih hrest ?_
    rcases gets_of_resolveBinding hb with ⟨hready, rfl⟩ | ⟨hpending, v, -, hcompleted⟩
    · refine hkey.imp_right ?_
      rintro ⟨b', hb', hb''⟩
      rcases List.mem_cons.1 hb' with rfl | hb'
      · exact absurd hready hb''.2
      · exact ⟨b', hb', hb''⟩
    · rw [hcompleted, Dict.contains, Dict.get?_insert]
      by_cases heq : b.key = key
      · exact Or.inl (by simp [heq])
      · rw [if_neg heq]
        refine hkey.imp_right ?_
        rintro ⟨b', hb', hb''⟩
        rcases List.mem_cons.1 hb' with rfl | hb'
        · exact absurd hb''.1 heq
        · exact ⟨b', hb', hb''⟩

theorem contains_of_binding {bindings : List Binding} {tail : Option (List Token)}
    (h : resolve evaluator (direct bindings tail) bindings s = .ok () s') {b : Binding}
    (hb : b ∈ bindings) : ((direct bindings tail).extend s'.completed).contains b.key := by
  refine Dict.contains_extend ?_
  by_cases hready : b.IsReady
  · exact Or.inl (contains_direct ⟨b, hb, rfl, hready⟩)
  · exact Or.inr (contains_of_resolve h (Or.inr ⟨b, hb, rfl, hready⟩))

/-! ## Invocations -/

/-- The texts that arrive at the parameters of an invocation, with these answers. -/
def arrivals (inv : Invocation) (g : Gathered) (log : List Evaluation) :
    List (ValueType × String) :=
  written (inv.payloadsRead g) ++ answered (awaited (inv.payloadsRead g)) log

variable {inv : Invocation} {g : Gathered} {env : Environment}
  {arranged : List (Parameter × Slot Payload)} {options positionals defaulted : List Binding}

theorem over_of_settled (hinv : inv.TopicFree)
    (h : Settled inv.usage inv.defaults g arranged options positionals defaulted) :
    ∀ b ∈ options ++ positionals ++ defaulted, b.type.Over Primitive.TopicFree := by
  intro b hb
  rcases h.mem_cases hb with ⟨o, ho, hsettles⟩ | ⟨s, hs, entries, -, rfl⟩ | ⟨p, hp, hdefaults⟩
  · rw [hsettles.type_eq]
    exact hinv.of_options o ho
  · exact hinv.of_parameters s.1 (Layout.mem_of_mem_arrange h.of_arrangement hs)
  · cases hdefaults
    exact hinv.of_parameters p hp

/-- **What an invocation claims is what arrives**, and the topics that it binds are no more. -/
theorem claims_of_outcome (hinv : inv.TopicFree)
    (h : (inv.outcome g evaluator).result = .ok env) :
    ∃ values explicit claimed, env = publish inv.usage.layout values explicit ∧
      claims claimed = topicsAmong (inv.arrivals g (inv.outcome g evaluator).evaluations) ∧
      values.topics ≤ claims claimed ∧ ∀ key, inv.Binds g key → values.contains key := by
  obtain ⟨bindings, claimed, s, explicit, hsettle, hresolve, rfl, hlog, -⟩ := resolved_of_outcome h
  obtain ⟨arranged, options, positionals, defaulted, hsettled, rfl⟩ := settled_of_settle hsettle
  have haccounts := accounts_of_settled hsettled hinv
  have hwritten := (checks_settle inv g).of_ok hsettle
  obtain ⟨log, -, hlog', hanswered⟩ := (awaits_resolve evaluator _ _).of_ok hresolve
  rw [claims_none, Nat.zero_add] at hwritten
  rw [hlog', List.nil_append] at hlog
  refine ⟨_, explicit, s.claimed, rfl, ?_, ?_, fun key hkey => ?_⟩
  · rw [hlog, arrivals, topicsAmong_append, hanswered, haccounts.awaited, hwritten]
  · have hresolved := topics_of_resolve (over_of_settled hinv hsettled) hresolve
    have hdirect := topics_direct_le (options ++ positionals ++ defaulted) g.tail
    have hextend := Dict.topics_extend_le (direct (options ++ positionals ++ defaulted) g.tail)
      s.completed
    have hbound := haccounts.topics
    have hempty : (Dict.empty : Dict Value).topics = 0 := rfl
    simp only [hempty] at hresolved
    omega
  · obtain ⟨b, hb, rfl⟩ := hsettled.binds_iff.1 hkey
    exact contains_of_binding hresolve hb

/-- A second claim is complained of only where two of the texts that arrive are read as the file
topic. -/
theorem two_le_of_reuse (hinv : inv.TopicFree) {e : InvokeError}
    (h : (inv.outcome g evaluator).result = .error e) (he : e.IsReuse) :
    2 ≤ topicsAmong (inv.arrivals g (inv.outcome g evaluator).evaluations) := by
  rw [arrivals, topicsAmong_append]
  cases hsettle : settle inv.usage inv.defaults g none with
  | error e' =>
    obtain rfl : e' = e := by simpa [outcome, hsettle] using h
    have := (checks_settle inv g).of_error hsettle he
    rw [claims_none, Nat.zero_add] at this
    omega
  | ok result =>
    obtain ⟨bindings, claimed⟩ := result
    have hwritten := (checks_settle inv g).of_ok hsettle
    rw [claims_none, Nat.zero_add] at hwritten
    cases hresolve : resolve evaluator (direct bindings g.tail) bindings { claimed } with
    | ok _ s => simp [outcome, hsettle, hresolve] at h
    | error e' s =>
      have houtcome : inv.outcome g evaluator =
          { result := .error e', evaluations := s.evaluations } := by
        simp [outcome, hsettle, hresolve]
      rw [houtcome] at h ⊢
      obtain rfl := Except.error.inj h
      obtain ⟨log, hlog, hanswered⟩ := (awaits_resolve evaluator _ _).of_error hresolve he
      obtain ⟨arranged, options, positionals, defaulted, hsettled, rfl⟩ := settled_of_settle hsettle
      rw [(accounts_of_settled hsettled hinv).awaited, hwritten] at hanswered
      rwa [hlog, List.nil_append]

/-- **The file topic is bound once.** Where the host and the usage bring no file topic into an
invocation, whatever it has been fed:

* an environment that it comes to holds at most one under the keys that its parameters bind;
* it fails if two of the texts that arrive at its parameters are read as the file topic, written,
  defaulted or answered;
* it complains of a second claim only if there are two;
* `-` claims nothing where the type does not take it, and is read as any text is. -/
theorem topic_boundOnce (hfed : inv.gathered = some g) (hinv : inv.TopicFree)
    (evaluator : Evaluator) :
    (∀ env, (inv.finish evaluator).1.result = .ok env → ∀ keys : List String, keys.Nodup →
      (∀ key ∈ keys, key ≠ positionalsKey ∧ inv.Binds g key) →
      (keys.map fun key => ((env.get? key).map Value.topics).getD 0).sum ≤ 1) ∧
    (2 ≤ topicsAmong (inv.arrivals g (inv.finish evaluator).1.evaluations) →
      ∃ e, (inv.finish evaluator).1.result = .error e) ∧
    (∀ e, (inv.finish evaluator).1.result = .error e → e.IsReuse →
      2 ≤ topicsAmong (inv.arrivals g (inv.finish evaluator).1.evaluations)) ∧
    ∀ (t : ValueType) (parameter : String) (claimed : Option String), t.takesTopic = false →
      Claiming.read t parameter fileTopic claimed =
        match t.read? fileTopic with
        | some v => .ok (v, claimed)
        | none => .error (.bind (.invalidValue fileTopic parameter t.name t.choices?)) := by
  have hfinish : (inv.finish evaluator).1 = inv.outcome g evaluator := by rw [finish, hfed]
  rw [hfinish]
  refine ⟨fun env henv keys hnodup hkeys => ?_, fun htwice => ?_, fun e he hreuse => ?_, ?_⟩
  · obtain ⟨values, explicit, claimed, rfl, -, htopics, hbound⟩ := claims_of_outcome hinv henv
    have hpublished : ∀ key ∈ keys,
        (publish inv.usage.layout values explicit).get? key = values.get? key := by
      intro key hkey
      obtain ⟨hne, hbinds⟩ := hkeys key hkey
      obtain ⟨v, hv⟩ := Option.isSome_iff_exists.1 (hbound key hbinds)
      rw [hv, get?_publish_of_some hne hv]
    rw [List.map_congr_left fun key hkey => by rw [hpublished key hkey]]
    exact ((values.sum_topics_le hnodup).trans htopics).trans (claims_le_one claimed)
  · cases hresult : (inv.outcome g evaluator).result with
    | error e => exact ⟨e, rfl⟩
    | ok env =>
      obtain ⟨-, -, claimed, -, hclaims, -⟩ := claims_of_outcome hinv hresult
      have := claims_le_one claimed
      omega
  · exact two_le_of_reuse hinv he hreuse
  · intro t parameter claimed htakes
    rw [Claiming.read, if_neg (by simp [htakes])]
    cases t.read? fileTopic <;> rfl

end Invocation

/-! ## A source -/

/-- A text, or the pipeline input. -/
def Primitive.source : Primitive where
  name := "Source"
  convert text := some (.text text)
  holds
    | .text _ => true
    | _ => false
  takesTopic := true

/-- The standard types with sources. -/
def Registry.withSources : Registry := Registry.standard.add Primitive.source

theorem Registry.reachable_withSources : Registry.Reachable Registry.withSources :=
  Registry.reachable_standard.register (p := Primitive.source) rfl

/-- The standard primitives and sources bring no file topic into a value. -/
theorem topicFree_withSources :
    ∀ name t, Registry.withSources.types.get? name = some t → t.Over Primitive.TopicFree := by
  intro name t h
  have hadded : Registry.withSources =
      (Primitive.standard ++ [Primitive.source]).foldl Registry.add Registry.empty := rfl
  rw [hadded] at h
  obtain ⟨p, hp, rfl⟩ := (Registry.get?_foldl_add h).resolve_left (by simp [Registry.empty])
  have hcollector : p.collector = none := by
    fin_cases hp <;> rfl
  refine ValueType.over_primitive.2 ⟨fun text v hv => ?_, by simp [hcollector]⟩
  fin_cases hp
  · obtain rfl : Value.text text = v := Option.some.inj hv
    simp [Value.topics]
  · obtain ⟨n, -, rfl⟩ := Option.map_eq_some_iff.1 hv
    simp [Value.topics]
  · obtain ⟨x, -, rfl⟩ := Option.map_eq_some_iff.1 hv
    simp [Value.topics]
  · obtain ⟨b, -, rfl⟩ := Option.map_eq_some_iff.1 hv
    simp [Value.topics]
  · obtain ⟨n, -, rfl⟩ := Option.map_eq_some_iff.1 hv
    simp [Value.topics]
  · obtain rfl : Value.text text = v := Option.some.inj hv
    simp [Value.topics]

namespace Invocation

/-- A usage that has been fed `--in -` and positionals. -/
def fedIn (u : Usage) (positionals : List Payload) : Invocation where
  usage := u
  gathered := some { named := [("in", .text "-")], positionals }

/-- An option that is bound to the file topic, beside a text, and beside an expression that is
answered with a second one. -/
theorem topic_optionAndExpression :
    ∃ u r', Usage.compile "[--in=SOURCE] SOURCE..." Registry.withSources = .ok u r' ∧
      (∃ env, ((fedIn u [.text "a"]).finish Evaluator.unsupported).1.result = .ok env ∧
        (["in", "$1"].map fun key => ((env.get? key).map Value.topics).getD 0).sum ≤ 1) ∧
      ∃ e, ((fedIn u [.text "a", .deferred "x"]).finish fun _ _ => .ok "-").1.result = .error e := by
  obtain ⟨u, r', hcompile, hcheck⟩ :=
    exists_of_succeedsWith (Usage.compile "[--in=SOURCE] SOURCE..." Registry.withSources)
      (fun u _ =>
        u.options.all (·.default.isNone) &&
        ["in", "$1"].all ((fedIn u [.text "a"]).fills
          { named := [("in", .text "-")], positionals := [.text "a"] }) &&
        ((fedIn u [.text "a"]).finish Evaluator.unsupported).1.result.isOk &&
        2 ≤ topicsAmong ((fedIn u [.text "a", .deferred "x"]).arrivals
          { named := [("in", .text "-")], positionals := [.text "a", .deferred "x"] }
          ((fedIn u [.text "a", .deferred "x"]).finish fun _ _ => .ok "-").1.evaluations))
      (by decide +kernel)
  simp only [Bool.and_eq_true, decide_eq_true_eq, failing_isOk_iff] at hcheck
  obtain ⟨⟨⟨hnone, hfills⟩, env, henv⟩, htwice⟩ := hcheck
  have hsound := Registry.reachable_withSources.sound topicFree_withSources
  obtain ⟨hoptions, hparameters, -⟩ := Usage.sound_of_compile hsound hcompile
  have hfree (positionals : List Payload) : (fedIn u positionals).TopicFree := by
    refine ⟨hoptions, fun p hp => (hparameters p hp).made, fun o ho d hd => ?_, fun key d hd => ?_⟩
    · have hdefault := List.all_eq_true.1 hnone o ho
      simp [hd] at hdefault
    · simp [fedIn] at hd
  refine ⟨u, r', hcompile, ?_, ?_⟩
  · refine ⟨env, henv, (topic_boundOnce rfl (hfree [.text "a"]) Evaluator.unsupported).1 env henv
      ["in", "$1"] (by decide) fun key hkey => ⟨?_, Or.inl (List.all_eq_true.1 hfills key hkey)⟩⟩
    fin_cases hkey <;> decide
  · exact (topic_boundOnce rfl (hfree [.text "a", .deferred "x"]) fun _ _ => .ok "-").2.1 htwice

end Invocation

end Synopsis
