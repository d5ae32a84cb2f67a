import Synopsis.Invocation.Binder
import Synopsis.Proofs.Defaults
import Synopsis.Proofs.Dictionaries
import Synopsis.Proofs.Sequences

/-!
# Rejected occurrences leave no trace

A binder is an invocation that is fed in place: a host asks it to feed an occurrence or to finish,
any number of times and in any order, and keeps the same binder when a feed is rejected. What it was
fed is kept in a register, with an entry for each option that occurred. The entry is opened before it
is known whether another payload may go into it.

**Theorem (`Binder.rejections_inert`).** A rejected feed leaves the binder as it was. Dropping all
rejected feeds from what a host asks changes no other reply, and not the binder it ends with. Among
the occurrences that were accepted no option occurs twice that may not repeat, and the positionals
are numbered from zero. A binder that was finished, whether or not this came to an environment,
rejects every feed and comes to no environment again.

**Why.** A feed is rejected in three places. Two of them look before they write. The third has opened
an entry, but one that is not empty: opening it has put under its key what stood there, which
changes nothing (`Register.opened_eq_self`).

**The invocation.** A register holds what is gathered (`Register.Holds`), and a binder mirrors an
invocation whose host keeps the one it had when a feed fails (`Binder.Mirrors`). Both give the same
replies, so what is known of feeding an invocation holds of a binder: what it accepts is what can be
fed (`Gathered.Admits`).
-/

namespace Synopsis

namespace Binder

/-! ## Requests and replies -/

/-- What a host asks of a binder. -/
inductive Request where
  | feed (occurrence : Occurrence)
  | finish (evaluator : Evaluator)

/-- What a host is told. -/
inductive Reply where
  | fed (result : Except InvokeError Unit)
  | finished (outcome : Outcome)

/-- An occurrence was rejected. -/
def Reply.rejects : Reply → Bool
  | .fed (.error _) => true
  | _ => false

/-- The occurrence that a request feeds. -/
def Request.occurrence? : Request → Option Occurrence
  | .feed occurrence => some occurrence
  | .finish _ => none

/-- What a request is told once a binder is finished. -/
def Request.refusal : Request → Reply
  | .feed _ => .fed (.error .fedAfterFinish)
  | .finish _ => .finished { result := .error .finishedTwice }

/-- The requests of a host with their replies, and the state that they lead to. -/
def exchange {σ : Type} (answer : σ → Request → Reply × σ) :
    σ → List Request → List (Request × Reply) × σ
  | s, [] => ([], s)
  | s, request :: requests =>
    let (reply, s') := answer s request
    let (exchanges, last) := exchange answer s' requests
    ((request, reply) :: exchanges, last)

def answer (b : Binder) : Request → Reply × Binder
  | .feed occurrence => (.fed (b.feed occurrence).1, (b.feed occurrence).2)
  | .finish evaluator => (.finished (b.finish evaluator).1, (b.finish evaluator).2)

/-- All that a host asks of a binder, with the replies, and the binder after it. -/
def run : Binder → List Request → List (Request × Reply) × Binder := exchange answer

/-- The exchanges without those of rejected feeds. -/
def kept (exchanges : List (Request × Reply)) : List (Request × Reply) :=
  exchanges.filter fun x => !x.2.rejects

/-- The occurrences that were accepted. -/
def accepted (exchanges : List (Request × Reply)) : List Occurrence :=
  (kept exchanges).filterMap (·.1.occurrence?)

end Binder

namespace Invocation

/-- Answer a request, keeping the invocation when a feed fails. -/
def answer (inv : Invocation) : Binder.Request → Binder.Reply × Invocation
  | .feed occurrence => (.fed ((inv.feed occurrence).map fun _ => ()), inv.offer occurrence)
  | .finish evaluator => (.finished (inv.finish evaluator).1, (inv.finish evaluator).2)

/-- All that a host asks of an invocation, with the replies, and the invocation after it. -/
def run : Invocation → List Binder.Request → List (Binder.Request × Binder.Reply) × Invocation :=
  Binder.exchange answer

theorem run_cons (inv : Invocation) (request : Binder.Request) (requests : List Binder.Request) :
    inv.run (request :: requests) =
      ((request, (inv.answer request).1) :: ((inv.answer request).2.run requests).1,
        ((inv.answer request).2.run requests).2) := rfl

end Invocation

/-! ## Registers -/

namespace Register

variable {s : Register} {g : Gathered} {u : Usage}

@[simp] theorem entry_put (s : Register) (key key' : String) (payloads : List Payload) :
    (s.put key payloads).entry key' = if key = key' then payloads else s.entry key' := by
  unfold entry put
  rw [Dict.get?_insert]
  split_ifs <;> rfl

@[simp] theorem entry_opened (s : Register) (key key' : String) :
    (s.opened key).entry key' = s.entry key' := by
  rw [opened, entry_put]
  by_cases hkey : key = key'
  · rw [if_pos hkey, hkey]
  · rw [if_neg hkey]

/-- Opening an entry that is not empty changes nothing. -/
theorem opened_eq_self {key : String} (h : s.entry key ≠ []) : s.opened key = s := by
  have hget : s.entries.get? key = some (s.entry key) := by
    unfold entry at h ⊢
    cases hget : s.entries.get? key with
    | none => simp [hget] at h
    | some payloads => rfl
  have hentries : s.entries.insert key (s.entry key) = s.entries := by
    apply Dict.ext
    intro key'
    rw [Dict.get?_insert]
    by_cases hkey : key = key'
    · rw [if_pos hkey, ← hkey, hget]
    · rw [if_neg hkey]
  unfold opened put
  rw [hentries]

theorem occurrences_gathered (s : Register) (key : String) :
    s.gathered.occurrences key = s.entry key := by
  obtain ⟨⟨es, hes⟩, positionals, tail⟩ := s
  show ((es.flatMap fun entry => entry.2.map (entry.1, ·)).filter (·.1 = key)).map (·.2) =
    (Dict.findEntry key es).getD []
  clear positionals tail
  induction es with
  | nil => rfl
  | cons entry es ih =>
    obtain ⟨hentry, hes⟩ := List.pairwise_cons.1 hes
    rw [List.flatMap_cons, List.filter_append, List.map_append, ih hes, Dict.findEntry]
    by_cases hkey : entry.1 = key
    · -- no later entry has this key
      have hnone : Dict.findEntry key es = none :=
        Dict.findEntry_eq_none fun later hlater => (hkey ▸ hentry later hlater).ne'
      have hall : (entry.2.map (entry.1, ·)).filter (·.1 = key) = entry.2.map (entry.1, ·) := by
        simp [hkey]
      rw [if_pos hkey, hnone, hall]
      simp
    · simp [hkey]

/-- An option is fed after its entry was opened, or rejected after that. -/
theorem feed_named {key : String} {o : OptionSpec} (h : u.option? key = some o) (s : Register)
    (spelling : String) (payload : Payload) :
    feed u (.named key spelling payload) s =
      if !o.recurs && !(s.entry key).isEmpty then
        .error (.bind (.repeatedOption spelling)) (s.opened key)
      else .ok () ((s.opened key).put key (s.entry key ++ [payload])) := by
  simp only [feed, h, bind, EStateM.bind]
  show (if !o.recurs && !((s.opened key).entry key).isEmpty then _ else _ :
    EStateM InvokeError Register Unit) (s.opened key) = _
  rw [entry_opened]
  split_ifs <;> rfl

theorem feed_positional (u : Usage) (s : Register) (index : Nat) (payload : Payload) :
    feed u (.positional index payload) s =
      if index = s.positionals.length then
        .ok () { s with positionals := s.positionals ++ [payload] }
      else .error (.outOfOrder index) s := by
  show (if index = s.positionals.length then _ else _ : EStateM InvokeError Register Unit) s = _
  split_ifs <;> rfl

/-- The register holds what is gathered. -/
structure Holds (s : Register) (g : Gathered) : Prop where
  entry : ∀ key, s.entry key = g.occurrences key
  positionals : s.positionals = g.positionals
  tail : s.tail = g.tail

theorem holds_empty : Holds {} {} where
  entry _ := rfl
  positionals := rfl
  tail := rfl

theorem Holds.outcome_eq (h : s.Holds g) (inv : Invocation) (evaluator : Evaluator) :
    inv.outcome s.gathered evaluator = inv.outcome g evaluator := by
  apply Invocation.outcome_congr
  · intro key
    rw [occurrences_gathered, h.entry]
  · exact h.positionals
  · exact h.tail

theorem Holds.put (h : s.Holds g) (key : String) (payload : Payload) :
    ((s.opened key).put key (s.entry key ++ [payload])).Holds
      { g with named := g.named ++ [(key, payload)] } where
  entry key' := by
    rw [entry_put, entry_opened, Gathered.occurrences_append, ← h.entry]
    by_cases hkey : key = key'
    · simp [hkey]
    · simp [hkey]
  positionals := h.positionals
  tail := h.tail

theorem Holds.feed_of_ok (h : s.Holds g) {occurrence : Occurrence} {g' : Gathered}
    (hadd : g.add u occurrence = .ok g') :
    ∃ s', feed u occurrence s = .ok () s' ∧ s'.Holds g' := by
  cases occurrence with
  | named key spelling payload =>
    cases hoption : u.option? key with
    | none => simp [Gathered.add, hoption] at hadd
    | some o =>
      simp only [Gathered.add, hoption, ← h.entry] at hadd
      split_ifs at hadd with hrejected
      obtain rfl := Except.ok.inj hadd
      refine ⟨_, ?_, h.put key payload⟩
      rw [feed_named hoption, if_neg hrejected]
  | positional index payload =>
    simp only [Gathered.add, ← h.positionals] at hadd
    split_ifs at hadd with hindex
    obtain rfl := Except.ok.inj hadd
    refine ⟨{ s with positionals := s.positionals ++ [payload] }, ?_, h.entry, rfl, h.tail⟩
    rw [feed_positional, if_pos hindex]
  | tail tokens =>
    obtain rfl := Except.ok.inj hadd
    exact ⟨_, rfl, h.entry, h.positionals, rfl⟩

/-- **What cannot be added leaves no trace.** It is rejected, and the register is as it was. -/
theorem Holds.feed_of_error (h : s.Holds g) {occurrence : Occurrence} {e : InvokeError}
    (hadd : g.add u occurrence = .error e) : feed u occurrence s = .error e s := by
  cases occurrence with
  | named key spelling payload =>
    cases hoption : u.option? key with
    | none =>
      simp only [Gathered.add, hoption] at hadd
      obtain rfl := Except.error.inj hadd
      simp only [feed, hoption]
      rfl
    | some o =>
      simp only [Gathered.add, hoption, ← h.entry] at hadd
      split_ifs at hadd with hrejected
      obtain rfl := Except.error.inj hadd
      have hentry : s.entry key ≠ [] := by
        intro hnil
        simp [hnil] at hrejected
      rw [feed_named hoption, if_pos hrejected, opened_eq_self hentry]
  | positional index payload =>
    simp only [Gathered.add, ← h.positionals] at hadd
    split_ifs at hadd with hindex
    obtain rfl := Except.error.inj hadd
    rw [feed_positional, if_neg hindex]
  | tail tokens => cases hadd

end Register

/-! ## Binders -/

namespace Invocation

theorem feed_of_error {u : Usage} {defaults : Dict DefaultValue} {g : Gathered}
    {occurrence : Occurrence} {e : InvokeError} (h : g.add u occurrence = .error e) :
    ({ usage := u, defaults, gathered := some g } : Invocation).feed occurrence = .error e := by
  simp only [feed, h]
  rfl

end Invocation

namespace Binder

variable {b : Binder} {inv : Invocation}

/-- The binder is the invocation, fed in place. -/
structure Mirrors (b : Binder) (inv : Invocation) : Prop where
  usage : b.usage = inv.usage
  defaults : b.defaults = inv.defaults
  register : Option.Rel Register.Holds b.register inv.gathered

theorem feed_eq (u : Usage) (defaults : Dict DefaultValue) (s : Register)
    (occurrence : Occurrence) :
    ({ usage := u, defaults, register := some s } : Binder).feed occurrence =
      match Register.feed u occurrence s with
      | .ok _ s' => (.ok (), { usage := u, defaults, register := some s' })
      | .error e s' => (.error e, { usage := u, defaults, register := some s' }) := rfl

theorem mirrors_new (u : Usage) (defaults : Dict DefaultValue) :
    Mirrors { usage := u, defaults } { usage := u, defaults } where
  usage := rfl
  defaults := rfl
  register := .some Register.holds_empty

/-- **One feed.** A binder is told what feeding the invocation comes to. If the occurrence is rejected,
the binder is as it was. -/
theorem Mirrors.feed (h : b.Mirrors inv) (occurrence : Occurrence) :
    (b.feed occurrence).1 = (inv.feed occurrence).map (fun _ => ()) ∧
      (b.feed occurrence).2.Mirrors (inv.offer occurrence) ∧
      ∀ e, (b.feed occurrence).1 = .error e → (b.feed occurrence).2 = b := by
  obtain ⟨u, defaults, register⟩ := b
  obtain ⟨_, _, gathered⟩ := inv
  obtain ⟨rfl, rfl, hregister⟩ := h
  cases hregister with
  | none => exact ⟨rfl, ⟨rfl, rfl, .none⟩, fun e _ => rfl⟩
  | @some s g hholds =>
    rw [feed_eq, Invocation.offer_eq, Gathered.offer]
    cases hadd : g.add u occurrence with
    | ok g' =>
      obtain ⟨s', hfeed, hholds'⟩ := hholds.feed_of_ok hadd
      rw [hfeed, Invocation.feed_ok_iff.2 ⟨g, g', rfl, hadd, rfl⟩]
      exact ⟨rfl, ⟨rfl, rfl, .some hholds'⟩, fun e he => by cases he⟩
    | error e =>
      rw [hholds.feed_of_error hadd, Invocation.feed_of_error hadd]
      exact ⟨rfl, ⟨rfl, rfl, .some hholds⟩, fun _ _ => rfl⟩

theorem Mirrors.finish (h : b.Mirrors inv) (evaluator : Evaluator) :
    (b.finish evaluator).1 = (inv.finish evaluator).1 ∧
      (b.finish evaluator).2.Mirrors (inv.finish evaluator).2 := by
  obtain ⟨u, defaults, register⟩ := b
  obtain ⟨_, _, gathered⟩ := inv
  obtain ⟨rfl, rfl, hregister⟩ := h
  cases hregister with
  | none => exact ⟨rfl, rfl, rfl, .none⟩
  | @some s g hholds =>
    exact ⟨hholds.outcome_eq { usage := u, defaults } evaluator, rfl, rfl, .none⟩

theorem Mirrors.answer (h : b.Mirrors inv) (request : Request) :
    (b.answer request).1 = (inv.answer request).1 ∧
      (b.answer request).2.Mirrors (inv.answer request).2 := by
  cases request with
  | feed occurrence =>
    obtain ⟨hreply, hmirrors, -⟩ := h.feed occurrence
    exact ⟨congrArg Reply.fed hreply, hmirrors⟩
  | finish evaluator =>
    obtain ⟨houtcome, hmirrors⟩ := h.finish evaluator
    exact ⟨congrArg Reply.finished houtcome, hmirrors⟩

theorem Mirrors.answer_of_rejects (h : b.Mirrors inv) {request : Request}
    (hrejects : (b.answer request).1.rejects) : (b.answer request).2 = b := by
  cases request with
  | feed occurrence =>
    cases hreply : (b.feed occurrence).1 with
    | ok _ => simp [Binder.answer, hreply, Reply.rejects] at hrejects
    | error e => exact (h.feed occurrence).2.2 e hreply
  | finish evaluator => cases hrejects

/-! ## Runs -/

theorem run_cons (b : Binder) (request : Request) (requests : List Request) :
    b.run (request :: requests) =
      ((request, (b.answer request).1) :: ((b.answer request).2.run requests).1,
        ((b.answer request).2.run requests).2) := rfl

theorem run_append (b : Binder) (first second : List Request) :
    b.run (first ++ second) =
      ((b.run first).1 ++ ((b.run first).2.run second).1, ((b.run first).2.run second).2) := by
  induction first generalizing b with
  | nil => rfl
  | cons request first ih =>
    rw [List.cons_append, run_cons, ih, run_cons]
    rfl

theorem Mirrors.run (h : b.Mirrors inv) (requests : List Request) :
    (b.run requests).1 = (inv.run requests).1 ∧
      (b.run requests).2.Mirrors (inv.run requests).2 := by
  induction requests generalizing b inv with
  | nil => exact ⟨rfl, h⟩
  | cons request requests ih =>
    obtain ⟨hreply, hmirrors⟩ := h.answer request
    obtain ⟨hexchanges, hlast⟩ := ih hmirrors
    rw [run_cons, Invocation.run_cons, hreply, hexchanges]
    exact ⟨rfl, hlast⟩

/-- **Rejected feeds can be dropped.** -/
theorem Mirrors.run_kept (h : b.Mirrors inv) (requests : List Request) :
    b.run ((kept (b.run requests).1).map (·.1)) = (kept (b.run requests).1, (b.run requests).2) := by
  induction requests generalizing b inv with
  | nil => rfl
  | cons request requests ih =>
    have hrest := ih (h.answer request).2
    rw [run_cons]
    by_cases hrejects : (b.answer request).1.rejects
    · -- the binder is as it was before the request
      rw [h.answer_of_rejects hrejects] at hrest ⊢
      simpa [kept, hrejects] using hrest
    · have hkept (exchanges : List (Request × Reply)) :
          kept ((request, (b.answer request).1) :: exchanges) =
            (request, (b.answer request).1) :: kept exchanges :=
        List.filter_cons_of_pos (by simpa using hrejects)
      rw [hkept, List.map_cons, run_cons, hrest]

/-! ## After the end -/

theorem run_of_finished (h : b.register = none) (requests : List Request) :
    b.run requests = (requests.map fun request => (request, request.refusal), b) := by
  induction requests with
  | nil => rfl
  | cons request requests ih =>
    have hanswer : b.answer request = (request.refusal, b) := by
      cases request with
      | feed occurrence => simp [answer, Binder.feed, h, Request.refusal]
      | finish evaluator => simp [answer, Binder.finish, h, Request.refusal]
    rw [run_cons, hanswer, ih]
    rfl

theorem register_finish (b : Binder) (evaluator : Evaluator) :
    (b.finish evaluator).2.register = none := by
  unfold Binder.finish
  cases hregister : b.register with
  | none => exact hregister
  | some s => rfl

theorem run_finish (b : Binder) (before after : List Request) (evaluator : Evaluator) :
    b.run (before ++ .finish evaluator :: after) =
      ((b.run (before ++ [.finish evaluator])).1 ++
          after.map fun request => (request, request.refusal),
        (b.run (before ++ [.finish evaluator])).2) := by
  have hfinished : (b.run (before ++ [.finish evaluator])).2.register = none := by
    rw [run_append]
    exact register_finish _ evaluator
  rw [List.append_cons, run_append, run_of_finished hfinished]

/-! ## What is accepted -/

theorem accepted_refused (requests : List Request) :
    accepted (requests.map fun request => (request, request.refusal)) = [] := by
  induction requests with
  | nil => rfl
  | cons request requests ih => cases request <;> exact ih

theorem admits_accepted {u : Usage} (defaults : Dict DefaultValue) {s : Register} {g : Gathered}
    (hholds : s.Holds g) (hg : u.Tolerates g.occurrences) (requests : List Request) :
    g.Admits u (accepted (({ usage := u, defaults, register := some s } : Binder).run
      requests).1) := by
  induction requests generalizing s g with
  | nil => exact Gathered.admits_nil hg
  | cons request requests ih =>
    rw [run_cons]
    cases request with
    | feed occurrence =>
      simp only [answer, feed_eq]
      cases hadd : g.add u occurrence with
      | ok g' =>
        obtain ⟨s', hfeed, hholds'⟩ := hholds.feed_of_ok hadd
        have hfirst := (Gathered.exists_add_iff hg).1 ⟨g', hadd⟩
        have hafter := Gathered.after_of_add hadd
        rw [hfeed]
        exact (Gathered.admits_append_iff hafter).2
          ⟨hfirst, ih hholds' (hfirst.tolerates_after hafter)⟩
      | error e =>
        rw [hholds.feed_of_error hadd]
        exact ih hholds hg
    | finish evaluator =>
      simp only [answer, run_of_finished (register_finish _ evaluator)]
      show g.Admits u (accepted (requests.map fun request => (request, request.refusal)))
      rw [accepted_refused]
      exact Gathered.admits_nil hg

/-- **Rejected occurrences leave no trace.** A binder replies as the invocation that is fed one
occurrence after the other, and keeps what it had when one is rejected. After any requests, a
rejected feed leaves the binder as it is. Dropping all rejected feeds changes no other reply and not
the binder in the end. The accepted occurrences hold at most one of an option that may not repeat,
and positionals with the numbers from zero on. A finished binder refuses whatever it is asked. -/
theorem rejections_inert (u : Usage) (defaults : Dict DefaultValue) (requests : List Request) :
    let b : Binder := { usage := u, defaults }
    let exchanges := (b.run requests).1
    exchanges = (Invocation.run { usage := u, defaults } requests).1 ∧
      (∀ occurrence e, ((b.run requests).2.feed occurrence).1 = .error e →
        ((b.run requests).2.feed occurrence).2 = (b.run requests).2) ∧
      b.run ((kept exchanges).map (·.1)) = (kept exchanges, (b.run requests).2) ∧
      (∀ key o, u.option? key = some o → o.recurs = false →
        (payloadsOf key (accepted exchanges)).length ≤ 1) ∧
      (∃ n, (accepted exchanges).filterMap Occurrence.index? = List.range n) ∧
      ∀ evaluator after, b.run (requests ++ .finish evaluator :: after) =
        ((b.run (requests ++ [.finish evaluator])).1 ++
            after.map fun request => (request, request.refusal),
          (b.run (requests ++ [.finish evaluator])).2) := by
  intro b exchanges
  have hmirrors : b.Mirrors { usage := u, defaults } := mirrors_new u defaults
  obtain ⟨hexchanges, hlast⟩ := hmirrors.run requests
  have hempty : u.Tolerates (Gathered.occurrences {}) := fun _ _ _ _ => Nat.zero_le _
  have hadmits : Gathered.Admits {} u (accepted exchanges) :=
    admits_accepted defaults Register.holds_empty hempty requests
  refine ⟨hexchanges, fun occurrence => (hlast.feed occurrence).2.2, hmirrors.run_kept requests,
    hadmits.tolerated, ⟨((accepted exchanges).filterMap Occurrence.positional?).length, ?_⟩,
    fun evaluator after => run_finish b requests after evaluator⟩
  rw [List.range_eq_range']
  exact hadmits.numbered

/-- Two command lines are fed to one binder, the second one scanned by the switches of another usage.
All that it brings is rejected: an option that occurred before, one that is not known, and a
positional with the number of an earlier one. -/
theorem rejections_inert_jobs :
    ∃ (u v : Usage) (r r' : Registry) (b last : Binder) (requests : List Request)
      (exchanges : List (Request × Reply)) (o : OptionSpec) (env : Environment),
      Usage.compile "[--jobs=INT] STR" Registry.standard = .ok u r ∧
      Usage.compile "[--jobs=INT] [--size=INT] STR" Registry.standard = .ok v r' ∧
      requests = ((u.scan (Token.classifyAll ["--jobs=2", "a"])).occurrences ++
        (v.scan (Token.classifyAll ["--jobs=3", "--size=1", "b"])).occurrences).map .feed ∧
      b = { usage := u } ∧ b.run requests = (exchanges, last) ∧
      (exchanges.filter (·.2.rejects)).length = 3 ∧
      b.run ((kept exchanges).map (·.1)) = (kept exchanges, last) ∧
      u.option? "jobs" = some o ∧ o.recurs = false ∧
      (payloadsOf "jobs" (accepted exchanges)).length ≤ 1 ∧
      (last.feed (.named "jobs" "--jobs" (.text "4"))).1 =
        .error (.bind (.repeatedOption "--jobs")) ∧
      (last.feed (.named "jobs" "--jobs" (.text "4"))).2 = last ∧
      (last.finish Evaluator.unsupported).1.result = .ok env ∧
      (env.get? "jobs").map Value.write = some "2" := by
  obtain ⟨v, r', hv, hsecond⟩ := exists_of_succeedsWith
    (Usage.compile "[--jobs=INT] [--size=INT] STR" Registry.standard)
    (fun v _ => (v.scan (Token.classifyAll ["--jobs=3", "--size=1", "b"])).occurrences =
      [Occurrence.named "jobs" "--jobs" (.text "3"), .named "size" "--size" (.text "1"),
        .positional 0 (.text "b")])
    (by decide +kernel)
  obtain ⟨u, r, hu, hfirst⟩ := exists_of_succeedsWith
    (Usage.compile "[--jobs=INT] STR" Registry.standard)
    (fun u _ =>
      let (exchanges, last) := ({ usage := u } : Binder).run
        (((u.scan (Token.classifyAll ["--jobs=2", "a"])).occurrences ++
          [Occurrence.named "jobs" "--jobs" (.text "3"), .named "size" "--size" (.text "1"),
            .positional 0 (.text "b")]).map .feed)
      (exchanges.filter (·.2.rejects)).length = 3 &&
        (u.option? "jobs").any (·.recurs = false) &&
        (last.feed (.named "jobs" "--jobs" (.text "4"))).1 =
          .error (.bind (.repeatedOption "--jobs")) &&
        (last.finish Evaluator.unsupported).1.result.toOption.any fun env =>
          (env.get? "jobs").map Value.write = some "2")
    (by decide +kernel)
  rw [← of_decide_eq_true hsecond] at hfirst
  simp only [Bool.and_eq_true, decide_eq_true_eq, failing_any_toOption_iff] at hfirst
  obtain ⟨⟨⟨hthree, hoption⟩, hrejected⟩, env, henv, hjobs⟩ := hfirst
  simp only [Option.any_eq_true, decide_eq_true_eq] at hoption
  obtain ⟨o, ho, hrecurs⟩ := hoption
  obtain ⟨-, hinert, hkept, honce, -, -⟩ := rejections_inert u Dict.empty
    (((u.scan (Token.classifyAll ["--jobs=2", "a"])).occurrences ++
      (v.scan (Token.classifyAll ["--jobs=3", "--size=1", "b"])).occurrences).map .feed)
  exact ⟨u, v, r, r', _, _, _, _, o, env, hu, hv, rfl, rfl, rfl, hthree, hkept, ho,
    hrecurs, honce "jobs" o ho hrecurs, hrejected, hinert _ _ hrejected, henv, hjobs⟩

end Binder

end Synopsis
