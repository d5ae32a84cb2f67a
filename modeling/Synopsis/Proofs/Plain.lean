import Synopsis.Proofs.Arguments
import Synopsis.Proofs.Resolving
import Synopsis.Proofs.Settling

/-!
# Invocations without expressions

No argument is an expression (`ReadsPieces.plain`). Where no payload is one, every binding is ready
once it is settled (`Settled.isReady`). Then there is nothing to resolve: an invocation comes to what
its bindings and its tail are, with any evaluator (`outcome_of_isReady`).
-/

namespace Synopsis

/-- The payload is no expression. -/
def Payload.Plain : Payload → Prop
  | deferred _ => False
  | _ => True

theorem Payload.Enters.ready {type : ValueType} {payload : Payload} {entry : Entry}
    (h : payload.Enters type entry) (hplain : payload.Plain) : ∃ value, entry = .ready value := by
  cases payload with
  | text written =>
    obtain ⟨value, -, rfl⟩ := h
    exact ⟨value, rfl⟩
  | implied on => exact ⟨_, h⟩
  | deferred expression => exact absurd hplain id

theorem ready_of_enters {type : ValueType} {payloads : List Payload} {entries : List Entry}
    (h : List.Forall₂ (Payload.Enters type) payloads entries) (hplain : ∀ p ∈ payloads, p.Plain) :
    ∃ values : List Value, entries = values.map Entry.ready := by
  induction h with
  | nil => exact ⟨[], rfl⟩
  | cons hentry _ ih =>
    rw [List.forall_mem_cons] at hplain
    obtain ⟨value, rfl⟩ := hentry.ready hplain.1
    obtain ⟨values, rfl⟩ := ih hplain.2
    exact ⟨value :: values, rfl⟩

theorem Bound.ofEntries_list_ready (type : ValueType) (values : List Value) :
    ofEntries type (.list (values.map Entry.ready)) = .ready (type.collect values) := by
  have hvalues : (values.map Entry.ready).mapM Entry.value? = some values := by
    induction values with
    | nil => rfl
    | cons value values ih => simp [ih, Entry.value?]
  simp [ofEntries, hvalues]

theorem Bound.ready_of_enters {type : ValueType} {payloads : Slot Payload} {entries : Slot Entry}
    (h : payloads.Rel (Payload.Enters type) entries) (hplain : ∀ p ∈ payloads.values, p.Plain) :
    ∃ value, ofEntries type entries = .ready value := by
  cases h with
  | single hentry =>
    obtain ⟨value, rfl⟩ := hentry.ready (hplain _ (by simp))
    exact ⟨value, rfl⟩
  | list hentries =>
    obtain ⟨values, rfl⟩ := Synopsis.ready_of_enters hentries hplain
    exact ⟨_, ofEntries_list_ready type values⟩

theorem OptionSpec.Settles.isReady {defaults : Dict DefaultValue} {o : OptionSpec}
    {payloads : List Payload} {b : Binding} (h : o.Settles defaults payloads (some b))
    (hplain : ∀ p ∈ payloads, p.Plain) : b.IsReady := by
  cases h with
  | counted => exact ⟨_, rfl⟩
  | listed _ _ _ hentries => exact Bound.ready_of_enters (.list hentries) hplain
  | single _ hentry =>
    exact Bound.ready_of_enters (.single hentry) (by simpa using (List.forall_mem_cons.1 hplain).1)
  | defaulted => exact ⟨_, rfl⟩
  | nothing => exact ⟨_, rfl⟩

/-- **Without expressions every binding is ready.** -/
theorem Settled.isReady {u : Usage} {defaults : Dict DefaultValue} {g : Gathered}
    {arranged : List (Parameter × Slot Payload)} {options positionals defaulted : List Binding}
    (h : Settled u defaults g arranged options positionals defaulted) (hu : u.Keyed)
    (hnamed : ∀ key, ∀ p ∈ g.occurrences key, p.Plain) (hpositionals : ∀ p ∈ g.positionals, p.Plain) :
    ∀ b ∈ options ++ positionals ++ defaulted, b.IsReady := by
  intro b hb
  rcases h.mem_cases hb with ⟨o, -, hsettles⟩ | ⟨s, hs, entries, hentries, rfl⟩ | ⟨p, -, hdefaults⟩
  · exact hsettles.isReady (hnamed o.key)
  · obtain ⟨-, hassigns, -⟩ := Layout.arrange_sound hu.fits h.of_arrangement
    refine Bound.ready_of_enters hentries fun p hp => hpositionals p ?_
    rw [← hassigns.all]
    exact List.mem_flatMap.2 ⟨s, hs, hp⟩
  · cases hdefaults
    exact ⟨_, rfl⟩

/-! ## What arguments come to -/

/-- The occurrence carries no expression. -/
def Occurrence.Plain : Occurrence → Prop
  | named _ _ payload => payload.Plain
  | positional _ payload => payload.Plain
  | tail _ => True

theorem SwitchUse.plain_payload {use : SwitchUse} {value : Option Token}
    (h : ∀ token ∈ value, token.payload.Plain) : (use.payload value).Plain := by
  unfold payload
  split
  · trivial
  · next token _ => exact h token rfl
  · trivial

theorem Piece.plain {piece : Piece} (h : ∀ token ∈ piece.tokens, token.payload.Plain) :
    ∀ occurrence ∈ piece.occurrences, occurrence.Plain := by
  intro occurrence hmem
  cases piece with
  | option token flags last value =>
    rcases List.mem_append.1 hmem with hmem | hmem
    · obtain ⟨flag, -, rfl⟩ := List.mem_map.1 hmem
      exact SwitchUse.plain_payload (by simp)
    · obtain rfl := List.mem_singleton.1 hmem
      refine SwitchUse.plain_payload fun token htoken => h token ?_
      exact List.mem_cons_of_mem _ (by simpa using htoken)
  | positional index token =>
    obtain rfl := List.mem_singleton.1 hmem
    exact h token (by simp [Piece.tokens])
  | tail tokens =>
    obtain rfl := List.mem_singleton.1 hmem
    trivial

theorem SwitchTable.ReadsPieces.plain_of_tokens {table : SwitchTable} {tailStart : Option Nat}
    {index : Nat} {tokens : List Token} {pieces : List Piece}
    (h : table.ReadsPieces tailStart index tokens pieces)
    (hplain : ∀ token ∈ tokens, token.payload.Plain) :
    ∀ occurrence ∈ pieces.flatMap Piece.occurrences, occurrence.Plain := by
  intro occurrence hmem
  obtain ⟨piece, hpiece, hmem⟩ := List.mem_flatMap.1 hmem
  refine Piece.plain (fun token htoken => hplain token ?_) occurrence hmem
  rw [← h.tokens_eq]
  exact List.mem_flatMap.2 ⟨piece, hpiece, htoken⟩

theorem SwitchTable.ReadsPieces.plain {table : SwitchTable} {tailStart : Option Nat} {index : Nat}
    {arguments : List String} {pieces : List Piece}
    (h : table.ReadsPieces tailStart index (Token.classifyAll arguments) pieces) :
    ∀ occurrence ∈ pieces.flatMap Piece.occurrences, occurrence.Plain := by
  refine h.plain_of_tokens fun token htoken => ?_
  rw [Token.payload_of_mem_classifyAll htoken]
  trivial

theorem Gathered.After.plain {fed : List Occurrence} {g : Gathered}
    (h : Gathered.After {} fed g) (hfed : ∀ occurrence ∈ fed, occurrence.Plain) :
    (∀ key, ∀ p ∈ g.occurrences key, p.Plain) ∧ ∀ p ∈ g.positionals, p.Plain := by
  refine ⟨fun key p hp => ?_, fun p hp => ?_⟩
  · have hp' : p ∈ fed.filterMap (Occurrence.payload? key) := by
      rw [h.named key] at hp
      simpa [Gathered.occurrences] using hp
    obtain ⟨occurrence, hmem, hpayload⟩ := List.mem_filterMap.1 hp'
    have hplain := hfed occurrence hmem
    cases occurrence with
    | named key' spelling payload =>
      obtain ⟨-, rfl⟩ := by simpa [Occurrence.payload?] using hpayload
      exact hplain
    | positional => simp [Occurrence.payload?] at hpayload
    | tail => simp [Occurrence.payload?] at hpayload
  · have hp' : p ∈ fed.filterMap Occurrence.positional? := by
      rw [h.positionals] at hp
      simpa using hp
    obtain ⟨occurrence, hmem, hpayload⟩ := List.mem_filterMap.1 hp'
    have hplain := hfed occurrence hmem
    cases occurrence with
    | positional index payload =>
      obtain rfl := by simpa [Occurrence.positional?] using hpayload
      exact hplain
    | named => simp [Occurrence.positional?] at hpayload
    | tail => simp [Occurrence.positional?] at hpayload

/-! ## The outcome -/

namespace Invocation

theorem resolve_of_isReady {evaluator : Evaluator} {ready : Dict Value} {bindings : List Binding}
    (h : ∀ b ∈ bindings, b.IsReady) (s : Resolution) :
    resolve evaluator ready bindings s = .ok () s := by
  induction bindings with
  | nil => rfl
  | cons b bindings ih =>
    rw [List.forall_mem_cons] at h
    obtain ⟨value, hb⟩ := h.1
    simp only [resolve, keeping_bind_ok_iff]
    exact ⟨(), s, by simp [resolveBinding, hb], ih h.2⟩

/-- An invocation whose bindings are ready evaluates nothing. -/
theorem outcome_of_isReady {inv : Invocation} {g : Gathered} {bindings : List Binding}
    {claimed : Option String}
    (hsettle : settle inv.usage inv.defaults g none = .ok (bindings, claimed))
    (hready : ∀ b ∈ bindings, b.IsReady) (evaluator : Evaluator) :
    inv.outcome g evaluator =
      { result := .ok (publish inv.usage.layout (direct bindings g.tail)
          (if g.tail.isSome then (bindings.filter (·.explicit)).map (·.key) ++ [tailKey]
            else (bindings.filter (·.explicit)).map (·.key))) } := by
  simp only [outcome, hsettle, resolve_of_isReady hready]
  rfl

end Invocation

end Synopsis
