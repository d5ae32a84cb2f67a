import Synopsis.Proofs.Answers
import Synopsis.Proofs.Invoking
import Synopsis.Proofs.Plain

/-!
# How positionals are read

`ReadInOrder` reads what is dealt to parameters, one after the other: a text through the type of its
parameter, and an expression through what the evaluator returned for it, call by call.

**Theorem (`Usage.positionals_of_invoke`).** The positionals of an environment are the positional
tokens of the command line, read in order through the parameters that the arrangement deals them to,
and the last calls of the evaluator are those for the expressions among them.

Each step of an invocation keeps the order: binding, resolving and publishing go through the
parameters one by one, and a list is unfolded where it was folded.
-/

namespace Synopsis

/-- What the slots deal, value by value. -/
def dealt (slots : List (Parameter × Slot Payload)) : List (Parameter × Payload) :=
  slots.flatMap fun s => s.2.values.map (s.1, ·)

@[simp] theorem dealt_nil : dealt [] = [] := rfl

@[simp] theorem dealt_cons (s : Parameter × Slot Payload) (slots : List (Parameter × Slot Payload)) :
    dealt (s :: slots) = s.2.values.map (s.1, ·) ++ dealt slots := by
  simp [dealt]

/-- Values read in order from what is dealt, with the evaluations this takes. -/
inductive ReadInOrder (evaluator : Evaluator) :
    List (Parameter × Payload) → List Evaluation → List Value → Prop
  | nil : ReadInOrder evaluator [] [] []
  | text {p : Parameter} {text : String} {value : Value} {rest : List (Parameter × Payload)}
      {log : List Evaluation} {values : List Value} (hread : p.type.Reads text value)
      (hrest : ReadInOrder evaluator rest log values) :
      ReadInOrder evaluator ((p, .text text) :: rest) log (value :: values)
  | expression {p : Parameter} {expression text : String} {view : View} {value : Value}
      {rest : List (Parameter × Payload)} {log : List Evaluation} {values : List Value}
      (hanswer : evaluator expression view = .ok text) (hread : p.type.Reads text value)
      (hrest : ReadInOrder evaluator rest log values) :
      ReadInOrder evaluator ((p, .deferred expression) :: rest)
        (⟨expression, view, .ok text⟩ :: log) (value :: values)

namespace ReadInOrder

variable {evaluator : Evaluator} {first second : List (Parameter × Payload)}
  {log log' : List Evaluation} {values values' : List Value}

theorem append (h : ReadInOrder evaluator first log values)
    (h' : ReadInOrder evaluator second log' values') :
    ReadInOrder evaluator (first ++ second) (log ++ log') (values ++ values') := by
  induction h with
  | nil => exact h'
  | text hread _ ih => exact .text hread ih
  | expression hanswer hread _ ih => exact .expression hanswer hread ih

theorem length_eq (h : ReadInOrder evaluator first log values) : values.length = first.length := by
  induction h with
  | nil => rfl
  | text _ _ ih => simp [ih]
  | expression _ _ _ ih => simp [ih]

end ReadInOrder

/-- The payload is what a positional token carries. -/
def Payload.IsSupplied : Payload → Prop
  | implied _ => False
  | _ => True

/-! ## One parameter -/

namespace Invocation

variable {evaluator : Evaluator} {ready : Dict Value} {b : Binding} {p : Parameter}
  {s s' : Resolution}

theorem readInOrder_of_resolveEntry {payload : Payload} {entry : Entry} {v : Value}
    (hb : b.type = p.type) (hentry : payload.Enters p.type entry) (hsupplied : payload.IsSupplied)
    (h : resolveEntry evaluator ready b entry s = .ok v s') :
    ∃ log, s'.evaluations = s.evaluations ++ log ∧
      ReadInOrder evaluator [(p, payload)] log [v] := by
  cases payload with
  | text written =>
    obtain ⟨value, hreads, rfl⟩ := hentry
    obtain ⟨rfl, rfl⟩ := keeping_pure_ok_iff.1 h
    exact ⟨[], by simp, .text hreads .nil⟩
  | implied on => exact absurd hsupplied id
  | deferred expression =>
    obtain rfl : entry = .deferred expression := hentry
    obtain ⟨view, text, claimed, hanswer, hread, rfl⟩ := answered_of_resolveEntry h
    exact ⟨_, rfl, .expression hanswer (hb ▸ Claiming.reads_of_read hread) .nil⟩

theorem readInOrder_of_mapM {payloads : List Payload} {entries : List Entry} {values : List Value}
    (hb : b.type = p.type) (hentries : List.Forall₂ (Payload.Enters p.type) payloads entries)
    (hsupplied : ∀ payload ∈ payloads, payload.IsSupplied)
    (h : entries.mapM (resolveEntry evaluator ready b) s = .ok values s') :
    ∃ log, s'.evaluations = s.evaluations ++ log ∧
      ReadInOrder evaluator (payloads.map (p, ·)) log values := by
  induction hentries generalizing s values with
  | nil =>
    obtain ⟨rfl, rfl⟩ := by simpa using h
    exact ⟨[], by simp, .nil⟩
  | cons hentry _ ih =>
    rw [List.forall_mem_cons] at hsupplied
    simp only [List.mapM_cons, keeping_bind_ok_iff, keeping_pure_ok_iff] at h
    obtain ⟨v, s₁, hv, values, s₂, hvalues, rfl, rfl⟩ := h
    obtain ⟨log, hlog, hread⟩ := readInOrder_of_resolveEntry hb hentry hsupplied.1 hv
    obtain ⟨log', hlog', hread'⟩ := ih hsupplied.2 hvalues
    exact ⟨log ++ log', by rw [hlog', hlog, List.append_assoc], hread.append hread'⟩

theorem readInOrder_of_ready {payloads : List Payload} {values : List Value}
    (hentries : List.Forall₂ (Payload.Enters p.type) payloads (values.map Entry.ready))
    (hsupplied : ∀ payload ∈ payloads, payload.IsSupplied) (evaluator : Evaluator) :
    ReadInOrder evaluator (payloads.map (p, ·)) [] values := by
  induction values generalizing payloads with
  | nil =>
    cases hentries
    exact .nil
  | cons value values ih =>
    cases hentries with
    | @cons payload _ payloads _ hentry hrest =>
      rw [List.forall_mem_cons] at hsupplied
      cases payload with
      | text written =>
        obtain ⟨value', hreads, heq⟩ := hentry
        obtain rfl : value = value' := by simpa using heq
        exact .text hreads (ih hrest hsupplied.2)
      | implied on => exact absurd hsupplied.1 id
      | deferred expression => cases hentry

/-- The positional values that a parameter stands for by its value. -/
def elementsOf (p : Parameter) (value : Value) : List Value :=
  if p.recurs then value.elements?.getD [value] else [value]

/-- A list that is collected as one is unfolded again. -/
theorem elementsOf_collect (hcollector : p.type.collector? = none) (hrecurs : p.recurs)
    (values : List Value) : elementsOf p (p.type.collect values) = values := by
  simp [elementsOf, hrecurs, ValueType.collect, hcollector, Value.elements?]

/-- The value of a positional is where its binding has it, or where resolving it puts it. -/
def Holds (b : Binding) (completed : Dict Value) (v : Value) : Prop :=
  b.bound = .ready v ∨ completed.get? b.key = some v

theorem readInOrder_of_single {payload : Payload} {entry : Entry} (hrecurs : p.recurs = false)
    (hentry : payload.Enters p.type entry) (hsupplied : payload.IsSupplied)
    (h : resolveBinding evaluator ready (p.binding (.ofEntries p.type (.single entry)) true) s =
      .ok () s') :
    ∃ log v, s'.evaluations = s.evaluations ++ log ∧
      Holds (p.binding (.ofEntries p.type (.single entry)) true) s'.completed v ∧
      ReadInOrder evaluator [(p, payload)] log (elementsOf p v) := by
  have helements (v : Value) : elementsOf p v = [v] := by simp [elementsOf, hrecurs]
  simp only [helements]
  cases entry with
  | ready value =>
    obtain ⟨-, rfl⟩ := keeping_pure_ok_iff.1 h
    have hread := @readInOrder_of_ready p [payload] [value] (.cons hentry .nil) (by simpa) evaluator
    exact ⟨[], value, by simp, Or.inl rfl, hread⟩
  | deferred expression =>
    simp only [resolveBinding, Parameter.binding, Bound.ofEntries, Slot.mapM,
      keeping_bind_ok_iff, keeping_pure_ok_iff, keeping_modify_ok_iff] at h
    obtain ⟨_, s₁, ⟨v, s₂, hv, rfl, rfl⟩, -, rfl⟩ := h
    obtain ⟨log, hlog, hread⟩ := readInOrder_of_resolveEntry rfl hentry hsupplied hv
    exact ⟨log, v, hlog, Or.inr (by simp [Parameter.binding, Slot.collect]), hread⟩

theorem readInOrder_of_list {payloads : List Payload} {entries : List Entry} (hrecurs : p.recurs)
    (hcollector : p.type.collector? = none)
    (hentries : List.Forall₂ (Payload.Enters p.type) payloads entries)
    (hsupplied : ∀ payload ∈ payloads, payload.IsSupplied)
    (h : resolveBinding evaluator ready (p.binding (.ofEntries p.type (.list entries)) true) s =
      .ok () s') :
    ∃ log v, s'.evaluations = s.evaluations ++ log ∧
      Holds (p.binding (.ofEntries p.type (.list entries)) true) s'.completed v ∧
      ReadInOrder evaluator (payloads.map (p, ·)) log (elementsOf p v) := by
  cases hvalues : entries.mapM Entry.value? with
  | some values =>
    obtain rfl := reads_all_of_mapM_value? hvalues
    simp only [Bound.ofEntries_list_ready] at h ⊢
    obtain ⟨-, rfl⟩ := keeping_pure_ok_iff.1 h
    refine ⟨[], p.type.collect values, by simp, Or.inl rfl, ?_⟩
    rw [elementsOf_collect hcollector hrecurs]
    exact readInOrder_of_ready hentries hsupplied evaluator
  | none =>
    simp only [resolveBinding, Parameter.binding, Bound.ofEntries, hvalues, Slot.mapM,
      keeping_bind_ok_iff, keeping_pure_ok_iff, keeping_modify_ok_iff] at h
    obtain ⟨_, s₁, ⟨values, s₂, hvs, rfl, rfl⟩, -, rfl⟩ := h
    obtain ⟨log, hlog, hread⟩ := readInOrder_of_mapM rfl hentries hsupplied hvs
    refine ⟨log, p.type.collect values, hlog, Or.inr ?_, ?_⟩
    · simp [Parameter.binding, Slot.collect]
    · rw [elementsOf_collect hcollector hrecurs]
      exact hread

/-! ## All parameters -/

/-- What a parameter is dealt has the shape of the parameter, and its list is collected as one. -/
structure Regular (s : Parameter × Slot Payload) : Prop where
  shaped : if s.1.recurs then ∃ vs, s.2 = .list vs else ∃ v, s.2 = .single v
  collector : s.1.recurs → s.1.type.collector? = none
  supplied : ∀ payload ∈ s.2.values, payload.IsSupplied

theorem readInOrder_of_resolveBinding {slot : Parameter × Slot Payload}
    (hsettles : slot.1.Settles slot.2 b) (hslot : Regular slot)
    (h : resolveBinding evaluator ready b s = .ok () s') :
    ∃ log v, s'.evaluations = s.evaluations ++ log ∧ Holds b s'.completed v ∧
      ReadInOrder evaluator (slot.2.values.map (slot.1, ·)) log (elementsOf slot.1 v) := by
  obtain ⟨p, slot⟩ := slot
  obtain ⟨hshaped, hcollector, hsupplied⟩ := hslot
  obtain ⟨entries, hentries, rfl⟩ := hsettles
  cases hentries with
  | single hentry =>
    have hrecurs : p.recurs = false := by
      by_contra hrecurs
      simp [hrecurs] at hshaped
    exact readInOrder_of_single hrecurs hentry (hsupplied _ (by simp)) h
  | list hentries =>
    have hrecurs : p.recurs := by
      by_contra hrecurs
      simp [hrecurs] at hshaped
    exact readInOrder_of_list hrecurs (hcollector hrecurs) hentries hsupplied h

/-- The positional values that a parameter stands for among `values`. -/
def publishedFor (values : Dict Value) (p : Parameter) : List Value :=
  ((values.get? p.key).map (elementsOf p)).getD []

theorem positionalValues_eq (l : Layout) (values : Dict Value) :
    positionalValues l values = l.parameters.flatMap (publishedFor values) := by
  unfold positionalValues publishedFor elementsOf
  refine List.flatMap_congr fun p _ => ?_
  cases values.get? p.key <;> rfl

/-- **What positionals are dealt is read in order**, and the evaluations follow that order. -/
theorem readInOrder_of_resolve {arranged : List (Parameter × Slot Payload)}
    {positionals : List Binding}
    (hsettles : List.Forall₂ (fun slot b => slot.1.Settles slot.2 b) arranged positionals)
    (hregular : ∀ slot ∈ arranged, Regular slot) (hnodup : (positionals.map Binding.key).Nodup)
    (h : resolve evaluator ready positionals s = .ok () s')
    {values : Dict Value}
    (hvalues : ∀ b ∈ positionals, ∀ v, Holds b s'.completed v → values.get? b.key = some v) :
    ∃ log, s'.evaluations = s.evaluations ++ log ∧
      ReadInOrder evaluator (dealt arranged) log
        (arranged.flatMap fun slot => publishedFor values slot.1) := by
  induction hsettles generalizing s with
  | nil =>
    obtain ⟨-, rfl⟩ := keeping_pure_ok_iff.1 h
    exact ⟨[], by simp, .nil⟩
  | @cons slot b arranged positionals hslot hrest ih =>
    rw [List.map_cons, List.nodup_cons] at hnodup
    rw [List.forall_mem_cons] at hregular hvalues
    simp only [resolve, keeping_bind_ok_iff] at h
    obtain ⟨_, s₁, hb, h⟩ := h
    obtain ⟨log, v, hlog, hholds, hread⟩ := readInOrder_of_resolveBinding hslot hregular.1 hb
    -- no later binding has this key
    have hkept : s'.completed.get? b.key = s₁.completed.get? b.key := by
      refine (completed_of_resolve hnodup.2 h).2 b.key fun b' hb' heq => ?_
      exact absurd (heq ▸ List.mem_map_of_mem hb') hnodup.1
    have hv : values.get? slot.1.key = some v := by
      rw [← hslot.key_eq]
      exact hvalues.1 v (hholds.imp_right hkept.trans)
    obtain ⟨log', hlog', hread'⟩ := ih hregular.2 hnodup.2 h hvalues.2
    refine ⟨log ++ log', by rw [hlog', hlog, List.append_assoc], ?_⟩
    rw [dealt_cons, List.flatMap_cons]
    refine ReadInOrder.append ?_ hread'
    simpa [publishedFor, hv] using hread

theorem resolve_append_ok_iff {first second : List Binding} :
    resolve evaluator ready (first ++ second) s = .ok () s' ↔
      ∃ s₁, resolve evaluator ready first s = .ok () s₁ ∧
        resolve evaluator ready second s₁ = .ok () s' := by
  induction first generalizing s with
  | nil => simp [resolve]
  | cons b first ih =>
    simp only [List.cons_append, resolve, keeping_bind_ok_iff, ih]
    constructor
    · rintro ⟨_, s₁, hb, s₂, hfirst, hsecond⟩
      exact ⟨s₂, ⟨(), s₁, hb, hfirst⟩, hsecond⟩
    · rintro ⟨s₂, ⟨_, s₁, hb, hfirst⟩, hsecond⟩
      exact ⟨(), s₁, hb, s₂, hfirst, hsecond⟩

end Invocation

/-! ## The arrangement -/

namespace Layout

variable {l : Layout} {ts : List Term} {α : Type} {values : List α}
  {slots : List (Parameter × Slot α)}

theorem arrange_parameters (hl : l.Fits ts) (h : l.arrange values = .ok slots) :
    ∃ filled, slots.map (·.1) = l.parameters.filter filled := by
  obtain ⟨hadmits, rfl⟩ := (arrange_ok_iff hl).1 h
  obtain ⟨e, he, hlength⟩ := (admits_iff hl _ _).1 hadmits
  obtain ⟨-, -, hspell⟩ := spells_eq hl (depthFor_le _ _ _) he
  rw [hlength] at hspell
  rw [hspell, spell_eq_flatMap_filter] at hlength
  obtain ⟨hparameters, -, -⟩ := deal_spec hlength.symm
  exact ⟨_, by rw [hparameters, List.filter_filter]⟩

end Layout

theorem flatMap_filter_of_nil {α β : Type} {keep : α → Bool} {f : α → List β} {as : List α}
    (h : ∀ a ∈ as, keep a = false → f a = []) : (as.filter keep).flatMap f = as.flatMap f := by
  induction as with
  | nil => rfl
  | cons a as ih =>
    rw [List.forall_mem_cons] at h
    cases hkeep : keep a with
    | true => rw [List.filter_cons_of_pos hkeep, List.flatMap_cons, List.flatMap_cons, ih h.2]
    | false =>
      rw [List.filter_cons_of_neg (by simp [hkeep]), List.flatMap_cons, h.1 hkeep, ih h.2]
      rfl

/-! ## What is published -/

namespace Settled

variable {u : Usage} {g : Gathered} {evaluator : Evaluator}
  {arranged : List (Parameter × Slot Payload)} {options positionals defaulted : List Binding}
  {values : Dict Value}

theorem defaulted_eq_nil
    (h : Settled u Dict.empty g arranged options positionals defaulted) : defaulted = [] := by
  refine List.eq_nil_iff_forall_not_mem.2 fun b hb => ?_
  obtain ⟨p, -, hdefaults⟩ := h.of_mem_defaulted hb
  cases hdefaults with
  | defaulted hdefault => simp at hdefault

theorem regular (h : Settled u Dict.empty g arranged options positionals defaulted) (hu : u.Keyed)
    (hlists : ∀ p ∈ u.layout.parameters, p.recurs → p.type.collector? = none)
    (hsupplied : ∀ payload ∈ g.positionals, payload.IsSupplied) :
    ∀ slot ∈ arranged, Invocation.Regular slot := by
  intro slot hslot
  obtain ⟨-, hassigns, -⟩ := Layout.arrange_sound hu.fits h.of_arrangement
  obtain ⟨hp, hshaped⟩ := hassigns.shaped slot hslot
  refine ⟨?_, hlists slot.1 hp, fun payload hpayload => hsupplied payload ?_⟩
  · split at hshaped
    · next hrecurs =>
      obtain ⟨vs, -, heq⟩ := hshaped
      rw [if_pos hrecurs]
      exact ⟨vs, heq⟩
    · next hrecurs =>
      rw [if_neg hrecurs]
      exact hshaped
  · rw [← hassigns.all]
    exact List.mem_flatMap.2 ⟨slot, hslot, hpayload⟩

/-- The positional values that are published are those of the parameters that are dealt some. -/
theorem positionalValues_eq (h : Settled u Dict.empty g arranged options positionals defaulted)
    (hu : u.Keyed)
    (hvalued : Invocation.Valued evaluator (options ++ positionals ++ defaulted) g.tail values) :
    Invocation.positionalValues u.layout values =
      arranged.flatMap fun slot => Invocation.publishedFor values slot.1 := by
  obtain ⟨filled, hfilled⟩ := Layout.arrange_parameters hu.fits h.of_arrangement
  have hunbound : ∀ p ∈ u.layout.parameters, filled p = false →
      Invocation.publishedFor values p = [] := by
    intro p hp hp'
    have hnone : values.get? p.key = none := by
      refine hvalued.only p.key (positionalKey_ne_tailKey p.index) fun b hb heq => ?_
      rcases (h.bound_iff hu hp).1 ⟨b, hb, heq⟩ with hdealt | hdefault
      · rw [hfilled, List.mem_filter, hp'] at hdealt
        simp at hdealt
      · simp at hdefault
    simp [Invocation.publishedFor, hnone]
  rw [Invocation.positionalValues_eq, ← flatMap_filter_of_nil hunbound, ← hfilled, List.flatMap_map]

end Settled

namespace Invocation

/-- The values under the keys of bindings are where resolving has put them. -/
theorem get?_of_holds {evaluator : Evaluator} {bindings : List Binding} {tail : Option (List Token)}
    {s : Resolution}
    (hvalued : Valued evaluator bindings tail ((direct bindings tail).extend s.completed))
    {b : Binding} (hb : b ∈ bindings) {v : Value} (hv : Holds b s.completed v) :
    ((direct bindings tail).extend s.completed).get? b.key = some v := by
  rcases hv with hready | hcompleted
  · obtain ⟨w, hw, hgets⟩ := hvalued.of_binding b hb
    unfold Binding.Gets at hgets
    rw [hready] at hgets
    rw [hw, hgets]
  · rw [Dict.get?_extend, hcompleted]
    rfl

/-- **The positionals of an environment are read in order** from what the arrangement deals. -/
theorem readInOrder_of_outcome {u : Usage} (hu : u.Keyed)
    (hlists : ∀ p ∈ u.layout.parameters, p.recurs → p.type.collector? = none) {g : Gathered}
    (hsupplied : ∀ payload ∈ g.positionals, payload.IsSupplied) {evaluator : Evaluator}
    {env : Environment} (h : (outcome { usage := u } g evaluator).result = .ok env) :
    ∃ slots earlier log, u.layout.arrange g.positionals = .ok slots ∧
      (outcome { usage := u } g evaluator).evaluations = earlier ++ log ∧
      ReadInOrder evaluator (dealt slots) log env.positionals := by
  obtain ⟨bindings, claimed, s, explicit, hsettle, hresolve, rfl, hevaluations, -⟩ :=
    resolved_of_outcome h
  obtain ⟨arranged, options, positionals, defaulted, hsettled, rfl⟩ := settled_of_settle hsettle
  have hnodup := hsettled.nodup hu
  have hvalued := valued_of_resolve hnodup (hsettled.key_ne_tailKey hu) hresolve
  have hvalues (b : Binding) (hb : b ∈ positionals) (v : Value) (hv : Holds b s.completed v) :=
    get?_of_holds hvalued (by simp [hb]) hv
  have hread := hsettled.positionalValues_eq hu hvalued
  generalize (direct (options ++ positionals ++ defaulted) g.tail).extend s.completed = values at *
  rw [hsettled.defaulted_eq_nil, List.append_nil] at hnodup hresolve
  obtain ⟨s₁, hoptions, hpositionals⟩ := resolve_append_ok_iff.1 hresolve
  rw [List.map_append, List.nodup_append] at hnodup
  obtain ⟨log, hlog, hinOrder⟩ := readInOrder_of_resolve hsettled.of_positionals
    (hsettled.regular hu hlists hsupplied) hnodup.2.1 hpositionals hvalues
  refine ⟨arranged, s₁.evaluations, log, hsettled.of_arrangement, hevaluations.trans hlog, ?_⟩
  rw [← hread] at hinOrder
  simpa [Environment.positionals, get?_publish_positionalsKey, Value.elements?] using hinOrder

end Invocation

namespace Usage

variable {text : String} {r r' : Registry} {u : Usage} {tokens : List Token} {evaluator : Evaluator}
  {env : Environment}

theorem isSupplied_payload (token : Token) : token.payload.IsSupplied := by
  unfold Token.payload
  split <;> trivial

/-- **No positional is lost, added or moved.** The positionals of an environment are as many as were
found. They are the positional tokens of the command line in order, each read through the type of
the parameter that the arrangement deals it to: a text as it is, and an expression by what the
evaluator returned for it. -/
theorem positionals_of_invoke (h : compile text r = .ok u r')
    (hlists : ∀ p ∈ u.layout.parameters, p.recurs → p.type.collector? = none)
    (henv : (u.invoke tokens evaluator).result = .ok env) :
    ∃ pieces slots earlier log,
      u.switches.ReadsPieces u.layout.tailStart 0 tokens pieces ∧
      (u.scan tokens).positionals = (pieces.filterMap Piece.positional?).map Token.payload ∧
      u.layout.arrange (u.scan tokens).positionals = .ok slots ∧
      (dealt slots).map (·.2) = (u.scan tokens).positionals ∧
      env.positionals.length = (u.scan tokens).positionals.length ∧
      (u.invoke tokens evaluator).evaluations = earlier ++ log ∧
      ReadInOrder evaluator (dealt slots) log env.positionals := by
  have hu := keyed_of_compile h
  obtain ⟨herror, g, hfed⟩ := fed_of_invoke henv
  rw [invoke_eq_of_fed hfed herror] at henv ⊢
  obtain ⟨pieces, hpieces, hoccurrences⟩ := SwitchTable.exists_pieces herror
  have hfound : (u.scan tokens).positionals = positionalsOf pieces := by
    rw [Scan.positionals, show (u.scan tokens).occurrences = _ from hoccurrences]
    rfl
  have hgathered : g.positionals = (u.scan tokens).positionals := (after_of_fed hfed).positionals
  have hsupplied : ∀ payload ∈ g.positionals, payload.IsSupplied := by
    rw [hgathered, hfound, hpieces.positionalsOf_eq]
    intro payload hpayload
    obtain ⟨token, -, rfl⟩ := List.mem_map.1 hpayload
    exact isSupplied_payload token
  obtain ⟨slots, earlier, log, harrange, hlog, hread⟩ :=
    Invocation.readInOrder_of_outcome hu hlists hsupplied henv
  obtain ⟨-, hassigns, -⟩ := Layout.arrange_sound hu.fits harrange
  have hdealt : (dealt slots).map (·.2) = (u.scan tokens).positionals := by
    rw [← hgathered, ← hassigns.all, dealt, List.map_flatMap]
    refine List.flatMap_congr fun slot _ => ?_
    simp
  refine ⟨pieces, slots, earlier, log, hpieces, ?_, hgathered ▸ harrange, hdealt, ?_, hlog, hread⟩
  · rw [hfound, hpieces.positionalsOf_eq]
  · rw [hread.length_eq, ← hdealt, List.length_map]

/-- An expression among the values of a list. -/
theorem positionals_expressionInList :
    ∃ u r' env, compile "INT STR..." Registry.standard = .ok u r' ∧
      (u.invoke [⟨.positionalValue, "1"⟩, ⟨.positionalExpression, "e"⟩, ⟨.positionalValue, "-"⟩]
        fun _ _ => .ok "a").result = .ok env ∧
      env.positionals.length = 3 ∧
      ∃ slots log, ReadInOrder (fun _ _ => .ok "a") (dealt slots) log env.positionals := by
  obtain ⟨u, r', hcompile, hcheck⟩ := exists_of_succeedsWith
    (compile "INT STR..." Registry.standard)
    (fun u _ =>
      u.layout.parameters.all (fun p => !p.recurs || p.type.collector?.isNone) &&
      (u.scan [⟨.positionalValue, "1"⟩, ⟨.positionalExpression, "e"⟩,
        ⟨.positionalValue, "-"⟩]).positionals.length = 3 &&
      (u.invoke [⟨.positionalValue, "1"⟩, ⟨.positionalExpression, "e"⟩, ⟨.positionalValue, "-"⟩]
        fun _ _ => .ok "a").result.isOk)
    (by decide +kernel)
  simp only [Bool.and_eq_true, List.all_eq_true, Bool.or_eq_true, Bool.not_eq_true',
    Option.isNone_iff_eq_none, decide_eq_true_eq, failing_isOk_iff] at hcheck
  obtain ⟨⟨hlists, hcount⟩, env, henv⟩ := hcheck
  have hlists' : ∀ p ∈ u.layout.parameters, p.recurs → p.type.collector? = none := by
    intro p hp hrecurs
    exact (hlists p hp).resolve_left (by simp [hrecurs])
  obtain ⟨pieces, slots, earlier, log, -, -, -, -, hlength, -, hread⟩ :=
    positionals_of_invoke hcompile hlists' henv
  exact ⟨u, r', env, hcompile, henv, hlength.trans hcount, slots, log, hread⟩

end Usage

end Synopsis
