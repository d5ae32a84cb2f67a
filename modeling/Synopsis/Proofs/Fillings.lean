import Synopsis.Proofs.Checks

/-!
# What stands under a key while expressions are resolved

An expression stands for a text that is not there yet. The *calls* of an invocation are its
expressions, in the order in which they are resolved. With the answers to some of them, the payloads
of a parameter are *filled*: a text takes the place of each expression, as far as the texts go. What
stands under a key then is what the parameter answers with by its filled payloads, where no
expression has a value of its own (`Invocation.Stands`).

Settling leaves entries in place of payloads. Filling the entries of a binding comes to what filling
the payloads does (`fills_iff`), so what stands is what the bindings are filled to
(`Settled.stands_iff`), and their expressions are the calls (`Settled.calls_eq`).
-/

namespace Synopsis

/-! ## Calls -/

/-- An expression, and the parameter that it is for. -/
structure Call where
  key : String
  type : ValueType
  expression : String

/-- The expression of a payload. -/
def Payload.expression? : Payload → Option String
  | deferred expression => some expression
  | _ => none

/-- The calls for a parameter by its payloads. -/
def callsFor (key : String) (type : ValueType) (payloads : List Payload) : List Call :=
  (payloads.filterMap Payload.expression?).map (⟨key, type, ·⟩)

theorem expressions_callsFor (key : String) (type : ValueType) (payloads : List Payload) :
    (callsFor key type payloads).map Call.expression = payloads.filterMap Payload.expression? := by
  simp [callsFor, Function.comp_def]

/-- The texts that calls for a parameter are answered with. -/
def textsFor (done : List (Call × String)) (key : String) : List String :=
  (done.filter (·.1.key = key)).map (·.2)

theorem textsFor_append (done more : List (Call × String)) (key : String) :
    textsFor (done ++ more) key = textsFor done key ++ textsFor more key := by
  simp [textsFor]

theorem textsFor_eq_nil {done : List (Call × String)} {key : String}
    (h : ∀ a ∈ done, a.1.key ≠ key) : textsFor done key = [] := by
  simpa [textsFor] using h

theorem textsFor_eq_map {done : List (Call × String)} {key : String}
    (h : ∀ a ∈ done, a.1.key = key) : textsFor done key = done.map (·.2) := by
  rw [textsFor, List.filter_eq_self.2 (by simpa using h)]

/-! ## Filling -/

namespace Payload

/-- The payload with the first of the texts in place of its expression. -/
def fill : Payload → List String → Payload
  | deferred _, answer :: _ => text answer
  | payload, _ => payload

/-- The texts that filling the payload leaves. -/
def leaves : Payload → List String → List String
  | deferred _, texts => texts.tail
  | _, texts => texts

end Payload

/-- The payloads with the texts in place of their expressions. -/
def fillAll : List Payload → List String → List Payload
  | [], _ => []
  | payload :: payloads, texts => payload.fill texts :: fillAll payloads (payload.leaves texts)

theorem fillAll_eq_nil_iff {payloads : List Payload} {texts : List String} :
    fillAll payloads texts = [] ↔ payloads = [] := by
  cases payloads <;> simp [fillAll]

theorem length_fillAll (payloads : List Payload) (texts : List String) :
    (fillAll payloads texts).length = payloads.length := by
  induction payloads generalizing texts with
  | nil => rfl
  | cons payload payloads ih => simp [fillAll, ih]

def Slot.fill (texts : List String) : Slot Payload → Slot Payload
  | single payload => single (payload.fill texts)
  | list payloads => list (fillAll payloads texts)

namespace Entry

/-- The expression of an entry. -/
def expression? : Entry → Option String
  | ready _ => none
  | deferred expression => some expression

/-- What the entry comes to with the first of the texts in place of its expression. -/
def FilledBy (type : ValueType) : Entry → List String → Value → Prop
  | ready value, _, v => v = value
  | deferred _, text :: _, v => type.Reads text v
  | deferred _, [], _ => False

/-- The texts that filling the entry leaves. -/
def leaves : Entry → List String → List String
  | ready _, texts => texts
  | deferred _, texts => texts.tail

end Entry

/-- What entries come to with the texts in place of their expressions. -/
inductive Fills (type : ValueType) : List Entry → List String → List Value → Prop
  | nil {texts : List String} : Fills type [] texts []
  | cons {entry : Entry} {entries : List Entry} {texts : List String} {value : Value}
      {values : List Value} (hentry : entry.FilledBy type texts value)
      (hrest : Fills type entries (entry.leaves texts) values) :
      Fills type (entry :: entries) texts (value :: values)

/-- What a slot of entries comes to with the texts in place of their expressions. -/
inductive Slot.FilledBy (type : ValueType) : Slot Entry → List String → Slot Value → Prop
  | single {entry : Entry} {texts : List String} {value : Value}
      (h : entry.FilledBy type texts value) : FilledBy type (.single entry) texts (.single value)
  | list {entries : List Entry} {texts : List String} {values : List Value}
      (h : Fills type entries texts values) : FilledBy type (.list entries) texts (.list values)

namespace Binding

/-- The value of a binding with the texts in place of its expressions. -/
def FilledBy (b : Binding) (texts : List String) (v : Value) : Prop :=
  match b.bound with
  | .ready value => v = value
  | .pending entries =>
    ∃ values, entries.FilledBy b.type texts values ∧ v = values.collect b.type

/-- The calls for a binding. -/
def calls (b : Binding) : List Call :=
  match b.bound with
  | .ready _ => []
  | .pending entries => (entries.values.filterMap Entry.expression?).map (⟨b.key, b.type, ·⟩)

end Binding

section Fillings

variable {type : ValueType} {texts more : List String} {entry : Entry} {entries : List Entry}
  {v v' : Value} {values values' : List Value} {b : Binding}

theorem Entry.FilledBy.unique (h : entry.FilledBy type texts v)
    (h' : entry.FilledBy type texts v') : v = v' := by
  cases entry with
  | ready value => exact Eq.trans h (Eq.symm h')
  | deferred expression =>
    cases texts with
    | nil => exact h.elim
    | cons text texts => exact ValueType.Reads.unique h h'

theorem Fills.unique (h : Fills type entries texts values) (h' : Fills type entries texts values') :
    values = values' := by
  induction h generalizing values' with
  | nil =>
    cases h'
    rfl
  | cons hentry _ ih =>
    cases h' with
    | cons hentry' hrest' => rw [hentry.unique hentry', ih hrest']

/-- The texts decide the value of a binding. -/
theorem Binding.FilledBy.unique (h : b.FilledBy texts v) (h' : b.FilledBy texts v') : v = v' := by
  unfold FilledBy at h h'
  cases hbound : b.bound with
  | ready value =>
    simp only [hbound] at h h'
    rw [h, h']
  | pending entries =>
    simp only [hbound] at h h'
    obtain ⟨values, hvalues, rfl⟩ := h
    obtain ⟨values', hvalues', rfl⟩ := h'
    cases hvalues with
    | single hvalue =>
      cases hvalues' with
      | single hvalue' => rw [hvalue.unique hvalue']
    | list hvalues =>
      cases hvalues' with
      | list hvalues' => rw [hvalues.unique hvalues']

/-! ### More texts -/

theorem Entry.FilledBy.append (h : entry.FilledBy type texts v) (more : List String) :
    entry.FilledBy type (texts ++ more) v ∧
      entry.leaves (texts ++ more) = entry.leaves texts ++ more := by
  cases entry with
  | ready value => exact ⟨h, rfl⟩
  | deferred expression =>
    cases texts with
    | nil => exact h.elim
    | cons text texts => exact ⟨h, rfl⟩

theorem Fills.append (h : Fills type entries texts values) (more : List String) :
    Fills type entries (texts ++ more) values := by
  induction h with
  | nil => exact .nil
  | cons hentry _ ih =>
    obtain ⟨hentry', hleaves⟩ := hentry.append more
    exact .cons hentry' (hleaves ▸ ih)

/-- A value that a binding has stays, whatever is answered after. -/
theorem Binding.FilledBy.append (h : b.FilledBy texts v) (more : List String) :
    b.FilledBy (texts ++ more) v := by
  unfold FilledBy at h ⊢
  cases hbound : b.bound with
  | ready value =>
    simp only [hbound] at h ⊢
    exact h
  | pending entries =>
    simp only [hbound] at h ⊢
    obtain ⟨values, hvalues, rfl⟩ := h
    cases hvalues with
    | single hvalue => exact ⟨_, .single (hvalue.append more).1, rfl⟩
    | list hvalues => exact ⟨_, .list (hvalues.append more), rfl⟩

/-- An entry takes as many texts as it has expressions, and leaves the others to later entries. -/
theorem Entry.FilledBy.cons_append (hentry : entry.FilledBy type texts v)
    (hlength : texts.length = entry.expression?.toList.length)
    (h : Fills type entries more values) :
    Fills type (entry :: entries) (texts ++ more) (v :: values) := by
  obtain ⟨hentry', hleaves⟩ := hentry.append more
  have hnil : entry.leaves texts = [] := by
    refine List.length_eq_zero_iff.1 ?_
    cases entry with
    | ready value => exact hlength
    | deferred expression =>
      show texts.tail.length = 0
      rw [List.length_tail, hlength]
      rfl
  exact .cons hentry' (by rwa [hleaves, hnil])

/-! ### Too few texts -/

theorem Fills.length_le (h : Fills type entries texts values) :
    (entries.filterMap Entry.expression?).length ≤ texts.length := by
  induction h with
  | nil => exact Nat.zero_le _
  | @cons entry entries texts value values hentry _ ih =>
    cases entry with
    | ready v => exact ih
    | deferred expression =>
      cases texts with
      | nil => exact hentry.elim
      | cons text texts => exact Nat.succ_le_succ ih

/-- A binding has no value before all its expressions are answered. -/
theorem Binding.FilledBy.length_le (h : b.FilledBy texts v) : b.calls.length ≤ texts.length := by
  unfold FilledBy at h
  unfold calls
  cases hbound : b.bound with
  | ready value => exact Nat.zero_le _
  | pending entries =>
    simp only [hbound] at h ⊢
    obtain ⟨values, hvalues, rfl⟩ := h
    rw [List.length_map]
    cases hvalues with
    | single hvalue => exact (Fills.cons hvalue .nil).length_le
    | list hvalues => exact hvalues.length_le

/-- Entries come to values as soon as there is a text for each expression, if the texts can be
read. -/
theorem exists_fills (htexts : ∀ text ∈ texts, type.CanRead text)
    (hlength : (entries.filterMap Entry.expression?).length ≤ texts.length) :
    ∃ values, Fills type entries texts values := by
  induction entries generalizing texts with
  | nil => exact ⟨[], .nil⟩
  | cons entry entries ih =>
    cases entry with
    | ready value =>
      obtain ⟨values, h⟩ := ih htexts hlength
      exact ⟨value :: values, .cons rfl h⟩
    | deferred expression =>
      cases texts with
      | nil => simp [Entry.expression?] at hlength
      | cons text texts =>
        rw [List.forall_mem_cons] at htexts
        obtain ⟨value, hvalue⟩ := htexts.1
        obtain ⟨values, h⟩ := ih htexts.2 (by simpa [Entry.expression?] using hlength)
        exact ⟨value :: values, .cons hvalue h⟩

/-- **A binding has a value exactly if all its expressions are answered.** -/
theorem Binding.exists_filledBy_iff (htexts : ∀ text ∈ texts, b.type.CanRead text) :
    (∃ v, b.FilledBy texts v) ↔ b.calls.length ≤ texts.length := by
  refine ⟨fun ⟨v, hv⟩ => hv.length_le, fun hlength => ?_⟩
  unfold calls at hlength
  unfold FilledBy
  cases hbound : b.bound with
  | ready value => exact ⟨value, rfl⟩
  | pending entries =>
    simp only [hbound, List.length_map] at hlength ⊢
    obtain ⟨values, hvalues⟩ := exists_fills htexts hlength
    cases entries with
    | list entries => exact ⟨_, _, .list hvalues, rfl⟩
    | single entry =>
      cases hvalues with
      | cons hvalue => exact ⟨_, _, .single hvalue, rfl⟩

/-! ### Calls for bindings -/

theorem Binding.of_mem_calls {c : Call} (h : c ∈ b.calls) : c.key = b.key ∧ c.type = b.type := by
  unfold calls at h
  cases hbound : b.bound with
  | ready value => simp [hbound] at h
  | pending entries =>
    simp only [hbound] at h
    obtain ⟨expression, -, rfl⟩ := List.mem_map.1 h
    exact ⟨rfl, rfl⟩

theorem filter_calls {bindings : List Binding} (hnodup : (bindings.map Binding.key).Nodup)
    (hb : b ∈ bindings) :
    (bindings.flatMap Binding.calls).filter (·.key = b.key) = b.calls := by
  have hown : b.calls.filter (·.key = b.key) = b.calls :=
    List.filter_eq_self.2 fun c hc => by simp [(Binding.of_mem_calls hc).1]
  have hother {b' : Binding} (hne : b'.key ≠ b.key) : b'.calls.filter (·.key = b.key) = [] :=
    List.filter_eq_nil_iff.2 fun c hc => by simp [(Binding.of_mem_calls hc).1, hne]
  induction bindings with
  | nil => simp at hb
  | cons b' bindings ih =>
    rw [List.map_cons, List.nodup_cons] at hnodup
    rw [List.flatMap_cons, List.filter_append]
    rcases List.mem_cons.1 hb with rfl | hb
    · have hlater : (bindings.flatMap Binding.calls).filter (·.key = b.key) = [] := by
        rw [List.filter_flatMap]
        refine List.flatMap_eq_nil_iff.2 fun b' hb' => hother fun heq => hnodup.1 ?_
        exact heq ▸ List.mem_map_of_mem hb'
      rw [hown, hlater, List.append_nil]
    · rw [hother fun heq => hnodup.1 (heq ▸ List.mem_map_of_mem hb), ih hnodup.2 hb,
        List.nil_append]

/-! ### Bindings made of entries -/

theorem fills_map_ready {values values' : List Value} :
    Fills type (values.map Entry.ready) texts values' ↔ values' = values := by
  induction values generalizing values' with
  | nil =>
    constructor
    · intro h
      cases h
      rfl
    · rintro rfl
      exact .nil
  | cons value values ih =>
    constructor
    · intro h
      cases h with
      | cons hentry hrest =>
        obtain rfl := hentry
        rw [ih.1 hrest]
    · rintro rfl
      exact .cons rfl (ih.2 rfl)

theorem Binding.filledBy_ofEntries (entries : Slot Entry)
    (hb : b.bound = .ofEntries b.type entries) :
    b.FilledBy texts v ↔
      ∃ values, entries.FilledBy b.type texts values ∧ v = values.collect b.type := by
  unfold FilledBy
  rw [hb]
  cases entries with
  | single entry =>
    cases entry with
    | deferred expression => rfl
    | ready value =>
      constructor
      · rintro rfl
        exact ⟨_, .single rfl, rfl⟩
      · rintro ⟨_, hvalues, rfl⟩
        cases hvalues with
        | single hvalue => exact hvalue
  | list entries =>
    cases hvalues : entries.mapM Entry.value? with
    | none => simp only [Bound.ofEntries, hvalues]
    | some values =>
      obtain rfl := reads_all_of_mapM_value? hvalues
      rw [Bound.ofEntries_list_ready]
      constructor
      · rintro rfl
        exact ⟨_, .list (fills_map_ready.2 rfl), rfl⟩
      · rintro ⟨_, hvalues, rfl⟩
        cases hvalues with
        | list hvalues => rw [fills_map_ready.1 hvalues]; rfl

theorem Binding.calls_ofEntries {entries : Slot Entry} (hb : b.bound = .ofEntries b.type entries) :
    b.calls = (entries.values.filterMap Entry.expression?).map (⟨b.key, b.type, ·⟩) := by
  unfold calls
  rw [hb]
  cases entries with
  | single entry => cases entry <;> rfl
  | list entries =>
    cases hvalues : entries.mapM Entry.value? with
    | none => simp only [Bound.ofEntries, hvalues]
    | some values =>
      obtain rfl := reads_all_of_mapM_value? hvalues
      rw [Bound.ofEntries_list_ready]
      simp [Entry.expression?]

theorem exists_ready_of_expression? {entries : List Entry}
    (h : entries.filterMap Entry.expression? = []) :
    ∃ values : List Value, entries = values.map Entry.ready := by
  induction entries with
  | nil => exact ⟨[], rfl⟩
  | cons entry entries ih =>
    cases entry with
    | deferred expression => simp [Entry.expression?] at h
    | ready value =>
      obtain ⟨values, rfl⟩ := ih h
      exact ⟨value :: values, rfl⟩

theorem Binding.isReady_ofEntries (entries : Slot Entry)
    (hb : b.bound = .ofEntries b.type entries) (hcalls : b.calls = []) : b.IsReady := by
  rw [calls_ofEntries hb, List.map_eq_nil_iff] at hcalls
  unfold IsReady
  rw [hb]
  cases entries with
  | single entry =>
    cases entry with
    | ready value => exact ⟨value, rfl⟩
    | deferred expression => simp [Entry.expression?] at hcalls
  | list entries =>
    obtain ⟨values, rfl⟩ := exists_ready_of_expression? hcalls
    exact ⟨_, Bound.ofEntries_list_ready b.type values⟩

end Fillings

/-! ## Entries and payloads -/

section Entering

variable {type : ValueType} {texts : List String} {payload : Payload} {payloads : List Payload}
  {entry : Entry} {entries : List Entry} {v : Value} {values : List Value}

theorem not_unsupported {expression text : String} {view : View} :
    Evaluator.unsupported expression view ≠ .ok text := by
  simp [Evaluator.unsupported]

theorem Payload.Enters.filledBy_iff (h : payload.Enters type entry) :
    entry.FilledBy type texts v ↔ (payload.fill texts).Yields Evaluator.unsupported type v := by
  cases payload with
  | text written =>
    obtain ⟨value, hreads, rfl⟩ := h
    constructor
    · rintro rfl
      exact hreads
    · intro hv
      exact ValueType.Reads.unique hv hreads
  | implied on =>
    obtain rfl : entry = .ready (.boolean on) := h
    exact Iff.rfl
  | deferred expression =>
    obtain rfl : entry = .deferred expression := h
    cases texts with
    | nil =>
      refine iff_of_false id ?_
      rintro ⟨view, text, hanswer, -⟩
      exact not_unsupported hanswer
    | cons text texts => exact Iff.rfl

theorem Payload.Enters.leaves_eq (h : payload.Enters type entry) (texts : List String) :
    entry.leaves texts = payload.leaves texts := by
  cases payload with
  | text written =>
    obtain ⟨value, -, rfl⟩ := h
    rfl
  | implied on =>
    obtain rfl : entry = .ready (.boolean on) := h
    rfl
  | deferred expression =>
    obtain rfl : entry = .deferred expression := h
    rfl

theorem Payload.Enters.expression?_eq (h : payload.Enters type entry) :
    entry.expression? = payload.expression? := by
  cases payload with
  | text written =>
    obtain ⟨value, -, rfl⟩ := h
    rfl
  | implied on =>
    obtain rfl : entry = .ready (.boolean on) := h
    rfl
  | deferred expression =>
    obtain rfl : entry = .deferred expression := h
    rfl

/-- **Filling entries comes to what filling their payloads does.** -/
theorem fills_iff (h : List.Forall₂ (Payload.Enters type) payloads entries) :
    Fills type entries texts values ↔
      List.Forall₂ (Payload.Yields Evaluator.unsupported type) (fillAll payloads texts) values := by
  induction h generalizing texts values with
  | nil =>
    rw [fillAll, List.forall₂_nil_left_iff]
    constructor
    · intro h
      cases h
      rfl
    · rintro rfl
      exact .nil
  | @cons payload entry payloads entries hentry _ ih =>
    rw [fillAll, List.forall₂_cons_left_iff]
    constructor
    · intro h
      cases h with
      | cons hvalue hrest =>
        exact ⟨_, _, hentry.filledBy_iff.1 hvalue, ih.1 (hentry.leaves_eq texts ▸ hrest), rfl⟩
    · rintro ⟨value, values, hvalue, hrest, rfl⟩
      exact .cons (hentry.filledBy_iff.2 hvalue) (hentry.leaves_eq texts ▸ ih.2 hrest)

theorem expressions_of_enters (h : List.Forall₂ (Payload.Enters type) payloads entries) :
    entries.filterMap Entry.expression? = payloads.filterMap Payload.expression? := by
  induction h with
  | nil => rfl
  | cons hentry _ ih => rw [List.filterMap_cons, List.filterMap_cons, hentry.expression?_eq, ih]

theorem Slot.filledBy_iff {slot : Slot Payload} {entries : Slot Entry} {values : Slot Value}
    (h : slot.Rel (Payload.Enters type) entries) :
    entries.FilledBy type texts values ↔
      (slot.fill texts).Rel (Payload.Yields Evaluator.unsupported type) values := by
  cases h with
  | single hentry =>
    constructor
    · intro h
      cases h with
      | single hvalue => exact .single (hentry.filledBy_iff.1 hvalue)
    · intro h
      cases h with
      | single hvalue => exact .single (hentry.filledBy_iff.2 hvalue)
  | list hentries =>
    constructor
    · intro h
      cases h with
      | list hvalues => exact .list ((fills_iff hentries).1 hvalues)
    · intro h
      cases h with
      | list hvalues => exact .list ((fills_iff hentries).2 hvalues)

theorem Binding.calls_of_enters {slot : Slot Payload} {entries : Slot Entry} {b : Binding}
    (hb : b.bound = .ofEntries b.type entries) (h : slot.Rel (Payload.Enters b.type) entries) :
    b.calls = callsFor b.key b.type slot.values := by
  rw [calls_ofEntries hb, callsFor]
  cases h with
  | single hentry => exact congrArg _ (expressions_of_enters (.cons hentry .nil))
  | list hentries => exact congrArg _ (expressions_of_enters hentries)

end Entering

/-! ## Settled parameters -/

section Settling

variable {defaults : Dict DefaultValue} {texts : List String} {b : Binding} {v v' : Value}

theorem DefaultValue.Gives.unique {type : ValueType} {list : Bool} {d : DefaultValue}
    (h : d.Gives type list v) (h' : d.Gives type list v') : v = v' := by
  cases d with
  | value given => exact Eq.trans h (Eq.symm h')
  | raw text =>
    obtain ⟨read, hread, rfl⟩ := h
    obtain ⟨read', hread', rfl⟩ := h'
    rw [hread.unique hread']

variable {o : OptionSpec} {payloads : List Payload}

/-- **The binding of an option is filled to what the option answers with.** -/
theorem OptionSpec.Settles.filledBy_iff (h : o.Settles defaults payloads (some b)) :
    b.FilledBy texts v ↔
      o.Answers defaults Evaluator.unsupported (fillAll payloads texts) v := by
  cases h with
  | counted hne hrecurs hflag =>
    rw [answers_counted_iff hrecurs hflag (mt fillAll_eq_nil_iff.1 hne), length_fillAll]
    rfl
  | @listed _ entries hne hrecurs hflag hentries =>
    rw [Binding.filledBy_ofEntries (b := o.binding _ true) (.list entries) rfl,
      answers_listed_iff hrecurs hflag (mt fillAll_eq_nil_iff.1 hne)]
    constructor
    · rintro ⟨_, hvalues, rfl⟩
      cases hvalues with
      | list hvalues => exact ⟨_, (fills_iff hentries).1 hvalues, rfl⟩
    · rintro ⟨values, hvalues, rfl⟩
      exact ⟨_, .list ((fills_iff hentries).2 hvalues), rfl⟩
  | @single payload rest entry hrecurs hentry =>
    rw [Binding.filledBy_ofEntries (b := o.binding _ true) (.single entry) rfl]
    refine Iff.trans ?_ (answers_cons_iff hrecurs).symm
    constructor
    · rintro ⟨_, hvalues, rfl⟩
      cases hvalues with
      | single hvalue => exact hentry.filledBy_iff.1 hvalue
    · exact fun hvalue => ⟨_, .single (hentry.filledBy_iff.2 hvalue), rfl⟩
  | defaulted hdefault hvalue =>
    refine Iff.trans ?_ answers_nil_iff.symm
    constructor
    · rintro rfl
      exact Or.inl ⟨_, hdefault, hvalue⟩
    · rintro (⟨d, hdefault', hvalue'⟩ | ⟨hdefault', -⟩)
      · obtain rfl := Option.some.inj (hdefault.symm.trans hdefault')
        exact hvalue'.unique hvalue
      · simp [hdefault] at hdefault'
  | nothing hdefault hrecurs =>
    refine Iff.trans ?_ answers_nil_iff.symm
    simp only [hdefault, reduceCtorEq, false_and, exists_false, false_or, true_and, hrecurs]
    rfl

theorem OptionSpec.Settles.not_answers (h : o.Settles defaults payloads none) :
    ¬o.Answers defaults Evaluator.unsupported (fillAll payloads texts) v := by
  intro h'
  cases h with
  | unbound hdefault hrecurs =>
    rcases answers_nil_iff.1 h' with ⟨d, hdefault', -⟩ | ⟨-, hrecurs', -⟩
    · simp [hdefault] at hdefault'
    · simp [hrecurs] at hrecurs'

/-- The calls for an option are its expressions, where a repeated switch has none and an option that
does not repeat occurs once. -/
theorem OptionSpec.Settles.calls_eq {found : Option Binding} (h : o.Settles defaults payloads found)
    (hcounted : o.recurs → o.isFlag → ∀ payload ∈ payloads, payload.expression? = none)
    (halone : o.recurs = false → payloads.length ≤ 1) :
    found.toList.flatMap Binding.calls = callsFor o.key o.type payloads := by
  cases h with
  | counted _ hrecurs hflag =>
    rw [callsFor, List.filterMap_eq_nil_iff.2 (hcounted hrecurs hflag)]
    rfl
  | @listed _ entries _ _ _ hentries =>
    rw [Option.toList_some, List.flatMap_singleton]
    exact Binding.calls_of_enters (b := o.binding (.ofEntries o.type (.list entries)) true) rfl
      (.list hentries)
  | @single payload rest entry hrecurs hentry =>
    obtain rfl : rest = [] := List.length_eq_zero_iff.1 (by simpa using halone hrecurs)
    rw [Option.toList_some, List.flatMap_singleton]
    exact Binding.calls_of_enters (b := o.binding (.ofEntries o.type (.single entry)) true) rfl
      (.single hentry)
  | defaulted => rfl
  | nothing => rfl
  | unbound => rfl

theorem OptionSpec.Settles.isReady_of_calls (h : o.Settles defaults payloads (some b))
    (hcalls : b.calls = []) : b.IsReady := by
  cases h with
  | counted => exact ⟨_, rfl⟩
  | @listed _ entries => exact Binding.isReady_ofEntries (.list entries) rfl hcalls
  | @single _ _ entry => exact Binding.isReady_ofEntries (.single entry) rfl hcalls
  | defaulted => exact ⟨_, rfl⟩
  | nothing => exact ⟨_, rfl⟩

end Settling

/-! ## What stands -/

namespace Invocation

/-- The calls of an invocation: the expressions of its options, in the order of the usage, and then
those that its positionals are dealt. -/
def calls (inv : Invocation) (g : Gathered) : List Call :=
  (inv.usage.options.flatMap fun o => callsFor o.key o.type (g.occurrences o.key)) ++
    (inv.slots g).flatMap fun s => callsFor s.1.key s.1.type s.2.values

/-- **What stands under a key**, once the calls in `done` are answered: what an option answers with
or what a positional is dealt, both filled, the default of a positional that is dealt nothing, and
the tail. An expression that is not answered has no value, so a parameter with one has none. -/
inductive Stands (inv : Invocation) (g : Gathered) (done : List (Call × String)) :
    String → Value → Prop
  | option {o : OptionSpec} {v : Value} (ho : o ∈ inv.usage.options)
      (hv : o.Answers inv.defaults Evaluator.unsupported
        (fillAll (g.occurrences o.key) (textsFor done o.key)) v) :
      Stands inv g done o.key v
  | dealt {s : Parameter × Slot Payload} {values : Slot Value} (hs : s ∈ inv.slots g)
      (hvalues : (s.2.fill (textsFor done s.1.key)).Rel
        (Payload.Yields Evaluator.unsupported s.1.type) values) :
      Stands inv g done s.1.key (values.collect s.1.type)
  | defaulted {p : Parameter} {d : DefaultValue} {v : Value} (hp : p ∈ inv.usage.layout.parameters)
      (hundealt : p ∉ (inv.slots g).map (·.1)) (hdefault : inv.defaults.get? p.key = some d)
      (hv : d.Gives p.type p.recurs v) : Stands inv g done p.key v
  | tail {tokens : List Token} (htail : g.tail = some tokens) :
      Stands inv g done tailKey (.tail tokens)

/-- A repeated switch has no expression, and an option that does not repeat occurs once. -/
structure Regulated (inv : Invocation) (g : Gathered) : Prop where
  counted : ∀ o ∈ inv.usage.options, o.recurs → o.isFlag →
    ∀ payload ∈ g.occurrences o.key, payload.expression? = none
  alone : ∀ o ∈ inv.usage.options, o.recurs = false → (g.occurrences o.key).length ≤ 1

end Invocation

/-- What bindings and a tail have under a key, once the calls in `done` are answered. -/
def Visible (bindings : List Binding) (tail : Option (List Token)) (done : List (Call × String))
    (key : String) (v : Value) : Prop :=
  key = tailKey ∧ tail.map Value.tail = some v ∨
    ∃ b ∈ bindings, b.key = key ∧ b.FilledBy (textsFor done key) v

section Visible

variable {bindings : List Binding} {tail : Option (List Token)} {done done' : List (Call × String)}
  {key : String} {v : Value} {b : Binding}

/-- Only the answers for a key matter to what it has. -/
theorem visible_congr (h : textsFor done key = textsFor done' key) :
    Visible bindings tail done key v ↔ Visible bindings tail done' key v := by
  rw [Visible, Visible, h]

/-- Under the key of a binding is what the binding is filled to. -/
theorem visible_own (hnodup : (bindings.map Binding.key).Nodup) (hb : b ∈ bindings)
    (htail : b.key ≠ tailKey) :
    Visible bindings tail done b.key v ↔ b.FilledBy (textsFor done b.key) v := by
  constructor
  · rintro (⟨heq, -⟩ | ⟨b', hb', heq, hv⟩)
    · exact absurd heq htail
    · obtain rfl := List.inj_on_of_nodup_map hnodup hb' hb heq
      exact hv
  · intro hv
    exact Or.inr ⟨b, hb, rfl, hv⟩

end Visible

namespace Settled

variable {inv : Invocation} {g : Gathered} {arranged : List (Parameter × Slot Payload)}
  {options positionals defaulted : List Binding} {done : List (Call × String)} {key : String}
  {v : Value}

theorem visible_of_stands
    (h : Settled inv.usage inv.defaults g arranged options positionals defaulted)
    (hu : inv.usage.Keyed) (hv : inv.Stands g done key v) :
    Visible (options ++ positionals ++ defaulted) g.tail done key v := by
  have hslots := Invocation.slots_eq h.of_arrangement
  cases hv with
  | @option o v ho hv =>
    obtain ⟨found, hsettles, hmem, -⟩ := h.of_option hu ho
    cases found with
    | none => exact absurd hv hsettles.not_answers
    | some b => exact Or.inr ⟨b, hmem b rfl, hsettles.key_eq, hsettles.filledBy_iff.2 hv⟩
  | @dealt s values hs hvalues =>
    rw [hslots] at hs
    obtain ⟨b, hb, entries, hentries, rfl⟩ := exists_of_forall₂_left h.of_positionals hs
    have hb' := List.mem_append_left defaulted (List.mem_append_right options hb)
    refine Or.inr ⟨_, hb', rfl, (Binding.filledBy_ofEntries entries rfl).2 ?_⟩
    exact ⟨values, (Slot.filledBy_iff hentries).2 hvalues, rfl⟩
  | @defaulted p d v hp hundealt hdefault hv =>
    rw [hslots] at hundealt
    obtain ⟨b, hb, heq⟩ := h.bound_of_default hp (by rw [hdefault]; rfl)
    rcases h.mem_cases hb with ⟨o, ho, hsettles⟩ | ⟨s, -, entries, -, rfl⟩ | ⟨q, hq, hdefaults⟩
    · exact absurd (hsettles.key_eq.symm.trans heq) ((hu.optionKeys o ho).ne_positionalKey _)
    · exact absurd ((h.supplied_iff hu hp).1 ⟨_, hb, rfl, heq⟩) hundealt
    · have hindex := positionalKey_injective (hdefaults.key_eq.symm.trans heq)
      obtain rfl := hu.fits.index_injective hq hp hindex
      cases hdefaults with
      | defaulted hdefault' hvalue =>
        obtain rfl := Option.some.inj (hdefault.symm.trans hdefault')
        exact Or.inr ⟨_, hb, rfl, hv.unique hvalue⟩
  | tail htail => exact Or.inl ⟨rfl, by rw [htail]; rfl⟩

theorem stands_of_visible
    (h : Settled inv.usage inv.defaults g arranged options positionals defaulted)
    (hu : inv.usage.Keyed)
    (hv : Visible (options ++ positionals ++ defaulted) g.tail done key v) :
    inv.Stands g done key v := by
  have hslots := Invocation.slots_eq h.of_arrangement
  rcases hv with ⟨rfl, htail⟩ | ⟨b, hb, rfl, hv⟩
  · obtain ⟨tokens, htokens, rfl⟩ := Option.map_eq_some_iff.1 htail
    exact .tail htokens
  rcases h.mem_cases hb with ⟨o, ho, hsettles⟩ | ⟨s, hs, entries, hentries, rfl⟩ | ⟨p, hp, hdefaults⟩
  · rw [hsettles.key_eq] at hv ⊢
    exact .option ho (hsettles.filledBy_iff.1 hv)
  · obtain ⟨values, hvalues, rfl⟩ := (Binding.filledBy_ofEntries entries rfl).1 hv
    exact .dealt (hslots ▸ hs) ((Slot.filledBy_iff hentries).1 hvalues)
  · cases hdefaults with
    | @defaulted d value hdefault hvalue =>
      obtain rfl : v = value := hv
      refine .defaulted hp (fun hdealt => ?_) hdefault hvalue
      -- what is supplied has another binding of the key
      obtain ⟨b, hb', hexplicit, heq⟩ := (h.supplied_iff hu hp).2 (hslots ▸ hdealt)
      rw [List.inj_on_of_nodup_map (h.nodup hu) hb' hb heq] at hexplicit
      simp [Parameter.binding] at hexplicit

/-- **What stands under a key is what the bindings are filled to.** -/
theorem stands_iff (h : Settled inv.usage inv.defaults g arranged options positionals defaulted)
    (hu : inv.usage.Keyed) :
    inv.Stands g done key v ↔ Visible (options ++ positionals ++ defaulted) g.tail done key v :=
  ⟨h.visible_of_stands hu, h.stands_of_visible hu⟩

/-- **The calls of an invocation are those for its bindings**, in order. -/
theorem calls_eq (h : Settled inv.usage inv.defaults g arranged options positionals defaulted)
    (hregulated : inv.Regulated g) :
    (options ++ positionals ++ defaulted).flatMap Binding.calls = inv.calls g := by
  obtain ⟨hcounted, halone⟩ := hregulated
  have hoptions : options.flatMap Binding.calls =
      inv.usage.options.flatMap fun o => callsFor o.key o.type (g.occurrences o.key) := by
    obtain ⟨found, hfound, rfl⟩ := h.of_options
    rw [reduceOption_eq_flatMap, List.flatMap_assoc]
    generalize inv.usage.options = all at hfound hcounted halone ⊢
    clear h
    induction hfound with
    | nil => rfl
    | cons hsettles _ ih =>
      rw [List.forall_mem_cons] at hcounted halone
      rw [List.flatMap_cons, List.flatMap_cons, hsettles.calls_eq hcounted.1 halone.1,
        ih hcounted.2 halone.2]
  have hpositionals : positionals.flatMap Binding.calls =
      arranged.flatMap fun s => callsFor s.1.key s.1.type s.2.values := by
    have hdealt := h.of_positionals
    clear h
    induction hdealt with
    | nil => rfl
    | @cons s b arranged positionals hsettles _ ih =>
      obtain ⟨entries, hentries, rfl⟩ := hsettles
      rw [List.flatMap_cons, List.flatMap_cons, ih]
      exact congrArg (· ++ _) (Binding.calls_of_enters rfl hentries)
  have hdefaulted : defaulted.flatMap Binding.calls = [] := by
    refine List.flatMap_eq_nil_iff.2 fun b hb => ?_
    obtain ⟨p, -, hdefaults⟩ := h.of_mem_defaulted hb
    cases hdefaults
    rfl
  rw [List.flatMap_append, List.flatMap_append, hoptions, hpositionals, hdefaulted, List.append_nil,
    Invocation.calls, Invocation.slots_eq h.of_arrangement]

theorem isReady_of_calls
    (h : Settled inv.usage inv.defaults g arranged options positionals defaulted) :
    ∀ b ∈ options ++ positionals ++ defaulted, b.calls = [] → b.IsReady := by
  intro b hb hcalls
  rcases h.mem_cases hb with ⟨o, -, hsettles⟩ | ⟨s, -, entries, -, rfl⟩ | ⟨p, -, hdefaults⟩
  · exact hsettles.isReady_of_calls hcalls
  · exact Binding.isReady_ofEntries entries rfl hcalls
  · cases hdefaults
    exact ⟨_, rfl⟩

end Settled

end Synopsis
