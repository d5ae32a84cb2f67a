import Synopsis.Proofs.Plain
import Synopsis.Proofs.Primitives

/-!
# The file topic in values

How often the file topic occurs in what is bound, and which texts it comes from.

**Arrivals.** A text *arrives* at a parameter when the type of the parameter is to read it: it is
written on the command line, or it is a raw default, or an evaluator answers with it. The file topic
is bound by those arrivals only that are written `-` and whose type takes it
(`ValueType.topics_of_reads`).

**Accounts.** `Accounts` relates bindings to the payloads that they are read from: they hold no more
topics than arrive, and leave for an evaluator what is deferred. Each kind of binding accounts for
its own payloads, and so do all bindings of a usage (`Invocation.accounts_of_settled`).
-/

namespace Synopsis

/-! ## Counting -/

namespace Value

mutual

/-- How often the file topic occurs in a value, elements of lists included. -/
def topics : Value → Nat
  | topic => 1
  | list elements => topicsOf elements
  | _ => 0

def topicsOf : List Value → Nat
  | [] => 0
  | v :: vs => v.topics + topicsOf vs

end

theorem topicsOf_eq (vs : List Value) : topicsOf vs = (vs.map topics).sum := by
  induction vs with
  | nil => rfl
  | cons v vs ih => rw [topicsOf, ih, List.map_cons, List.sum_cons]

end Value

/-- The primitive brings no file topic into a value: what it converts a text to has none, and what
it collects values to has no more than they have. -/
structure Primitive.TopicFree (p : Primitive) : Prop where
  of_convert : ∀ text v, p.convert text = some v → v.topics = 0
  of_collector : ∀ collector, p.collector = some collector → ∀ vs,
    (collector vs).topics ≤ Value.topicsOf vs

namespace ValueType

mutual

theorem topics_of_read? {text : String} {v : Value} :
    ∀ t : ValueType, t.Over Primitive.TopicFree → t.read? text = some v → v.topics = 0
  | primitive p, hp, h => by
    rw [read?, Option.filter_eq_some_iff] at h
    exact (over_primitive.1 hp).of_convert text v h.1
  | derived _ _ base, hbase, h =>
    topics_of_read? base (over_derived.1 hbase) (by simpa [read?] using h)
  | union members, hmembers, h =>
    topics_of_readFirst? members (over_union.1 hmembers) (by simpa [read?] using h)
  | choice words, _, h => by
    rw [read?] at h
    split_ifs at h
    rw [← Option.some.inj h]
    simp [Value.topics]
  | word w, _, h => by
    rw [read?] at h
    split_ifs at h
    rw [← Option.some.inj h]
    simp [Value.topics]

theorem topics_of_readFirst? {text : String} {v : Value} :
    ∀ ts : List ValueType, (∀ t ∈ ts, t.Over Primitive.TopicFree) →
      readFirst? ts text = some v → v.topics = 0
  | [], _, h => by simp [readFirst?] at h
  | t :: ts, hts, h => by
    rw [List.forall_mem_cons] at hts
    rw [readFirst?, Option.or_eq_some_iff] at h
    rcases h with h | ⟨-, h⟩
    · exact topics_of_read? t hts.1 h
    · exact topics_of_readFirst? ts hts.2 h

end

theorem over_collector {Q : Primitive → Prop} {collector : List Value → Value} :
    ∀ t : ValueType, t.Over Q → t.collector? = some collector →
      ∃ p, Q p ∧ p.collector = some collector
  | primitive p, hp, h => ⟨p, over_primitive.1 hp, h⟩
  | derived _ _ base, hbase, h => over_collector base (over_derived.1 hbase) h

theorem topics_collect_le {t : ValueType} (ht : t.Over Primitive.TopicFree) (vs : List Value) :
    (t.collect vs).topics ≤ Value.topicsOf vs := by
  unfold collect
  cases hcollector : t.collector? with
  | none => exact le_rfl
  | some collector =>
    obtain ⟨p, hp, hp'⟩ := over_collector t ht hcollector
    exact hp.of_collector collector hp' vs

/-- The type reads the text as the file topic. -/
def readsTopic (t : ValueType) (text : String) : Bool := text = fileTopic && t.takesTopic

end ValueType

/-! ## Arrivals -/

/-- How many of the texts that arrive are read as the file topic. -/
def topicsAmong (arrivals : List (ValueType × String)) : Nat :=
  arrivals.countP fun a => a.1.readsTopic a.2

@[simp] theorem topicsAmong_nil : topicsAmong [] = 0 := rfl

@[simp] theorem topicsAmong_append (as bs : List (ValueType × String)) :
    topicsAmong (as ++ bs) = topicsAmong as + topicsAmong bs :=
  List.countP_append

theorem topicsAmong_singleton (t : ValueType) (text : String) :
    topicsAmong [(t, text)] = if text = fileTopic ∧ t.takesTopic then 1 else 0 := by
  rw [topicsAmong, List.countP_singleton]
  simp [ValueType.readsTopic]

/-- **What a text is bound as holds the file topic just where it is read as that.** -/
theorem ValueType.topics_of_reads {t : ValueType} (ht : t.Over Primitive.TopicFree) {text : String}
    {v : Value} (h : t.Reads text v) : v.topics = topicsAmong [(t, text)] := by
  rw [topicsAmong_singleton]
  unfold Reads at h
  by_cases htopic : text = fileTopic ∧ t.takesTopic
  · rw [if_pos htopic] at h ⊢
    rw [h, Value.topics]
  · rw [if_neg htopic] at h ⊢
    exact topics_of_read? t ht h

namespace Payload

/-- The text of a payload, which arrives at once. -/
def arrivals (t : ValueType) : Payload → List (ValueType × String)
  | text written => [(t, written)]
  | _ => []

/-- The type that the answer to a payload's expression is for. -/
def awaited (t : ValueType) : Payload → List ValueType
  | deferred _ => [t]
  | _ => []

end Payload

/-- The texts among payloads. -/
def written (payloads : List (ValueType × Payload)) : List (ValueType × String) :=
  payloads.flatMap fun x => x.2.arrivals x.1

/-- The types that the answers to the expressions among payloads are for. -/
def awaited (payloads : List (ValueType × Payload)) : List ValueType :=
  payloads.flatMap fun x => x.2.awaited x.1

section Payloads

variable (x : ValueType × Payload) (payloads payloads' : List (ValueType × Payload))

@[simp] theorem written_nil : written [] = [] := rfl

@[simp] theorem written_cons : written (x :: payloads) = x.2.arrivals x.1 ++ written payloads :=
  List.flatMap_cons

@[simp] theorem written_append :
    written (payloads ++ payloads') = written payloads ++ written payloads' :=
  List.flatMap_append

@[simp] theorem awaited_nil : awaited [] = [] := rfl

@[simp] theorem awaited_cons : awaited (x :: payloads) = x.2.awaited x.1 ++ awaited payloads :=
  List.flatMap_cons

@[simp] theorem awaited_append :
    awaited (payloads ++ payloads') = awaited payloads ++ awaited payloads' :=
  List.flatMap_append

end Payloads

/-! ## What bindings hold and leave -/

namespace Entry

def topics : Entry → Nat
  | ready value => value.topics
  | deferred _ => 0

def awaited (t : ValueType) : Entry → List ValueType
  | ready _ => []
  | deferred _ => [t]

end Entry

namespace Binding

/-- The topics in the value of a binding that is ready. -/
def topicsReady (b : Binding) : Nat :=
  match b.bound with
  | .ready value => value.topics
  | .pending _ => 0

/-- The topics in the entries of a binding that is pending. -/
def topicsHeld (b : Binding) : Nat :=
  match b.bound with
  | .ready _ => 0
  | .pending entries => (entries.values.map Entry.topics).sum

/-- What a binding awaits of an evaluator. -/
def awaited (b : Binding) : List ValueType :=
  match b.bound with
  | .ready _ => []
  | .pending entries => entries.values.flatMap (Entry.awaited b.type)

end Binding

theorem reduceOption_eq_flatMap {α : Type} (found : List (Option α)) :
    found.reduceOption = found.flatMap Option.toList :=
  List.filterMap_eq_flatMap_toList id found

/-- The bindings hold no more topics than are written among the payloads, and await what the
payloads defer. -/
structure Accounts (payloads : List (ValueType × Payload)) (bindings : List Binding) : Prop where
  topics : (bindings.map Binding.topicsReady).sum + (bindings.map Binding.topicsHeld).sum ≤
    topicsAmong (written payloads)
  awaited : bindings.flatMap Binding.awaited = awaited payloads

namespace Accounts

variable {payloads payloads' : List (ValueType × Payload)} {bindings bindings' : List Binding}

theorem nil : Accounts [] [] := ⟨le_rfl, rfl⟩

theorem append (h : Accounts payloads bindings) (h' : Accounts payloads' bindings') :
    Accounts (payloads ++ payloads') (bindings ++ bindings') where
  topics := by
    have := h.topics
    have := h'.topics
    simp only [List.map_append, List.sum_append, written_append, topicsAmong_append]
    omega
  awaited := by rw [List.flatMap_append, h.awaited, h'.awaited, awaited_append]

theorem of_ready {b : Binding} {v : Value} (hb : b.bound = .ready v)
    (hpayloads : Synopsis.awaited payloads = [])
    (hv : v.topics ≤ topicsAmong (written payloads)) : Accounts payloads [b] where
  topics := by simpa [Binding.topicsReady, Binding.topicsHeld, hb] using hv
  awaited := by simp [Binding.awaited, hb, hpayloads]

/-- What is found item by item accounts for the payloads of all items. -/
theorem of_forall₂ {α β : Type} {R : α → β → Prop} {f : α → List (ValueType × Payload)}
    {found : β → List Binding} {as : List α} {bs : List β}
    (hR : ∀ a ∈ as, ∀ b, R a b → Accounts (f a) (found b)) (h : List.Forall₂ R as bs) :
    Accounts (as.flatMap f) (bs.flatMap found) := by
  induction h with
  | nil => exact nil
  | @cons a b as bs hab _ ih =>
    rw [List.forall_mem_cons] at hR
    rw [List.flatMap_cons, List.flatMap_cons]
    exact (hR.1 b hab).append (ih hR.2)

end Accounts

section Bindings

variable {t : ValueType} {payloads : List Payload}

theorem Payload.Enters.topics (ht : t.Over Primitive.TopicFree) {payload : Payload} {entry : Entry}
    (h : payload.Enters t entry) :
    entry.topics = topicsAmong (payload.arrivals t) ∧ entry.awaited t = payload.awaited t := by
  cases payload with
  | text written =>
    obtain ⟨value, hreads, rfl⟩ := h
    exact ⟨ValueType.topics_of_reads ht hreads, rfl⟩
  | implied on =>
    obtain rfl : entry = .ready (.boolean on) := h
    exact ⟨rfl, rfl⟩
  | deferred expression =>
    obtain rfl : entry = .deferred expression := h
    exact ⟨rfl, rfl⟩

theorem topics_of_enters (ht : t.Over Primitive.TopicFree) {entries : List Entry}
    (h : List.Forall₂ (Payload.Enters t) payloads entries) :
    (entries.map Entry.topics).sum = topicsAmong (written (payloads.map (t, ·))) ∧
      entries.flatMap (Entry.awaited t) = awaited (payloads.map (t, ·)) := by
  induction h with
  | nil => exact ⟨rfl, rfl⟩
  | cons hentry _ ih =>
    obtain ⟨htopics, hawaited⟩ := hentry.topics ht
    simp [htopics, hawaited, ih.1, ih.2]

/-- A binding made of entries holds their topics and awaits their expressions. -/
theorem Binding.accounts_ofEntries (ht : t.Over Primitive.TopicFree) {slot : Slot Payload}
    {entries : Slot Entry} {b : Binding} (hb : b.bound = .ofEntries t entries) (htype : b.type = t)
    (h : slot.Rel (Payload.Enters t) entries) : Accounts (slot.values.map (t, ·)) [b] := by
  cases h with
  | @single payload entry hentry =>
    obtain ⟨htopics, hawaited⟩ := hentry.topics ht
    cases entry with
    | ready value =>
      exact .of_ready hb (by simpa [Entry.awaited] using hawaited.symm)
        (by simpa [Entry.topics] using htopics.le)
    | deferred expression =>
      have hb' : b.bound = .pending (.single (.deferred expression)) := hb
      constructor
      · simpa [topicsReady, topicsHeld, hb'] using htopics.le
      · simpa [Binding.awaited, hb', htype] using hawaited
  | @list payloads entries hentries =>
    obtain ⟨htopics, hawaited⟩ := topics_of_enters ht hentries
    cases hvalues : entries.mapM Entry.value? with
    | some values =>
      obtain rfl := reads_all_of_mapM_value? hvalues
      rw [Bound.ofEntries_list_ready] at hb
      refine .of_ready hb ?_ ?_
      · rw [Slot.values_list, ← hawaited, List.flatMap_map]
        exact List.flatMap_eq_nil_iff.2 fun _ _ => rfl
      · rw [Slot.values_list, ← htopics, List.map_map]
        exact (ValueType.topics_collect_le ht values).trans_eq (Value.topicsOf_eq values)
    | none =>
      simp only [Bound.ofEntries, hvalues] at hb
      constructor
      · simpa [topicsReady, topicsHeld, hb] using htopics.le
      · simpa [Binding.awaited, hb, htype] using hawaited

end Bindings

/-! ## The payloads of a usage -/

/-- The payload that a default is read from. A value is not read. -/
def DefaultValue.payloads : DefaultValue → List Payload
  | raw text => [.text text]
  | value _ => []

/-- The default gives no file topic of its own. -/
def DefaultValue.TopicFree : DefaultValue → Prop
  | raw _ => True
  | value v => v.topics = 0

theorem DefaultValue.accounts {t : ValueType} (ht : t.Over Primitive.TopicFree) {list : Bool}
    {d : DefaultValue} (hd : d.TopicFree) {v : Value} (h : d.Gives t list v) {b : Binding}
    (hb : b.bound = .ready v) : Accounts (d.payloads.map (t, ·)) [b] := by
  cases d with
  | value given =>
    obtain rfl : v = given := h
    exact .of_ready hb rfl hd.le
  | raw text =>
    obtain ⟨read, hreads, rfl⟩ := h
    have hread := ValueType.topics_of_reads ht hreads
    refine .of_ready hb rfl ?_
    have hwritten : written ((DefaultValue.raw text).payloads.map (t, ·)) = [(t, text)] := rfl
    rw [hwritten, ← hread]
    split
    · refine (ValueType.topics_collect_le ht [read]).trans_eq ?_
      simp [Value.topicsOf]
    · exact le_rfl

/-- The payloads that an option is read from: what occurs of it, or its default. Only the first of
an option that does not repeat is read, and none of a repeated switch, which is counted. -/
def OptionSpec.payloadsRead (o : OptionSpec) (defaults : Dict DefaultValue) :
    List Payload → List Payload
  | [] => ((o.default? defaults).map DefaultValue.payloads).getD []
  | first :: rest => if o.recurs then if o.isFlag then [] else first :: rest else [first]

theorem OptionSpec.Settles.accounts {defaults : Dict DefaultValue} {o : OptionSpec}
    (ho : o.type.Over Primitive.TopicFree)
    (hdefault : ∀ d, o.default? defaults = some d → d.TopicFree) {payloads : List Payload}
    {b : Option Binding} (h : o.Settles defaults payloads b) :
    Accounts ((o.payloadsRead defaults payloads).map (o.type, ·)) b.toList := by
  cases h with
  | counted hne hrecurs hflag =>
    obtain ⟨first, rest, rfl⟩ := List.exists_cons_of_ne_nil hne
    refine .of_ready rfl ?_ ?_
    · simp [payloadsRead, hrecurs, hflag]
    · simp [Value.topics]
  | @listed _ entries hne hrecurs hflag hentries =>
    obtain ⟨first, rest, rfl⟩ := List.exists_cons_of_ne_nil hne
    have hread : o.payloadsRead defaults (first :: rest) = (Slot.list (first :: rest)).values := by
      simp [payloadsRead, hrecurs, hflag]
    rw [hread]
    exact Binding.accounts_ofEntries ho
      (b := o.binding (.ofEntries o.type (.list entries)) true) rfl rfl (.list hentries)
  | @single payload rest entry hrecurs hentry =>
    have hread : o.payloadsRead defaults (payload :: rest) = (Slot.single payload).values := by
      simp [payloadsRead, hrecurs]
    rw [hread]
    exact Binding.accounts_ofEntries ho
      (b := o.binding (.ofEntries o.type (.single entry)) true) rfl rfl (.single hentry)
  | @defaulted d value hd hvalue =>
    have hread : o.payloadsRead defaults [] = d.payloads := by simp [payloadsRead, hd]
    rw [hread]
    exact DefaultValue.accounts ho (hdefault d hd) hvalue rfl
  | nothing hd hrecurs =>
    refine .of_ready rfl (by simp [payloadsRead, hd]) ?_
    exact (ValueType.topics_collect_le ho []).trans (Nat.zero_le _)
  | unbound hd =>
    simp only [payloadsRead, hd]
    exact .nil

/-- The payloads that the default of a positional is read from. -/
def Parameter.defaultPayloads (defaults : Dict DefaultValue) (p : Parameter) : List Payload :=
  ((defaults.get? p.key).map DefaultValue.payloads).getD []

theorem Parameter.Defaults.accounts {defaults : Dict DefaultValue} {p : Parameter}
    (hp : p.type.Over Primitive.TopicFree)
    (hdefaults : ∀ key d, defaults.get? key = some d → d.TopicFree) {b : Option Binding}
    (h : p.Defaults defaults b) :
    Accounts ((p.defaultPayloads defaults).map (p.type, ·)) b.toList := by
  cases h with
  | @defaulted d value hd hvalue =>
    simp only [defaultPayloads, hd]
    exact DefaultValue.accounts hp (hdefaults _ d hd) hvalue rfl
  | unbound hd =>
    simp only [defaultPayloads, hd]
    exact .nil

/-! ## The payloads of an invocation -/

namespace Layout

variable {α : Type}

theorem mem_of_mem_deal {n : Nat} {ps : List Parameter} {values : List α} {s : Parameter × Slot α}
    (h : s ∈ deal n ps values) : s.1 ∈ ps := by
  fun_induction deal n ps values with
  | case1 => simp at h
  | case2 p ps values hrecurs hnone ih => exact List.mem_cons_of_mem _ (ih h)
  | case3 p ps values hrecurs hdealt ih =>
    rcases List.mem_cons.1 h with rfl | h
    · exact List.mem_cons_self
    · exact List.mem_cons_of_mem _ (ih h)
  | case4 => simp at h
  | case5 p ps hrecurs value values ih =>
    rcases List.mem_cons.1 h with rfl | h
    · exact List.mem_cons_self
    · exact List.mem_cons_of_mem _ (ih h)

theorem mem_of_mem_arrange {l : Layout} {values : List α} {slots : List (Parameter × Slot α)}
    (h : l.arrange values = .ok slots) {s : Parameter × Slot α} (hs : s ∈ slots) :
    s.1 ∈ l.parameters := by
  have hselect : arrange.select l values values.length = .ok slots := by
    simp only [arrange] at h
    split_ifs at h
    cases hlongest : l.longest with
    | none => simpa [hlongest] using h
    | some longest =>
      simp only [hlongest] at h
      split_ifs at h
      exact h
  simp only [arrange.select] at hselect
  split_ifs at hselect
  obtain rfl := Except.ok.inj hselect
  exact (List.mem_filter.1 (mem_of_mem_deal hs)).1

end Layout

namespace Invocation

/-- What the positionals of an invocation are dealt, if they can be. -/
def slots (inv : Invocation) (g : Gathered) : List (Parameter × Slot Payload) :=
  (inv.usage.layout.arrange g.positionals).toOption.getD []

theorem slots_eq {inv : Invocation} {g : Gathered} {slots : List (Parameter × Slot Payload)}
    (h : inv.usage.layout.arrange g.positionals = .ok slots) : inv.slots g = slots := by
  rw [Invocation.slots, h]
  rfl

/-- An option with a value of its own has the key, or a positional that is dealt a value. -/
def fills (inv : Invocation) (g : Gathered) (key : String) : Bool :=
  (inv.usage.options.any fun o =>
      o.key = key && decide (o.HasOwn inv.defaults (g.occurrences o.key))) ||
    (inv.slots g).any (·.1.key = key)

/-- An option or a positional of the invocation binds the key: it occurs or is dealt a value, or has
a default, or is an option that repeats. -/
def Binds (inv : Invocation) (g : Gathered) (key : String) : Prop :=
  inv.fills g key ∨
    ∃ p ∈ inv.usage.layout.parameters, p.key = key ∧ (inv.defaults.get? p.key).isSome

/-- All payloads that the parameters of an invocation are read from, each with the type that is to
read it: those of the options, what the positionals are dealt, and the defaults of the positionals
whose keys are not filled. -/
def payloadsRead (inv : Invocation) (g : Gathered) : List (ValueType × Payload) :=
  (inv.usage.options.flatMap fun o =>
      (o.payloadsRead inv.defaults (g.occurrences o.key)).map (o.type, ·)) ++
    ((inv.slots g).flatMap fun s => s.2.values.map (s.1.type, ·)) ++
    (inv.usage.layout.parameters.filter (!inv.fills g ·.key)).flatMap fun p =>
      (p.defaultPayloads inv.defaults).map (p.type, ·)

/-- The host and the usage bring no file topic into an invocation. -/
structure TopicFree (inv : Invocation) : Prop where
  of_options : ∀ o ∈ inv.usage.options, o.type.Over Primitive.TopicFree
  of_parameters : ∀ p ∈ inv.usage.layout.parameters, p.type.Over Primitive.TopicFree
  of_inline : ∀ o ∈ inv.usage.options, ∀ d, o.default = some d → d.TopicFree
  of_defaults : ∀ key d, inv.defaults.get? key = some d → d.TopicFree

variable {inv : Invocation} {g : Gathered} {arranged : List (Parameter × Slot Payload)}
  {options positionals defaulted : List Binding}

/-- The keys that are filled are those of the bindings of options and of positionals that are dealt
a value. -/
theorem fills_eq {found : List (Option Binding)}
    (hoptions : List.Forall₂ (fun o => o.Settles inv.defaults (g.occurrences o.key))
      inv.usage.options found)
    (harrange : inv.usage.layout.arrange g.positionals = .ok arranged)
    (hpositionals : List.Forall₂ (fun s b => s.1.Settles s.2 b) arranged positionals)
    (key : String) :
    inv.fills g key = (found.reduceOption ++ positionals).any (·.key = key) := by
  rw [fills, slots_eq harrange, List.any_append]
  congr 1
  · rw [Bool.eq_iff_iff, List.any_eq_true, List.any_eq_true]
    constructor
    · rintro ⟨o, ho, hown⟩
      obtain ⟨hkey, hown⟩ : o.key = key ∧ o.HasOwn inv.defaults (g.occurrences o.key) := by
        simpa using hown
      obtain ⟨b, hb, hsettles⟩ := exists_of_forall₂_left hoptions ho
      cases b with
      | none => exact absurd hown hsettles.not_hasOwn
      | some b =>
        exact ⟨b, List.reduceOption_mem_iff.2 hb, by simpa using hsettles.key_eq.trans hkey⟩
    · rintro ⟨b, hb, hkey⟩
      obtain ⟨o, ho, hsettles⟩ :=
        exists_of_forall₂_right hoptions (List.reduceOption_mem_iff.1 hb)
      refine ⟨o, ho, ?_⟩
      rw [decide_eq_true_iff] at hkey
      simp [← hkey, hsettles.key_eq, hsettles.hasOwn]
  · clear harrange
    induction hpositionals with
    | nil => rfl
    | cons hb _ ih => rw [List.any_cons, List.any_cons, hb.key_eq, ih]

/-- **The bindings of a usage account for all payloads that its parameters are read from.** -/
theorem accounts_of_settled
    (h : Settled inv.usage inv.defaults g arranged options positionals defaulted)
    (hinv : inv.TopicFree) :
    Accounts (inv.payloadsRead g) (options ++ positionals ++ defaulted) := by
  obtain ⟨found, hfound, rfl⟩ := h.of_options
  rw [payloadsRead, slots_eq h.of_arrangement]
  simp only [fills_eq hfound h.of_arrangement h.of_positionals]
  refine (Accounts.append ?_ ?_).append ?_
  · rw [reduceOption_eq_flatMap]
    refine Accounts.of_forall₂ (fun o ho b hsettles => ?_) hfound
    refine hsettles.accounts (hinv.of_options o ho) fun d hd => ?_
    rcases Option.or_eq_some_iff.1 hd with hd | ⟨-, hd⟩
    · exact hinv.of_defaults _ d hd
    · exact hinv.of_inline o ho d hd
  · rw [← List.flatMap_singleton' positionals]
    refine Accounts.of_forall₂ (fun s hs b hsettles => ?_) h.of_positionals
    obtain ⟨entries, hentries, rfl⟩ := hsettles
    have hp := hinv.of_parameters s.1 (Layout.mem_of_mem_arrange h.of_arrangement hs)
    exact Binding.accounts_ofEntries hp rfl rfl hentries
  · obtain ⟨defaults, hdefaults, rfl⟩ := h.of_defaults
    rw [reduceOption_eq_flatMap defaults]
    refine Accounts.of_forall₂ (fun p hp b hgives => ?_) hdefaults
    exact hgives.accounts (hinv.of_parameters p (List.mem_filter.1 hp).1) hinv.of_defaults

end Invocation

theorem Settled.binds_iff {inv : Invocation} {g : Gathered}
    {arranged : List (Parameter × Slot Payload)} {options positionals defaulted : List Binding}
    {key : String}
    (h : Settled inv.usage inv.defaults g arranged options positionals defaulted) :
    inv.Binds g key ↔ ∃ b ∈ options ++ positionals ++ defaulted, b.key = key := by
  obtain ⟨found, hfound, rfl⟩ := h.of_options
  rw [Invocation.Binds, Invocation.fills_eq hfound h.of_arrangement h.of_positionals,
    List.any_eq_true]
  constructor
  · rintro (⟨b, hb, hkey⟩ | ⟨p, hp, rfl, hdefault⟩)
    · exact ⟨b, List.mem_append_left _ hb, by simpa using hkey⟩
    · exact h.bound_of_default hp hdefault
  · rintro ⟨b, hb, rfl⟩
    rcases List.mem_append.1 hb with hb | hb
    · exact Or.inl ⟨b, hb, by simp⟩
    · obtain ⟨p, hp, hdefaults⟩ := h.of_mem_defaulted hb
      cases hdefaults with
      | defaulted hdefault => exact Or.inr ⟨p, hp, rfl, by rw [hdefault]; rfl⟩

end Synopsis
