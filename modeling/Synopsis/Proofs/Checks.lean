import Synopsis.Proofs.Failures
import Synopsis.Proofs.Topics

/-!
# What an invocation is checked for before anything is evaluated

**Theorem (`Invocation.exists_settle_iff`).** Settling succeeds exactly if nothing that is there
directly is wrong (`Invocation.Passes`): each default is for a parameter, no option is missing, the
number of the positionals is admitted, each text that is written or defaulted is read by its type,
and one of them at most is read as the file topic.

Settling is a sequence of steps that claim. A step `Takes` payloads if it claims the file topic for
each text among them that is read as it. It `Checks` a condition and these payloads if it also
succeeds just where the condition holds, the texts can be read, and none of them is claimed for a
second time. Claims add up, so a sequence of two steps takes and checks what both of them do, and
settling is taken apart as it is written.
-/

namespace Synopsis

/-! ## Claims and readings -/

/-- The claims on the file topic that are made: one, if a parameter has it. -/
def claims (claimed : Option String) : Nat := (claimed.map fun _ => 1).getD 0

@[simp] theorem claims_none : claims none = 0 := rfl

@[simp] theorem claims_some (parameter : String) : claims (some parameter) = 1 := rfl

theorem claims_le_one (claimed : Option String) : claims claimed ≤ 1 := by
  cases claimed <;> simp

/-- The file topic is claimed a second time. -/
def InvokeError.IsReuse (e : InvokeError) : Prop :=
  ∃ first second, e = .bind (.topicReused first second)

namespace ValueType

/-- The type reads the text. -/
def CanRead (type : ValueType) (text : String) : Prop := ∃ value, type.Reads text value

theorem Reads.unique {type : ValueType} {text : String} {v v' : Value} (h : type.Reads text v)
    (h' : type.Reads text v') : v = v' := by
  unfold Reads at h h'
  split_ifs at h h'
  · rw [h, h']
  · exact Option.some.inj (h.symm.trans h')

end ValueType

/-- Each text is read by its type. -/
def Readable (arrivals : List (ValueType × String)) : Prop := ∀ a ∈ arrivals, a.1.CanRead a.2

theorem readable_append {as bs : List (ValueType × String)} :
    Readable (as ++ bs) ↔ Readable as ∧ Readable bs :=
  List.forall_mem_append

/-! ## Steps that claim and check -/

namespace Claiming

variable {α β : Type} {P Q : Prop} {payloads payloads' : List (ValueType × Payload)}

/-- The step claims the file topic for those texts among the payloads that are read as it, and
complains of a claim only where it would be the second. -/
structure Takes (payloads : List (ValueType × Payload)) (step : Claiming α) : Prop where
  of_ok : ∀ {c a c'}, step c = .ok (a, c') → claims c' = claims c + topicsAmong (written payloads)
  of_error : ∀ {c e}, step c = .error e → e.IsReuse →
    2 ≤ claims c + topicsAmong (written payloads)

theorem takes_pure (h : written payloads = []) (a : α) :
    Takes payloads (pure a : Claiming α) where
  of_ok hok := by rw [(losing_pure_ok_iff.1 hok).2, h, topicsAmong_nil, Nat.add_zero]
  of_error herror := absurd herror (by simp)

theorem takes_throw {e : InvokeError} (he : ¬e.IsReuse) :
    Takes payloads (throw e : Claiming α) where
  of_ok h := absurd h (by simp)
  of_error h hreuse := absurd (losing_throw_error_iff.1 h ▸ hreuse) he

theorem Takes.bind {step : Claiming α} {f : α → Claiming β} (h : step.Takes payloads)
    (hf : ∀ a c c', step c = .ok (a, c') → (f a).Takes payloads') :
    (step >>= f).Takes (payloads ++ payloads') where
  of_ok hok := by
    obtain ⟨a, c₁, ha, hb⟩ := losing_bind_ok_iff.1 hok
    rw [(hf a _ c₁ ha).of_ok hb, h.of_ok ha, written_append, topicsAmong_append, Nat.add_assoc]
  of_error herror hreuse := by
    rw [written_append, topicsAmong_append]
    rcases losing_bind_error_iff.1 herror with herror | ⟨a, c₁, ha, herror⟩
    · have := h.of_error herror hreuse
      omega
    · have := (hf a _ c₁ ha).of_error herror hreuse
      have := h.of_ok ha
      omega

/-- The step succeeds where `P` holds, the texts among the payloads can be read, and there is no
second claim on the file topic. -/
structure Checks (P : Prop) (payloads : List (ValueType × Payload)) (step : Claiming α) : Prop
    extends Takes payloads step where
  succeeds_iff : ∀ c, (∃ a c', step c = .ok (a, c')) ↔
    P ∧ Readable (written payloads) ∧ claims c + topicsAmong (written payloads) ≤ 1

theorem checks_pure (h : written payloads = []) (a : α) :
    Checks True payloads (pure a : Claiming α) where
  toTakes := takes_pure h a
  succeeds_iff c := by
    refine iff_of_true ⟨a, c, rfl⟩ ⟨trivial, ?_, ?_⟩
    · simp [Readable, h]
    · simpa [h] using claims_le_one c

theorem checks_throw {e : InvokeError} (he : ¬e.IsReuse) :
    Checks False payloads (throw e : Claiming α) where
  toTakes := takes_throw he
  succeeds_iff c := by simp

theorem Checks.congr {step : Claiming α} (h : step.Checks P payloads) (hP : P ↔ Q) :
    step.Checks Q payloads := propext hP ▸ h

/-- Two steps check what the one and the other do. -/
theorem Checks.bind {step : Claiming α} {f : α → Claiming β} (h : step.Checks P payloads)
    (hf : ∀ a c c', step c = .ok (a, c') → (f a).Checks Q payloads') :
    (step >>= f).Checks (P ∧ Q) (payloads ++ payloads') where
  toTakes := h.toTakes.bind fun a c c' ha => (hf a c c' ha).toTakes
  succeeds_iff c := by
    rw [written_append, readable_append, topicsAmong_append]
    constructor
    · rintro ⟨b, c', hok⟩
      obtain ⟨a, c₁, ha, hb⟩ := losing_bind_ok_iff.1 hok
      obtain ⟨hP, hreadable, -⟩ := (h.succeeds_iff c).1 ⟨a, c₁, ha⟩
      obtain ⟨hQ, hreadable', hclaims⟩ := ((hf a c c₁ ha).succeeds_iff c₁).1 ⟨b, c', hb⟩
      have := h.of_ok ha
      exact ⟨⟨hP, hQ⟩, ⟨hreadable, hreadable'⟩, by omega⟩
    · rintro ⟨⟨hP, hQ⟩, ⟨hreadable, hreadable'⟩, hclaims⟩
      obtain ⟨a, c₁, ha⟩ := (h.succeeds_iff c).2 ⟨hP, hreadable, by omega⟩
      have := h.of_ok ha
      obtain ⟨b, c', hb⟩ :=
        ((hf a c c₁ ha).succeeds_iff c₁).2 ⟨hQ, hreadable', by omega⟩
      exact ⟨b, c', losing_bind_ok_iff.2 ⟨a, c₁, ha, hb⟩⟩

theorem Checks.bind_pure {step : Claiming α} (h : step.Checks P payloads) (f : α → β) :
    (step >>= fun a => pure (f a)).Checks P payloads := by
  simpa using h.bind fun a _ _ _ => checks_pure written_nil (f a)

theorem checks_mapM {f : α → Claiming β} {P : α → Prop} {ps : α → List (ValueType × Payload)}
    (hf : ∀ a, (f a).Checks (P a) (ps a)) (as : List α) :
    (as.mapM f).Checks (∀ a ∈ as, P a) (as.flatMap ps) := by
  induction as with
  | nil => exact (checks_pure rfl []).congr (by simp)
  | cons a as ih =>
    rw [List.mapM_cons, List.flatMap_cons]
    refine ((hf a).bind fun b _ _ _ => ih.bind_pure (b :: ·)).congr ?_
    rw [List.forall_mem_cons]

theorem checks_filterMapM {f : α → Claiming (Option β)} {P : α → Prop}
    {ps : α → List (ValueType × Payload)} (hf : ∀ a, (f a).Checks (P a) (ps a)) (as : List α) :
    (as.filterMapM f).Checks (∀ a ∈ as, P a) (as.flatMap ps) := by
  induction as with
  | nil => exact (checks_pure rfl []).congr (by simp)
  | cons a as ih =>
    rw [List.filterMapM_cons, List.flatMap_cons]
    refine ((hf a).bind (Q := ∀ a ∈ as, P a) fun found _ _ _ => ?_).congr ?_
    · cases found with
      | none => exact ih
      | some b => exact ih.bind_pure (b :: ·)
    · rw [List.forall_mem_cons]

/-! ### One parameter -/

variable (t : ValueType) (parameter : String)

theorem takes_read (text : String) : (read t parameter text).Takes [(t, .text text)] where
  of_ok h := by
    rw [written_cons, Payload.arrivals, written_nil, List.append_nil, topicsAmong_singleton]
    rcases read_ok_iff.1 h with ⟨htopic, rfl, -, rfl⟩ | ⟨htopic, -, rfl⟩
    · rw [if_pos htopic]
      rfl
    · rw [if_neg htopic, Nat.add_zero]
  of_error {c e} h hreuse := by
    obtain ⟨first, second, rfl⟩ := hreuse
    rw [written_cons, Payload.arrivals, written_nil, List.append_nil, topicsAmong_singleton]
    unfold read at h
    by_cases htopic : text = fileTopic ∧ t.takesTopic
    · rw [if_pos htopic]
      cases c with
      | none => simp [htopic, losing_bind_error_iff, get, getThe, MonadStateOf.get, StateT.get, set,
          MonadStateOf.set, StateT.set, pure, StateT.pure, Except.pure] at h
      | some claimed => rfl
    · rw [if_neg (by simpa using htopic)] at h
      cases hread : t.read? text with
      | some value => simp [hread] at h
      | none => simp [hread] at h

theorem checks_read (text : String) : (read t parameter text).Checks True [(t, .text text)] where
  toTakes := takes_read t parameter text
  succeeds_iff c := by
    have hwritten : written [(t, .text text)] = [(t, text)] := rfl
    have hreadable : Readable [(t, text)] ↔ t.CanRead text := by simp [Readable]
    rw [hwritten, hreadable, topicsAmong_singleton, true_and]
    unfold ValueType.CanRead ValueType.Reads
    simp only [read_ok_iff]
    by_cases htopic : text = fileTopic ∧ t.takesTopic
    · cases c <;> simp [htopic]
    · have := claims_le_one c
      simp [htopic, this]

theorem checks_entry (payload : Payload) :
    (Claiming.entry t parameter payload).Checks True [(t, payload)] := by
  cases payload with
  | text text => exact (checks_read t parameter text).bind_pure Entry.ready
  | implied on => exact checks_pure rfl _
  | deferred expression => exact checks_pure rfl _

theorem checks_list (payloads : List Payload) :
    (payloads.mapM (Claiming.entry t parameter)).Checks True (payloads.map (t, ·)) := by
  rw [List.map_eq_flatMap]
  exact (checks_mapM (checks_entry t parameter) payloads).congr (by simp)

theorem checks_slot (slot : Slot Payload) :
    (slot.mapM (Claiming.entry t parameter)).Checks True (slot.values.map (t, ·)) := by
  cases slot with
  | single payload => exact (checks_entry t parameter payload).bind_pure Slot.single
  | list payloads => exact (checks_list t parameter payloads).bind_pure Slot.list

theorem checks_default (list : Bool) (d : DefaultValue) :
    (Claiming.default t parameter list d).Checks True (d.payloads.map (t, ·)) := by
  cases d with
  | value given => exact checks_pure rfl given
  | raw text => exact (checks_read t parameter text).bind_pure _

end Claiming

/-! ## Settling -/

/-- The option occurs or has a default, or it may be absent. An option that is declared with both
sides may not, and one that repeats may, mandatory or not. -/
def OptionSpec.Present (o : OptionSpec) (defaults : Dict DefaultValue) (payloads : List Payload) :
    Prop :=
  payloads ≠ [] ∨ (o.default? defaults).isSome ∨
    (o.polarity ≠ some .both ∧ (o.recurs ∨ o.mandatory = false))

/-- **Nothing that an invocation has directly is wrong.** -/
structure Invocation.Passes (inv : Invocation) (g : Gathered) : Prop where
  /-- Each default is for a parameter. -/
  answers : ∀ key, (inv.defaults.get? key).isSome →
    (∃ o ∈ inv.usage.options, o.key = key) ∨ ∃ p ∈ inv.usage.layout.parameters, p.key = key
  present : ∀ o ∈ inv.usage.options, o.Present inv.defaults (g.occurrences o.key)
  /-- The number of the positionals is admitted. -/
  arranged : ∃ slots, inv.usage.layout.arrange g.positionals = .ok slots
  readable : Readable (written (inv.payloadsRead g))
  claimed : topicsAmong (written (inv.payloadsRead g)) ≤ 1

namespace Invocation

open Claiming

theorem checks_settleOption (defaults : Dict DefaultValue) (g : Gathered) (o : OptionSpec) :
    (settleOption defaults g o).Checks (o.Present defaults (g.occurrences o.key))
      ((o.payloadsRead defaults (g.occurrences o.key)).map (o.type, ·)) := by
  unfold settleOption
  cases g.occurrences o.key with
  | nil =>
    show (settleAbsent defaults o).Checks _ _
    unfold settleAbsent OptionSpec.payloadsRead OptionSpec.Present OptionSpec.default?
    cases (defaults.get? o.key).or o.default with
    | some d => exact ((checks_default _ _ _ d).bind_pure _).congr (by simp)
    | none =>
      have hthrow (e : BindError) (he : ∀ first second, e ≠ .topicReused first second) :
          Checks False [] (throw (.bind e) : Claiming (Option Binding)) :=
        checks_throw fun ⟨first, second, heq⟩ => he first second (InvokeError.bind.inj heq)
      show (ite _ _ _ : Claiming (Option Binding)).Checks _ []
      split_ifs with hboth hrecurs hmandatory
      · exact (hthrow _ (by simp)).congr (by simp [hboth])
      · exact (checks_pure rfl _).congr (by simp [hboth, hrecurs])
      · exact (hthrow _ (by simp)).congr (by simp [hrecurs, hmandatory])
      · exact (checks_pure rfl _).congr (by simp [hboth, hmandatory])
  | cons first rest =>
    have hpresent : o.Present defaults (first :: rest) ↔ True := by simp [OptionSpec.Present]
    rw [hpresent]
    simp only [OptionSpec.payloadsRead]
    split_ifs
    · exact checks_pure rfl _
    · exact (checks_list o.type o.primary (first :: rest)).bind_pure _
    · exact (checks_entry o.type o.primary first).bind_pure _

theorem checks_settlePositional (p : Parameter) (slot : Slot Payload) :
    (settlePositional p slot).Checks True (slot.values.map (p.type, ·)) :=
  (checks_slot p.type p.identifier slot).bind_pure _

theorem checks_settleDefault (defaults : Dict DefaultValue) (p : Parameter) :
    (settleDefault defaults p).Checks True ((p.defaultPayloads defaults).map (p.type, ·)) := by
  unfold settleDefault Parameter.defaultPayloads
  cases defaults.get? p.key with
  | none => exact checks_pure rfl _
  | some d => exact (checks_default _ _ _ d).bind_pure _

theorem find?_isStray_eq_none_iff (u : Usage) (defaults : Dict DefaultValue) :
    defaults.keys.find? (isStray u) = none ↔ ∀ key, (defaults.get? key).isSome →
      (∃ o ∈ u.options, o.key = key) ∨ ∃ p ∈ u.layout.parameters, p.key = key := by
  rw [List.find?_eq_none]
  refine forall_congr' fun key => ?_
  rw [Dict.mem_keys]
  refine imp_congr_right fun _ => ?_
  simp only [isStray, Usage.option?, Bool.and_eq_true, Option.isNone_iff_eq_none,
    List.find?_eq_none, Bool.not_eq_true', List.any_eq_false, decide_eq_true_eq, not_and_or]
  push Not
  rfl

/-- **Settling checks what an invocation has directly.** -/
theorem checks_settle (inv : Invocation) (g : Gathered) :
    (settle inv.usage inv.defaults g).Checks
      (inv.defaults.keys.find? (isStray inv.usage) = none ∧
        (∀ o ∈ inv.usage.options, o.Present inv.defaults (g.occurrences o.key)) ∧
        ∃ slots, inv.usage.layout.arrange g.positionals = .ok slots)
      (inv.payloadsRead g) := by
  unfold settle
  cases hstray : inv.defaults.keys.find? (isStray inv.usage) with
  | some key =>
    refine (checks_throw ?_).congr (by simp)
    rintro ⟨first, second, heq⟩
    simp at heq
  | none =>
    rw [payloadsRead, List.append_assoc]
    refine ((checks_filterMapM (checks_settleOption inv.defaults g) _).bind
      (Q := ∃ slots, inv.usage.layout.arrange g.positionals = .ok slots)
      fun options c c₁ hoptions => ?_).congr (by simp)
    cases harrange : inv.usage.layout.arrange g.positionals with
    | error e =>
      refine (checks_throw ?_).congr (by simp)
      rintro ⟨first, second, heq⟩
      simp at heq
    | ok arranged =>
      rw [slots_eq harrange]
      simp only [pure_bind]
      have hchecks := checks_mapM
        (fun s : Parameter × Slot Payload => checks_settlePositional s.1 s.2) arranged
      refine (hchecks.bind (Q := True) fun positionals c₂ c₃ hpositionals => ?_).congr (by simp)
      -- what is left to the defaults is what the bindings so far do not fill
      obtain ⟨found, hfound, rfl⟩ :=
        forall₂_of_filterMapM (f := settleOption inv.defaults g)
          (fun _ _ _ _ => settles_of_settleOption) hoptions
      have hdealt := forall₂_of_mapM (R := fun s b => s.1.Settles s.2 b)
        (fun _ _ _ _ => settles_of_settlePositional) hpositionals
      simp only [fills_eq hfound harrange hdealt]
      exact ((checks_filterMapM (checks_settleDefault inv.defaults) _).bind_pure _).congr (by simp)

/-- **Settling succeeds exactly if nothing that the invocation has directly is wrong.** -/
theorem exists_settle_iff (inv : Invocation) (g : Gathered) :
    (∃ bindings claimed, settle inv.usage inv.defaults g none = .ok (bindings, claimed)) ↔
      inv.Passes g := by
  rw [(checks_settle inv g).succeeds_iff, find?_isStray_eq_none_iff, claims_none, Nat.zero_add]
  constructor
  · rintro ⟨⟨hanswers, hpresent, harranged⟩, hreadable, hclaimed⟩
    exact ⟨hanswers, hpresent, harranged, hreadable, hclaimed⟩
  · rintro ⟨hanswers, hpresent, harranged, hreadable, hclaimed⟩
    exact ⟨⟨hanswers, hpresent, harranged⟩, hreadable, hclaimed⟩

end Invocation

end Synopsis
