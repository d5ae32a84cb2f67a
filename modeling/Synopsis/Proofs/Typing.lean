import Synopsis.Proofs.Evaluations
import Synopsis.Proofs.Primitives
import Synopsis.Proofs.Switches

/-!
# Bound values are well typed

**Theorem (`Usage.typed_of_invoke`).** Where no primitive converts a text to the file topic, what an
invocation binds fits what it is bound to. A switch is bound to one of its sides, or to how often it
occurs. An option with a value is bound to a value of its type, or to `true` if it may do without;
one that repeats to what its type makes of such values, one for each occurrence. A positional is
bound to a value of its type, and a list to what its type makes of such values.

A value is read from a text or implied by a switch. A text that is read is one of the values of the
type (`ValueType.accepts_of_reads`), whether it was written or an evaluator returned it. What a
switch implies is told by the table: only an option that need not take a value has an occurrence
without one (`SwitchTable.ReadsPieces.carries`).
-/

namespace Synopsis

/-- The primitive converts no text to the file topic. -/
def Primitive.Topicless (p : Primitive) : Prop := ∀ text, p.convert text ≠ some .topic

/-! ## What a type reads -/

namespace ValueType

mutual

theorem holds_of_read? {text : String} {v : Value} :
    ∀ t : ValueType, t.read? text = some v → t.holds v = true
  | primitive p, h => by
    rw [read?, Option.filter_eq_some_iff] at h
    exact h.2
  | derived _ _ base, h => holds_of_read? base (by simpa [read?] using h)
  | union members, h => by
    rw [holds]
    exact anyHolds_of_readFirst? members (by simpa [read?] using h)
  | choice words, h => by
    rw [read?] at h
    split_ifs at h with hmem
    rw [← Option.some.inj h, holds]
    simpa using hmem
  | word w, h => by
    rw [read?] at h
    split_ifs at h with heq
    rw [← Option.some.inj h, holds]
    simpa using heq

theorem anyHolds_of_readFirst? {text : String} {v : Value} :
    ∀ ts : List ValueType, readFirst? ts text = some v → anyHolds ts v = true
  | [], h => by simp [readFirst?] at h
  | t :: ts, h => by
    rw [anyHolds, Bool.or_eq_true]
    rw [readFirst?, Option.or_eq_some_iff] at h
    rcases h with h | ⟨-, h⟩
    · exact Or.inl (holds_of_read? t h)
    · exact Or.inr (anyHolds_of_readFirst? ts h)

end

mutual

theorem read?_ne_topic {text : String} :
    ∀ t : ValueType, t.Over Primitive.Topicless → t.read? text ≠ some .topic
  | primitive p, hp => by
    intro h
    rw [read?, Option.filter_eq_some_iff] at h
    exact over_primitive.1 hp text h.1
  | derived _ _ base, hbase => by
    rw [read?]
    exact read?_ne_topic base (over_derived.1 hbase)
  | union members, hmembers => by
    rw [read?]
    exact readFirst?_ne_topic members (over_union.1 hmembers)
  | choice words, _ => by
    rw [read?]
    split <;> simp
  | word w, _ => by
    rw [read?]
    split <;> simp

theorem readFirst?_ne_topic {text : String} :
    ∀ ts : List ValueType, (∀ t ∈ ts, t.Over Primitive.Topicless) →
      readFirst? ts text ≠ some .topic
  | [], _ => by simp [readFirst?]
  | t :: ts, hts => by
    rw [List.forall_mem_cons] at hts
    intro h
    rw [readFirst?, Option.or_eq_some_iff] at h
    rcases h with h | ⟨-, h⟩
    · exact read?_ne_topic t hts.1 h
    · exact readFirst?_ne_topic ts hts.2 h

end

/-- **What a parameter is bound to by a text is a value of its type.** -/
theorem accepts_of_reads {t : ValueType} (ht : t.Over Primitive.Topicless) {text : String}
    {v : Value} (h : t.Reads text v) : t.accepts v := by
  unfold Reads at h
  by_cases htopic : text = fileTopic ∧ t.takesTopic
  · rw [if_pos htopic] at h
    rw [h]
    exact htopic.2
  · rw [if_neg htopic] at h
    have hholds := holds_of_read? t h
    cases v with
    | topic => exact absurd h (read?_ne_topic t ht)
    | _ => exact hholds

end ValueType

/-! ## What an occurrence carries -/

/-- An occurrence of the switch can carry the payload. -/
def Switch.Carries (switch : Switch) : Payload → Prop
  | .implied on => switch.arity ≠ .required ∧ on = switch.implied.getD true
  | _ => switch.arity ≠ .none

theorem Switch.carries_payload {switch : Switch} (h : switch.arity ≠ .none) (token : Token) :
    switch.Carries token.payload := by
  unfold Token.payload
  split <;> exact h

namespace SwitchTable

variable {table : SwitchTable} {token : Token} {tailStart : Option Nat} {index : Nat}

theorem ReadsStack.held {cs : List Char} {uses : List SwitchUse} (h : table.ReadsStack cs uses) :
    ∀ use ∈ uses, table.get? use.spelling = some use.switch ∧
      (use.attached.isSome → use.switch.arity ≠ .none) := by
  induction h with
  | done => simp
  | flag _ hswitch _ _ ih => exact List.forall_mem_cons.2 ⟨⟨hswitch, by simp⟩, ih⟩
  | bare _ hswitch => exact List.forall_mem_singleton.2 ⟨hswitch, by simp⟩
  | attached _ hswitch harity => exact List.forall_mem_singleton.2 ⟨hswitch, fun _ => harity⟩

/-- The table has every switch that is read, and text is attached only to one that takes a value. -/
theorem ReadsUses.held {uses : List SwitchUse} (h : table.ReadsUses token uses) :
    ∀ use ∈ uses, table.get? use.spelling = some use.switch ∧
      (use.attached.isSome → use.switch.arity ≠ .none) := by
  cases h with
  | @long _ use _ _ huse =>
    refine List.forall_mem_singleton.2 ?_
    cases huse with
    | bare _ hswitch => exact ⟨hswitch, by simp⟩
    | attached _ hswitch harity => exact ⟨hswitch, fun _ => harity⟩
  | stack _ _ _ huses => exact huses.held

theorem carries_of_value? {use : SwitchUse} {next value : Option Token}
    (hattached : use.attached.isSome → use.switch.arity ≠ .none)
    (h : use.value? next = some value) : use.switch.Carries (use.payload value) := by
  cases value with
  | some token =>
    obtain ⟨-, hnone, harity, -⟩ := taken_of_value? h
    simp only [SwitchUse.payload, hnone]
    exact Switch.carries_payload harity token
  | none =>
    cases htext : use.attached with
    | some text =>
      simp only [SwitchUse.payload, htext]
      exact hattached (by rw [htext]; rfl)
    | none =>
      simp only [SwitchUse.payload, htext]
      refine ⟨fun hrequired => ?_, rfl⟩
      -- a value that is required is taken or missing
      simp [SwitchUse.value?, htext, hrequired] at h

/-- **What is found of an option its switch can carry.** -/
theorem ReadsPieces.carries {tokens : List Token} {pieces : List Piece}
    (h : table.ReadsPieces tailStart index tokens pieces) {key spelling : String}
    {payload : Payload} (hmem : .named key spelling payload ∈ pieces.flatMap Piece.occurrences) :
    ∃ switch, table.get? spelling = some switch ∧ switch.key = key ∧ switch.Carries payload := by
  have hoption {token : Token} {flags : List SwitchUse} {last : SwitchUse}
      {next value : Option Token} (huses : table.ReadsUses token (flags ++ [last]))
      (hvalue : last.value? next = some value)
      (hfound : .named key spelling payload ∈ (Piece.option token flags last value).occurrences) :
      ∃ switch, table.get? spelling = some switch ∧ switch.key = key ∧ switch.Carries payload := by
    rcases List.mem_append.1 hfound with hflags | hlast
    · obtain ⟨flag, hflag, heq⟩ := List.mem_map.1 hflags
      obtain ⟨rfl, rfl, rfl⟩ := Occurrence.named.inj heq
      obtain ⟨hnone, harity⟩ := huses.flags flag hflag
      refine ⟨flag.switch, (huses.held flag (by simp [hflag])).1, rfl, ?_⟩
      simp only [SwitchUse.payload, hnone]
      exact ⟨by rw [harity]; decide, rfl⟩
    · obtain ⟨rfl, rfl, rfl⟩ := Occurrence.named.inj (List.mem_singleton.1 hlast)
      obtain ⟨hget, hattached⟩ := huses.held last (by simp)
      exact ⟨last.switch, hget, rfl, carries_of_value? hattached hvalue⟩
  induction h with
  | done => simp at hmem
  | option huses hvalue _ ih =>
    rw [List.flatMap_cons, List.mem_append] at hmem
    exact hmem.elim (hoption huses hvalue) ih
  | optionWithValue huses hvalue _ ih =>
    rw [List.flatMap_cons, List.mem_append] at hmem
    exact hmem.elim (hoption huses hvalue) ih
  | positional _ _ _ ih =>
    rw [List.flatMap_cons, List.mem_append] at hmem
    exact hmem.elim (by simp [Piece.occurrences]) ih
  | tail => simp [Piece.occurrences] at hmem

end SwitchTable

/-! ## What an option may be bound to -/

/-- Only a switch has spellings that turn it off. -/
def OptionSpec.Flagged (o : OptionSpec) : Prop := o.negatives ≠ [] → o.isFlag

theorem OptionSpec.MadeOf.flagged {boolean count : ValueType} {o : OptionSpec}
    {src : List (Bool × Declaration)} (h : MadeOf boolean count o src)
    (hwf : ∀ x ∈ src, x.2.WellFormed) : o.Flagged := by
  have hflag (d : Declaration) (mandatory : Bool) (hvalue : d.value.isFlag) :
      (ofDeclaration d mandatory boolean count).isFlag := by
    unfold ofDeclaration isFlag
    cases hcase : d.value with
    | flag => rfl
    | required => simp [hcase, TakenValue.isFlag] at hvalue
    | optional => simp [hcase, TakenValue.isFlag] at hvalue
  intro hnegatives
  cases h with
  | @one mandatory d _ =>
    obtain ⟨longs, short, hwritten⟩ := hwf (mandatory, d) (by simp)
    have hnegated : d.negated := by
      by_contra hside
      simp [ofDeclaration, hside] at hnegatives
    exact hflag d mandatory (hwritten.negated hnegated).2
  | @two mandatory mandatory' d d' hother hside => exact hflag d mandatory hother.flag

/-- A value that one occurrence of the option comes to: one of its type, or the placeholder of an
option that may do without. -/
def OptionSpec.Admits (o : OptionSpec) (v : Value) : Prop :=
  o.type.accepts v ∨ o.arity = .optional ∧ v = .boolean true

/-- The value of an option that occurs, by the kind of option. -/
inductive OptionSpec.Typed (evaluator : Evaluator) (o : OptionSpec) (payloads : List Payload) :
    Value → Prop
  | side {on : Bool} (hflag : o.isFlag) (hrecurs : o.recurs = false) :
      Typed evaluator o payloads (.boolean on)
  | counted (hflag : o.isFlag) (hrecurs : o.recurs) :
      Typed evaluator o payloads (.count (UInt64.ofNat payloads.length))
  | single {v : Value} (hflag : o.isFlag = false) (hrecurs : o.recurs = false)
      (hv : o.Admits v) : Typed evaluator o payloads v
  | collected {values : List Value} (hflag : o.isFlag = false) (hrecurs : o.recurs)
      (hvalues : List.Forall₂ (fun payload v => payload.Yields evaluator o.type v ∧ o.Admits v)
        payloads values) :
      Typed evaluator o payloads (o.type.collect values)

/-- What an occurrence of the option carries. -/
def OptionSpec.Carries (o : OptionSpec) : Payload → Prop
  | .implied on => o.isFlag ∨ o.arity = .optional ∧ on = true
  | _ => o.isFlag = false

theorem OptionSpec.carries_of_switch {o : OptionSpec} (ho : o.Flagged) {spelling : String}
    {switch : Switch} (hmem : (spelling, switch) ∈ o.switches) {payload : Payload}
    (h : switch.Carries payload) : o.Carries payload := by
  rcases mem_switches.1 hmem with ⟨-, rfl⟩ | ⟨hnegative, rfl⟩
  · cases payload with
    | implied on =>
      obtain ⟨hrequired, rfl⟩ := h
      rw [if_neg hrequired]
      cases harity : o.arity with
      | none => exact Or.inl (by rw [isFlag, harity]; rfl)
      | required => exact absurd harity hrequired
      | optional => exact Or.inr ⟨harity, rfl⟩
    | text => exact decide_eq_false h
    | deferred => exact decide_eq_false h
  · have hflag : o.isFlag := ho (List.ne_nil_of_mem hnegative)
    cases payload with
    | implied on => exact Or.inl hflag
    | text => exact absurd rfl h
    | deferred => exact absurd rfl h

section Answers

variable {evaluator : Evaluator} {o : OptionSpec} {payload : Payload} {payloads : List Payload}
  {v : Value}

theorem OptionSpec.admits_of_yields (htype : o.type.Over Primitive.Topicless)
    (hflag : o.isFlag = false) (hcarries : o.Carries payload)
    (h : payload.Yields evaluator o.type v) : o.Admits v := by
  cases payload with
  | text written => exact Or.inl (ValueType.accepts_of_reads htype h)
  | deferred expression =>
    obtain ⟨view, text, -, hreads⟩ := h
    exact Or.inl (ValueType.accepts_of_reads htype hreads)
  | implied on =>
    obtain ⟨harity, rfl⟩ := hcarries.resolve_left (by simp [hflag])
    exact Or.inr ⟨harity, h⟩

/-- **An option that occurs answers with a value of its kind.** -/
theorem OptionSpec.Answers.typed {defaults : Dict DefaultValue}
    (h : o.Answers defaults evaluator payloads v) (htype : o.type.Over Primitive.Topicless)
    (hcarries : ∀ payload ∈ payloads, o.Carries payload) (hne : payloads ≠ []) :
    o.Typed evaluator payloads v := by
  cases h with
  | counted _ hrecurs hflag => exact .counted hflag hrecurs
  | listed _ hrecurs hflag hvalues =>
    refine .collected hflag hrecurs ?_
    have hboth := (List.forall₂_iff_get.1 hvalues)
    refine List.forall₂_iff_get.2 ⟨hboth.1, fun i hi hi' => ?_⟩
    have hyields := hboth.2 i hi hi'
    exact ⟨hyields, admits_of_yields htype hflag (hcarries _ (List.get_mem _ _)) hyields⟩
  | @single payload rest v hrecurs hvalue =>
    have hpayload := hcarries payload (by simp)
    cases hflag : o.isFlag with
    | false => exact .single hflag hrecurs (admits_of_yields htype hflag hpayload hvalue)
    | true =>
      cases payload with
      | implied on =>
        obtain rfl : v = .boolean on := hvalue
        exact .side hflag hrecurs
      | text => exact absurd hflag (by simp [show o.isFlag = false from hpayload])
      | deferred => exact absurd hflag (by simp [show o.isFlag = false from hpayload])
  | defaulted => exact absurd rfl hne
  | nothing => exact absurd rfl hne

end Answers

/-! ## What a positional may be bound to -/

/-- The value of a positional. -/
inductive Parameter.Typed (p : Parameter) : Value → Prop
  | single {v : Value} (hrecurs : p.recurs = false) (hv : p.type.accepts v) : Typed p v
  | collected {values : List Value} (hrecurs : p.recurs) (hne : values ≠ [])
      (hvalues : ∀ v ∈ values, p.type.accepts v) : Typed p (p.type.collect values)

/-- What a slot of supplied values comes to is of the kind of its parameter. -/
theorem Parameter.Settles.typed {evaluator : Evaluator} {p : Parameter} {slot : Slot Payload}
    {b : Binding} (h : p.Settles slot b) (htype : p.type.Over Primitive.Topicless)
    (hshaped : if p.recurs then ∃ vs, vs ≠ [] ∧ slot = .list vs else ∃ v, slot = .single v)
    (hsupplied : ∀ payload ∈ slot.values, payload.IsSupplied) {v : Value}
    (hv : b.Gets evaluator v) : p.Typed v := by
  have haccepts {payload : Payload} {v : Value} (hpayload : payload.IsSupplied)
      (hyields : payload.Yields evaluator p.type v) : p.type.accepts v := by
    cases payload with
    | text written => exact ValueType.accepts_of_reads htype hyields
    | implied on => exact absurd hpayload id
    | deferred expression =>
      obtain ⟨view, text, -, hreads⟩ := hyields
      exact ValueType.accepts_of_reads htype hreads
  obtain ⟨entries, hentries, rfl⟩ := h
  obtain ⟨values, hvalues, rfl⟩ := Binding.gets_ofEntries
    (b := p.binding (.ofEntries p.type entries) true) rfl hv
  cases hentries with
  | @single payload entry hentry =>
    cases hvalues with
    | @single _ v hvalue =>
      have hrecurs : p.recurs = false := by
        by_contra hlist
        simp [hlist] at hshaped
      exact .single hrecurs (haccepts (hsupplied payload (by simp)) (hentry.yields hvalue))
  | @list payloads entries hentries =>
    cases hvalues with
    | @list _ values hvalues =>
      have hrecurs : p.recurs := by
        by_contra hlist
        simp [hlist] at hshaped
      have hyields := yields_of_enters hentries hvalues
      refine .collected hrecurs ?_ fun v hv => ?_
      · rintro rfl
        rw [List.forall₂_nil_right_iff] at hyields
        simp [hrecurs, hyields] at hshaped
      · obtain ⟨payload, hpayload, hyields⟩ := exists_of_forall₂_right hyields hv
        exact haccepts (hsupplied payload hpayload) hyields

/-! ## Invocations -/

section Positionals

variable {u : Usage} {evaluator : Evaluator} {g : Gathered}
  {arranged : List (Parameter × Slot Payload)} {options positionals defaulted : List Binding}
  {values : Dict Value} {explicit : List String} {p : Parameter}

/-- The key of a positional answers for no other, where such keys are no aliases. -/
theorem Published.own_of_positional
    (h : Published u Dict.empty g evaluator arranged options positionals defaulted values explicit)
    (hl : u.layout.Aliased)
    (hnumbers : ∀ q ∈ u.layout.parameters, ∀ index, positionalKey index ∉ q.aliases)
    {v : Value} (hv : (Invocation.publish u.layout values explicit).get? p.key = some v) :
    ∃ b ∈ options ++ positionals, b.key = p.key ∧ b.Gets evaluator v := by
  have hvalue : values.get? p.key = some v := by
    cases hown : values.get? p.key with
    | some w =>
      have hget : (Invocation.publish u.layout values explicit).get? p.key = some w :=
        Invocation.get?_publish_of_some (positionalKey_ne_positionalsKey p.index) hown
      exact hget.symm.trans hv
    | none =>
      obtain ⟨q, hq, halias, -⟩ := (Invocation.get?_publish_of_none hl
        (positionalKey_ne_positionalsKey p.index) hown).1 hv
      exact absurd halias (hnumbers q hq p.index)
  obtain ⟨b, hb, hkey⟩ : ∃ b ∈ options ++ positionals ++ defaulted, b.key = p.key := by
    by_contra hnone
    push Not at hnone
    rw [h.valued.only p.key (positionalKey_ne_tailKey p.index) hnone] at hvalue
    simp at hvalue
  obtain ⟨w, hw, hgets⟩ := h.valued.of_binding b hb
  obtain rfl : w = v := by
    rw [hkey, hvalue] at hw
    exact (Option.some.inj hw).symm
  rw [h.settled.defaulted_eq_nil, List.append_nil] at hb
  exact ⟨b, hb, hkey, hgets⟩

/-- What a positional is bound to comes from the slot that is dealt to it. -/
theorem Settled.settles_of_positional
    (h : Settled u Dict.empty g arranged options positionals defaulted) (hu : u.Keyed)
    (hp : p ∈ u.layout.parameters) {b : Binding} (hb : b ∈ options ++ positionals)
    (hkey : b.key = p.key) : ∃ slot, (p, slot) ∈ arranged ∧ p.Settles slot b := by
  rcases List.mem_append.1 hb with hb | hb
  · obtain ⟨o, ho, hsettles⟩ := h.of_mem_options hb
    exact absurd (hsettles.key_eq.symm.trans hkey) ((hu.optionKeys o ho).ne_positionalKey _)
  · obtain ⟨-, hassigns, -⟩ := Layout.arrange_sound hu.fits h.of_arrangement
    obtain ⟨⟨q, slot⟩, hs, hsettles⟩ := h.of_mem_positionals hb
    obtain rfl := hu.fits.index_injective (hassigns.shaped _ hs).1 hp
      (positionalKey_injective (hsettles.key_eq.symm.trans hkey))
    exact ⟨slot, hs, hsettles⟩

end Positionals

namespace Usage

variable {text : String} {r r' : Registry} {u : Usage} {tokens : List Token}
  {evaluator : Evaluator} {env : Environment}

theorem switch_of_scan (h : compile text r = .ok u r') (herror : (u.scan tokens).error = none)
    {o : OptionSpec} (ho : o ∈ u.options) {spelling : String} {payload : Payload}
    (hmem : .named o.key spelling payload ∈ (u.scan tokens).occurrences) :
    ∃ switch, u.switches.get? spelling = some switch ∧ (spelling, switch) ∈ o.switches ∧
      switch.Carries payload := by
  obtain ⟨pieces, hpieces, hoccurrences⟩ := SwitchTable.exists_pieces herror
  rw [show (u.scan tokens).occurrences = _ from hoccurrences] at hmem
  obtain ⟨switch, hget, hkey, hswitch⟩ := hpieces.carries hmem
  obtain ⟨o', ho', hclaimed⟩ := SwitchTable.exists_of_get?_build (build_of_compile h) hget
  -- a key is that of one option
  have hsame : o'.key = o.key := (OptionSpec.key_of_mem_switches hclaimed).symm.trans hkey
  obtain rfl := List.inj_on_of_nodup_map (keys_nodup_of_compile h) ho' ho hsame
  exact ⟨switch, hget, hclaimed, hswitch⟩

/-- What a scan finds of an option the option carries. -/
theorem carries_of_scan (h : compile text r = .ok u r') (herror : (u.scan tokens).error = none)
    {o : OptionSpec} (ho : o ∈ u.options) :
    ∀ payload ∈ (u.scan tokens).payloads o.key, o.Carries payload := by
  intro payload hpayload
  obtain ⟨occurrence, hmem, hcarried⟩ := List.mem_filterMap.1 hpayload
  obtain ⟨spelling, rfl⟩ : ∃ spelling, occurrence = .named o.key spelling payload := by
    cases occurrence with
    | named key spelling carried =>
      obtain ⟨rfl, rfl⟩ := by simpa [Occurrence.payload?] using hcarried
      exact ⟨spelling, rfl⟩
    | positional => simp [Occurrence.payload?] at hcarried
    | tail => simp [Occurrence.payload?] at hcarried
  obtain ⟨switch, -, hclaimed, hswitch⟩ := switch_of_scan h herror ho hmem
  obtain ⟨outline, r₁, boolean, count, -, hwf, hdeclares⟩ := declares_of_compile h
  obtain ⟨src, hmade, hsrc⟩ := hdeclares.made ho
  exact OptionSpec.carries_of_switch (hmade.flagged fun x hx => hwf x (hsrc x hx)) hclaimed hswitch

theorem isSupplied_of_scan (herror : (u.scan tokens).error = none) :
    ∀ payload ∈ (u.scan tokens).positionals, payload.IsSupplied := by
  obtain ⟨pieces, hpieces, hoccurrences⟩ := SwitchTable.exists_pieces herror
  have hfound : (u.scan tokens).positionals = positionalsOf pieces := by
    rw [Scan.positionals, show (u.scan tokens).occurrences = _ from hoccurrences]
    rfl
  rw [hfound, hpieces.positionalsOf_eq]
  intro payload hpayload
  obtain ⟨token, -, rfl⟩ := List.mem_map.1 hpayload
  exact isSupplied_payload token

/-- **Bound values are well typed.** Where no primitive of the registry converts a text to the file
topic, an option that the command line names is bound to a value of its kind, and a positional that
is bound to a value of its own. -/
theorem typed_of_invoke (hr : Registry.Reachable r)
    (htopicless : ∀ name t, r.types.get? name = some t → t.Over Primitive.Topicless)
    (h : compile text r = .ok u r') (henv : (u.invoke tokens evaluator).result = .ok env) :
    (∀ o ∈ u.options, (u.scan tokens).Names o.key →
      ∃ v, env.get? o.key = some v ∧ o.Typed evaluator ((u.scan tokens).payloads o.key) v) ∧
    ∀ p ∈ u.layout.parameters, ∀ v, env.get? p.key = some v → p.Typed v := by
  have hu := keyed_of_compile h
  obtain ⟨hoptions, hparameters, hnumbers, -⟩ := sound_of_compile (hr.sound htopicless) h
  obtain ⟨herror, g, hfed⟩ := fed_of_invoke henv
  rw [invoke_eq_of_fed hfed herror] at henv
  have hafter := after_of_fed hfed
  obtain ⟨arranged, options, positionals, defaulted, values, explicit, hpublished, rfl⟩ :=
    Invocation.published_of_outcome hu henv
  have hsettled := hpublished.settled
  constructor
  · intro o ho hnamed
    have hpayloads : g.occurrences o.key = (u.scan tokens).payloads o.key := hafter.named o.key
    rw [Scan.names_iff, ← hpayloads] at hnamed
    obtain ⟨-, v, hv, hanswers⟩ := hpublished.own hu ho (Or.inl hnamed)
    refine ⟨v, hv, ?_⟩
    rw [← hpayloads]
    refine hanswers.typed (hoptions o ho) ?_ hnamed
    rw [hpayloads]
    exact carries_of_scan h herror ho
  · intro p hp v hv
    obtain ⟨b, hb, hkey, hgets⟩ :=
      hpublished.own_of_positional (aliased_of_compile h) hnumbers hv
    obtain ⟨slot, hslot, hsettles⟩ := hsettled.settles_of_positional hu hp hb hkey
    obtain ⟨-, hassigns, -⟩ := Layout.arrange_sound hu.fits hsettled.of_arrangement
    refine hsettles.typed (hparameters p hp).made (hassigns.shaped _ hslot).2
      (fun payload hpayload => isSupplied_of_scan herror payload ?_) hgets
    have hpositionals : g.positionals = (u.scan tokens).positionals := hafter.positionals
    rw [← hpositionals, ← hassigns.all]
    exact List.mem_flatMap.2 ⟨_, hslot, hpayload⟩

theorem topicless_standard :
    ∀ name t, Registry.standard.types.get? name = some t → t.Over Primitive.Topicless := by
  intro name t h
  obtain ⟨p, hp, rfl⟩ := (Registry.get?_foldl_add h).resolve_left (by simp [Registry.empty])
  refine ValueType.over_primitive.2 fun text => ?_
  fin_cases hp
  · simp [Primitive.string]
  · simp [Primitive.int]
  · simp [Primitive.number]
  · simp [Primitive.boolean]
  · simp [Primitive.count]

/-- A repeated option with a text and an expression, and an expression for a list. -/
theorem typed_expressionInList :
    ∃ u r' env, compile "[--n=INT]... STR..." Registry.standard = .ok u r' ∧
      (u.invoke [⟨.name, "--n"⟩, ⟨.namedValue, "1"⟩, ⟨.name, "--n"⟩, ⟨.namedExpression, "x"⟩,
        ⟨.positionalExpression, "y"⟩] fun _ _ => .ok "2").result = .ok env ∧
      (∃ o ∈ u.options, o.key = "n" ∧ ∃ v, env.get? o.key = some v ∧
        o.Typed (fun _ _ => .ok "2") [.text "1", .deferred "x"] v) ∧
      ∃ p ∈ u.layout.parameters, ∃ v, env.get? p.key = some v ∧ p.Typed v := by
  obtain ⟨u, r', hcompile, hcheck⟩ := exists_of_succeedsWith
    (compile "[--n=INT]... STR..." Registry.standard)
    (fun u _ =>
      (u.options.any fun o => o.key = "n" &&
        (u.scan [⟨.name, "--n"⟩, ⟨.namedValue, "1"⟩, ⟨.name, "--n"⟩, ⟨.namedExpression, "x"⟩,
          ⟨.positionalExpression, "y"⟩]).payloads o.key = [.text "1", .deferred "x"]) &&
      (u.invoke [⟨.name, "--n"⟩, ⟨.namedValue, "1"⟩, ⟨.name, "--n"⟩, ⟨.namedExpression, "x"⟩,
        ⟨.positionalExpression, "y"⟩] fun _ _ => .ok "2").result.toOption.any fun env =>
          u.layout.parameters.any fun p => (env.get? p.key).isSome)
    (by decide +kernel)
  simp only [Bool.and_eq_true, List.any_eq_true, decide_eq_true_eq, failing_any_toOption_iff,
    Option.isSome_iff_exists] at hcheck
  obtain ⟨⟨o, ho, hkey, hpayloads⟩, env, henv, p, hp, v', hv'⟩ := hcheck
  obtain ⟨htypedOptions, htypedParameters⟩ :=
    typed_of_invoke Registry.reachable_standard topicless_standard hcompile henv
  obtain ⟨v, hv, htyped⟩ := htypedOptions o ho (by
    rw [Scan.names_iff, hpayloads]
    simp)
  exact ⟨u, r', env, hcompile, henv, ⟨o, ho, hkey, v, hv, hpayloads ▸ htyped⟩,
    p, hp, v', hv', htypedParameters p hp v' hv'⟩

end Usage

end Synopsis
