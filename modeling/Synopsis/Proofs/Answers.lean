import Synopsis.Proofs.Feeding
import Synopsis.Proofs.Publishing
import Synopsis.Proofs.Resolving
import Synopsis.Proofs.Settling
import Synopsis.Registry.Standard

/-!
# What answers for an option

**An option with a value of its own answers with it** (`Usage.answers_of_option`): with what its
occurrences come to, or its default, or the empty collection of one that repeats. Its key is then
explicit exactly if it occurs, whatever positionals have that key as an alias.

An option with no value of its own has none, unless a positional that is bound has its key as an
alias: the key then answers for that positional.
-/

namespace Synopsis

/-- What one occurrence of a parameter comes to, an expression by some answer to it. -/
def Payload.Yields (evaluator : Evaluator) (type : ValueType) : Payload → Value → Prop
  | .text written, v => type.Reads written v
  | .implied on, v => v = .boolean on
  | .deferred expression, v =>
    ∃ view text, evaluator expression view = .ok text ∧ type.Reads text v

/-- The value that an option has of its own, by its occurrences and its default. -/
inductive OptionSpec.Answers (defaults : Dict DefaultValue) (evaluator : Evaluator)
    (o : OptionSpec) : List Payload → Value → Prop
  | counted {payloads : List Payload} (hne : payloads ≠ []) (hrecurs : o.recurs)
      (hflag : o.isFlag) : Answers defaults evaluator o payloads
        (.count (UInt64.ofNat payloads.length))
  | listed {payloads : List Payload} {values : List Value} (hne : payloads ≠ [])
      (hrecurs : o.recurs) (hflag : o.isFlag = false)
      (hvalues : List.Forall₂ (Payload.Yields evaluator o.type) payloads values) :
      Answers defaults evaluator o payloads (o.type.collect values)
  | single {payload : Payload} {payloads : List Payload} {value : Value}
      (hrecurs : o.recurs = false) (hvalue : payload.Yields evaluator o.type value) :
      Answers defaults evaluator o (payload :: payloads) value
  | defaulted {d : DefaultValue} {value : Value} (hdefault : o.default? defaults = some d)
      (hvalue : d.Gives o.type (o.recurs && !o.isFlag) value) :
      Answers defaults evaluator o [] value
  | nothing (hdefault : o.default? defaults = none) (hrecurs : o.recurs) :
      Answers defaults evaluator o [] (o.type.collect [])

/-- The option has a value of its own. -/
def OptionSpec.HasOwn (o : OptionSpec) (defaults : Dict DefaultValue) (payloads : List Payload) :
    Prop :=
  payloads ≠ [] ∨ (o.default? defaults).isSome ∨ o.recurs

instance (o : OptionSpec) (defaults : Dict DefaultValue) (payloads : List Payload) :
    Decidable (o.HasOwn defaults payloads) :=
  inferInstanceAs (Decidable (_ ∨ _ ∨ _))

section Own

variable {defaults : Dict DefaultValue} {evaluator : Evaluator} {type : ValueType} {o : OptionSpec}
  {payloads : List Payload} {b : Binding}

theorem Payload.Enters.yields {payload : Payload} {entry : Entry} {v : Value}
    (h : payload.Enters type entry) (hv : entry.Resolves evaluator type v) :
    payload.Yields evaluator type v := by
  cases payload with
  | text written =>
    obtain ⟨value, hreads, rfl⟩ := h
    obtain rfl : v = value := hv
    exact hreads
  | implied on =>
    obtain rfl : entry = .ready (.boolean on) := h
    exact hv
  | deferred expression =>
    obtain rfl : entry = .deferred expression := h
    exact hv

theorem yields_of_enters {entries : List Entry} {values : List Value}
    (h : List.Forall₂ (Payload.Enters type) payloads entries)
    (hv : List.Forall₂ (Entry.Resolves evaluator type) entries values) :
    List.Forall₂ (Payload.Yields evaluator type) payloads values := by
  induction h generalizing values with
  | nil =>
    cases hv
    exact .nil
  | cons hentry _ ih =>
    cases hv with
    | cons hvalue hvalues => exact .cons (hentry.yields hvalue) (ih hvalues)

namespace OptionSpec

variable {v : Value}

/-! Which case it is that an option answers by is told by its occurrences and its shape. -/

theorem answers_nil_iff :
    o.Answers defaults evaluator [] v ↔
      (∃ d, o.default? defaults = some d ∧ d.Gives o.type (o.recurs && !o.isFlag) v) ∨
        o.default? defaults = none ∧ o.recurs ∧ v = o.type.collect [] := by
  constructor
  · intro h
    cases h with
    | counted hne => exact absurd rfl hne
    | listed hne => exact absurd rfl hne
    | defaulted hdefault hvalue => exact Or.inl ⟨_, hdefault, hvalue⟩
    | nothing hdefault hrecurs => exact Or.inr ⟨hdefault, hrecurs, rfl⟩
  · rintro (⟨d, hdefault, hvalue⟩ | ⟨hdefault, hrecurs, rfl⟩)
    · exact .defaulted hdefault hvalue
    · exact .nothing hdefault hrecurs

theorem answers_cons_iff {payload : Payload} (hrecurs : o.recurs = false) :
    o.Answers defaults evaluator (payload :: payloads) v ↔ payload.Yields evaluator o.type v := by
  constructor
  · intro h
    cases h with
    | counted _ hrecurs' => simp [hrecurs] at hrecurs'
    | listed _ hrecurs' => simp [hrecurs] at hrecurs'
    | single _ hvalue => exact hvalue
  · exact .single hrecurs

theorem answers_counted_iff (hrecurs : o.recurs) (hflag : o.isFlag) (hne : payloads ≠ []) :
    o.Answers defaults evaluator payloads v ↔
      v = .count (UInt64.ofNat payloads.length) := by
  constructor
  · intro h
    cases h with
    | counted => rfl
    | listed _ _ hflag' => simp [hflag] at hflag'
    | single hrecurs' => simp [hrecurs] at hrecurs'
    | defaulted => exact absurd rfl hne
    | nothing => exact absurd rfl hne
  · rintro rfl
    exact .counted hne hrecurs hflag

theorem answers_listed_iff (hrecurs : o.recurs) (hflag : o.isFlag = false) (hne : payloads ≠ []) :
    o.Answers defaults evaluator payloads v ↔
      ∃ values, List.Forall₂ (Payload.Yields evaluator o.type) payloads values ∧
        v = o.type.collect values := by
  constructor
  · intro h
    cases h with
    | counted _ _ hflag' => simp [hflag] at hflag'
    | listed _ _ _ hvalues => exact ⟨_, hvalues, rfl⟩
    | single hrecurs' => simp [hrecurs] at hrecurs'
    | defaulted => exact absurd rfl hne
    | nothing => exact absurd rfl hne
  · rintro ⟨values, hvalues, rfl⟩
    exact .listed hne hrecurs hflag hvalues

end OptionSpec

/-- What the binding of an option gets is the value that the option has of its own. -/
theorem OptionSpec.Settles.answers {v : Value} (h : o.Settles defaults payloads (some b))
    (hv : b.Gets evaluator v) : o.Answers defaults evaluator payloads v := by
  cases h with
  | counted hne hrecurs hflag =>
    obtain rfl : v = _ := hv
    exact .counted hne hrecurs hflag
  | @listed _ entries hne hrecurs hflag hentries =>
    have hbound : (o.binding (.ofEntries o.type (.list entries)) true).bound =
      .ofEntries o.type (.list entries) := rfl
    obtain ⟨values, hvalues, rfl⟩ := Binding.gets_ofEntries hbound hv
    cases hvalues with
    | list hvalues => exact .listed hne hrecurs hflag (yields_of_enters hentries hvalues)
  | @single _ _ entry hrecurs hentry =>
    have hbound : (o.binding (.ofEntries o.type (.single entry)) true).bound =
      .ofEntries o.type (.single entry) := rfl
    obtain ⟨values, hvalues, rfl⟩ := Binding.gets_ofEntries hbound hv
    cases hvalues with
    | single hvalue => exact .single hrecurs (hentry.yields hvalue)
  | defaulted hdefault hvalue =>
    obtain rfl : v = _ := hv
    exact .defaulted hdefault hvalue
  | nothing hdefault hrecurs =>
    obtain rfl : v = _ := hv
    exact .nothing hdefault hrecurs

theorem OptionSpec.Settles.hasOwn (h : o.Settles defaults payloads (some b)) :
    o.HasOwn defaults payloads := by
  cases h with
  | counted hne => exact Or.inl hne
  | listed hne => exact Or.inl hne
  | single => exact Or.inl (List.cons_ne_nil _ _)
  | defaulted hdefault => exact Or.inr (Or.inl (by rw [hdefault]; rfl))
  | nothing _ hrecurs => exact Or.inr (Or.inr hrecurs)

theorem OptionSpec.Settles.not_hasOwn (h : o.Settles defaults payloads none) :
    ¬o.HasOwn defaults payloads := by
  cases h with
  | unbound hdefault hrecurs => simp [OptionSpec.HasOwn, hdefault, hrecurs]

end Own

/-! ## Keys -/

theorem IsOptionKey.ne_tailKey {key : String} (h : IsOptionKey key) : key ≠ tailKey :=
  @IsOptionKey.ne _ _ h '.' (by decide) (by decide)

theorem IsOptionKey.ne_positionalsKey {key : String} (h : IsOptionKey key) :
    key ≠ positionalsKey :=
  @IsOptionKey.ne _ _ h '$' (by decide) (by decide)

theorem positionalKey_ne_positionalsKey (i : Nat) : positionalKey i ≠ positionalsKey := by
  intro h
  have hempty : (i + 1).repr = "" := (String.append_right_inj "$").1 h
  exact Nat.repr_ne_empty hempty

theorem Settled.key_ne_tailKey {u : Usage} {defaults : Dict DefaultValue} {g : Gathered}
    {arranged : List (Parameter × Slot Payload)} {options positionals defaulted : List Binding}
    (h : Settled u defaults g arranged options positionals defaulted) (hu : u.Keyed) :
    ∀ b ∈ options ++ positionals ++ defaulted, b.key ≠ tailKey := by
  intro b hb
  rcases h.key_cases hb with ⟨o, ho, heq⟩ | ⟨i, heq⟩
  · rw [heq]
    exact (hu.optionKeys o ho).ne_tailKey
  · rw [heq]
    exact positionalKey_ne_tailKey i

/-! ## The outcome of an invocation -/

/-- The environment publishes the values of the bindings that the usage has for what was
gathered. -/
structure Published (u : Usage) (defaults : Dict DefaultValue) (g : Gathered)
    (evaluator : Evaluator) (arranged : List (Parameter × Slot Payload))
    (options positionals defaulted : List Binding) (values : Dict Value) (explicit : List String) :
    Prop where
  settled : Settled u defaults g arranged options positionals defaulted
  valued : Invocation.Valued evaluator (options ++ positionals ++ defaulted) g.tail values
  supplied : ∀ key, key ≠ tailKey →
    (key ∈ explicit ↔ ∃ b ∈ options ++ positionals ++ defaulted, b.explicit ∧ b.key = key)

theorem Invocation.resolved_of_outcome {inv : Invocation} {g : Gathered} {evaluator : Evaluator}
    {env : Environment} (h : (inv.outcome g evaluator).result = .ok env) :
    ∃ bindings claimed s explicit,
      settle inv.usage inv.defaults g none = .ok (bindings, claimed) ∧
      resolve evaluator (direct bindings g.tail) bindings { claimed } = .ok () s ∧
      env = publish inv.usage.layout ((direct bindings g.tail).extend s.completed) explicit ∧
      (inv.outcome g evaluator).evaluations = s.evaluations ∧
      ∀ key, key ≠ tailKey → (key ∈ explicit ↔ ∃ b ∈ bindings, b.explicit ∧ b.key = key) := by
  unfold outcome at h ⊢
  cases hsettle : settle inv.usage inv.defaults g none with
  | error e => simp [hsettle] at h
  | ok result =>
    obtain ⟨bindings, claimed⟩ := result
    cases hresolve : resolve evaluator (direct bindings g.tail) bindings { claimed } with
    | error e s => simp [hsettle, hresolve] at h
    | ok _ s =>
      simp only [hsettle, hresolve, Except.ok.injEq] at h
      refine ⟨bindings, claimed, s, _, rfl, hresolve, h.symm, by simp [hresolve], fun key hkey => ?_⟩
      split_ifs <;> simp [hkey, and_assoc]

/-- **An invocation comes to the environment of its bindings.** -/
theorem Invocation.published_of_outcome {inv : Invocation} {g : Gathered} {evaluator : Evaluator}
    {env : Environment} (hu : inv.usage.Keyed) (h : (inv.outcome g evaluator).result = .ok env) :
    ∃ arranged options positionals defaulted values explicit,
      Published inv.usage inv.defaults g evaluator arranged options positionals defaulted values
        explicit ∧
      env = publish inv.usage.layout values explicit := by
  obtain ⟨bindings, claimed, s, explicit, hsettle, hresolve, rfl, -, hexplicit⟩ :=
    resolved_of_outcome h
  obtain ⟨arranged, options, positionals, defaulted, hsettled, rfl⟩ := settled_of_settle hsettle
  have hvalued := valued_of_resolve (hsettled.nodup hu) (hsettled.key_ne_tailKey hu) hresolve
  exact ⟨arranged, options, positionals, defaulted, _, explicit, ⟨hsettled, hvalued, hexplicit⟩, rfl⟩

namespace Published

variable {u : Usage} {defaults : Dict DefaultValue} {g : Gathered} {evaluator : Evaluator}
  {arranged : List (Parameter × Slot Payload)} {options positionals defaulted : List Binding}
  {values : Dict Value} {explicit : List String} {o : OptionSpec}

/-- An option with a value of its own answers with it, and is explicit if it occurs. -/
theorem own (h : Published u defaults g evaluator arranged options positionals defaulted values
    explicit) (hu : u.Keyed) (ho : o ∈ u.options)
    (hown : o.HasOwn defaults (g.occurrences o.key)) :
    ((Invocation.publish u.layout values explicit).isExplicit o.key ↔ g.occurrences o.key ≠ []) ∧
      ∃ v, (Invocation.publish u.layout values explicit).get? o.key = some v ∧
        o.Answers defaults evaluator (g.occurrences o.key) v := by
  have hkey := hu.optionKeys o ho
  obtain ⟨found, hsettles, hmem, -⟩ := h.settled.of_option hu ho
  cases found with
  | none => exact absurd hown hsettles.not_hasOwn
  | some b =>
    have hb := hmem b rfl
    obtain ⟨v, hv, hgets⟩ := h.valued.of_binding b hb
    rw [hsettles.key_eq] at hv
    refine ⟨?_, v, Invocation.get?_publish_of_some hkey.ne_positionalsKey hv, hsettles.answers hgets⟩
    rw [Invocation.isExplicit_publish, h.supplied o.key hkey.ne_tailKey, ← hsettles.explicit_iff, hv]
    constructor
    · rintro (⟨b', hb', hexplicit, heq⟩ | ⟨hnone, -⟩)
      · have heq' := heq.trans hsettles.key_eq.symm
        rwa [← List.inj_on_of_nodup_map (h.settled.nodup hu) hb' hb heq']
      · simp at hnone
    · intro hexplicit
      exact Or.inl ⟨b, hb, hexplicit, hsettles.key_eq⟩

theorem get?_of_bound (h : Published u defaults g evaluator arranged options positionals defaulted
    values explicit) {p : Parameter}
    (hbound : ∃ b ∈ options ++ positionals ++ defaulted, b.key = p.key) :
    ∃ v, values.get? p.key = some v ∧
      (Invocation.publish u.layout values explicit).get? p.key = some v := by
  obtain ⟨b, hb, heq⟩ := hbound
  obtain ⟨v, hv, -⟩ := h.valued.of_binding b hb
  rw [heq] at hv
  exact ⟨v, hv, Invocation.get?_publish_of_some (positionalKey_ne_positionalsKey p.index) hv⟩

/-- The key of an option without a value of its own answers for the positional with that alias. -/
theorem other (h : Published u defaults g evaluator arranged options positionals defaulted values
    explicit) (hu : u.Keyed) (hl : u.layout.Aliased) (ho : o ∈ u.options)
    (hown : ¬o.HasOwn defaults (g.occurrences o.key)) :
    ((Invocation.publish u.layout values explicit).isExplicit o.key ↔
        ∃ p ∈ u.layout.parameters, o.key ∈ p.aliases ∧ p ∈ arranged.map (·.1)) ∧
      ∀ v, (Invocation.publish u.layout values explicit).get? o.key = some v ↔
        ∃ p ∈ u.layout.parameters, o.key ∈ p.aliases ∧
          (p ∈ arranged.map (·.1) ∨ (defaults.get? p.key).isSome) ∧
          (Invocation.publish u.layout values explicit).get? p.key = some v := by
  have hkey := hu.optionKeys o ho
  obtain ⟨found, hsettles, -, hnone⟩ := h.settled.of_option hu ho
  cases found with
  | some b => exact absurd hsettles.hasOwn hown
  | none =>
    have hunder : values.get? o.key = none := h.valued.only o.key hkey.ne_tailKey (hnone rfl)
    refine ⟨?_, fun v => ?_⟩
    · rw [Invocation.isExplicit_publish, h.supplied o.key hkey.ne_tailKey]
      constructor
      · rintro (⟨b, hb, -, heq⟩ | ⟨-, p, hp, halias, hsupplied, -⟩)
        · exact absurd heq (hnone rfl b hb)
        · refine ⟨p, hp, halias, (h.settled.supplied_iff hu hp).1 ?_⟩
          exact (h.supplied p.key (positionalKey_ne_tailKey p.index)).1 hsupplied
      · intro ⟨p, hp, halias, hdealt⟩
        have hsupplied := (h.settled.supplied_iff hu hp).2 hdealt
        obtain ⟨w, hw, -⟩ := h.get?_of_bound ((h.settled.bound_iff hu hp).2 (Or.inl hdealt))
        refine Or.inr ⟨hunder, p, hp, halias, ?_, by rw [hw]; rfl⟩
        exact (h.supplied p.key (positionalKey_ne_tailKey p.index)).2 hsupplied
    · show (Invocation.publish u.layout values explicit).get? o.key = some v ↔ _
      rw [Invocation.get?_publish_of_none hl hkey.ne_positionalsKey hunder]
      refine exists_congr fun p => and_congr_right fun hp => and_congr_right fun _ => ?_
      rw [← h.settled.bound_iff hu hp]
      constructor
      · intro hv
        refine ⟨?_, Invocation.get?_publish_of_some (positionalKey_ne_positionalsKey _) hv⟩
        by_contra hunbound
        push Not at hunbound
        rw [h.valued.only p.key (positionalKey_ne_tailKey _) hunbound] at hv
        simp at hv
      · intro ⟨hbound, hv⟩
        obtain ⟨w, hw, hpublished⟩ := h.get?_of_bound hbound
        rw [hw, ← hpublished, hv]

end Published

namespace Scan

/-- What the scan found for the option with a key. -/
def payloads (s : Scan) (key : String) : List Payload :=
  s.occurrences.filterMap (Occurrence.payload? key)

/-- What the scan found for positionals. -/
def positionals (s : Scan) : List Payload := s.occurrences.filterMap Occurrence.positional?

/-- The scan found the option with a key. -/
def Names (s : Scan) (key : String) : Prop :=
  ∃ spelling payload, .named key spelling payload ∈ s.occurrences

theorem names_iff {s : Scan} {key : String} : s.Names key ↔ s.payloads key ≠ [] := by
  rw [payloads, Ne, List.filterMap_eq_nil_iff]
  constructor
  · intro ⟨spelling, payload, hmem⟩ hnone
    simpa [Occurrence.payload?] using hnone _ hmem
  · intro hsome
    push Not at hsome
    obtain ⟨occurrence, hmem, hsome⟩ := hsome
    cases occurrence with
    | named key' spelling payload =>
      by_cases hkey : key' = key
      · exact ⟨spelling, payload, hkey ▸ hmem⟩
      · simp [Occurrence.payload?, hkey] at hsome
    | positional => simp [Occurrence.payload?] at hsome
    | tail => simp [Occurrence.payload?] at hsome

end Scan

namespace Usage

/-- The positional is dealt one of the values. -/
def Deals (u : Usage) (payloads : List Payload) (p : Parameter) : Prop :=
  ∃ slots, u.layout.arrange payloads = .ok slots ∧ p ∈ slots.map (·.1)

theorem aliased_of_compile {text : String} {r r' : Registry} {u : Usage}
    (h : compile text r = .ok u r') : u.layout.Aliased := by
  obtain ⟨outline, r₁, options, r₂, layout, switches, -, -, hlayout, -, rfl⟩ := compile_ok_iff.1 h
  exact Layout.aliased_of_ofTerms hlayout

/-- **An option answers with its own value, and a positional only for an option that has none.** An
option with a value of its own is explicit exactly if the scan found it. The key of any other
option answers, value and mark, for the positional that has it as an alias, if one is bound. -/
theorem answers_of_option {text : String} {r r' : Registry} {u : Usage}
    (h : compile text r = .ok u r') {defaults : Dict DefaultValue} {tokens : List Token}
    {evaluator : Evaluator} {inv : Invocation} {env : Environment}
    (hfed : (u.scan tokens).occurrences.foldlM Invocation.feed { usage := u, defaults } = .ok inv)
    (henv : (inv.finish evaluator).1.result = .ok env) {o : OptionSpec} (ho : o ∈ u.options) :
    (o.HasOwn defaults ((u.scan tokens).payloads o.key) →
      (env.isExplicit o.key ↔ (u.scan tokens).Names o.key) ∧
      ∃ v, env.get? o.key = some v ∧
        o.Answers defaults evaluator ((u.scan tokens).payloads o.key) v) ∧
    (¬o.HasOwn defaults ((u.scan tokens).payloads o.key) →
      ¬(u.scan tokens).Names o.key ∧
      (env.isExplicit o.key ↔ ∃ p ∈ u.layout.parameters, o.key ∈ p.aliases ∧
        u.Deals (u.scan tokens).positionals p) ∧
      ∀ v, env.get? o.key = some v ↔ ∃ p ∈ u.layout.parameters, o.key ∈ p.aliases ∧
        (u.Deals (u.scan tokens).positionals p ∨ (defaults.get? p.key).isSome) ∧
        env.get? p.key = some v) := by
  have hu := keyed_of_compile h
  obtain ⟨g, rfl, hafter⟩ := Invocation.after_of_foldlM_feed rfl hfed
  obtain ⟨arranged, options, positionals, defaulted, values, explicit, hpublished, rfl⟩ :=
    Invocation.published_of_outcome hu henv
  have hpayloads : g.occurrences o.key = (u.scan tokens).payloads o.key := hafter.named o.key
  have hpositionals : g.positionals = (u.scan tokens).positionals := hafter.positionals
  have hdeals (p : Parameter) : u.Deals (u.scan tokens).positionals p ↔ p ∈ arranged.map (·.1) := by
    unfold Deals
    rw [← hpositionals, hpublished.settled.of_arrangement]
    simp
  rw [← hpayloads, Scan.names_iff, ← hpayloads]
  refine ⟨fun hown => hpublished.own hu ho hown, fun hown => ⟨fun hne => hown (Or.inl hne), ?_⟩⟩
  obtain ⟨hexplicit, hget⟩ := hpublished.other hu (aliased_of_compile h) ho hown
  simp only [hdeals]
  exact ⟨hexplicit, hget⟩

theorem exists_of_run {text : String} {tokens : List Token} {defaults : Dict DefaultValue}
    {evaluator : Evaluator} {satisfied : Usage → Environment → Bool}
    (h : succeedsWith (compile text Registry.standard) (fun u _ =>
      ((u.scan tokens).occurrences.foldlM Invocation.feed { usage := u, defaults }).toOption.any
        fun inv => (inv.finish evaluator).1.result.toOption.any (satisfied u)) = true) :
    ∃ u r' inv env, compile text Registry.standard = .ok u r' ∧
      (u.scan tokens).occurrences.foldlM Invocation.feed { usage := u, defaults } = .ok inv ∧
      (inv.finish evaluator).1.result = .ok env ∧ satisfied u env := by
  obtain ⟨u, r', hcompile, h⟩ := exists_of_succeedsWith _ _ h
  obtain ⟨inv, hfed, h⟩ := failing_any_toOption_iff.1 h
  obtain ⟨env, henv, h⟩ := failing_any_toOption_iff.1 h
  exact ⟨u, r', inv, env, hcompile, hfed, henv, h⟩

/-- An option beside a positional of the same name, with its own value. -/
theorem answers_sharedName :
    ∃ u r' inv env, compile "[--str=STR] STR" Registry.standard = .ok u r' ∧
      (u.scan [⟨.name, "--str"⟩, ⟨.namedValue, "x"⟩, ⟨.positionalValue, "y"⟩]).occurrences.foldlM
        Invocation.feed { usage := u } = .ok inv ∧
      (inv.finish Evaluator.unsupported).1.result = .ok env ∧
      ∃ o ∈ u.options, o.key = "str" ∧ env.isExplicit o.key ∧
        ∃ v, env.get? o.key = some v ∧
          o.Answers Dict.empty Evaluator.unsupported [.text "x"] v := by
  obtain ⟨u, r', inv, env, hcompile, hfed, henv, hsatisfied⟩ :=
    @exists_of_run "[--str=STR] STR"
      [⟨.name, "--str"⟩, ⟨.namedValue, "x"⟩, ⟨.positionalValue, "y"⟩] Dict.empty
      Evaluator.unsupported
      (fun u _ => u.options.any fun o => o.key = "str" &&
        (u.scan [⟨.name, "--str"⟩, ⟨.namedValue, "x"⟩, ⟨.positionalValue, "y"⟩]).payloads o.key =
          [.text "x"])
      (by decide +kernel)
  obtain ⟨o, ho, hcheck⟩ := List.any_eq_true.1 hsatisfied
  obtain ⟨hkey, hpayloads⟩ := by simpa using hcheck
  obtain ⟨hexplicit, v, hv, hanswers⟩ := (answers_of_option hcompile hfed henv ho).1
    (Or.inl (by rw [hpayloads]; simp))
  refine ⟨u, r', inv, env, hcompile, hfed, henv, o, ho, hkey, ?_, v, hv, hpayloads ▸ hanswers⟩
  rw [hexplicit, Scan.names_iff, hpayloads]
  simp

/-- A positional answers for an option of its name that is not supplied. -/
theorem positional_answers_for_option :
    ∃ u r' inv env, compile "[--str=INT] STR" Registry.standard = .ok u r' ∧
      (u.scan [⟨.positionalValue, "y"⟩]).occurrences.foldlM Invocation.feed { usage := u } = .ok inv ∧
      (inv.finish Evaluator.unsupported).1.result = .ok env ∧
      ∃ o ∈ u.options, ¬(u.scan [⟨.positionalValue, "y"⟩]).Names o.key ∧ o.default? Dict.empty = none ∧
        o.recurs = false ∧ env.isExplicit o.key ∧ env.get? o.key ≠ none := by
  obtain ⟨u, r', inv, env, hcompile, hfed, henv, hsatisfied⟩ :=
    @exists_of_run "[--str=INT] STR" [⟨.positionalValue, "y"⟩] Dict.empty Evaluator.unsupported
      (fun u env => u.options.any fun o =>
        ((u.scan [⟨.positionalValue, "y"⟩]).payloads o.key).isEmpty && (o.default? Dict.empty).isNone &&
          !o.recurs && env.isExplicit o.key && (env.get? o.key).isSome) (by decide +kernel)
  obtain ⟨o, ho, hcheck⟩ := List.any_eq_true.1 hsatisfied
  simp only [Bool.and_eq_true, List.isEmpty_iff, Option.isNone_iff_eq_none, Bool.not_eq_true']
    at hcheck
  obtain ⟨⟨⟨⟨hpayloads, hdefault⟩, hrecurs⟩, hexplicit⟩, hget⟩ := hcheck
  refine ⟨u, r', inv, env, hcompile, hfed, henv, o, ho, ?_, hdefault, hrecurs, hexplicit, ?_⟩
  · rw [Scan.names_iff, hpayloads]
    simp
  · exact Option.isSome_iff_ne_none.1 hget

end Usage

end Synopsis
