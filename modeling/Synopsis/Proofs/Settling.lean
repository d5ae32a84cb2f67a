import Synopsis.Invocation.Settling
import Synopsis.Proofs.Arrangements
import Synopsis.Proofs.Bindings

/-!
# What settling comes to

`Settled` says which bindings a usage has for what was gathered: one for each option that occurs,
has a default or repeats, one for each positional that the arrangement deals a value, and one for
each other positional with a default. Their keys are distinct (`Settled.nodup`).
-/

namespace Synopsis

/-- The binding of an option. -/
def OptionSpec.binding (o : OptionSpec) (bound : Bound) (explicit : Bool) : Binding where
  key := o.key
  parameter := o.primary
  type := o.type
  bound
  explicit

/-- The binding of a positional. -/
def Parameter.binding (p : Parameter) (bound : Bound) (explicit : Bool) : Binding where
  key := p.key
  parameter := p.identifier
  type := p.type
  bound
  explicit

/-- The default of an option, the host's before its own. -/
def OptionSpec.default? (o : OptionSpec) (defaults : Dict DefaultValue) : Option DefaultValue :=
  (defaults.get? o.key).or o.default

/-- What an option is bound to by its occurrences, or without any. -/
inductive OptionSpec.Settles (defaults : Dict DefaultValue) (o : OptionSpec) :
    List Payload → Option Binding → Prop
  | counted {payloads : List Payload} (hne : payloads ≠ []) (hrecurs : o.recurs)
      (hflag : o.isFlag) :
      Settles defaults o payloads
        (some (o.binding (.ready (.count (UInt64.ofNat payloads.length))) true))
  | listed {payloads : List Payload} {entries : List Entry} (hne : payloads ≠ [])
      (hrecurs : o.recurs) (hflag : o.isFlag = false)
      (hentries : List.Forall₂ (Payload.Enters o.type) payloads entries) :
      Settles defaults o payloads (some (o.binding (.ofEntries o.type (.list entries)) true))
  | single {payload : Payload} {payloads : List Payload} {entry : Entry}
      (hrecurs : o.recurs = false) (hentry : payload.Enters o.type entry) :
      Settles defaults o (payload :: payloads)
        (some (o.binding (.ofEntries o.type (.single entry)) true))
  | defaulted {d : DefaultValue} {value : Value} (hdefault : o.default? defaults = some d)
      (hvalue : d.Gives o.type (o.recurs && !o.isFlag) value) :
      Settles defaults o [] (some (o.binding (.ready value) false))
  | nothing (hdefault : o.default? defaults = none) (hrecurs : o.recurs) :
      Settles defaults o [] (some (o.binding (.ready (o.type.collect [])) false))
  | unbound (hdefault : o.default? defaults = none) (hrecurs : o.recurs = false)
      (hmandatory : o.mandatory = false) (hpolarity : o.polarity ≠ some .both) :
      Settles defaults o [] none

/-- What a positional is bound to by what it is dealt. -/
def Parameter.Settles (p : Parameter) (slot : Slot Payload) (b : Binding) : Prop :=
  ∃ entries, slot.Rel (Payload.Enters p.type) entries ∧
    b = p.binding (.ofEntries p.type entries) true

/-- What a positional that is dealt nothing is bound to. -/
inductive Parameter.Defaults (defaults : Dict DefaultValue) (p : Parameter) :
    Option Binding → Prop
  | defaulted {d : DefaultValue} {value : Value} (hdefault : defaults.get? p.key = some d)
      (hvalue : d.Gives p.type p.recurs value) :
      Defaults defaults p (some (p.binding (.ready value) false))
  | unbound (hdefault : defaults.get? p.key = none) : Defaults defaults p none

namespace Invocation

variable {defaults : Dict DefaultValue} {g : Gathered} {c c' : Option String}

theorem settles_of_settleAbsent {o : OptionSpec} {b : Option Binding}
    (h : settleAbsent defaults o c = .ok (b, c')) : o.Settles defaults [] b := by
  unfold settleAbsent at h
  cases hdefault : (defaults.get? o.key).or o.default with
  | some d =>
    simp only [hdefault, losing_bind_ok_iff, losing_pure_ok_iff] at h
    obtain ⟨value, c₁, hvalue, rfl, rfl⟩ := h
    exact .defaulted hdefault (Claiming.gives_of_default hvalue)
  | none =>
    simp only [hdefault] at h
    split_ifs at h with hboth hrecurs hmandatory
    · simp at h
    · obtain ⟨rfl, -⟩ := losing_pure_ok_iff.1 h
      exact .nothing hdefault hrecurs
    · simp at h
    · obtain ⟨rfl, -⟩ := losing_pure_ok_iff.1 h
      exact .unbound hdefault (by simpa using hrecurs) (by simpa using hmandatory) hboth

theorem settles_of_settleOption {o : OptionSpec} {b : Option Binding}
    (h : settleOption defaults g o c = .ok (b, c')) :
    o.Settles defaults (g.occurrences o.key) b := by
  unfold settleOption at h
  cases hpayloads : g.occurrences o.key with
  | nil =>
    rw [hpayloads] at h
    exact settles_of_settleAbsent h
  | cons first rest =>
    simp only [hpayloads] at h
    split_ifs at h with hrecurs hflag
    · obtain ⟨rfl, -⟩ := losing_pure_ok_iff.1 h
      exact .counted (by simp) hrecurs hflag
    · rw [losing_bind_ok_iff] at h
      obtain ⟨entries, c₁, hentries, h⟩ := h
      obtain ⟨rfl, -⟩ := losing_pure_ok_iff.1 h
      exact .listed (by simp) hrecurs (by simpa using hflag)
        (Claiming.forall₂_of_mapM (fun _ _ _ _ => Claiming.enters_of_entry) hentries)
    · rw [losing_bind_ok_iff] at h
      obtain ⟨entry, c₁, hentry, h⟩ := h
      obtain ⟨rfl, -⟩ := losing_pure_ok_iff.1 h
      exact .single (by simpa using hrecurs) (Claiming.enters_of_entry hentry)

theorem settles_of_settlePositional {p : Parameter} {slot : Slot Payload} {b : Binding}
    (h : settlePositional p slot c = .ok (b, c')) : p.Settles slot b := by
  simp only [settlePositional, losing_bind_ok_iff, losing_pure_ok_iff] at h
  obtain ⟨entries, c₁, hentries, rfl, rfl⟩ := h
  exact ⟨entries, Claiming.rel_of_slot_mapM (fun _ _ _ _ => Claiming.enters_of_entry) hentries, rfl⟩

theorem defaults_of_settleDefault {p : Parameter} {b : Option Binding}
    (h : settleDefault defaults p c = .ok (b, c')) : p.Defaults defaults b := by
  unfold settleDefault at h
  cases hdefault : defaults.get? p.key with
  | none =>
    obtain ⟨rfl, rfl⟩ := by simpa [hdefault] using h
    exact .unbound hdefault
  | some d =>
    simp only [hdefault, losing_bind_ok_iff, losing_pure_ok_iff] at h
    obtain ⟨value, c₁, hvalue, rfl, rfl⟩ := h
    exact .defaulted hdefault (Claiming.gives_of_default hvalue)

end Invocation

/-- The bindings of a usage for what was gathered: those of its options, of the positionals that the
arrangement deals a value, and of the others. -/
structure Settled (u : Usage) (defaults : Dict DefaultValue) (g : Gathered)
    (arranged : List (Parameter × Slot Payload)) (options positionals defaulted : List Binding) :
    Prop where
  of_options : ∃ found, List.Forall₂ (fun o => o.Settles defaults (g.occurrences o.key))
    u.options found ∧ options = found.reduceOption
  of_arrangement : u.layout.arrange g.positionals = .ok arranged
  of_positionals : List.Forall₂ (fun s b => s.1.Settles s.2 b) arranged positionals
  of_defaults : ∃ found, List.Forall₂ (Parameter.Defaults defaults)
    (u.layout.parameters.filter fun p => !(options ++ positionals).any (·.key = p.key)) found ∧
    defaulted = found.reduceOption

namespace Invocation

variable {defaults : Dict DefaultValue} {g : Gathered} {c c' : Option String}

/-- Settling is settling the options, what the arrangement deals, and the defaults of the other
positionals, once no default is for another parameter. -/
theorem settle_ok_iff {u : Usage} {bindings : List Binding} :
    settle u defaults g c = .ok (bindings, c') ↔
      defaults.keys.find? (isStray u) = none ∧
      ∃ options c₁ arranged positionals c₂ defaulted,
        u.options.filterMapM (settleOption defaults g) c = .ok (options, c₁) ∧
        u.layout.arrange g.positionals = .ok arranged ∧
        (arranged.mapM fun (p, slot) => settlePositional p slot) c₁ = .ok (positionals, c₂) ∧
        (u.layout.parameters.filter fun p =>
            !(options ++ positionals).any (·.key = p.key)).filterMapM (settleDefault defaults) c₂ =
          .ok (defaulted, c') ∧
        bindings = options ++ positionals ++ defaulted := by
  unfold settle
  cases hstray : defaults.keys.find? (isStray u) with
  | some key => simp
  | none =>
    simp only [losing_bind_ok_iff, true_and]
    constructor
    · rintro ⟨options, c₁, hoptions, h⟩
      cases harrange : u.layout.arrange g.positionals with
      | error e => simp [harrange] at h
      | ok arranged =>
        simp only [harrange, losing_bind_ok_iff, losing_pure_ok_iff] at h
        obtain ⟨_, _, ⟨rfl, rfl⟩, positionals, c₂, hpositionals, defaulted, c₃, hdefaulted, rfl, rfl⟩ :=
          h
        exact ⟨options, _, _, positionals, c₂, defaulted, hoptions, rfl, hpositionals, hdefaulted, rfl⟩
    · rintro ⟨options, c₁, arranged, positionals, c₂, defaulted, hoptions, harrange, hpositionals,
        hdefaulted, rfl⟩
      refine ⟨options, c₁, hoptions, ?_⟩
      simp only [harrange, losing_bind_ok_iff, losing_pure_ok_iff]
      exact ⟨arranged, c₁, ⟨rfl, rfl⟩, positionals, c₂, hpositionals, defaulted, c', hdefaulted, rfl,
        rfl⟩

theorem settled_of_steps {u : Usage} {options positionals defaulted : List Binding}
    {arranged : List (Parameter × Slot Payload)} {c₁ c₂ : Option String}
    (hoptions : u.options.filterMapM (settleOption defaults g) c = .ok (options, c₁))
    (harrange : u.layout.arrange g.positionals = .ok arranged)
    (hpositionals : (arranged.mapM fun (p, slot) => settlePositional p slot) c₁ =
      .ok (positionals, c₂))
    (hdefaulted : (u.layout.parameters.filter fun p =>
        !(options ++ positionals).any (·.key = p.key)).filterMapM (settleDefault defaults) c₂ =
      .ok (defaulted, c')) :
    Settled u defaults g arranged options positionals defaulted where
  of_options := Claiming.forall₂_of_filterMapM (fun _ _ _ _ => settles_of_settleOption) hoptions
  of_arrangement := harrange
  of_positionals :=
    Claiming.forall₂_of_mapM (fun _ _ _ _ => settles_of_settlePositional) hpositionals
  of_defaults :=
    Claiming.forall₂_of_filterMapM (fun _ _ _ _ => defaults_of_settleDefault) hdefaulted

/-- **Settling comes to the bindings of the usage.** -/
theorem settled_of_settle {u : Usage} {bindings : List Binding}
    (h : settle u defaults g c = .ok (bindings, c')) :
    ∃ arranged options positionals defaulted,
      Settled u defaults g arranged options positionals defaulted ∧
      bindings = options ++ positionals ++ defaulted := by
  obtain ⟨-, options, c₁, arranged, positionals, c₂, defaulted, hoptions, harrange, hpositionals,
    hdefaulted, rfl⟩ := settle_ok_iff.1 h
  exact ⟨arranged, options, positionals, defaulted,
    settled_of_steps hoptions harrange hpositionals hdefaulted, rfl⟩

end Invocation

/-! ## Keys -/

theorem positionalKey_injective {i j : Nat} (h : positionalKey i = positionalKey j) : i = j := by
  have hrepr : (i + 1).repr = (j + 1).repr := String.append_right_inj _ |>.1 h
  exact Nat.succ_injective (Nat.repr_injective hrepr)

theorem dollar_mem_positionalKey (i : Nat) : '$' ∈ (positionalKey i).toList := by
  simp [positionalKey]

theorem IsOptionKey.ne_positionalKey {key : String} (h : IsOptionKey key) (i : Nat) :
    key ≠ positionalKey i :=
  h.ne (dollar_mem_positionalKey i) (by decide)

theorem positionalKey_ne_tailKey (i : Nat) : positionalKey i ≠ tailKey := by
  intro h
  have := dollar_mem_positionalKey i
  rw [h] at this
  revert this
  decide

theorem OptionSpec.Settles.key_eq {defaults : Dict DefaultValue} {o : OptionSpec}
    {payloads : List Payload} {b : Binding} (h : o.Settles defaults payloads (some b)) :
    b.key = o.key := by
  cases h <;> rfl

theorem OptionSpec.Settles.type_eq {defaults : Dict DefaultValue} {o : OptionSpec}
    {payloads : List Payload} {b : Binding} (h : o.Settles defaults payloads (some b)) :
    b.type = o.type := by
  cases h <;> rfl

theorem OptionSpec.Settles.not_some {defaults : Dict DefaultValue} {o : OptionSpec}
    {payloads : List Payload} {b : Binding} (h : o.Settles defaults payloads none) :
    ¬o.Settles defaults payloads (some b) := by
  intro h'
  cases h with
  | unbound hnone hrecurs =>
    cases h' with
    | counted hne => exact hne rfl
    | listed hne => exact hne rfl
    | defaulted hdefault => simp [hnone] at hdefault
    | nothing _ hrecurs' => simp [hrecurs] at hrecurs'

theorem OptionSpec.Settles.explicit_iff {defaults : Dict DefaultValue} {o : OptionSpec}
    {payloads : List Payload} {b : Binding} (h : o.Settles defaults payloads (some b)) :
    b.explicit ↔ payloads ≠ [] := by
  cases h with
  | counted hne => exact iff_of_true rfl hne
  | listed hne => exact iff_of_true rfl hne
  | single => exact iff_of_true rfl (List.cons_ne_nil _ _)
  | defaulted => simp [OptionSpec.binding]
  | nothing => simp [OptionSpec.binding]

theorem Parameter.Settles.key_eq {p : Parameter} {slot : Slot Payload} {b : Binding}
    (h : p.Settles slot b) : b.key = p.key := by
  obtain ⟨entries, -, rfl⟩ := h
  rfl

theorem Parameter.Defaults.key_eq {defaults : Dict DefaultValue} {p : Parameter} {b : Binding}
    (h : p.Defaults defaults (some b)) : b.key = p.key := by
  cases h
  rfl

/-- The items found keep the order of those they are found for. -/
theorem sublist_map_reduceOption {α β κ : Type} {R : α → Option β → Prop} {f : α → κ} {g : β → κ}
    {as : List α} {found : List (Option β)} (hf : ∀ a b, R a (some b) → g b = f a)
    (h : List.Forall₂ R as found) : (found.reduceOption.map g).Sublist (as.map f) := by
  induction h with
  | nil => exact List.Sublist.refl _
  | @cons a b as found hab _ ih =>
    cases b with
    | none => exact ih.cons _
    | some b =>
      rw [List.reduceOption_cons_of_some, List.map_cons, List.map_cons, hf a b hab]
      exact ih.cons_cons _

/-- What the keys of a usage are: those of its options are distinct and none is of a positional. -/
structure Usage.Keyed (u : Usage) : Prop where
  distinct : (u.options.map OptionSpec.key).Nodup
  optionKeys : ∀ o ∈ u.options, IsOptionKey o.key
  fits : u.layout.Fits u.terms

theorem Usage.keyed_of_compile {text : String} {r r' : Registry} {u : Usage}
    (h : compile text r = .ok u r') : u.Keyed :=
  ⟨keys_nodup_of_compile h, fun _ => isOptionKey_of_compile h, fits_of_compile h⟩

namespace Settled

variable {u : Usage} {defaults : Dict DefaultValue} {g : Gathered}
  {arranged : List (Parameter × Slot Payload)} {options positionals defaulted : List Binding}

theorem key_positionals (h : Settled u defaults g arranged options positionals defaulted) :
    positionals.map Binding.key = arranged.map fun s => s.1.key := by
  have hpositionals := h.of_positionals
  clear h
  induction hpositionals with
  | nil => rfl
  | cons hb _ ih => rw [List.map_cons, List.map_cons, hb.key_eq, ih]

theorem key_options (h : Settled u defaults g arranged options positionals defaulted) :
    (options.map Binding.key).Sublist (u.options.map OptionSpec.key) := by
  obtain ⟨found, hfound, rfl⟩ := h.of_options
  exact sublist_map_reduceOption (fun o b hb => hb.key_eq) hfound

theorem key_defaulted (h : Settled u defaults g arranged options positionals defaulted) :
    (defaulted.map Binding.key).Sublist
      ((u.layout.parameters.filter fun p =>
        !(options ++ positionals).any (·.key = p.key)).map Parameter.key) := by
  obtain ⟨found, hfound, rfl⟩ := h.of_defaults
  exact sublist_map_reduceOption (fun p b hb => hb.key_eq) hfound

/-- **No two bindings have one key.** -/
theorem nodup (h : Settled u defaults g arranged options positionals defaulted) (hu : u.Keyed) :
    ((options ++ positionals ++ defaulted).map Binding.key).Nodup := by
  obtain ⟨-, hassigns, -⟩ := Layout.arrange_sound hu.fits h.of_arrangement
  have hparameters : (u.layout.parameters.map Parameter.key).Nodup := by
    refine List.pairwise_map.2 (hu.fits.pairwise_index.imp fun hlt heq => ?_)
    exact hlt.ne (positionalKey_injective heq)
  have harranged : (arranged.map fun s => s.1.key).Nodup := by
    refine List.pairwise_map.2 (hassigns.ordered.imp fun hlt heq => ?_)
    exact hlt.ne (positionalKey_injective heq)
  rw [List.map_append, List.nodup_append]
  refine ⟨?_, h.key_defaulted.nodup (hparameters.sublist (List.filter_sublist.map _)), ?_⟩
  · rw [List.map_append, List.nodup_append]
    refine ⟨hu.distinct.sublist h.key_options, h.key_positionals ▸ harranged, ?_⟩
    -- the key of an option is not that of a positional
    intro key hkey key' hkey'
    obtain ⟨o, ho, rfl⟩ := List.mem_map.1 (h.key_options.subset hkey)
    rw [h.key_positionals] at hkey'
    obtain ⟨s, -, rfl⟩ := List.mem_map.1 hkey'
    exact (hu.optionKeys o ho).ne_positionalKey _
  · -- a positional is defaulted only where its key is not bound
    intro key hkey key' hkey' heq
    obtain ⟨b, hb, rfl⟩ := List.mem_map.1 hkey
    obtain ⟨p, hp, rfl⟩ := List.mem_map.1 (h.key_defaulted.subset hkey')
    have hnone := (List.mem_filter.1 hp).2
    rw [Bool.not_eq_true', List.any_eq_false] at hnone
    exact hnone b hb (by simpa using heq)

/-! ### Whose binding it is -/

theorem of_mem_options (h : Settled u defaults g arranged options positionals defaulted)
    {b : Binding} (hb : b ∈ options) :
    ∃ o ∈ u.options, o.Settles defaults (g.occurrences o.key) (some b) := by
  obtain ⟨found, hfound, rfl⟩ := h.of_options
  obtain ⟨o, ho, hsettles⟩ := exists_of_forall₂_right hfound (List.reduceOption_mem_iff.1 hb)
  exact ⟨o, ho, hsettles⟩

theorem of_mem_positionals (h : Settled u defaults g arranged options positionals defaulted)
    {b : Binding} (hb : b ∈ positionals) : ∃ s ∈ arranged, s.1.Settles s.2 b :=
  exists_of_forall₂_right h.of_positionals hb

theorem of_mem_defaulted (h : Settled u defaults g arranged options positionals defaulted)
    {b : Binding} (hb : b ∈ defaulted) :
    ∃ p ∈ u.layout.parameters, p.Defaults defaults (some b) := by
  obtain ⟨found, hfound, rfl⟩ := h.of_defaults
  obtain ⟨p, hp, hdefaults⟩ := exists_of_forall₂_right hfound (List.reduceOption_mem_iff.1 hb)
  exact ⟨p, (List.mem_filter.1 hp).1, hdefaults⟩

/-- A binding is that of an option, or of a positional that is dealt a value or has a default. -/
theorem mem_cases (h : Settled u defaults g arranged options positionals defaulted) {b : Binding}
    (hb : b ∈ options ++ positionals ++ defaulted) :
    (∃ o ∈ u.options, o.Settles defaults (g.occurrences o.key) (some b)) ∨
      (∃ s ∈ arranged, s.1.Settles s.2 b) ∨
      ∃ p ∈ u.layout.parameters, p.Defaults defaults (some b) := by
  rcases List.mem_append.1 hb with hb | hb
  · rcases List.mem_append.1 hb with hb | hb
    · exact Or.inl (h.of_mem_options hb)
    · exact Or.inr (Or.inl (h.of_mem_positionals hb))
  · exact Or.inr (Or.inr (h.of_mem_defaulted hb))

theorem key_cases (h : Settled u defaults g arranged options positionals defaulted) {b : Binding}
    (hb : b ∈ options ++ positionals ++ defaulted) :
    (∃ o ∈ u.options, b.key = o.key) ∨ ∃ i, b.key = positionalKey i := by
  rcases h.mem_cases hb with ⟨o, ho, hsettles⟩ | ⟨s, -, hsettles⟩ | ⟨p, -, hdefaults⟩
  · exact Or.inl ⟨o, ho, hsettles.key_eq⟩
  · exact Or.inr ⟨_, hsettles.key_eq⟩
  · exact Or.inr ⟨_, hdefaults.key_eq⟩

/-- What an option settles to is its binding; an option that settles to none has none. -/
theorem of_option (h : Settled u defaults g arranged options positionals defaulted) (hu : u.Keyed)
    {o : OptionSpec} (ho : o ∈ u.options) :
    ∃ found, o.Settles defaults (g.occurrences o.key) found ∧
      (∀ b, found = some b → b ∈ options ++ positionals ++ defaulted) ∧
      (found = none → ∀ b ∈ options ++ positionals ++ defaulted, b.key ≠ o.key) := by
  obtain ⟨all, hall, hoptions⟩ := h.of_options
  obtain ⟨found, hfound, hsettles⟩ := exists_of_forall₂_left hall ho
  refine ⟨found, hsettles, ?_, ?_⟩
  · rintro b rfl
    have hb : b ∈ options := hoptions ▸ List.reduceOption_mem_iff.2 hfound
    exact List.mem_append_left _ (List.mem_append_left _ hb)
  · rintro rfl b hb heq
    rcases h.mem_cases hb with ⟨o', ho', hsettles'⟩ | ⟨s, -, hsettles'⟩ | ⟨p, -, hdefaults⟩
    · obtain rfl := List.inj_on_of_nodup_map hu.distinct ho' ho (hsettles'.key_eq.symm.trans heq)
      exact hsettles.not_some hsettles'
    · exact (hu.optionKeys o ho).ne_positionalKey _ (heq.symm.trans hsettles'.key_eq)
    · exact (hu.optionKeys o ho).ne_positionalKey _ (heq.symm.trans hdefaults.key_eq)

/-- The positionals that are supplied are those that the arrangement deals a value. -/
theorem supplied_iff (h : Settled u defaults g arranged options positionals defaulted)
    (hu : u.Keyed) {p : Parameter} (hp : p ∈ u.layout.parameters) :
    (∃ b ∈ options ++ positionals ++ defaulted, b.explicit ∧ b.key = p.key) ↔
      p ∈ arranged.map (·.1) := by
  obtain ⟨-, hassigns, -⟩ := Layout.arrange_sound hu.fits h.of_arrangement
  constructor
  · rintro ⟨b, hb, hexplicit, heq⟩
    rcases h.mem_cases hb with ⟨o, ho, hsettles⟩ | ⟨s, hs, hsettles⟩ | ⟨p', -, hdefaults⟩
    · exact absurd (hsettles.key_eq.symm.trans heq) ((hu.optionKeys o ho).ne_positionalKey _)
    · have hindex := positionalKey_injective (hsettles.key_eq.symm.trans heq)
      rw [← hu.fits.index_injective (hassigns.shaped s hs).1 hp hindex]
      exact List.mem_map_of_mem hs
    · cases hdefaults
      simp [Parameter.binding] at hexplicit
  · intro hmem
    obtain ⟨s, hs, rfl⟩ := List.mem_map.1 hmem
    obtain ⟨b, hb, hsettles⟩ := exists_of_forall₂_left h.of_positionals hs
    refine ⟨b, by simp [hb], ?_, hsettles.key_eq⟩
    obtain ⟨entries, -, rfl⟩ := hsettles
    rfl

theorem bound_of_default (h : Settled u defaults g arranged options positionals defaulted)
    {p : Parameter} (hp : p ∈ u.layout.parameters) (hdefault : (defaults.get? p.key).isSome) :
    ∃ b ∈ options ++ positionals ++ defaulted, b.key = p.key := by
  by_cases hbound : (options ++ positionals).any (·.key = p.key)
  · obtain ⟨b, hb, heq⟩ := List.any_eq_true.1 hbound
    exact ⟨b, List.mem_append_left _ hb, by simpa using heq⟩
  · obtain ⟨found, hfound, hdefaulted⟩ := h.of_defaults
    have hunbound : p ∈ u.layout.parameters.filter fun p =>
        !(options ++ positionals).any (·.key = p.key) :=
      List.mem_filter.2 ⟨hp, by simpa using hbound⟩
    obtain ⟨b, hb, hdefaults⟩ := exists_of_forall₂_left hfound hunbound
    cases b with
    | none =>
      cases hdefaults with
      | unbound hnone => simp [hnone] at hdefault
    | some b =>
      refine ⟨b, List.mem_append_right _ ?_, hdefaults.key_eq⟩
      rw [hdefaulted]
      exact List.reduceOption_mem_iff.2 hb

theorem bound_iff (h : Settled u defaults g arranged options positionals defaulted)
    (hu : u.Keyed) {p : Parameter} (hp : p ∈ u.layout.parameters) :
    (∃ b ∈ options ++ positionals ++ defaulted, b.key = p.key) ↔
      p ∈ arranged.map (·.1) ∨ (defaults.get? p.key).isSome := by
  constructor
  · rintro ⟨b, hb, heq⟩
    by_cases hexplicit : b.explicit
    · exact Or.inl ((h.supplied_iff hu hp).1 ⟨b, hb, hexplicit, heq⟩)
    rcases h.mem_cases hb with ⟨o, ho, hsettles⟩ | ⟨s, -, entries, -, rfl⟩ | ⟨p', -, hdefaults⟩
    · exact absurd (hsettles.key_eq.symm.trans heq) ((hu.optionKeys o ho).ne_positionalKey _)
    · exact absurd rfl hexplicit
    · have hkey : p'.key = p.key := hdefaults.key_eq.symm.trans heq
      cases hdefaults with
      | defaulted hdefault => exact Or.inr (by rw [← hkey, hdefault]; rfl)
  · rintro (hmem | hdefault)
    · obtain ⟨b, hb, -, heq⟩ := (h.supplied_iff hu hp).2 hmem
      exact ⟨b, hb, heq⟩
    exact h.bound_of_default hp hdefault

end Settled

end Synopsis
