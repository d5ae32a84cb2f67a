import Synopsis.Proofs.Aliases
import Synopsis.Proofs.Checks

/-!
# Defaults do not reach what is supplied

A host gives defaults to the parameters of a usage, by key. An invocation supplies a parameter if the
option with its key occurs, or if it is a positional that is dealt one of the values fed
(`Usage.Supplies`).

**Theorem (`Usage.defaults_confined`).** Two hosts that give the same defaults to all parameters that
are not supplied see the same: the same environment, or the same error, after the same evaluations.
And a default makes no key explicit, nor any alias of it.

**Why.** Defaults are read in two places, for options that do not occur and for positionals that no
binding has the key of. What is settled does not depend on any other default (`settle_of_agree`), and
all that follows depends on what is settled only. What is fed is gathered without a look at the
defaults (`Invocation.offerAll_eq`).

The key of an option may be an alias of a positional. If the positional is not supplied, the key is
explicit where the option occurs, and by nothing else.
-/

namespace Synopsis

/-! ## What is fed -/

/-- What is gathered after an occurrence was offered: a refused one leaves it as it was. -/
def Gathered.offer (g : Gathered) (u : Usage) (occurrence : Occurrence) : Gathered :=
  match g.add u occurrence with
  | .ok g' => g'
  | .error _ => g

/-- What a usage gathers of the occurrences that it is offered. -/
def Usage.gather (u : Usage) (occurrences : List Occurrence) : Gathered :=
  occurrences.foldl (fun g occurrence => g.offer u occurrence) {}

namespace Invocation

/-- The invocation after an occurrence was offered: a refused one leaves it as it was. -/
def offer (inv : Invocation) (occurrence : Occurrence) : Invocation :=
  match inv.feed occurrence with
  | .ok inv' => inv'
  | .error _ => inv

/-- The invocation after some occurrences were offered. -/
def offerAll (inv : Invocation) (occurrences : List Occurrence) : Invocation :=
  occurrences.foldl offer inv

theorem offer_eq (u : Usage) (defaults : Dict DefaultValue) (g : Gathered)
    (occurrence : Occurrence) :
    ({ usage := u, defaults, gathered := some g } : Invocation).offer occurrence =
      { usage := u, defaults, gathered := some (g.offer u occurrence) } := by
  unfold offer feed Gathered.offer
  cases hadd : g.add u occurrence with
  | ok g' => simp [hadd]
  | error e => simp [hadd, bind, Except.bind]

/-- **What is gathered does not depend on the defaults.** -/
theorem offerAll_eq (u : Usage) (defaults : Dict DefaultValue) (occurrences : List Occurrence) :
    ({ usage := u, defaults } : Invocation).offerAll occurrences =
      { usage := u, defaults, gathered := some (u.gather occurrences) } := by
  have hfold (g : Gathered) :
      ({ usage := u, defaults, gathered := some g } : Invocation).offerAll occurrences =
        { usage := u, defaults
          gathered := some (occurrences.foldl (fun g occurrence => g.offer u occurrence) g) } := by
    unfold offerAll
    induction occurrences generalizing g with
    | nil => rfl
    | cons occurrence occurrences ih =>
      rw [List.foldl_cons, List.foldl_cons, offer_eq, ih]
  exact hfold {}

end Invocation

/-! ## What is supplied -/

namespace Usage

/-- An option or a positional of the usage has the key. -/
def HasKey (u : Usage) (key : String) : Prop :=
  (∃ o ∈ u.options, o.key = key) ∨ ∃ p ∈ u.layout.parameters, p.key = key

/-- An option with the key occurs in what was gathered, or a positional with the key is dealt one of
the values. -/
def Supplies (u : Usage) (g : Gathered) (key : String) : Prop :=
  (∃ o ∈ u.options, o.key = key ∧ g.occurrences key ≠ []) ∨
    ∃ p ∈ u.layout.parameters, p.key = key ∧ u.Deals g.positionals p

/-- Two hosts give the same defaults, for parameters of the usage only, to all that is not
supplied. -/
structure Agree (u : Usage) (g : Gathered) (d d' : Dict DefaultValue) : Prop where
  known : ∀ key, (d.get? key).isSome → u.HasKey key
  known' : ∀ key, (d'.get? key).isSome → u.HasKey key
  same : ∀ key, ¬u.Supplies g key → d.get? key = d'.get? key

variable {u : Usage} {g : Gathered} {d d' : Dict DefaultValue}

theorem supplies_option_iff (hu : u.Keyed) {o : OptionSpec} (ho : o ∈ u.options) :
    u.Supplies g o.key ↔ g.occurrences o.key ≠ [] := by
  constructor
  · rintro (⟨-, -, -, hne⟩ | ⟨p, -, heq, -⟩)
    · exact hne
    · exact absurd heq.symm ((hu.optionKeys o ho).ne_positionalKey _)
  · intro hne
    exact Or.inl ⟨o, ho, rfl, hne⟩

theorem supplies_positional_iff (hu : u.Keyed) {p : Parameter} (hp : p ∈ u.layout.parameters) :
    u.Supplies g p.key ↔ u.Deals g.positionals p := by
  constructor
  · rintro (⟨o, ho, heq, -⟩ | ⟨q, hq, heq, hdeals⟩)
    · exact absurd heq ((hu.optionKeys o ho).ne_positionalKey _)
    · rwa [← hu.fits.index_injective hq hp (positionalKey_injective heq)]
  · intro hdeals
    exact Or.inr ⟨p, hp, rfl, hdeals⟩

end Usage

/-! ## Two runs -/

theorem losing_bind_congr {α β : Type} {x : Claiming α} {f f' : α → Claiming β} {c : Option String}
    (h : ∀ a c', x c = .ok (a, c') → f a c' = f' a c') : (x >>= f) c = (x >>= f') c := by
  show (x c >>= fun s => f s.1 s.2) = (x c >>= fun s => f' s.1 s.2)
  cases hx : x c with
  | error e => rfl
  | ok s => exact h s.1 s.2 hx

theorem filterMapM_congr {m : Type → Type} [Monad m] [LawfulMonad m] {α β : Type}
    {f f' : α → m (Option β)} {as : List α} (h : ∀ a ∈ as, f a = f' a) :
    as.filterMapM f = as.filterMapM f' := by
  induction as with
  | nil => rfl
  | cons a as ih =>
    rw [List.forall_mem_cons] at h
    rw [List.filterMapM_cons, List.filterMapM_cons, h.1, ih h.2]

namespace Invocation

variable {u : Usage} {g : Gathered} {d d' : Dict DefaultValue}

/-- An option that occurs is settled without a look at the defaults. -/
theorem settleOption_congr {o : OptionSpec}
    (h : g.occurrences o.key = [] → d.get? o.key = d'.get? o.key) :
    settleOption d g o = settleOption d' g o := by
  unfold settleOption
  cases hoccurrences : g.occurrences o.key with
  | nil =>
    show settleAbsent d o = settleAbsent d' o
    unfold settleAbsent
    rw [h hoccurrences]
  | cons first rest => rfl

/-- **What is settled does not depend on the defaults of what is supplied.** -/
theorem settle_of_agree (hu : u.Keyed) (h : u.Agree g d d') : settle u d g = settle u d' g := by
  have hnone := (find?_isStray_eq_none_iff u d).2 h.known
  have hnone' := (find?_isStray_eq_none_iff u d').2 h.known'
  have hoptions : u.options.filterMapM (settleOption d g) =
      u.options.filterMapM (settleOption d' g) :=
    filterMapM_congr fun o ho => settleOption_congr fun hoccurrences =>
      h.same o.key fun hsupplied => (Usage.supplies_option_iff hu ho).1 hsupplied hoccurrences
  funext c
  unfold settle
  rw [hnone, hnone', hoptions]
  refine losing_bind_congr fun options c₁ _ => ?_
  cases harrange : u.layout.arrange g.positionals with
  | error e => rfl
  | ok arranged =>
    refine losing_bind_congr fun dealt c₂ hpure => ?_
    obtain ⟨rfl, -⟩ := losing_pure_ok_iff.1 hpure
    refine losing_bind_congr fun positionals c₃ hpositionals => ?_
    -- a positional that is dealt a value has a binding of its key
    have hdefaults : ∀ p ∈ u.layout.parameters.filter fun p =>
        !(options ++ positionals).any (·.key = p.key), settleDefault d p = settleDefault d' p := by
      intro p hp
      obtain ⟨hp, hunbound⟩ := List.mem_filter.1 hp
      have hunsupplied : ¬u.Supplies g p.key := by
        rw [Usage.supplies_positional_iff hu hp]
        rintro ⟨slots, hslots, hmem⟩
        obtain rfl := Except.ok.inj (harrange.symm.trans hslots)
        obtain ⟨s, hs, rfl⟩ := List.mem_map.1 hmem
        have hsettles : List.Forall₂ (fun s b => s.1.Settles s.2 b) dealt positionals :=
          Claiming.forall₂_of_mapM (fun _ _ _ _ => settles_of_settlePositional) hpositionals
        obtain ⟨b, hb, hsettled⟩ := exists_of_forall₂_left hsettles hs
        rw [Bool.not_eq_true', List.any_eq_false] at hunbound
        exact hunbound b (List.mem_append_right _ hb) (by simpa using hsettled.key_eq)
      unfold settleDefault
      rw [h.same p.key hunsupplied]
    rw [filterMapM_congr hdefaults]

/-- **Hosts that agree see the same outcome.** -/
theorem outcome_of_agree (hu : u.Keyed) (h : u.Agree g d d') (evaluator : Evaluator) :
    ({ usage := u, defaults := d } : Invocation).outcome g evaluator =
      ({ usage := u, defaults := d' } : Invocation).outcome g evaluator := by
  unfold outcome
  rw [settle_of_agree hu h]

end Invocation

/-! ## Marks -/

namespace Published

variable {u : Usage} {defaults : Dict DefaultValue} {g : Gathered} {evaluator : Evaluator}
  {arranged : List (Parameter × Slot Payload)} {options positionals defaulted : List Binding}
  {values : Dict Value} {explicit : List String}

theorem supplies_of_mem (h : Published u defaults g evaluator arranged options positionals defaulted
    values explicit) (hu : u.Keyed) {key : String} (hkey : key ≠ tailKey) (hmem : key ∈ explicit) :
    u.Supplies g key := by
  obtain ⟨b, hb, hexplicit, rfl⟩ := (h.supplied key hkey).1 hmem
  rcases h.settled.mem_cases hb with ⟨o, ho, hsettles⟩ | ⟨s, hs, hsettles⟩ | ⟨p, -, hdefaults⟩
  · rw [hsettles.key_eq]
    exact Or.inl ⟨o, ho, rfl, hsettles.explicit_iff.1 hexplicit⟩
  · obtain ⟨-, hassigns, -⟩ := Layout.arrange_sound hu.fits h.settled.of_arrangement
    rw [hsettles.key_eq]
    exact Or.inr ⟨s.1, (hassigns.shaped s hs).1, rfl, arranged, h.settled.of_arrangement,
      List.mem_map_of_mem hs⟩
  · cases hdefaults
    simp [Parameter.binding] at hexplicit

end Published

namespace Usage

variable {text : String} {r r' : Registry} {u : Usage}

/-- **Defaults cannot influence what was supplied.** Whatever a usage is offered, hosts that agree on
all that is not supplied see the same outcome. Where it is an environment, an option that does not
occur is not explicit if it has a default, the host's or its own. A positional that is not supplied
is not explicit either, and neither is an alias of it, unless it is the key of an option that
occurs. -/
theorem defaults_confined (hr : Registry.Reachable r) (h : compile text r = .ok u r')
    (occurrences : List Occurrence) (evaluator : Evaluator) :
    (∀ d d', u.Agree (u.gather occurrences) d d' →
      ((({ usage := u, defaults := d } : Invocation).offerAll occurrences).finish evaluator).1 =
        ((({ usage := u, defaults := d' } : Invocation).offerAll occurrences).finish
          evaluator).1) ∧
    ∀ d env,
      ((({ usage := u, defaults := d } : Invocation).offerAll occurrences).finish
        evaluator).1.result = .ok env →
      (∀ o ∈ u.options, ¬u.Supplies (u.gather occurrences) o.key → (o.default? d).isSome →
        env.isExplicit o.key = false) ∧
      ∀ p ∈ u.layout.parameters, ¬u.Supplies (u.gather occurrences) p.key →
        env.isExplicit p.key = false ∧
        ∀ key ∈ p.aliases, env.isExplicit key →
          ∃ o ∈ u.options, o.key = key ∧ (u.gather occurrences).occurrences key ≠ [] := by
  have hu := keyed_of_compile h
  have hl := aliased_of_compile h
  simp only [Invocation.offerAll_eq]
  refine ⟨fun d d' hagree => Invocation.outcome_of_agree hu hagree evaluator, fun d env henv => ?_⟩
  obtain ⟨arranged, options, positionals, defaulted, values, explicit, hpublished, rfl⟩ :=
    Invocation.published_of_outcome hu henv
  refine ⟨fun o ho hunsupplied hdefault => ?_, fun p hp hunsupplied => ⟨?_, fun key hkey hmark => ?_⟩⟩
  · rw [supplies_option_iff hu ho] at hunsupplied
    have hown := (hpublished.own hu ho (Or.inr (Or.inl hdefault))).1
    rw [← Bool.not_eq_true, hown]
    exact hunsupplied
  · rw [← Bool.not_eq_true, Invocation.isExplicit_publish]
    rintro (hmem | ⟨-, q, hq, halias, -⟩)
    · exact hunsupplied (hpublished.supplies_of_mem hu (positionalKey_ne_tailKey _) hmem)
    · exact (ne_of_mem_aliases hr h hq halias).2.2 p.index rfl
  · obtain ⟨-, htail, hnumber⟩ := ne_of_mem_aliases hr h hp hkey
    rw [Invocation.isExplicit_publish] at hmark
    rcases hmark with hmem | ⟨-, q, hq, halias, hmem, -⟩
    · rcases hpublished.supplies_of_mem hu htail hmem with hoption | ⟨q, -, heq, -⟩
      · exact hoption
      · exact absurd heq.symm (hnumber q.index)
    · obtain rfl := hl q hq p hp key halias hkey
      exact absurd (hpublished.supplies_of_mem hu (positionalKey_ne_tailKey _) hmem) hunsupplied

/-- Two hosts differ in the default of an option that occurs, and give one to a positional. -/
theorem defaults_confined_jobs :
    ∃ u r' d d' env occurrences, compile "[--jobs=INT] [STR]" Registry.standard = .ok u r' ∧
      occurrences = [.named "jobs" "--jobs" (.text "3")] ∧
      d.get? "jobs" = some (.raw "1") ∧ d'.get? "jobs" = some (.raw "2") ∧
      u.Agree (u.gather occurrences) d d' ∧
      ((({ usage := u, defaults := d } : Invocation).offerAll occurrences).finish
          Evaluator.unsupported).1 =
        ((({ usage := u, defaults := d' } : Invocation).offerAll occurrences).finish
          Evaluator.unsupported).1 ∧
      ((({ usage := u, defaults := d } : Invocation).offerAll occurrences).finish
        Evaluator.unsupported).1.result = .ok env ∧
      ∃ p ∈ u.layout.parameters, (d.get? p.key).isSome ∧ (env.get? p.key).isSome ∧
        env.isExplicit p.key = false := by
  obtain ⟨u, r', hcompile, hsatisfied⟩ := exists_of_succeedsWith
    (compile "[--jobs=INT] [STR]" Registry.standard)
    (fun u _ => u.options.any (·.key = "jobs") && u.layout.parameters.any (·.key = "$1") &&
      !((u.gather [.named "jobs" "--jobs" (.text "3")]).occurrences "jobs").isEmpty &&
      (u.layout.arrange (u.gather [.named "jobs" "--jobs" (.text "3")]).positionals).toOption.any
        List.isEmpty &&
      ((({ usage := u
           defaults := (Dict.empty.insert "jobs" (.raw "1")).insert "$1" (.raw "x") } :
          Invocation).offerAll [.named "jobs" "--jobs" (.text "3")]).finish
        Evaluator.unsupported).1.result.toOption.any fun env => (env.get? "$1").isSome)
    (by decide +kernel)
  simp only [Bool.and_eq_true, List.any_eq_true, decide_eq_true_eq, Bool.not_eq_true',
    failing_any_toOption_iff] at hsatisfied
  obtain ⟨⟨⟨⟨⟨o, ho, hjobs⟩, p, hp, hnumber⟩, hoccurs⟩, slots, hslots, hempty⟩, env, henv, hget⟩ :=
    hsatisfied
  have hknown (text : String) (key : String)
      (hsome : (((Dict.empty.insert "jobs" (.raw text)).insert "$1" (.raw "x") :
        Dict DefaultValue).get? key).isSome) : u.HasKey key := by
    by_cases hp' : "$1" = key
    · exact Or.inr ⟨p, hp, hnumber.trans hp'⟩
    by_cases ho' : "jobs" = key
    · exact Or.inl ⟨o, ho, hjobs.trans ho'⟩
    simp [Dict.get?_insert, hp', ho'] at hsome
  have hagree : u.Agree (u.gather [.named "jobs" "--jobs" (.text "3")])
      ((Dict.empty.insert "jobs" (.raw "1")).insert "$1" (.raw "x"))
      ((Dict.empty.insert "jobs" (.raw "2")).insert "$1" (.raw "x")) := by
    refine ⟨hknown "1", hknown "2", fun key hunsupplied => ?_⟩
    have hne : "jobs" ≠ key := by
      rintro rfl
      exact hunsupplied (Or.inl ⟨o, ho, hjobs, fun hnil => by simp [hnil] at hoccurs⟩)
    simp [Dict.get?_insert, hne]
  have hunsupplied : ¬u.Supplies (u.gather [.named "jobs" "--jobs" (.text "3")]) p.key := by
    rw [supplies_positional_iff (keyed_of_compile hcompile) hp]
    rintro ⟨slots', hslots', hmem⟩
    rw [hslots'] at hslots
    obtain rfl := Except.ok.inj hslots
    simp [List.isEmpty_iff.1 hempty] at hmem
  obtain ⟨hsame, hmarks⟩ := defaults_confined Registry.reachable_standard hcompile
    [.named "jobs" "--jobs" (.text "3")] Evaluator.unsupported
  exact ⟨u, r', _, _, env, _, hcompile, rfl, by simp [Dict.get?_insert], by simp [Dict.get?_insert],
    hagree, hsame _ _ hagree, henv, p, hp, by simp [hnumber, Dict.get?_insert], hnumber ▸ hget,
    ((hmarks _ env henv).2 p hp hunsupplied).1⟩

end Usage

end Synopsis
