import Synopsis.Proofs.Answers
import Synopsis.Proofs.Invoking
import Synopsis.Proofs.Lookahead

/-!
# What an invocation depends on

Whether occurrences can be fed is decided option by option (`exists_fed_iff`), and so is what they
come to (`outcome_congr`). An invocation therefore depends on the positionals in their order, on the
occurrences of each option in theirs and on the tail, and not on how these are interleaved
(`Usage.invoke_congr`).
-/

namespace Synopsis

/-- What the occurrences carry for the option with a key. -/
def payloadsOf (key : String) (occurrences : List Occurrence) : List Payload :=
  occurrences.filterMap (Occurrence.payload? key)

theorem payloadsOf_append (key : String) (first second : List Occurrence) :
    payloadsOf key (first ++ second) = payloadsOf key first ++ payloadsOf key second :=
  List.filterMap_append

theorem length_filterMap_index? (occurrences : List Occurrence) :
    (occurrences.filterMap Occurrence.index?).length =
      (occurrences.filterMap Occurrence.positional?).length := by
  induction occurrences with
  | nil => rfl
  | cons occurrence occurrences ih =>
    cases occurrence <;>
      simpa [List.filterMap_cons, Occurrence.index?, Occurrence.positional?] using ih

/-- The numbers of positionals are consecutive if those of some first ones are, and the others go on
from there. -/
theorem numbered_append_iff {first second : List Occurrence} {n : Nat} :
    (first ++ second).filterMap Occurrence.index? =
        List.range' n ((first ++ second).filterMap Occurrence.positional?).length ↔
      first.filterMap Occurrence.index? =
          List.range' n (first.filterMap Occurrence.positional?).length ∧
        second.filterMap Occurrence.index? =
          List.range' (n + (first.filterMap Occurrence.positional?).length)
            (second.filterMap Occurrence.positional?).length := by
  rw [List.filterMap_append, List.filterMap_append, List.length_append, ← List.range'_append_1]
  constructor
  · intro hall
    exact List.append_inj hall (by rw [length_filterMap_index?, List.length_range'])
  · intro ⟨hfirst, hsecond⟩
    rw [hfirst, hsecond]

/-- No option occurs twice that may not repeat. -/
def Usage.Tolerates (u : Usage) (payloads : String → List Payload) : Prop :=
  ∀ key o, u.option? key = some o → o.recurs = false → (payloads key).length ≤ 1

theorem Usage.Tolerates.of_append {u : Usage} {first second : String → List Payload}
    (h : u.Tolerates fun key => first key ++ second key) : u.Tolerates first := by
  intro key o hoption hrecurs
  have hle := h key o hoption hrecurs
  rw [List.length_append] at hle
  omega

namespace Gathered

/-! ## What can be fed -/

/-- The occurrences can be fed: those of options are of known ones and tolerated, and positionals
come in order. -/
structure Admits (g : Gathered) (u : Usage) (occurrences : List Occurrence) : Prop where
  known : ∀ key, payloadsOf key occurrences ≠ [] → (u.option? key).isSome
  tolerated : u.Tolerates fun key => g.occurrences key ++ payloadsOf key occurrences
  numbered : occurrences.filterMap Occurrence.index? =
    List.range' g.positionals.length (occurrences.filterMap Occurrence.positional?).length

variable {u : Usage} {g g' : Gathered} {occurrence : Occurrence} {first second : List Occurrence}

theorem admits_nil (hg : u.Tolerates g.occurrences) : g.Admits u [] where
  known key h := absurd rfl h
  tolerated := by simpa [payloadsOf] using hg
  numbered := rfl

theorem Admits.of_append (h : g.Admits u (first ++ second)) : g.Admits u first := by
  refine ⟨fun key hkey => h.known key ?_, ?_, (numbered_append_iff.1 h.numbered).1⟩
  · simp [payloadsOf_append, hkey]
  · have htolerated := h.tolerated
    simp only [payloadsOf_append, ← List.append_assoc] at htolerated
    exact htolerated.of_append

theorem exists_add_named_iff {key spelling : String} {payload : Payload} :
    (∃ g', g.add u (.named key spelling payload) = .ok g') ↔
      ∃ o, u.option? key = some o ∧ (o.recurs = false → g.occurrences key = []) := by
  cases hoption : u.option? key with
  | none => simp [add, hoption]
  | some o =>
    cases hrecurs : o.recurs <;> by_cases hnone : g.occurrences key = [] <;>
      simp [add, hoption, hrecurs, hnone]

theorem exists_add_iff (hg : u.Tolerates g.occurrences) :
    (∃ g', g.add u occurrence = .ok g') ↔ g.Admits u [occurrence] := by
  have hunnamed (hnone : ∀ key, payloadsOf key [occurrence] = []) :
      u.Tolerates fun key => g.occurrences key ++ payloadsOf key [occurrence] := by
    simpa only [hnone, List.append_nil] using hg
  cases occurrence with
  | named key spelling payload =>
    rw [exists_add_named_iff]
    constructor
    · intro ⟨o, hoption, hnone⟩
      refine ⟨fun key' hkey => ?_, fun key' o' hoption' hrecurs => ?_, rfl⟩
      · by_cases heq : key = key'
        · rw [← heq, hoption]
          rfl
        · simp [payloadsOf, Occurrence.payload?, heq] at hkey
      · by_cases heq : key = key'
        · subst heq
          obtain rfl := Option.some_injective _ (hoption.symm.trans hoption')
          simp [payloadsOf, Occurrence.payload?, hnone hrecurs]
        · simpa [payloadsOf, Occurrence.payload?, heq] using hg key' o' hoption' hrecurs
    · intro h
      obtain ⟨o, hoption⟩ := Option.isSome_iff_exists.1
        (h.known key (by simp [payloadsOf, Occurrence.payload?]))
      refine ⟨o, hoption, fun hrecurs => ?_⟩
      simpa [payloadsOf, Occurrence.payload?] using h.tolerated key o hoption hrecurs
  | positional index payload =>
    have hadd : (∃ g', g.add u (.positional index payload) = .ok g') ↔
        index = g.positionals.length := by
      by_cases hindex : index = g.positionals.length <;> simp [add, hindex]
    rw [hadd]
    constructor
    · intro hindex
      exact ⟨fun key h => absurd rfl h, hunnamed fun key => rfl, by rw [← hindex]; rfl⟩
    · intro h
      simpa [Occurrence.index?, Occurrence.positional?] using h.numbered
  | tail tokens =>
    apply iff_of_true ⟨_, rfl⟩
    exact ⟨fun key h => absurd rfl h, hunnamed fun key => rfl, rfl⟩

theorem admits_append_iff (h : g.After first g') :
    g.Admits u (first ++ second) ↔ g.Admits u first ∧ g'.Admits u second := by
  have hnamed (key : String) : g.occurrences key ++ payloadsOf key (first ++ second) =
      g'.occurrences key ++ payloadsOf key second := by
    rw [h.named, payloadsOf_append, List.append_assoc]
    rfl
  have hnumbered := @numbered_append_iff first second g.positionals.length
  rw [← List.length_append, ← h.positionals] at hnumbered
  constructor
  · intro hall
    refine ⟨hall.of_append, fun key hkey => hall.known key ?_, ?_, (hnumbered.1 hall.numbered).2⟩
    · simp [payloadsOf_append, hkey]
    · simpa only [hnamed] using hall.tolerated
  · intro ⟨hfirst, hsecond⟩
    refine ⟨fun key hkey => ?_, ?_, hnumbered.2 ⟨hfirst.numbered, hsecond.numbered⟩⟩
    · by_cases hkey' : payloadsOf key first = []
      · rw [payloadsOf_append, hkey', List.nil_append] at hkey
        exact hsecond.known key hkey
      · exact hfirst.known key hkey'
    · simpa only [hnamed] using hsecond.tolerated

theorem Admits.tolerates_after (h : g.Admits u first) (hafter : g.After first g') :
    u.Tolerates g'.occurrences := by
  rw [funext hafter.named]
  exact h.tolerated

end Gathered

namespace Invocation

theorem exists_fed_cons_iff {u : Usage} {g : Gathered} {occurrence : Occurrence}
    {occurrences : List Occurrence} :
    (∃ inv, (occurrence :: occurrences).foldlM feed { usage := u, gathered := some g } = .ok inv) ↔
      ∃ g', g.add u occurrence = .ok g' ∧
        ∃ inv, occurrences.foldlM feed { usage := u, gathered := some g' } = .ok inv := by
  simp only [List.foldlM_cons, failing_bind_ok_iff, feed_ok_iff]
  constructor
  · rintro ⟨inv, _, ⟨g₁, g', hg, hadd, rfl⟩, hrest⟩
    obtain rfl := Option.some_injective _ hg
    exact ⟨g', hadd, inv, hrest⟩
  · rintro ⟨g', hadd, inv, hrest⟩
    exact ⟨inv, _, ⟨g, g', rfl, hadd, rfl⟩, hrest⟩

/-- **What can be fed** is decided option by option. -/
theorem exists_fed_iff {u : Usage} {g : Gathered} {occurrences : List Occurrence}
    (hg : u.Tolerates g.occurrences) :
    (∃ inv, occurrences.foldlM feed { usage := u, gathered := some g } = .ok inv) ↔
      g.Admits u occurrences := by
  induction occurrences generalizing g with
  | nil => exact iff_of_true ⟨_, rfl⟩ (Gathered.admits_nil hg)
  | cons occurrence occurrences ih =>
    rw [exists_fed_cons_iff]
    constructor
    · intro ⟨g', hadd, hrest⟩
      have hfirst := (Gathered.exists_add_iff hg).1 ⟨g', hadd⟩
      have hafter := Gathered.after_of_add hadd
      exact (Gathered.admits_append_iff hafter).2
        ⟨hfirst, (ih (hfirst.tolerates_after hafter)).1 hrest⟩
    · intro hall
      have hfirst : g.Admits u [occurrence] :=
        (show g.Admits u ([occurrence] ++ occurrences) from hall).of_append
      obtain ⟨g', hadd⟩ := (Gathered.exists_add_iff hg).2 hfirst
      have hafter := Gathered.after_of_add hadd
      exact ⟨g', hadd, (ih (hfirst.tolerates_after hafter)).2
        ((Gathered.admits_append_iff hafter).1 hall).2⟩

/-! ## What it comes to -/

/-- An outcome depends on what is gathered for each parameter. -/
theorem outcome_congr {inv : Invocation} {g g' : Gathered} (evaluator : Evaluator)
    (hnamed : ∀ key, g.occurrences key = g'.occurrences key)
    (hpositionals : g.positionals = g'.positionals) (htail : g.tail = g'.tail) :
    inv.outcome g evaluator = inv.outcome g' evaluator := by
  have hoptions : settleOption inv.defaults g = settleOption inv.defaults g' := by
    funext o
    rw [settleOption, hnamed]
    rfl
  have hsettle : settle inv.usage inv.defaults g = settle inv.usage inv.defaults g' := by
    rw [settle, hoptions, hpositionals]
    rfl
  rw [outcome, hsettle, htail]
  rfl

end Invocation

namespace Usage

variable {u : Usage} {tokens tokens' : List Token} {evaluator : Evaluator} {env : Environment}

theorem numbered_scan (h : (u.scan tokens).error = none) :
    (u.scan tokens).occurrences.filterMap Occurrence.index? =
      List.range' 0 (u.scan tokens).positionals.length := by
  obtain ⟨pieces, hpieces, hoccurrences⟩ := SwitchTable.exists_pieces h
  rw [Scan.positionals, show (u.scan tokens).occurrences = _ from hoccurrences]
  exact hpieces.numbered.1

/-- What can be fed can be fed in another interleaving. -/
theorem exists_fed_congr (h' : (u.scan tokens').error = none)
    (hpayloads : ∀ key, (u.scan tokens).payloads key = (u.scan tokens').payloads key) {g : Gathered}
    (hfed : (u.scan tokens).occurrences.foldlM Invocation.feed { usage := u } =
      .ok { usage := u, gathered := some g }) :
    ∃ g', (u.scan tokens').occurrences.foldlM Invocation.feed { usage := u } =
      .ok { usage := u, gathered := some g' } := by
  have hempty : u.Tolerates (Gathered.occurrences {}) := fun _ _ _ _ => Nat.zero_le _
  have hadmits := (Invocation.exists_fed_iff hempty).1 ⟨_, hfed⟩
  have hpayloads' : ∀ key, payloadsOf key (u.scan tokens').occurrences =
      payloadsOf key (u.scan tokens).occurrences := fun key => (hpayloads key).symm
  have hadmits' : Gathered.Admits {} u (u.scan tokens').occurrences := by
    refine ⟨fun key hkey => hadmits.known key ?_, ?_, numbered_scan h'⟩
    · rwa [← hpayloads']
    · simpa only [hpayloads'] using hadmits.tolerated
  obtain ⟨inv, hfed'⟩ := (Invocation.exists_fed_iff hempty).2 hadmits'
  obtain ⟨g', rfl, -⟩ := exists_gathered hfed'
  exact ⟨g', hfed'⟩

/-- **An invocation depends on sequences**: on the positionals, on the occurrences of each option
and on the tail. -/
theorem invoke_congr (h : (u.scan tokens).error = none) (h' : (u.scan tokens').error = none)
    (hpositionals : (u.scan tokens).positionals = (u.scan tokens').positionals)
    (hpayloads : ∀ key, (u.scan tokens).payloads key = (u.scan tokens').payloads key)
    (htail : (u.scan tokens).occurrences.filterMap Occurrence.tail? =
      (u.scan tokens').occurrences.filterMap Occurrence.tail?)
    (henv : (u.invoke tokens evaluator).result = .ok env) :
    (u.invoke tokens' evaluator).result = .ok env := by
  obtain ⟨-, g, hfed⟩ := fed_of_invoke henv
  obtain ⟨g', hfed'⟩ := exists_fed_congr h' hpayloads hfed
  have hafter := after_of_fed hfed
  have hafter' := after_of_fed hfed'
  rw [invoke_eq_of_fed hfed h] at henv
  rw [invoke_eq_of_fed hfed' h', ← henv]
  congr 1
  apply Invocation.outcome_congr
  · intro key
    rw [hafter.named, hafter'.named]
    exact congrArg _ (hpayloads key).symm
  · rw [hafter.positionals, hafter'.positionals]
    exact congrArg _ hpositionals.symm
  · rw [hafter.tail, hafter'.tail, htail]

end Usage

end Synopsis
