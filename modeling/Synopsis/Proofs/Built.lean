import Synopsis.Proofs.Additions

/-!
# Usages that are built step by step

A usage is compiled from a text; then the options of other usages, inline options and a trailing
capture are added to it, any number of times and in any order (`Usage.Built`).

**Theorem (`Usage.consistent_of_built`).** Such a usage is consistent: keys are distinct, no two
options list one spelling, the switch table holds the listed spellings and no others, each for the
option that lists it, and a tail starts after the last parameter, where none is a list. No step
changes or moves an option that is there; adding options leaves words, terms and layout alone.

What a step does is told once (`Extended.cases`). The table is always built from the options
(`Built.build`), so what is said of it follows from the distinct keys. These are kept by every step,
since each looks for a key before it adds an option under it. Inline options bring their own keys,
which need not be such that a text could declare them; nothing here depends on that.
-/

namespace Synopsis

/-! ## Options that are added one by one -/

namespace InlineOption

variable {o : InlineOption} {declared : List OptionSpec} {r r' : Registry}

theorem reconcile_ok_iff {added : Option OptionSpec} :
    o.reconcile declared r = .ok added r' ↔
      (o.key ∈ declared.map OptionSpec.key ∧ o.typeName = none ∧ o.default = none ∧
        added = none ∧ r' = r) ∨
      (o.key ∉ declared.map OptionSpec.key ∧ ∃ typeName type spec,
        o.inferredTypeName = some typeName ∧ OptionSpec.resolveType typeName r = .ok type r' ∧
        o.toSpec type = .ok spec ∧ added = some spec) := by
  have hdeclared : declared.any (·.key = o.key) ↔ o.key ∈ declared.map OptionSpec.key := by
    simp [List.any_eq_true, List.mem_map]
  unfold reconcile
  by_cases hmem : o.key ∈ declared.map OptionSpec.key
  · rw [if_pos (hdeclared.2 hmem)]
    cases htype : o.typeName <;> cases hdefault : o.default <;> simp [hmem]
  · rw [if_neg (fun h => hmem (hdeclared.1 h))]
    cases hname : o.inferredTypeName with
    | none => simp [hmem]
    | some typeName =>
      simp only [hmem, keeping_bind_ok_iff, false_and, false_or, not_false_eq_true, true_and]
      constructor
      · rintro ⟨type, r₁, htype, hspec⟩
        cases hmade : o.toSpec type with
        | error e => simp [hmade] at hspec
        | ok spec =>
          obtain ⟨rfl, rfl⟩ := by simpa [hmade] using hspec
          exact ⟨typeName, type, spec, rfl, htype, hmade, rfl⟩
      · rintro ⟨_, type, spec, ⟨⟩, htype, hmade, rfl⟩
        exact ⟨type, r', htype, by simp [hmade]⟩

theorem key_of_toSpec {type : ValueType} {spec : OptionSpec} (h : o.toSpec type = .ok spec) :
    spec.key = o.key := by
  unfold toSpec at h
  split_ifs at h
  · cases hdefault : o.default with
    | none => simp [hdefault] at h
    | some default =>
      rw [hdefault] at h
      obtain rfl := Except.ok.inj h
      rfl
  · obtain rfl := Except.ok.inj h
    rfl

end InlineOption

namespace Usage

section Append

variable {options options' added : List OptionSpec} {inline : List InlineOption}
  {r r' : Registry}

theorem nodup_keys_append {o : OptionSpec} (hkeys : (options.map OptionSpec.key).Nodup)
    (hfresh : o.key ∉ options.map OptionSpec.key) :
    ((options ++ [o]).map OptionSpec.key).Nodup := by
  rw [List.map_append, List.map_singleton, ← List.concat_eq_append]
  exact hkeys.concat hfresh

theorem nodup_keys_of_appendOptions (h : appendOptions options added = .ok options')
    (hkeys : (options.map OptionSpec.key).Nodup) : (options'.map OptionSpec.key).Nodup := by
  induction added generalizing options with
  | nil =>
    obtain rfl : options = options' := by simpa [appendOptions] using h
    exact hkeys
  | cons o added ih =>
    rw [appendOptions] at h
    split_ifs at h with htaken
    refine ih h (nodup_keys_append hkeys fun hmem => htaken ?_)
    obtain ⟨first, hfirst, hkey⟩ := List.mem_map.1 hmem
    exact List.any_eq_true.2 ⟨first, hfirst, by simpa using hkey⟩

theorem prefix_of_appendInline (h : appendInline options inline r = .ok options' r') :
    options <+: options' ∧
      ((options.map OptionSpec.key).Nodup → (options'.map OptionSpec.key).Nodup) := by
  induction inline generalizing options r with
  | nil =>
    obtain ⟨rfl, rfl⟩ := keeping_pure_ok_iff.1 h
    exact ⟨List.prefix_rfl, id⟩
  | cons o inline ih =>
    rw [appendInline, keeping_bind_ok_iff] at h
    obtain ⟨added, r₁, hadded, hrest⟩ := h
    obtain ⟨hearlier, hnodup⟩ := ih hrest
    refine ⟨(List.prefix_append _ _).trans hearlier, fun hkeys => hnodup ?_⟩
    rcases InlineOption.reconcile_ok_iff.1 hadded with
      ⟨-, -, -, rfl, -⟩ | ⟨hfresh, typeName, type, spec, -, -, hspec, rfl⟩
    · rwa [Option.toList_none, List.append_nil]
    · refine nodup_keys_append hkeys ?_
      rwa [InlineOption.key_of_toSpec hspec]

end Append

/-! ## Steps -/

variable {u m other : Usage} {origin : Origin} {inline : List InlineOption} {r r' : Registry}

/-- The usage `m` has the options of `u` in front of its own, and is `u` otherwise. -/
structure Keeps (m u : Usage) : Prop where
  options : u.options <+: m.options
  words : m.words = u.words
  terms : m.terms = u.terms
  layout : m.layout = u.layout

theorem addInline_ok_iff :
    u.addInline inline r = .ok m r' ↔ ∃ options switches,
      appendInline u.options inline r = .ok options r' ∧
      SwitchTable.build options = .ok switches ∧ m = { u with options, switches } := by
  simp only [addInline, keeping_bind_ok_iff, building_ok_iff]
  constructor
  · rintro ⟨options, r₁, hoptions, h⟩
    cases htable : tableOf options with
    | error e => simp [htable] at h
    | ok switches =>
      obtain ⟨rfl, rfl⟩ := by simpa [htable] using h
      exact ⟨options, switches, hoptions, failing_mapError_ok_iff.1 htable, rfl⟩
  · rintro ⟨options, switches, hoptions, htable, rfl⟩
    have htable' : tableOf options = .ok switches := failing_mapError_ok_iff.2 htable
    exact ⟨options, r', hoptions, by simp [htable']⟩

theorem keeps_of_addOptions (h : u.addOptions other origin = .ok m) : m.Keeps u := by
  obtain ⟨options, switches, hoptions, -, rfl⟩ := addOptions_ok_iff.1 h
  obtain ⟨rfl, -⟩ := appendOptions_ok hoptions
  exact ⟨List.prefix_append _ _, rfl, rfl, rfl⟩

theorem keeps_of_addInline (h : u.addInline inline r = .ok m r') : m.Keeps u := by
  obtain ⟨options, switches, hoptions, -, rfl⟩ := addInline_ok_iff.1 h
  exact ⟨(prefix_of_appendInline hoptions).1, rfl, rfl, rfl⟩

/-- A building operation on `u` that succeeds. -/
inductive Extended (u m : Usage) : Prop
  | options {other : Usage} {origin : Origin} (h : u.addOptions other origin = .ok m)
  | inline {inline : List InlineOption} {r r' : Registry} (h : u.addInline inline r = .ok m r')
  | capture (h : u.addTrailingCapture = .ok m)

/-- **What a building operation does.** It puts options under new keys behind those that are there
and makes the table of all of them, or else it adds a trailing capture. -/
theorem Extended.cases (h : u.Extended m) :
    (m.Keeps u ∧ SwitchTable.build m.options = .ok m.switches ∧
      ((u.options.map OptionSpec.key).Nodup → (m.options.map OptionSpec.key).Nodup)) ∨
    u.addTrailingCapture = .ok m := by
  cases h with
  | options h =>
    have hkeeps := keeps_of_addOptions h
    obtain ⟨options, switches, hoptions, htable, rfl⟩ := addOptions_ok_iff.1 h
    exact Or.inl ⟨hkeeps, htable, nodup_keys_of_appendOptions hoptions⟩
  | inline h =>
    have hkeeps := keeps_of_addInline h
    obtain ⟨options, switches, hoptions, htable, rfl⟩ := addInline_ok_iff.1 h
    exact Or.inl ⟨hkeeps, htable, (prefix_of_appendInline hoptions).2⟩
  | capture h => exact Or.inr h

/-- A usage that is compiled from a text and built upon, in any registries. -/
inductive Built : Usage → Prop
  | compiled {text : String} {r r' : Registry} {u : Usage} (h : compile text r = .ok u r') : Built u
  | extended {u m : Usage} (hu : Built u) (h : u.Extended m) : Built m

/-! ## Consistency -/

/-- The parts of a usage agree on its options, and on where its tail starts. -/
structure Consistent (u : Usage) : Prop where
  distinct : (u.options.map OptionSpec.key).Nodup
  disjoint : u.options.Pairwise fun o o' => ∀ spelling ∈ o.allSpellings, spelling ∉ o'.allSpellings
  listed : ∀ spelling,
    (u.switches.get? spelling).isSome ↔ ∃ o ∈ u.options, spelling ∈ o.allSpellings
  owned : ∀ spelling switch, u.switches.get? spelling = some switch →
    ∀ o ∈ u.options, spelling ∈ o.allSpellings → switch.key = o.key
  tail : ∀ n, u.layout.tailStart = some n → u.layout.list? = none ∧ u.layout.longest = some n

namespace Built

theorem build (hu : u.Built) : SwitchTable.build u.options = .ok u.switches := by
  induction hu with
  | compiled h => exact build_of_compile h
  | extended hu h ih =>
    rcases h.cases with ⟨-, htable, -⟩ | hcapture
    · exact htable
    · obtain ⟨-, rfl⟩ := addTrailingCapture_ok_iff.1 hcapture
      exact ih

theorem nodup_keys (hu : u.Built) : (u.options.map OptionSpec.key).Nodup := by
  induction hu with
  | compiled h => exact keys_nodup_of_compile h
  | extended hu h ih =>
    rcases h.cases with ⟨-, -, hnodup⟩ | hcapture
    · exact hnodup ih
    · obtain ⟨-, rfl⟩ := addTrailingCapture_ok_iff.1 hcapture
      exact ih

theorem tail (hu : u.Built) {n : Nat} (hn : u.layout.tailStart = some n) :
    u.layout.list? = none ∧ u.layout.longest = some n := by
  induction hu generalizing n with
  | compiled h =>
    have hcaptures := captures_of_compile h hn
    exact ⟨hcaptures.noList, hcaptures.longest⟩
  | extended hu h ih =>
    rcases h.cases with ⟨hkeeps, -, -⟩ | hcapture
    · rw [hkeeps.layout] at hn ⊢
      exact ih hn
    · obtain ⟨hlist, rfl⟩ := addTrailingCapture_ok_iff.1 hcapture
      exact ⟨hlist, hn⟩

theorem consistent (hu : u.Built) : u.Consistent := by
  have htable := hu.build
  have hkeys := hu.nodup_keys
  refine ⟨hkeys, SwitchTable.disjoint_of_build htable hkeys, fun spelling => ⟨?_, ?_⟩, ?_,
    fun n hn => hu.tail hn⟩
  · intro hsome
    obtain ⟨switch, hswitch⟩ := Option.isSome_iff_exists.1 hsome
    obtain ⟨o, ho, hmem⟩ := SwitchTable.exists_of_get?_build htable hswitch
    exact ⟨o, ho, OptionSpec.mem_allSpellings_of_mem_switches hmem⟩
  · rintro ⟨o, ho, hmem⟩
    rw [SwitchTable.get?_of_build htable hkeys ho hmem]
    rfl
  · intro spelling switch hswitch o ho hmem
    rw [SwitchTable.get?_of_build htable hkeys ho hmem] at hswitch
    obtain rfl := Option.some.inj hswitch
    split_ifs <;> rfl

end Built

/-- **However a usage is built, it is consistent**, and no step takes back what an earlier one has
declared. -/
theorem consistent_of_built (hu : u.Built) :
    u.Consistent ∧
    (∀ other origin m, u.addOptions other origin = .ok m → m.Keeps u) ∧
    (∀ inline r m r', u.addInline inline r = .ok m r' → m.Keeps u) ∧
    ∀ m, u.addTrailingCapture = .ok m →
      m.options = u.options ∧ m.switches = u.switches ∧ m.words = u.words := by
  refine ⟨hu.consistent, ?_, ?_, ?_⟩
  · intro other origin m h
    exact keeps_of_addOptions h
  · intro inline r m r' h
    exact keeps_of_addInline h
  · intro m h
    obtain ⟨-, rfl⟩ := addTrailingCapture_ok_iff.1 h
    exact ⟨rfl, rfl, rfl⟩

/-- A usage with the options of another, an inline switch that is on unless it is turned off, and a
trailing capture. -/
theorem consistent_threeSteps :
    ∃ u : Usage, u.Built ∧ u.options.map OptionSpec.key = ["level", "color", "dry_run"] ∧
      u.layout.tailStart = some 1 ∧ u.Consistent := by
  obtain ⟨u, r, hcompile, hcheck⟩ := exists_of_succeedsWith
    (compile "[--level=INT] STR" Registry.standard)
    (fun u r => succeedsWith (compile "[--color=STR]" Registry.standard) fun other _ =>
      (u.addOptions other (.platform "host")).toOption.any fun m =>
        succeedsWith (m.addInline [⟨"dry-run", none, some (.value (.boolean true))⟩] r) fun m' _ =>
          m'.addTrailingCapture.toOption.any fun v =>
            v.options.map OptionSpec.key = ["level", "color", "dry_run"] &&
              v.layout.tailStart = some 1)
    (by decide +kernel)
  obtain ⟨other, _, -, hcheck⟩ := exists_of_succeedsWith _ _ hcheck
  obtain ⟨m, hm, hcheck⟩ := failing_any_toOption_iff.1 hcheck
  obtain ⟨m', _, hm', hcheck⟩ := exists_of_succeedsWith _ _ hcheck
  obtain ⟨v, hv, hcheck⟩ := failing_any_toOption_iff.1 hcheck
  obtain ⟨hkeys, htail⟩ := by simpa using hcheck
  have hbuilt : v.Built :=
    (((Built.compiled hcompile).extended (.options hm)).extended (.inline hm')).extended
      (.capture hv)
  exact ⟨v, hbuilt, hkeys, htail, (consistent_of_built hbuilt).1⟩

end Usage

end Synopsis
