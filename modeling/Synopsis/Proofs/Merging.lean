import Synopsis.Proofs.Built

/-!
# Merging options

**Theorem (`Usage.merges_of_built`).** The options of one usage can be added to another exactly
where the two have no key in common and no spelling, that is, where `conflicts` lists nothing. What
it lists is the intersection of their spellings in order, whichever of the two is asked. The table
of the merged usage is then the disjoint union of both. So several usages can be merged in one order
exactly where they can in another, and they come to one table.

**Success.** Two things are checked, and both are told by the options alone. Keys are looked for one
by one in a list that grows; as each usage has distinct keys, only a key of both is found. The table
is made again from all options, and since it holds what is claimed for one key, a spelling is
refused only if two options list it (`SwitchTable.exists_build_iff`). Each usage has a table already,
so these are options of different usages.

**Order.** Being apart (`Usage.Apart`) does not depend on which usage is named first, and a merged
usage is apart from another exactly where both its parts are. So merging several succeeds exactly if
any two are apart (`Usage.addAll_ok_iff`). A spelling means in the merged table what it means in one
of the tables, and a dictionary is told by what stands under its keys.
-/

namespace Synopsis

/-! ## Tables that can be built -/

namespace SwitchTable

variable {options : List OptionSpec} {entries : List (String × Switch)} {table table' : SwitchTable}

/-- Claims succeed where all claims of a spelling are for one key. -/
theorem exists_foldlM_claim
    (hheld : ∀ entry ∈ entries, ∀ held, table.get? entry.1 = some held → held.key = entry.2.key)
    (hall : entries.Pairwise fun entry later => entry.1 = later.1 → entry.2.key = later.2.key) :
    ∃ table', entries.foldlM claim table = .ok table' := by
  induction entries generalizing table with
  | nil => exact ⟨table, rfl⟩
  | cons entry entries ih =>
    rw [List.forall_mem_cons] at hheld
    obtain ⟨hfirst, hall⟩ := List.pairwise_cons.1 hall
    have hclaim : table.claim entry = .ok (table.insert entry.1 entry.2) :=
      claim_ok_iff.2 ⟨hheld.1, rfl⟩
    have hlater : ∀ later ∈ entries, ∀ held,
        (table.insert entry.1 entry.2).get? later.1 = some held → held.key = later.2.key := by
      intro later hmem held hget
      rw [Dict.get?_insert] at hget
      by_cases heq : entry.1 = later.1
      · rw [if_pos heq] at hget
        rw [← Option.some.inj hget]
        exact hfirst later hmem heq
      · rw [if_neg heq] at hget
        exact hheld.2 later hmem held hget
    obtain ⟨table', hrest⟩ := ih hlater hall
    exact ⟨table', by rw [List.foldlM_cons, hclaim]; exact hrest⟩

/-- **Options of distinct keys have a table exactly if no two list one spelling.** -/
theorem exists_build_iff (hkeys : (options.map OptionSpec.key).Nodup) :
    (∃ table, build options = .ok table) ↔
      options.Pairwise fun o o' => ∀ spelling ∈ o.allSpellings, spelling ∉ o'.allSpellings := by
  constructor
  · intro ⟨table, htable⟩
    exact disjoint_of_build htable hkeys
  · intro hdisjoint
    refine exists_foldlM_claim (by simp) (List.pairwise_flatMap.2 ⟨fun o _ => ?_, ?_⟩)
    · -- an option may claim a spelling for both of its sides
      refine List.pairwise_iff_forall_sublist.2 fun {entry later} hsublist _ => ?_
      have hmem : entry ∈ o.switches ∧ later ∈ o.switches := by
        simpa using hsublist.subset
      rw [OptionSpec.key_of_mem_switches hmem.1, OptionSpec.key_of_mem_switches hmem.2]
    · refine hdisjoint.imp fun {o o'} hnone entry hentry later hlater heq => ?_
      have hlater' : later.1 ∈ o'.allSpellings := OptionSpec.mem_allSpellings_of_mem_switches hlater
      have hentry' : entry.1 ∈ o.allSpellings := OptionSpec.mem_allSpellings_of_mem_switches hentry
      exact absurd (heq ▸ hlater') (hnone _ hentry')

end SwitchTable

namespace Usage

variable {u p q m m' : Usage} {origin : Origin} {s : String}

/-! ## Conflicts -/

/-- The spellings that the options of a usage list. -/
def spellings (u : Usage) : Set String := {s | ∃ o ∈ u.options, s ∈ o.allSpellings}

theorem Built.mem_spellings (hu : u.Built) : s ∈ u.spellings ↔ (u.switches.get? s).isSome :=
  (hu.consistent.listed s).symm

theorem Built.get?_eq_none_iff (hu : u.Built) : u.switches.get? s = none ↔ s ∉ u.spellings := by
  rw [hu.mem_spellings, Option.not_isSome_iff_eq_none]

theorem mem_conflicts (hu : u.Built) (hp : p.Built) :
    s ∈ u.conflicts p ↔ s ∈ u.spellings ∧ s ∈ p.spellings := by
  rw [conflicts, List.mem_filter, Dict.mem_keys, hu.mem_spellings, hp.mem_spellings, and_comm]
  rfl

theorem pairwise_conflicts (u p : Usage) : (u.conflicts p).Pairwise (· < ·) :=
  (Dict.pairwise_keys p.switches).filter _

theorem conflicts_comm (hu : u.Built) (hp : p.Built) : u.conflicts p = p.conflicts u := by
  refine (pairwise_conflicts u p).eq_of_mem_iff (pairwise_conflicts p u) fun s => ?_
  rw [mem_conflicts hu hp, mem_conflicts hp hu, and_comm]

/-! ## Usages that can be merged -/

/-- Two usages have no key and no spelling in common. -/
structure Apart (u p : Usage) : Prop where
  keys : (u.options.map OptionSpec.key).Disjoint (p.options.map OptionSpec.key)
  spellings : Disjoint u.spellings p.spellings

theorem Apart.symm (h : u.Apart p) : p.Apart u := ⟨h.keys.symm, h.spellings.symm⟩

theorem apart_iff (hu : u.Built) (hp : p.Built) :
    u.Apart p ↔ (u.options.map OptionSpec.key).Disjoint (p.options.map OptionSpec.key) ∧
      u.conflicts p = [] := by
  have hspellings : Disjoint u.spellings p.spellings ↔ u.conflicts p = [] := by
    rw [Set.disjoint_left, List.eq_nil_iff_forall_not_mem]
    simp only [mem_conflicts hu hp, not_and]
  rw [← hspellings]
  exact ⟨fun h => ⟨h.keys, h.spellings⟩, fun h => ⟨h.1, h.2⟩⟩

theorem appendOptions_of_nodup {options added : List OptionSpec}
    (h : ((options ++ added).map OptionSpec.key).Nodup) :
    appendOptions options added = .ok (options ++ added) := by
  induction added generalizing options with
  | nil => rw [appendOptions, List.append_nil]
  | cons o added ih =>
    have hfresh : options.any (·.key = o.key) = false := by
      rw [List.any_eq_false]
      intro first hfirst heq
      rw [List.map_append, List.map_cons] at h
      refine (List.nodup_append.1 h).2.2 _ (List.mem_map_of_mem hfirst) _ List.mem_cons_self ?_
      simpa using heq
    rw [appendOptions, hfresh, if_neg Bool.false_ne_true, ih (by simpa using h)]
    simp

/-- The options of two usages, those of the second under a new origin. -/
def merged (u p : Usage) (origin : Origin) : List OptionSpec :=
  u.options ++ p.options.map fun o => { o with origin }

theorem keys_merged (u p : Usage) (origin : Origin) : (u.merged p origin).map OptionSpec.key =
    u.options.map OptionSpec.key ++ p.options.map OptionSpec.key := by
  simp [merged, Function.comp_def]

theorem nodup_keys_merged (hu : u.Built) (hp : p.Built) :
    ((u.merged p origin).map OptionSpec.key).Nodup ↔
      (u.options.map OptionSpec.key).Disjoint (p.options.map OptionSpec.key) := by
  rw [keys_merged, List.nodup_append']
  simp [hu.nodup_keys, hp.nodup_keys]

theorem pairwise_merged (hu : u.Built) (hp : p.Built) :
    (u.merged p origin).Pairwise
        (fun o o' => ∀ spelling ∈ o.allSpellings, spelling ∉ o'.allSpellings) ↔
      Disjoint u.spellings p.spellings := by
  rw [merged, List.pairwise_append, List.pairwise_map, Set.disjoint_left]
  constructor
  · rintro ⟨-, -, hboth⟩ s ⟨o, ho, hs⟩ ⟨o', ho', hs'⟩
    exact hboth o ho _ (List.mem_map_of_mem ho') s hs hs'
  · intro hboth
    refine ⟨hu.consistent.disjoint, hp.consistent.disjoint, fun o ho added hadded s hs hs' => ?_⟩
    obtain ⟨o', ho', rfl⟩ := List.mem_map.1 hadded
    exact hboth ⟨o, ho, hs⟩ ⟨o', ho', hs'⟩

/-- **Options can be added exactly where nothing clashes.** -/
theorem exists_addOptions_iff (hu : u.Built) (hp : p.Built) :
    (∃ m, u.addOptions p origin = .ok m) ↔ u.Apart p := by
  constructor
  · intro ⟨m, hm⟩
    obtain ⟨options, switches, hoptions, htable, rfl⟩ := addOptions_ok_iff.1 hm
    have hkeys := nodup_keys_of_appendOptions hoptions hu.nodup_keys
    obtain ⟨rfl, -⟩ := appendOptions_ok hoptions
    exact ⟨(nodup_keys_merged hu hp).1 hkeys,
      (pairwise_merged hu hp).1 ((SwitchTable.exists_build_iff hkeys).1 ⟨switches, htable⟩)⟩
  · intro h
    have hkeys : ((u.merged p origin).map OptionSpec.key).Nodup :=
      (nodup_keys_merged hu hp).2 h.keys
    obtain ⟨switches, htable⟩ :=
      (SwitchTable.exists_build_iff hkeys).2 ((pairwise_merged hu hp).2 h.spellings)
    exact ⟨_, addOptions_ok_iff.2 ⟨_, switches, appendOptions_of_nodup hkeys, htable, rfl⟩⟩

/-! ## The merged usage -/

/-- The usage `m` is `u` with the options of `p` under the origin. -/
structure Merges (m u p : Usage) (origin : Origin) : Prop where
  keeps : m.Keeps u
  options : m.options = u.options ++ p.options.map fun o => { o with origin }
  disjoint : ∀ s, u.switches.get? s = none ∨ p.switches.get? s = none
  table : ∀ s, m.switches.get? s = (u.switches.get? s).or (p.switches.get? s)

/-- What a spelling means is told by the option that lists it, whatever its origin. -/
theorem Built.get?_eq_of_listed (hu : u.Built) (hm : m.Built) {o : OptionSpec} (ho : o ∈ u.options)
    (ho' : { o with origin } ∈ m.options) (hs : s ∈ o.allSpellings) :
    m.switches.get? s = u.switches.get? s := by
  have hget := SwitchTable.get?_of_build hm.build hm.nodup_keys ho' hs
  rw [SwitchTable.get?_of_build hu.build hu.nodup_keys ho hs]
  exact hget

theorem merges_of_addOptions (hu : u.Built) (hp : p.Built) (hm : u.addOptions p origin = .ok m) :
    m.Merges u p origin := by
  have hbuilt : m.Built := hu.extended (.options hm)
  have hapart := (exists_addOptions_iff hu hp).1 ⟨m, hm⟩
  have hoptions : m.options = u.options ++ p.options.map fun o => { o with origin } := by
    obtain ⟨options, switches, hoptions, -, rfl⟩ := addOptions_ok_iff.1 hm
    exact (appendOptions_ok hoptions).1
  refine ⟨keeps_of_addOptions hm, hoptions, fun s => ?_, fun s => ?_⟩
  · rw [hu.get?_eq_none_iff, hp.get?_eq_none_iff, ← not_and_or]
    intro ⟨hs, hs'⟩
    exact Set.disjoint_left.1 hapart.spellings hs hs'
  by_cases hs : s ∈ u.spellings
  · obtain ⟨o, ho, hlisted⟩ := hs
    have hmem : { o with origin := o.origin } ∈ m.options := by
      rw [hoptions]
      exact List.mem_append_left _ ho
    rw [hu.get?_eq_of_listed hbuilt ho hmem hlisted]
    have hsome := hu.mem_spellings.1 ⟨o, ho, hlisted⟩
    rw [Option.or_of_isSome hsome]
  rw [hu.get?_eq_none_iff.2 hs, Option.none_or]
  by_cases hs' : s ∈ p.spellings
  · obtain ⟨o, ho, hlisted⟩ := hs'
    have hmem : { o with origin } ∈ m.options := by
      rw [hoptions]
      exact List.mem_append_right _ (List.mem_map_of_mem ho)
    exact hp.get?_eq_of_listed hbuilt ho hmem hlisted
  · rw [hp.get?_eq_none_iff.2 hs', hbuilt.get?_eq_none_iff]
    rintro ⟨o, ho, hlisted⟩
    rw [hoptions, List.mem_append, List.mem_map] at ho
    rcases ho with ho | ⟨o, ho, rfl⟩
    · exact hs ⟨o, ho, hlisted⟩
    · exact hs' ⟨o, ho, hlisted⟩

namespace Merges

theorem get?_eq_some_iff (h : m.Merges u p origin) {switch : Switch} :
    m.switches.get? s = some switch ↔
      u.switches.get? s = some switch ∨ p.switches.get? s = some switch := by
  rw [h.table]
  rcases h.disjoint s with hnone | hnone
  · simp [hnone]
  · simp [hnone]

/-- A merged usage is apart from another exactly where both its parts are. -/
theorem apart_iff (h : m.Merges u p origin) : m.Apart q ↔ u.Apart q ∧ p.Apart q := by
  have hkeys : m.options.map OptionSpec.key =
      u.options.map OptionSpec.key ++ p.options.map OptionSpec.key := by
    rw [h.options]
    exact keys_merged u p origin
  have hspellings : m.spellings = u.spellings ∪ p.spellings := by
    ext s
    simp [spellings, h.options, or_and_right, exists_or, OptionSpec.allSpellings]
  constructor
  · intro hm
    have hkeys' := hm.keys
    have hspellings' := hm.spellings
    rw [hkeys, List.disjoint_append_left] at hkeys'
    rw [hspellings, Set.disjoint_union_left] at hspellings'
    exact ⟨⟨hkeys'.1, hspellings'.1⟩, hkeys'.2, hspellings'.2⟩
  · intro hboth
    refine ⟨?_, ?_⟩
    · rw [hkeys, List.disjoint_append_left]
      exact ⟨hboth.1.keys, hboth.2.keys⟩
    · rw [hspellings, Set.disjoint_union_left]
      exact ⟨hboth.1.spellings, hboth.2.spellings⟩

end Merges

/-! ## Several usages -/

/-- The usage with the options of several others, one after another, each under its origin. -/
def addAll (u : Usage) (platforms : List (Usage × Origin)) : Except UsageError Usage :=
  platforms.foldlM (fun u p => u.addOptions p.1 p.2) u

section Several

variable {platforms : List (Usage × Origin)}

theorem addAll_cons_ok_iff {p : Usage × Origin} :
    u.addAll (p :: platforms) = .ok m ↔
      ∃ m₁, u.addOptions p.1 p.2 = .ok m₁ ∧ m₁.addAll platforms = .ok m := by
  rw [addAll, List.foldlM_cons, failing_bind_ok_iff]
  rfl

/-- **Several usages can be merged exactly if any two are apart.** -/
theorem exists_addAll_iff (hu : u.Built) (hplatforms : ∀ p ∈ platforms, p.1.Built) :
    (∃ m, u.addAll platforms = .ok m) ↔ (u :: platforms.map Prod.fst).Pairwise Apart := by
  induction platforms generalizing u with
  | nil => simp [addAll]
  | cons p platforms ih =>
    rw [List.forall_mem_cons] at hplatforms
    simp only [addAll_cons_ok_iff, List.map_cons, List.pairwise_cons, List.forall_mem_cons]
    constructor
    · rintro ⟨m, m₁, hfirst, hrest⟩
      have hmerges := merges_of_addOptions hu hplatforms.1 hfirst
      have hall := (ih (hu.extended (.options hfirst)) hplatforms.2).1 ⟨m, hrest⟩
      simp only [List.pairwise_cons, hmerges.apart_iff] at hall
      obtain ⟨hboth, hlater⟩ := hall
      exact ⟨⟨(exists_addOptions_iff hu hplatforms.1).1 ⟨m₁, hfirst⟩, fun q hq => (hboth q hq).1⟩,
        fun q hq => (hboth q hq).2, hlater⟩
    · rintro ⟨⟨hapart, hfirst⟩, hsecond, hlater⟩
      obtain ⟨m₁, hm₁⟩ : ∃ m₁, u.addOptions p.1 p.2 = .ok m₁ :=
        (exists_addOptions_iff hu hplatforms.1).2 hapart
      have hmerges := merges_of_addOptions hu hplatforms.1 hm₁
      obtain ⟨m, hm⟩ := (ih (hu.extended (.options hm₁)) hplatforms.2).2 <| by
        simp only [List.pairwise_cons, hmerges.apart_iff]
        exact ⟨fun q hq => ⟨hfirst q hq, hsecond q hq⟩, hlater⟩
      exact ⟨m, m₁, hm₁, hm⟩

theorem get?_of_addAll (hu : u.Built) (hplatforms : ∀ p ∈ platforms, p.1.Built)
    (h : u.addAll platforms = .ok m) {switch : Switch} :
    m.switches.get? s = some switch ↔
      ∃ p ∈ u :: platforms.map Prod.fst, p.switches.get? s = some switch := by
  induction platforms generalizing u with
  | nil =>
    obtain rfl := failing_pure_ok_iff.1 h
    simp
  | cons p platforms ih =>
    rw [List.forall_mem_cons] at hplatforms
    obtain ⟨m₁, hfirst, hrest⟩ := addAll_cons_ok_iff.1 h
    have hmerges := merges_of_addOptions hu hplatforms.1 hfirst
    rw [ih (hu.extended (.options hfirst)) hplatforms.2 hrest]
    simp only [List.map_cons, List.exists_mem_cons_iff, hmerges.get?_eq_some_iff, or_assoc]

end Several

/-- **Merging succeeds exactly where nothing clashes, and then by disjoint union.** The options of
another usage can be added where no key is of both and no spelling conflicts; the conflicts of two
usages are the spellings of both in order. The merged usage has the options of both, those of the
second under their new origin, and in its table every spelling means what it did in the only one of
the two tables that has it. Several usages can then be merged in any order or in none, and come to
the same table. -/
theorem merges_of_built (hu : u.Built) :
    (∀ p origin, p.Built →
      ((∃ m, u.addOptions p origin = .ok m) ↔
        (u.options.map OptionSpec.key).Disjoint (p.options.map OptionSpec.key) ∧
          u.conflicts p = []) ∧
      u.conflicts p = p.conflicts u ∧ (u.conflicts p).Pairwise (· < ·) ∧
      (∀ s, s ∈ u.conflicts p ↔ s ∈ u.spellings ∧ s ∈ p.spellings) ∧
      ∀ m, u.addOptions p origin = .ok m → m.Merges u p origin) ∧
    ∀ platforms : List (Usage × Origin), (∀ p ∈ platforms, p.1.Built) →
      ∀ (u' : Usage) (platforms' : List (Usage × Origin)),
      (u :: platforms.map Prod.fst).Perm (u' :: platforms'.map Prod.fst) →
        ((∃ m, u.addAll platforms = .ok m) ↔ ∃ m', u'.addAll platforms' = .ok m') ∧
        ∀ m m', u.addAll platforms = .ok m → u'.addAll platforms' = .ok m' →
          m.switches = m'.switches := by
  refine ⟨fun p origin hp => ⟨?_, conflicts_comm hu hp, pairwise_conflicts u p,
    fun s => mem_conflicts hu hp, fun m hm => merges_of_addOptions hu hp hm⟩, ?_⟩
  · rw [exists_addOptions_iff hu hp, apart_iff hu hp]
  · intro platforms hplatforms u' platforms' hperm
    have hall : ∀ p ∈ u' :: platforms'.map Prod.fst, p.Built := by
      intro p hp
      rcases List.mem_cons.1 (hperm.mem_iff.2 hp) with rfl | hp
      · exact hu
      · obtain ⟨platform, hplatform, rfl⟩ := List.mem_map.1 hp
        exact hplatforms platform hplatform
    obtain ⟨hu', hplatforms'⟩ := List.forall_mem_cons.1 hall
    rw [List.forall_mem_map] at hplatforms'
    refine ⟨?_, fun m m' hm hm' => ?_⟩
    · rw [exists_addAll_iff hu hplatforms, exists_addAll_iff hu' hplatforms']
      exact hperm.pairwise_iff Apart.symm
    · refine Dict.ext fun s => ?_
      ext switch
      rw [get?_of_addAll hu hplatforms hm, get?_of_addAll hu' hplatforms' hm']
      simp only [hperm.mem_iff]

/-- Three usages, merged in two orders. -/
theorem merges_inTwoOrders :
    ∃ u p q m m' : Usage, u.Built ∧ p.Built ∧ q.Built ∧
      u.addAll [(p, .platform "host"), (q, .platform "shell")] = .ok m ∧
      q.addAll [(u, .inline), (p, .platform "host")] = .ok m' ∧
      m.options.map OptionSpec.key = ["jobs", "color", "verbose"] ∧ m.switches = m'.switches := by
  obtain ⟨u, r, hu, hcheck⟩ := exists_of_succeedsWith
    (compile "[--jobs|-j=INT] STR" Registry.standard)
    (fun u _ => succeedsWith (compile "[--color=STR]" Registry.standard) fun p _ =>
      succeedsWith (compile "[--verbose|-v]" Registry.standard) fun q _ =>
        (u.addAll [(p, .platform "host"), (q, .platform "shell")]).toOption.any fun m =>
          m.options.map OptionSpec.key = ["jobs", "color", "verbose"])
    (by decide +kernel)
  obtain ⟨p, r', hp, hcheck⟩ := exists_of_succeedsWith _ _ hcheck
  obtain ⟨q, r'', hq, hcheck⟩ := exists_of_succeedsWith _ _ hcheck
  obtain ⟨m, hm, hkeys⟩ := failing_any_toOption_iff.1 hcheck
  have hbuilt : u.Built ∧ p.Built ∧ q.Built := ⟨.compiled hu, .compiled hp, .compiled hq⟩
  have hperm : [u, p, q].Perm [q, u, p] := @List.perm_append_comm _ [u, p] [q]
  obtain ⟨hboth, hsame⟩ := (merges_of_built hbuilt.1).2
    [(p, .platform "host"), (q, .platform "shell")] (by simp [hbuilt]) q
    [(u, .inline), (p, .platform "host")] hperm
  obtain ⟨m', hm'⟩ := hboth.1 ⟨m, hm⟩
  exact ⟨u, p, q, m, m', hbuilt.1, hbuilt.2.1, hbuilt.2.2, hm, hm', of_decide_eq_true hkeys,
    hsame m m' hm hm'⟩

end Usage

end Synopsis
