import Synopsis.Proofs.Arrangements

/-!
# Complaints about the number of values

**Theorem (`Usage.exact_of_arrange`).** Where the terms of a usage do not admit the number of the
values, arranging them fails with the exact complaint: too few below the least number that is
admitted, too many above the greatest, and otherwise that no branch matches, with lengths that admit
those numbers and no others.

The numbers that are admitted are those of the branches (`Usage.counts_eq`). A complaint says
"exactly" where there is neither a segment nor an open branch. That only one number is admitted then
is plain. Conversely, the deepest segment holds a parameter (`ReadsLevel.exists_deepest`), so where
there is a segment, its branch takes more values than the one around it.
-/

namespace Synopsis

/-! ## Messages -/

namespace CountError

variable {n got : Nat} {ranged : Bool}

/-- The message asks for exactly the number that it gives. -/
def SaysExactly (e : CountError) : Prop := "Required exactly ".toList <+: e.message.toList

theorem saysExactly_tooFew : (tooFew n got ranged).SaysExactly ↔ ranged = false := by
  have hmessage : (tooFew n got ranged).message = "Required " ++
      (if ranged then "at least" else "exactly") ++ " " ++ n.repr ++ " " ++ arguments n ++
      ", got " ++ got.repr ++ "." := rfl
  cases ranged <;> simp [SaysExactly, hmessage]

theorem saysExactly_tooMany : (tooMany n got ranged).SaysExactly ↔ ranged = false := by
  have hmessage : (tooMany n got ranged).message = "Required " ++
      (if ranged then "at most" else "exactly") ++ " " ++ n.repr ++ " " ++ arguments n ++
      ", got " ++ got.repr ++ "." := rfl
  cases ranged <;> simp [SaysExactly, hmessage]

end CountError

/-! ## Lists without repeats -/

section WithoutRepeats

variable {α : Type} [DecidableEq α]

theorem mem_withoutRepeats {a : α} {as : List α} : a ∈ withoutRepeats as ↔ a ∈ as := by
  fun_induction withoutRepeats as with
  | case1 a rest ih => simp [ih]
  | case2 a b rest hne ih => simp [ih]
  | case3 => rfl

theorem withoutRepeats_sublist (as : List α) : (withoutRepeats as).Sublist as := by
  fun_induction withoutRepeats as with
  | case1 a rest ih => exact ih.cons _
  | case2 a b rest hne ih => exact ih.cons_cons _
  | case3 => exact List.Sublist.refl _

theorem head?_withoutRepeats (as : List α) : (withoutRepeats as).head? = as.head? := by
  fun_induction withoutRepeats as with
  | case1 a rest ih => simp [ih]
  | case2 => rfl
  | case3 => rfl

theorem isChain_withoutRepeats (as : List α) : (withoutRepeats as).IsChain (· ≠ ·) := by
  fun_induction withoutRepeats as with
  | case1 a rest ih => exact ih
  | case2 a b rest hne ih =>
    refine List.isChain_cons.2 ⟨fun c hc => ?_, ih⟩
    rw [head?_withoutRepeats] at hc
    obtain rfl : b = c := by simpa using hc
    exact hne
  | case3 as h =>
    match as with
    | [] => exact .nil
    | [_] => exact .singleton _
    | a :: b :: rest => exact absurd rfl (h a b rest)

end WithoutRepeats

/-! ## The deepest parameter -/

/-- A parameter in front of a level is the deepest one where no segment follows. -/
theorem Term.IsParameter.exists_deepest {recurs : Bool} {minimum d : Nat} {t : Term}
    {ts : List Term} (h : t.IsParameter recurs minimum)
    (hrest : nestingOf ts ≠ 0 → ∃ leaf ∈ leavesOf d ts, leaf.depth = d + nestingOf ts) :
    ∃ leaf ∈ leavesOf d (t :: ts), leaf.depth = d + nestingOf (t :: ts) := by
  obtain ⟨leaf, hleaves, hdepth, -⟩ := h.leaves d
  have hnesting : nestingOf (t :: ts) = nestingOf ts := by simp [nestingOf, h.nesting]
  rw [leavesOf, hleaves, hnesting]
  by_cases hzero : nestingOf ts = 0
  · exact ⟨leaf, by simp, by rw [hdepth, hzero, Nat.add_zero]⟩
  · obtain ⟨deepest, hmem, heq⟩ := hrest hzero
    exact ⟨deepest, by simp [hmem], heq⟩

/-- A level with a segment has a parameter at its greatest depth, and so has what a segment
holds. -/
theorem ReadsLevel.exists_deepest {depth : Nat} {seen : Bool} {k k' : Known} {ts : List Term}
    (h : ReadsLevel depth seen k ts k') (hts : Term.nestingOf ts ≠ 0 ∨ depth ≠ 0 ∧ ts ≠ [])
    (d : Nat) : ∃ leaf ∈ Term.leavesOf d ts, leaf.depth = d + Term.nestingOf ts := by
  induction h generalizing d with
  | done => simp [Term.nestingOf] at hts
  | one h rest ih => exact h.isParameter.exists_deepest fun hnesting => ih (Or.inl hnesting) d
  | repeated h hword rest ih =>
    exact (h.isParameter_list 1 _).exists_deepest fun hnesting => ih (Or.inl hnesting) d
  | optional h rest ih =>
    exact (h.isParameter_list 0 _).exists_deepest fun hnesting => ih (Or.inl hnesting) d
  | @segment _ _ _ _ inner ts hne hinner rest ihinner ih =>
    obtain ⟨leaf, hleaf, hdepth⟩ := ihinner (Or.inr ⟨Nat.succ_ne_zero _, hne⟩) (d + 1)
    have hnesting : Term.nestingOf (.segment inner :: ts) = Term.nestingOf inner + 1 := by
      simp [Term.nestingOf, Term.nesting, rest.level.nestingOf_of_seen]
    refine ⟨leaf, ?_, by omega⟩
    rw [Term.leavesOf, Term.leaves]
    exact List.mem_append_left _ hleaf
  | rest => simp [Term.nestingOf, Term.nesting] at hts

theorem exists_of_numbered {first : Nat} {leaves : List Leaf} {ps : List Parameter}
    (h : Numbered first leaves ps) {leaf : Leaf} (hleaf : leaf ∈ leaves) :
    ∃ p ∈ ps, p.depth = leaf.depth := by
  induction h with
  | nil => simp at hleaf
  | cons index depth recurs minimum rest ih =>
    rcases List.mem_cons.1 hleaf with rfl | hleaf
    · exact ⟨_, by simp, depth⟩
    · obtain ⟨p, hp, heq⟩ := ih hleaf
      exact ⟨p, by simp [hp], heq⟩

/-! ## The numbers that are admitted -/

namespace Layout

variable {l : Layout} {ts : List Term}

/-- The numbers of values that a branch admits. -/
def counts (l : Layout) : Set Nat := {n | ∃ b ∈ l.branches, b.admits n}

theorem mem_branches {b : Branch} : b ∈ l.branches ↔ ∃ d ≤ l.deepest, l.branch d = b := by
  simp [branches]

theorem mem_counts {n : Nat} : n ∈ l.counts ↔ ∃ d ≤ l.deepest, (l.branch d).admits n := by
  simp only [counts, Set.mem_ofPred_eq, mem_branches]
  constructor
  · rintro ⟨_, ⟨d, hd, rfl⟩, hn⟩
    exact ⟨d, hd, hn⟩
  · rintro ⟨d, hd, hn⟩
    exact ⟨_, ⟨d, hd, rfl⟩, hn⟩

theorem admits_minimum (b : Branch) : b.admits b.minimum := by
  cases b <;> simp [Branch.admits, Branch.minimum]

theorem isLeast_shortest (hl : l.Fits ts) : IsLeast l.counts l.shortest := by
  refine ⟨mem_counts.2 ⟨0, Nat.zero_le _, admits_minimum _⟩, fun n hn => ?_⟩
  obtain ⟨d, -, hadmits⟩ := mem_counts.1 hn
  exact (minimum_mono hl (Nat.zero_le d)).trans (minimum_le_of_admits hadmits)

theorem longest_eq_some_iff {n : Nat} : l.longest = some n ↔ l.branch l.deepest = .exactly n := by
  unfold longest
  cases l.branch l.deepest <;> simp

theorem isGreatest_longest (hl : l.Fits ts) {n : Nat} (h : l.longest = some n) :
    IsGreatest l.counts n := by
  refine ⟨mem_counts.2 ⟨l.deepest, Nat.le_refl _, ?_⟩, fun m hm => ?_⟩
  · simp [longest_eq_some_iff.1 h, Branch.admits]
  · obtain ⟨d, hd, hadmits⟩ := mem_counts.1 hm
    exact le_longest_of_admits hl hd hadmits h

theorem exists_lt_of_longest (h : l.longest = none) (n : Nat) : ∃ m ∈ l.counts, n < m := by
  cases hbranch : l.branch l.deepest with
  | exactly m => simp [longest_eq_some_iff.2 hbranch] at h
  | atLeast m =>
    refine ⟨m + n + 1, mem_counts.2 ⟨l.deepest, Nat.le_refl _, ?_⟩, by omega⟩
    simp only [hbranch, Branch.admits, decide_eq_true_eq]
    omega

/-- With no branch open, a deeper parameter takes a further value. -/
theorem fixed_lt (hl : l.Fits ts) {n d : Nat} (h : l.longest = some n) (hd : d < l.deepest)
    (hdeepest : ∃ p ∈ l.parameters, p.depth = l.deepest) : l.fixed d < l.fixed l.deepest := by
  obtain ⟨p, hp, hdepth⟩ := hdeepest
  refine Nat.lt_of_le_of_ne (l.fixed_mono hd.le) fun heq => ?_
  have hsame := filter_eq_of_fixed_eq hd.le heq
  have hrecurs : p.recurs = false := by
    rcases branch_cases hl l.deepest with ⟨-, hdeeper⟩ | ⟨list, -, -, -, -, hbranch⟩
    · by_contra hrecurs
      exact absurd (hdeeper p hp (by simpa using hrecurs)) (by omega)
    · simp [longest, hbranch _ (Nat.le_refl _)] at h
  have hmem : p ∈ l.parameters.filter fun p => p.depth ≤ l.deepest && !p.recurs := by
    simp [hp, hdepth, hrecurs]
  rw [← hsame] at hmem
  have hshallow : p.depth ≤ d := by
    simp only [List.mem_filter, Bool.and_eq_true, decide_eq_true_eq] at hmem
    exact hmem.2.1
  omega

theorem branch_eq_exactly (hl : l.Fits ts) {n d : Nat} (h : l.longest = some n)
    (hd : d ≤ l.deepest) : l.branch d = .exactly (l.fixed d) := by
  rcases branch_cases hl d with ⟨hbranch, -⟩ | ⟨list, -, -, -, -, hbranch⟩
  · exact hbranch
  · simp [longest, hbranch _ hd] at h

/-- **A single number is admitted exactly where there is neither a segment nor an open branch.** -/
theorem ranged_eq_false_iff (hl : l.Fits ts)
    (hdeepest : l.deepest ≠ 0 → ∃ p ∈ l.parameters, p.depth = l.deepest) :
    l.ranged = false ↔ ∃ n, l.counts = {n} := by
  cases hlongest : l.longest with
  | none =>
    refine iff_of_false (by simp [ranged, hlongest]) ?_
    rintro ⟨n, hn⟩
    obtain ⟨m, hm, hlt⟩ := exists_lt_of_longest hlongest n
    rw [hn, Set.mem_singleton_iff] at hm
    omega
  | some n =>
    have hranged : l.ranged = false ↔ l.deepest = 0 := by simp [ranged, hlongest]
    rw [hranged]
    constructor
    · intro hzero
      refine ⟨n, Set.ext fun m => ?_⟩
      rw [longest_eq_some_iff, hzero] at hlongest
      simp [mem_counts, hzero, hlongest, Branch.admits]
    · rintro ⟨m, hm⟩
      by_contra hzero
      have hcounts (d : Nat) (hd : d ≤ l.deepest) : l.fixed d = m := by
        have hmem : l.fixed d ∈ l.counts :=
          mem_counts.2 ⟨d, hd, by simp [branch_eq_exactly hl hlongest hd, Branch.admits]⟩
        rwa [hm, Set.mem_singleton_iff] at hmem
      have hlt := fixed_lt hl hlongest (Nat.pos_of_ne_zero hzero) (hdeepest hzero)
      rw [hcounts 0 (Nat.zero_le _), hcounts _ (Nat.le_refl _)] at hlt
      exact Nat.lt_irrefl m hlt

end Layout

/-! ## Exact complaints -/

/-- The complaint is exact for the numbers that are admitted and the number that there is. -/
inductive CountError.Exact (counts : Set Nat) (got : Nat) : CountError → Prop
  | tooFew {needed : Nat} {ranged : Bool} (hleast : IsLeast counts needed) (hlt : got < needed)
      (hranged : ranged = false ↔ ∃ n, counts = {n})
      (hmessage : (CountError.tooFew needed got ranged).SaysExactly ↔ ∃ n, counts = {n}) :
      Exact counts got (.tooFew needed got ranged)
  | tooMany {limit : Nat} {ranged : Bool} (hgreatest : IsGreatest counts limit) (hlt : limit < got)
      (hranged : ranged = false ↔ ∃ n, counts = {n})
      (hmessage : (CountError.tooMany limit got ranged).SaysExactly ↔ ∃ n, counts = {n}) :
      Exact counts got (.tooMany limit got ranged)
  /-- The number lies between two that are admitted. -/
  | noMatchingBranch {lengths : List Branch} (hless : ∃ n ∈ counts, n < got)
      (hmore : ∃ n ∈ counts, got < n) (hlengths : ∀ n, n ∈ counts ↔ ∃ b ∈ lengths, b.admits n)
      (hdistinct : lengths.IsChain (· ≠ ·))
      (hordered : lengths.Pairwise fun b b' => b.minimum ≤ b'.minimum) :
      Exact counts got (.noMatchingBranch lengths got)

namespace CountError.Exact

variable {counts : Set Nat} {got : Nat} {e : CountError}

theorem tooFew_iff (h : e.Exact counts got) :
    (∃ needed ranged, e = .tooFew needed got ranged) ↔
      ∃ least, IsLeast counts least ∧ got < least := by
  cases h with
  | tooFew hleast hlt => exact iff_of_true ⟨_, _, rfl⟩ ⟨_, hleast, hlt⟩
  | tooMany hgreatest hlt =>
    refine iff_of_false (by simp) ?_
    rintro ⟨least, hleast, hlt'⟩
    have := hleast.2 hgreatest.1
    omega
  | noMatchingBranch hless =>
    obtain ⟨n, hn, hlt⟩ := hless
    refine iff_of_false (by simp) ?_
    rintro ⟨least, hleast, hlt'⟩
    have := hleast.2 hn
    omega

theorem tooMany_iff (h : e.Exact counts got) :
    (∃ limit ranged, e = .tooMany limit got ranged) ↔
      ∃ greatest, IsGreatest counts greatest ∧ greatest < got := by
  cases h with
  | tooFew hleast hlt =>
    refine iff_of_false (by simp) ?_
    rintro ⟨greatest, hgreatest, hlt'⟩
    have := hgreatest.2 hleast.1
    omega
  | tooMany hgreatest hlt => exact iff_of_true ⟨_, _, rfl⟩ ⟨_, hgreatest, hlt⟩
  | noMatchingBranch _ hmore =>
    obtain ⟨n, hn, hlt⟩ := hmore
    refine iff_of_false (by simp) ?_
    rintro ⟨greatest, hgreatest, hlt'⟩
    have := hgreatest.2 hn
    omega

end CountError.Exact

namespace Layout

variable {l : Layout} {ts : List Term} {α : Type}

theorem pairwise_branches (hl : l.Fits ts) :
    l.branches.Pairwise fun b b' => b.minimum ≤ b'.minimum :=
  List.pairwise_map.2 (List.pairwise_lt_range.imp fun hlt => minimum_mono hl hlt.le)

/-- **Values whose number is not admitted are complained of exactly.** -/
theorem exact_of_notMem (hl : l.Fits ts)
    (hdeepest : l.deepest ≠ 0 → ∃ p ∈ l.parameters, p.depth = l.deepest) {values : List α}
    (hvalues : values.length ∉ l.counts) :
    ∃ e, l.arrange values = .error e ∧ e.Exact l.counts values.length := by
  have hranged := ranged_eq_false_iff hl hdeepest
  have hleast := isLeast_shortest hl
  by_cases hshort : values.length < l.shortest
  · refine ⟨.tooFew l.shortest values.length l.ranged, by simp [arrange, hshort], ?_⟩
    exact .tooFew hleast hshort hranged (CountError.saysExactly_tooFew.trans hranged)
  have hless : ∃ n ∈ l.counts, n < values.length := by
    refine ⟨l.shortest, hleast.1, Nat.lt_of_le_of_ne (Nat.le_of_not_lt hshort) fun heq => ?_⟩
    exact hvalues (heq ▸ hleast.1)
  have hselect (hmore : ∃ n ∈ l.counts, values.length < n) :
      ∃ e, arrange.select l values values.length = .error e ∧ e.Exact l.counts values.length := by
    have hadmits : ¬(l.branch (l.depthFor values.length l.deepest)).admits values.length :=
      fun hadmits => hvalues (mem_counts.2 ⟨_, depthFor_le _ _ _, hadmits⟩)
    refine ⟨.noMatchingBranch (withoutRepeats l.branches) values.length,
      by simp [arrange.select, hadmits], .noMatchingBranch hless hmore (fun n => ?_)
        (isChain_withoutRepeats _) ((pairwise_branches hl).sublist (withoutRepeats_sublist _))⟩
    simp only [counts, Set.mem_ofPred_eq, mem_withoutRepeats]
  cases hlongest : l.longest with
  | none =>
    obtain ⟨e, he, hexact⟩ := hselect (exists_lt_of_longest hlongest _)
    exact ⟨e, by simpa [arrange, hshort, hlongest] using he, hexact⟩
  | some n =>
    have hgreatest := isGreatest_longest hl hlongest
    by_cases hlong : n < values.length
    · refine ⟨.tooMany n values.length l.ranged, by simp [arrange, hshort, hlongest, hlong], ?_⟩
      exact .tooMany hgreatest hlong hranged (CountError.saysExactly_tooMany.trans hranged)
    · obtain ⟨e, he, hexact⟩ := hselect ⟨n, hgreatest.1,
        Nat.lt_of_le_of_ne (Nat.le_of_not_lt hlong) fun heq => hvalues (heq ▸ hgreatest.1)⟩
      exact ⟨e, by simpa [arrange, hshort, hlongest, hlong] using he, hexact⟩

end Layout

/-! ## Usages -/

namespace Usage

variable {text : String} {r r' : Registry} {u : Usage}

/-- The numbers of values that the terms of a usage admit: the lengths of their expansions. -/
def counts (u : Usage) : Set Nat := {n | ∃ e, Term.ExpandsAll u.terms 0 e ∧ e.length = n}

theorem counts_eq (h : compile text r = .ok u r') : u.counts = u.layout.counts := by
  ext n
  simp only [counts, Set.mem_ofPred_eq, expandsAll_iff h, Layout.mem_counts,
    Layout.admits_iff (fits_of_compile h)]
  constructor
  · rintro ⟨e, ⟨d, hd, he⟩, hlength⟩
    exact ⟨d, hd, e, he, hlength⟩
  · rintro ⟨d, hd, e, he, hlength⟩
    exact ⟨e, ⟨d, hd, he⟩, hlength⟩

theorem exists_deepest_of_compile (h : compile text r = .ok u r') (hdeepest : u.layout.deepest ≠ 0) :
    ∃ p ∈ u.layout.parameters, p.depth = u.layout.deepest := by
  have hl := fits_of_compile h
  rw [hl.deepest] at hdeepest ⊢
  obtain ⟨k, k', hreads⟩ := terms_of_compile h
  obtain ⟨leaf, hleaf, hdepth⟩ := hreads.exists_deepest (Or.inl hdeepest) 0
  obtain ⟨p, hp, heq⟩ := exists_of_numbered hl.numbered hleaf
  exact ⟨p, hp, by rw [heq, hdepth, Nat.zero_add]⟩

/-- **Complaints about the number of values are exact.** Where the terms do not admit the number of
the values, arranging them fails with an exact complaint: of too few exactly where there are fewer
than the least number that is admitted, of too many exactly where there are more than the greatest,
and otherwise of the lengths of the branches. -/
theorem exact_of_arrange (h : compile text r = .ok u r') {α : Type} {values : List α}
    (hvalues : values.length ∉ u.counts) :
    ∃ e, u.layout.arrange values = .error e ∧ e.Exact u.counts values.length ∧
      ((∃ needed ranged, e = .tooFew needed values.length ranged) ↔
        ∃ least, IsLeast u.counts least ∧ values.length < least) ∧
      ((∃ limit ranged, e = .tooMany limit values.length ranged) ↔
        ∃ greatest, IsGreatest u.counts greatest ∧ greatest < values.length) := by
  rw [counts_eq h] at hvalues ⊢
  obtain ⟨e, he, hexact⟩ :=
    Layout.exact_of_notMem (fits_of_compile h) (exists_deepest_of_compile h) hvalues
  exact ⟨e, he, hexact, hexact.tooFew_iff, hexact.tooMany_iff⟩

/-- Two values, where a segment that holds nothing but a segment makes the first two branches
alike. -/
theorem exact_betweenBranches :
    ∃ u r', compile "INT [[STR1 STR2]]" Registry.standard = .ok u r' ∧ 2 ∉ u.counts ∧
      u.layout.branches = [.exactly 1, .exactly 1, .exactly 3] ∧
      u.layout.arrange ["1", "a"] = .error (.noMatchingBranch [.exactly 1, .exactly 3] 2) ∧
      (CountError.noMatchingBranch [.exactly 1, .exactly 3] 2).Exact u.counts 2 := by
  obtain ⟨u, r', hcompile, hcheck⟩ :=
    exists_of_succeedsWith (compile "INT [[STR1 STR2]]" Registry.standard)
      (fun u _ => u.layout.branches = [.exactly 1, .exactly 1, .exactly 3] &&
        match u.layout.arrange ["1", "a"] with
        | .error e => e = .noMatchingBranch [.exactly 1, .exactly 3] 2
        | .ok _ => false) (by decide +kernel)
  rw [Bool.and_eq_true, decide_eq_true_eq] at hcheck
  obtain ⟨hbranches, hcheck⟩ := hcheck
  have hvalues : 2 ∉ u.counts := by
    simp [counts_eq hcompile, Layout.counts, hbranches, Branch.admits]
  obtain ⟨e, he, hexact, -⟩ := @exact_of_arrange _ _ _ _ hcompile String ["1", "a"] hvalues
  obtain rfl : e = .noMatchingBranch [.exactly 1, .exactly 3] 2 := by simpa [he] using hcheck
  exact ⟨u, r', hcompile, hvalues, hbranches, he, hexact⟩

end Usage

end Synopsis
