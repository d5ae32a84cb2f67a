import Synopsis.Layout.Leaf
import Synopsis.Proofs.Rereadings

/-!
# Well-formed terms

`Term.WellFormed IsLeaf ts` says of the terms of a usage, segment by segment and leaf by leaf, that
they are positional syntax. Every level, that is the terms themselves and those inside each segment,
holds at most one segment, and no segment is empty; a list repeats one parameter from 0 or 1 times
on; the trailing capture ends the outermost level; and a numbered identifier stands once in the
whole. What a single parameter is, is left to `IsLeaf`.

Terms that are read are well formed (`ReadsLevel.wellFormed`). The other way round the conditions
give an induction over the levels (`Term.WellFormed.nested`).
-/

namespace Synopsis

namespace Term

mutual

/-- The levels inside a term: the terms of each segment. -/
def levels : Term → List (List Term)
  | segment terms => terms :: levelsOf terms
  | _ => []

def levelsOf : List Term → List (List Term)
  | [] => []
  | t :: ts => t.levels ++ levelsOf ts

end

mutual

/-- The identifiers with a number, wherever they stand in a term. -/
def numbers : Term → List String
  | typed _ identifier number => if number.isSome then [identifier] else []
  | list element _ _ => element.numbers
  | segment terms => numbersOf terms
  | _ => []

def numbersOf : List Term → List String
  | [] => []
  | t :: ts => t.numbers ++ numbersOf ts

end

/-- Terms that are positional syntax, with leaves that satisfy `IsLeaf`. -/
structure WellFormed (IsLeaf : Term → Prop) (ts : List Term) : Prop where
  oneSegment : ∀ level ∈ ts :: levelsOf ts, level.countP isSegment ≤ 1
  /-- No segment is empty. -/
  nonempty : [] ∉ levelsOf ts
  /-- A list may repeat a word only where it may be left out. -/
  lists : ∀ level ∈ ts :: levelsOf ts, ∀ element minimum note, list element minimum note ∈ level →
    minimum = 0 ∨ minimum = 1 ∧ element.isWord = false
  /-- The trailing capture is the last term of all. -/
  restLast : rest ∉ ts.dropLast ∧ ∀ level ∈ levelsOf ts, rest ∉ level
  /-- What stands alone or is repeated by a list. -/
  leaves : ∀ leaf ∈ leavesOf 0 ts, IsLeaf leaf.term
  numbers : (numbersOf ts).Nodup

end Term

/-! ## Levels that are read -/

namespace ReadsOne

variable {k k' : Known} {t : Term}

theorem levels_eq_nil (h : ReadsOne k t k') : t.levels = [] := by
  cases h <;> rfl

theorem leaves_eq (h : ReadsOne k t k') (depth : Nat) : t.leaves depth = [{ term := t, depth }] := by
  cases h <;> rfl

theorem numbered_eq (h : ReadsOne k t k') :
    k'.numbered = t.numbers.reverse ++ k.numbered ∧ (k.numbered.Nodup → k'.numbered.Nodup) := by
  cases h with
  | word | choice | union => exact ⟨rfl, id⟩
  | @typed identifier _ number _ _ hid hname htype hnew =>
    cases number with
    | none => exact ⟨rfl, id⟩
    | some number => exact ⟨rfl, fun h => List.nodup_cons.2 ⟨hnew rfl, h⟩⟩

end ReadsOne

namespace ReadsLevel

open Term

variable {depth : Nat} {seen : Bool} {k k' : Known} {ts : List Term}

theorem of_mem_levelsOf (h : ReadsLevel depth seen k ts k') {level : List Term}
    (hlevel : level ∈ levelsOf ts) :
    level ≠ [] ∧ ∃ depth' k₁ k₂, ReadsLevel (depth' + 1) false k₁ level k₂ := by
  induction h with
  | done => simp [levelsOf] at hlevel
  | one h rest ih =>
    rw [levelsOf, h.levels_eq_nil] at hlevel
    exact ih hlevel
  | repeated h hword rest ih => exact ih hlevel
  | optional h rest ih => exact ih hlevel
  | segment hne h rest ihinner ih =>
    rw [levelsOf, levels, List.cons_append, List.mem_cons, List.mem_append] at hlevel
    rcases hlevel with rfl | hlevel | hlevel
    · exact ⟨hne, _, _, _, h⟩
    · exact ihinner hlevel
    · exact ih hlevel
  | rest => simp [levelsOf, levels] at hlevel

theorem countP_isSegment_le (h : ReadsLevel depth seen k ts k') :
    ts.countP isSegment ≤ if seen then 0 else 1 := by
  induction h with
  | done => simp
  | one h rest ih => rwa [List.countP_cons_of_neg (by simp [h.isSegment_eq_false])]
  | repeated h hword rest ih => rwa [List.countP_cons_of_neg (by simp [isSegment])]
  | optional h rest ih => rwa [List.countP_cons_of_neg (by simp [isSegment])]
  | segment hne h rest ihinner ih =>
    rw [List.countP_cons_of_pos rfl]
    simpa using ih
  | rest => simp [isSegment]

theorem list_of_mem (h : ReadsLevel depth seen k ts k') {element : Term} {minimum : Nat}
    {note : Option String} (hmem : list element minimum note ∈ ts) :
    minimum = 0 ∨ minimum = 1 ∧ element.isWord = false := by
  induction h with
  | done => simp at hmem
  | one h rest ih =>
    rcases List.mem_cons.1 hmem with rfl | hmem
    · cases h
    · exact ih hmem
  | repeated h hword rest ih =>
    rcases List.mem_cons.1 hmem with heq | hmem
    · obtain ⟨rfl, rfl, -⟩ := Term.list.inj heq
      exact Or.inr ⟨rfl, hword⟩
    · exact ih hmem
  | optional h rest ih =>
    rcases List.mem_cons.1 hmem with heq | hmem
    · exact Or.inl (Term.list.inj heq).2.1
    · exact ih hmem
  | segment hne h rest ihinner ih => exact ih ((List.mem_cons.1 hmem).resolve_left (by simp))
  | rest => simp at hmem

/-- The trailing capture ends the outermost level and stands in no other. -/
theorem rest_last (h : ReadsLevel depth seen k ts k') :
    Term.rest ∉ ts.dropLast ∧ (depth ≠ 0 → Term.rest ∉ ts) := by
  have hcons {depth : Nat} {t : Term} {ts : List Term} (ht : Term.rest ≠ t)
      (hts : Term.rest ∉ ts.dropLast ∧ (depth ≠ 0 → Term.rest ∉ ts)) :
      Term.rest ∉ (t :: ts).dropLast ∧ (depth ≠ 0 → Term.rest ∉ t :: ts) := by
    refine ⟨fun hmem => ?_, fun hdepth => List.not_mem_cons_of_ne_of_not_mem ht (hts.2 hdepth)⟩
    cases ts with
    | nil => simp at hmem
    | cons t' ts => exact List.not_mem_cons_of_ne_of_not_mem ht hts.1 hmem
  induction h with
  | done => simp
  | one h rest ih =>
    refine hcons ?_ ih
    rintro rfl
    cases h
  | repeated h hword rest ih => exact hcons (by simp) ih
  | optional h rest ih => exact hcons (by simp) ih
  | segment hne h rest ihinner ih => exact hcons (by simp) ih
  | rest => simp

/-- The numbers of a level are noted in order, the last one first, and each is new. -/
theorem numbered_eq (h : ReadsLevel depth seen k ts k') :
    k'.numbered = (numbersOf ts).reverse ++ k.numbered ∧
      (k.numbered.Nodup → k'.numbered.Nodup) := by
  have hcons {k k₁ k' : Known} {t : Term} {ts : List Term}
      (ht : k₁.numbered = t.numbers.reverse ++ k.numbered ∧ (k.numbered.Nodup → k₁.numbered.Nodup))
      (hts : k'.numbered = (numbersOf ts).reverse ++ k₁.numbered ∧
        (k₁.numbered.Nodup → k'.numbered.Nodup)) :
      k'.numbered = (numbersOf (t :: ts)).reverse ++ k.numbered ∧
        (k.numbered.Nodup → k'.numbered.Nodup) := by
    refine ⟨?_, hts.2 ∘ ht.2⟩
    rw [hts.1, ht.1, numbersOf, List.reverse_append, List.append_assoc]
  induction h with
  | done => exact ⟨rfl, id⟩
  | one h rest ih => exact hcons h.numbered_eq ih
  | repeated h hword rest ih => exact hcons h.numbered_eq ih
  | optional h rest ih => exact hcons h.numbered_eq ih
  | segment hne h rest ihinner ih => exact hcons ihinner ih
  | rest => exact ⟨rfl, id⟩

/-- Every leaf of a level can be read again on the registry that reading left. -/
theorem readsOne_of_mem (h : ReadsLevel depth seen k ts k') (hk : k.registry.Closed) {d : Nat}
    {leaf : Leaf} (hleaf : leaf ∈ leavesOf d ts) {r : Registry} (hr : k'.registry.Grows r) :
    ∃ numbered numbered', ReadsOne ⟨r, numbered⟩ leaf.term ⟨r, numbered'⟩ := by
  induction h generalizing d with
  | done => simp [leavesOf] at hleaf
  | one h rest ih =>
    rw [leavesOf, h.leaves_eq, List.cons_append, List.mem_cons] at hleaf
    have hone := h.again hk
    rcases hleaf with rfl | hleaf
    · exact ⟨_, _, hone.2 r ((rest.again (hone.closed hk)).1.trans hr)⟩
    · exact ih (hone.closed hk) hleaf hr
  | repeated h hword rest ih | optional h rest ih =>
    rw [leavesOf, leaves, List.cons_append, List.mem_cons] at hleaf
    have hone := h.again hk
    rcases hleaf with rfl | hleaf
    · exact ⟨_, _, hone.2 r ((rest.again (hone.closed hk)).1.trans hr)⟩
    · exact ih (hone.closed hk) hleaf hr
  | segment hne h rest ihinner ih =>
    rw [leavesOf, leaves, List.mem_append] at hleaf
    have hinner := h.again hk
    rcases hleaf with hleaf | hleaf
    · exact ihinner hk hleaf ((rest.again (hinner.closed hk)).1.trans hr)
    · exact ih (hinner.closed hk) hleaf hr
  | rest => simp [leavesOf, leaves] at hleaf

/-- **Terms that are read are well formed**, as far as their leaves are. -/
theorem wellFormed {r : Registry} (h : ReadsLevel 0 false ⟨r, []⟩ ts k') {IsLeaf : Term → Prop}
    (hleaves : ∀ leaf ∈ leavesOf 0 ts, IsLeaf leaf.term) : WellFormed IsLeaf ts where
  oneSegment := by
    rw [List.forall_mem_cons]
    refine ⟨h.countP_isSegment_le, fun level hlevel => ?_⟩
    obtain ⟨-, _, _, _, hread⟩ := h.of_mem_levelsOf hlevel
    exact hread.countP_isSegment_le
  nonempty hmem := (h.of_mem_levelsOf hmem).1 rfl
  lists := by
    rw [List.forall_mem_cons]
    refine ⟨fun _ _ _ => h.list_of_mem, fun level hlevel _ _ _ => ?_⟩
    obtain ⟨-, _, _, _, hread⟩ := h.of_mem_levelsOf hlevel
    exact hread.list_of_mem
  restLast := by
    refine ⟨h.rest_last.1, fun level hlevel => ?_⟩
    obtain ⟨-, _, _, _, hread⟩ := h.of_mem_levelsOf hlevel
    exact hread.rest_last.2 (Nat.succ_ne_zero _)
  leaves := hleaves
  numbers := by
    have hnumbers : k'.numbered = (numbersOf ts).reverse := by simpa using h.numbered_eq.1
    rw [← List.nodup_reverse, ← hnumbers]
    exact h.numbered_eq.2 List.nodup_nil

end ReadsLevel

/-! ## Levels of well-formed terms -/

namespace Term

/-- The levels of well-formed terms, as they are gone through. -/
inductive Nested (IsLeaf : Term → Prop) : (depth : Nat) → (seen : Bool) → List Term → Prop
  | done {depth : Nat} {seen : Bool} : Nested IsLeaf depth seen []
  | one {depth : Nat} {seen : Bool} {t : Term} {ts : List Term} (h : IsLeaf t)
      (rest : Nested IsLeaf depth seen ts) : Nested IsLeaf depth seen (t :: ts)
  | repeated {depth : Nat} {seen : Bool} {t : Term} {ts : List Term} {note : Option String}
      (h : IsLeaf t) (hword : t.isWord = false) (rest : Nested IsLeaf depth seen ts) :
      Nested IsLeaf depth seen (.list t 1 note :: ts)
  | optional {depth : Nat} {seen : Bool} {t : Term} {ts : List Term} {note : Option String}
      (h : IsLeaf t) (rest : Nested IsLeaf depth seen ts) :
      Nested IsLeaf depth seen (.list t 0 note :: ts)
  | segment {depth : Nat} {inner ts : List Term} (hne : inner ≠ [])
      (h : Nested IsLeaf (depth + 1) false inner) (rest : Nested IsLeaf depth true ts) :
      Nested IsLeaf depth false (.segment inner :: ts)
  | rest {seen : Bool} : Nested IsLeaf 0 seen [.rest]

/-- What well-formed terms satisfy from a place in a level on; `seen` tells whether the segment of
the level is behind. -/
structure FormsLevel (IsLeaf : Term → Prop) (depth : Nat) (seen : Bool) (ts : List Term) :
    Prop where
  segments : ts.countP isSegment ≤ if seen then 0 else 1
  inner : ∀ level ∈ levelsOf ts, level ≠ [] ∧ level.countP isSegment ≤ 1 ∧ rest ∉ level
  lists : ∀ level ∈ ts :: levelsOf ts, ∀ element minimum note, list element minimum note ∈ level →
    minimum = 0 ∨ minimum = 1 ∧ element.isWord = false
  restLast : rest ∉ ts.dropLast ∧ (depth ≠ 0 → rest ∉ ts)
  leaves : ∀ leaf ∈ leavesOf depth ts, IsLeaf leaf.term

namespace FormsLevel

variable {IsLeaf : Term → Prop} {depth : Nat} {seen : Bool} {t : Term} {inner ts : List Term}

theorem tail (h : FormsLevel IsLeaf depth seen (t :: ts)) :
    FormsLevel IsLeaf depth (seen || t.isSegment) ts where
  segments := by
    have hsegments := h.segments
    rw [List.countP_cons] at hsegments
    cases seen <;> cases hsegment : t.isSegment <;> simp [hsegment] at hsegments ⊢ <;>
      exact hsegments
  inner level hlevel := h.inner level (List.mem_append_right _ hlevel)
  lists := by
    have hlists := List.forall_mem_cons.1 h.lists
    refine List.forall_mem_cons.2 ⟨fun _ _ _ hmem => ?_, fun level hlevel => ?_⟩
    · exact hlists.1 _ _ _ (List.mem_cons_of_mem t hmem)
    · exact hlists.2 level (List.mem_append_right _ hlevel)
  restLast := by
    refine ⟨fun hmem => h.restLast.1 ?_, fun hdepth hmem => ?_⟩
    · cases ts with
      | nil => simp at hmem
      | cons t' ts => exact List.mem_cons_of_mem t hmem
    · exact h.restLast.2 hdepth (List.mem_cons_of_mem t hmem)
  leaves leaf hleaf := h.leaves leaf (List.mem_append_right _ hleaf)

theorem segment (h : FormsLevel IsLeaf depth seen (.segment inner :: ts)) :
    seen = false ∧ inner ≠ [] ∧ FormsLevel IsLeaf (depth + 1) false inner := by
  have hmem : inner ∈ levelsOf (.segment inner :: ts) := by simp [levelsOf, levels]
  have hinner (level : List Term) (hlevel : level ∈ levelsOf inner) :
      level ∈ levelsOf (.segment inner :: ts) := by
    simp [levelsOf, levels, hlevel]
  obtain ⟨hne, hone, hrest⟩ := h.inner inner hmem
  refine ⟨?_, hne, ?_⟩
  · have hsegments := h.segments
    rw [List.countP_cons_of_pos rfl] at hsegments
    cases seen
    · rfl
    · simp at hsegments
  · refine ⟨by simpa using hone, fun level hlevel => h.inner level (hinner level hlevel), ?_,
      ⟨fun hmem => hrest (List.mem_of_mem_dropLast hmem), fun _ => hrest⟩,
      fun leaf hleaf => h.leaves leaf (List.mem_append_left _ hleaf)⟩
    refine List.forall_mem_cons.2 ⟨h.lists inner (List.mem_cons_of_mem _ hmem), ?_⟩
    exact fun level hlevel => h.lists level (List.mem_cons_of_mem _ (hinner level hlevel))

theorem nested {depth : Nat} {seen : Bool} {ts : List Term} (h : FormsLevel IsLeaf depth seen ts) :
    Nested IsLeaf depth seen ts := by
  match ts with
  | [] => exact .done
  | t :: ts =>
    have htail := nested h.tail
    have hleaf (leaf : Leaf) (hmem : leaf ∈ t.leaves depth) : IsLeaf leaf.term :=
      h.leaves leaf (List.mem_append_left _ hmem)
    cases t with
    | segment inner =>
      obtain ⟨rfl, hne, hinner⟩ := h.segment
      exact .segment hne (nested hinner) htail
    | list element minimum note =>
      simp only [isSegment, Bool.or_false] at htail
      have helement := hleaf _ (List.mem_singleton_self _)
      rcases (List.forall_mem_cons.1 h.lists).1 _ _ _ List.mem_cons_self with rfl | ⟨rfl, hword⟩
      · exact .optional helement htail
      · exact .repeated helement hword htail
    | rest =>
      have hts : ts = [] := by
        by_contra hne
        exact h.restLast.1 (by rw [List.dropLast_cons_of_ne_nil hne]; exact List.mem_cons_self)
      have hdepth : depth = 0 := by
        by_contra hne
        exact h.restLast.2 hne List.mem_cons_self
      subst hts hdepth
      exact .rest
    | _ =>
      simp only [isSegment, Bool.or_false] at htail
      exact .one (hleaf _ (List.mem_singleton_self _)) htail

end FormsLevel

/-- **Well-formed terms are levels inside each other.** -/
theorem WellFormed.nested {IsLeaf : Term → Prop} {ts : List Term} (h : WellFormed IsLeaf ts) :
    Nested IsLeaf 0 false ts := by
  refine FormsLevel.nested ⟨by simpa using h.oneSegment ts (by simp), fun level hlevel => ?_,
    h.lists, ⟨h.restLast.1, fun hne => absurd rfl hne⟩, h.leaves⟩
  refine ⟨fun hnil => h.nonempty (hnil ▸ hlevel), ?_, h.restLast.2 level hlevel⟩
  exact h.oneSegment level (List.mem_cons_of_mem _ hlevel)

end Term

end Synopsis
