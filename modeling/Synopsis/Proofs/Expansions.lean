import Synopsis.Layout.Arrangement
import Synopsis.Proofs.Levels

/-!
# The language of the positional terms

Read as a language, a segment is dropped whole or replaced by an expansion of what it holds,
`X...` stands for one or more copies of `X` and `[X]...` for any number, the trailing capture for
nothing and every other term for itself. An expansion is given by the parameters in it, each as its
number: the terms of a usage have their parameters numbered in order.

A layout has no segments left: each parameter has the number of segments around it. Up to a depth
it spells what its parameters take there.

**Theorem (`expandsAll_iff_spells`).** A level expands to what its parameters spell up to some
depth, from the depth of the level to that of its innermost segment.

A level has at most one segment, so dropping it is stopping at the depth of the level and keeping
it is going on to a depth inside. The induction is on the level; the terms beside the segment are
the same at every depth (`expandsAll_iff_of_seen`).
-/

namespace Synopsis

namespace Term

mutual

/-- The number of parameters of a term. -/
def width : Term → Nat
  | segment terms => widthOf terms
  | list element _ _ => element.width
  | rest => 0
  | _ => 1

def widthOf : List Term → Nat
  | [] => 0
  | t :: ts => t.width + widthOf ts

end

mutual

/-- `e` is an expansion of the term, whose parameters are numbered from `first` on. -/
def Expands : (t : Term) → (first : Nat) → (e : List Nat) → Prop
  | segment terms, first, e => e = [] ∨ ExpandsAll terms first e
  | list element minimum _, first, e => ∃ copies : List (List Nat),
      minimum ≤ copies.length ∧ (∀ copy ∈ copies, element.Expands first copy) ∧ e = copies.flatten
  | rest, _, e => e = []
  | _, first, e => e = [first]

/-- `e` is an expansion of the terms one after the other. -/
def ExpandsAll : (ts : List Term) → (first : Nat) → (e : List Nat) → Prop
  | [], _, e => e = []
  | t :: ts, first, e => ∃ e₁ e₂,
      t.Expands first e₁ ∧ ExpandsAll ts (first + t.width) e₂ ∧ e = e₁ ++ e₂

end

end Term

/-! ## What parameters spell -/

/-- How many values a parameter takes when the parameters up to `depth` are filled. -/
def Parameter.Takes (p : Parameter) (depth n : Nat) : Prop :=
  if p.depth ≤ depth then if p.recurs then p.minimum ≤ n else n = 1 else n = 0

/-- `e` has the number of each parameter as often as it takes a value, in order. -/
def Spells (depth : Nat) : List Parameter → (e : List Nat) → Prop
  | [], e => e = []
  | p :: ps, e => ∃ n e', p.Takes depth n ∧ Spells depth ps e' ∧ e = List.replicate n p.index ++ e'

/-- The parameters stand for the leaves, numbered from `first` on. -/
inductive Numbered : (first : Nat) → List Leaf → List Parameter → Prop
  | nil {first : Nat} : Numbered first [] []
  | cons {first : Nat} {leaf : Leaf} {leaves : List Leaf} {p : Parameter} {ps : List Parameter}
      (index : p.index = first) (depth : p.depth = leaf.depth) (recurs : p.recurs = leaf.recurs)
      (minimum : p.minimum = leaf.minimum) (rest : Numbered (first + 1) leaves ps) :
      Numbered first (leaf :: leaves) (p :: ps)

theorem spells_append_iff {depth : Nat} {ps qs : List Parameter} {e : List Nat} :
    Spells depth (ps ++ qs) e ↔
      ∃ e₁ e₂, Spells depth ps e₁ ∧ Spells depth qs e₂ ∧ e = e₁ ++ e₂ := by
  induction ps generalizing e with
  | nil => simp [Spells]
  | cons p ps ih =>
    simp only [List.cons_append, Spells, ih]
    constructor
    · rintro ⟨n, _, hn, ⟨e₁, e₂, h₁, h₂, rfl⟩, rfl⟩
      exact ⟨_, e₂, ⟨n, e₁, hn, h₁, rfl⟩, h₂, by simp⟩
    · rintro ⟨_, e₂, ⟨n, e₁, hn, h₁, rfl⟩, h₂, rfl⟩
      exact ⟨n, _, hn, ⟨e₁, e₂, h₁, h₂, rfl⟩, by simp⟩

/-- Parameters that all lie deeper spell nothing. -/
theorem spells_iff_of_deeper {depth : Nat} {ps : List Parameter} {e : List Nat}
    (h : ∀ p ∈ ps, depth < p.depth) : Spells depth ps e ↔ e = [] := by
  induction ps generalizing e with
  | nil => rfl
  | cons p ps ih =>
    have hp : ¬p.depth ≤ depth := Nat.not_le.2 (h p (by simp))
    have hps (e' : List Nat) : Spells depth ps e' ↔ e' = [] :=
      ih fun q hq => h q (by simp [hq])
    simp [Spells, Parameter.Takes, hp, hps]

theorem numbered_append {first : Nat} {l₁ l₂ : List Leaf} {ps : List Parameter}
    (h : Numbered first (l₁ ++ l₂) ps) :
    ∃ ps₁ ps₂, Numbered first l₁ ps₁ ∧ Numbered (first + l₁.length) l₂ ps₂ ∧ ps = ps₁ ++ ps₂ := by
  induction l₁ generalizing first ps with
  | nil => exact ⟨[], ps, .nil, h, rfl⟩
  | cons leaf l₁ ih =>
    cases h with
    | cons index depth recurs minimum rest =>
      obtain ⟨ps₁, ps₂, h₁, h₂, rfl⟩ := ih rest
      refine ⟨_, ps₂, .cons index depth recurs minimum h₁, ?_, rfl⟩
      simpa [Nat.add_assoc, Nat.add_comm 1] using h₂

theorem depth_mem_of_numbered {first : Nat} {leaves : List Leaf} {ps : List Parameter}
    (h : Numbered first leaves ps) {p : Parameter} (hp : p ∈ ps) :
    ∃ leaf ∈ leaves, p.depth = leaf.depth := by
  induction h with
  | nil => simp at hp
  | cons index depth recurs minimum rest ih =>
    rcases List.mem_cons.1 hp with rfl | hp
    · exact ⟨_, by simp, depth⟩
    · obtain ⟨leaf, hleaf, heq⟩ := ih hp
      exact ⟨leaf, by simp [hleaf], heq⟩

/-! ## Levels without their reading -/

/-- The term stands for one parameter: a list, with its least number of values, or a single value,
with 1. -/
structure Term.IsParameter (t : Term) (recurs : Bool) (minimum : Nat) : Prop where
  width : t.width = 1
  nesting : t.nesting = 0
  leaves : ∀ depth, ∃ leaf, t.leaves depth = [leaf] ∧ leaf.depth = depth ∧ leaf.recurs = recurs ∧
    leaf.minimum = minimum ∧ ∃ k k', ReadsOne k leaf.term k'
  expands : ∀ first e, t.Expands first e ↔
    ∃ n, (if recurs then minimum ≤ n else n = 1) ∧ e = List.replicate n first

/-- The terms of a level, of which at most one is a segment and at most the last is the trailing
capture. -/
inductive Level : (seen : Bool) → List Term → Prop
  | done {seen : Bool} : Level seen []
  | parameter {seen recurs : Bool} {minimum : Nat} {t : Term} {ts : List Term}
      (h : t.IsParameter recurs minimum) (rest : Level seen ts) : Level seen (t :: ts)
  | segment {inner ts : List Term} (hne : inner ≠ []) (h : Level false inner)
      (rest : Level true ts) : Level false (.segment inner :: ts)
  | rest {seen : Bool} : Level seen [.rest]

namespace ReadsOne

variable {k k' : Known} {t : Term}

theorem expands_iff (h : ReadsOne k t k') {first : Nat} {e : List Nat} :
    t.Expands first e ↔ e = [first] := by
  cases h <;> rfl

theorem isParameter (h : ReadsOne k t k') : t.IsParameter false 1 where
  width := by cases h <;> rfl
  nesting := by cases h <;> rfl
  leaves depth := by
    refine ⟨{ term := t, depth }, ?_, rfl, rfl, rfl, k, k', h⟩
    cases h <;> rfl
  expands first e := by
    rw [h.expands_iff]
    simp

theorem isParameter_list (h : ReadsOne k t k') (minimum : Nat) (note : Option String) :
    (Term.list t minimum note).IsParameter true minimum where
  width := h.isParameter.width
  nesting := rfl
  leaves depth := ⟨_, rfl, rfl, rfl, rfl, k, k', h⟩
  expands first e := by
    simp only [Term.Expands, h.expands_iff, if_true]
    constructor
    · rintro ⟨copies, hminimum, hcopies, rfl⟩
      refine ⟨copies.length, hminimum, ?_⟩
      rw [List.eq_replicate_of_mem hcopies]
      simp
    · rintro ⟨n, hminimum, rfl⟩
      exact ⟨List.replicate n [first], by simpa using hminimum, by simp, by simp⟩

end ReadsOne

theorem ReadsLevel.level {depth : Nat} {seen : Bool} {k k' : Known} {ts : List Term}
    (h : ReadsLevel depth seen k ts k') : Level seen ts := by
  induction h with
  | done => exact .done
  | one h rest ih => exact .parameter h.isParameter ih
  | repeated h hword rest ih => exact .parameter (h.isParameter_list 1 _) ih
  | optional h rest ih => exact .parameter (h.isParameter_list 0 _) ih
  | segment hne h rest ihinner ih => exact .segment hne ihinner ih
  | rest => exact .rest

/-! ## What a level expands to -/

namespace Level

variable {seen : Bool} {ts : List Term}

theorem length_leavesOf (h : Level seen ts) (depth : Nat) :
    (Term.leavesOf depth ts).length = Term.widthOf ts := by
  induction h generalizing depth with
  | done => rfl
  | parameter h rest ih =>
    obtain ⟨leaf, hleaf, -⟩ := h.leaves depth
    rw [Term.leavesOf, Term.widthOf, h.width, hleaf, List.length_append, ih]
    rfl
  | segment hne h rest ihinner ih =>
    rw [Term.leavesOf, Term.widthOf, List.length_append, ih, Term.leaves, ihinner, Term.width]
  | rest => rfl

theorem leaf_of_mem (h : Level seen ts) {depth : Nat} {leaf : Leaf}
    (hleaf : leaf ∈ Term.leavesOf depth ts) :
    depth ≤ leaf.depth ∧ ∃ k k', ReadsOne k leaf.term k' := by
  induction h generalizing depth with
  | done => simp [Term.leavesOf] at hleaf
  | parameter h rest ih =>
    obtain ⟨leaf', hleaf', rfl, -, -, hone⟩ := h.leaves depth
    rw [Term.leavesOf, hleaf', List.mem_append, List.mem_singleton] at hleaf
    rcases hleaf with rfl | hleaf
    · exact ⟨Nat.le_refl _, hone⟩
    · exact ih hleaf
  | segment hne h rest ihinner ih =>
    rw [Term.leavesOf, Term.leaves, List.mem_append] at hleaf
    rcases hleaf with hleaf | hleaf
    · obtain ⟨hdepth, hone⟩ := ihinner hleaf
      exact ⟨Nat.le_of_succ_le hdepth, hone⟩
    · exact ih hleaf
  | rest => simp [Term.leavesOf, Term.leaves] at hleaf

theorem nestingOf_of_seen (h : Level true ts) : Term.nestingOf ts = 0 := by
  generalize hseen : true = seen at h
  induction h with
  | done => rfl
  | parameter h rest ih => simp [Term.nestingOf, h.nesting, ih hseen]
  | segment => simp at hseen
  | rest => rfl

theorem expandsAll_cons_iff {recurs : Bool} {minimum first : Nat} {t : Term} {e : List Nat}
    (h : t.IsParameter recurs minimum) :
    Term.ExpandsAll (t :: ts) first e ↔
      ∃ n e', (if recurs then minimum ≤ n else n = 1) ∧ Term.ExpandsAll ts (first + 1) e' ∧
        e = List.replicate n first ++ e' := by
  simp only [Term.ExpandsAll, h.width, h.expands]
  constructor
  · rintro ⟨_, e', ⟨n, hn, rfl⟩, he', rfl⟩
    exact ⟨n, e', hn, he', rfl⟩
  · rintro ⟨n, e', hn, he', rfl⟩
    exact ⟨_, e', ⟨n, hn, rfl⟩, he', rfl⟩

theorem spells_cons_iff {d : Nat} {p : Parameter} {ps : List Parameter} {e : List Nat}
    (hd : p.depth ≤ d) :
    Spells d (p :: ps) e ↔
      ∃ n e', (if p.recurs then p.minimum ≤ n else n = 1) ∧ Spells d ps e' ∧
        e = List.replicate n p.index ++ e' := by
  simp only [Spells, Parameter.Takes, if_pos hd]

/-- Without a segment, a level expands to what its parameters spell at any depth. -/
theorem expandsAll_iff_of_seen (h : Level true ts) {first depth d : Nat} {ps : List Parameter}
    {e : List Nat} (hps : Numbered first (Term.leavesOf depth ts) ps) (hd : depth ≤ d) :
    Term.ExpandsAll ts first e ↔ Spells d ps e := by
  generalize hseen : true = seen at h
  induction h generalizing first ps e with
  | done =>
    cases hps
    rfl
  | parameter h rest ih =>
    obtain ⟨leaf, hleaf, rfl, rfl, rfl, -⟩ := h.leaves depth
    rw [Term.leavesOf, hleaf] at hps
    cases hps with
    | cons hindex hdepth hrecurs hminimum hps =>
      have hts (e' : List Nat) := @ih _ _ e' hps hseen
      simp only [expandsAll_cons_iff h, spells_cons_iff (hdepth ▸ hd), hrecurs, hminimum, hindex,
        hts]
  | segment => simp at hseen
  | rest =>
    cases hps
    simp [Term.ExpandsAll, Term.Expands, Spells]

/-- **A level expands to what its parameters spell up to some depth.** -/
theorem expandsAll_iff_spells (h : Level seen ts) {first depth : Nat} {ps : List Parameter}
    {e : List Nat} (hps : Numbered first (Term.leavesOf depth ts) ps) :
    Term.ExpandsAll ts first e ↔
      ∃ d, depth ≤ d ∧ d ≤ depth + Term.nestingOf ts ∧ Spells d ps e := by
  induction h generalizing first depth ps e with
  | done =>
    cases hps
    exact ⟨fun he => ⟨depth, Nat.le_refl _, Nat.le_refl _, he⟩, fun ⟨_, _, _, he⟩ => he⟩
  | @parameter _ _ _ t ts h rest ih =>
    obtain ⟨leaf, hleaf, rfl, rfl, rfl, -⟩ := h.leaves depth
    have hnesting : Term.nestingOf (t :: ts) = Term.nestingOf ts := by
      simp [Term.nestingOf, h.nesting]
    rw [Term.leavesOf, hleaf] at hps
    rw [hnesting, expandsAll_cons_iff h]
    cases hps with
    | cons hindex hdepth hrecurs hminimum hps =>
      rw [← hrecurs, ← hminimum, ← hindex]
      constructor
      · rintro ⟨n, e', hn, he', rfl⟩
        obtain ⟨d, hd, hd', he'⟩ := (ih hps).1 (hindex ▸ he')
        exact ⟨d, hd, hd', (spells_cons_iff (hdepth ▸ hd)).2 ⟨n, e', hn, he', rfl⟩⟩
      · rintro ⟨d, hd, hd', he⟩
        obtain ⟨n, e', hn, he', rfl⟩ := (spells_cons_iff (hdepth ▸ hd)).1 he
        exact ⟨n, e', hn, hindex ▸ (ih hps).2 ⟨d, hd, hd', he'⟩, rfl⟩
  | @segment inner ts hne h rest ihinner ih =>
    obtain ⟨ps₁, ps₂, hps₁, hps₂, rfl⟩ := numbered_append hps
    rw [Term.leaves, h.length_leavesOf] at hps₂
    have hnesting : Term.nestingOf (.segment inner :: ts) = Term.nestingOf inner + 1 := by
      simp [Term.nestingOf, Term.nesting, rest.nestingOf_of_seen]
    have hdeeper : ∀ p ∈ ps₁, depth < p.depth := by
      intro p hp
      obtain ⟨leaf, hleaf, hdepth⟩ := depth_mem_of_numbered hps₁ hp
      rw [hdepth]
      exact (h.leaf_of_mem hleaf).1
    simp only [Term.ExpandsAll, Term.Expands, Term.width, hnesting]
    constructor
    · rintro ⟨e₁, e₂, rfl | he₁, he₂, rfl⟩
      · -- the segment is dropped: stop at the depth of the level
        refine ⟨depth, Nat.le_refl _, by omega, spells_append_iff.2 ⟨[], _, ?_, ?_, rfl⟩⟩
        · exact (spells_iff_of_deeper hdeeper).2 rfl
        · exact (rest.expandsAll_iff_of_seen hps₂ (Nat.le_refl _)).1 he₂
      · obtain ⟨d, hd, hd', he₁⟩ := (ihinner hps₁).1 he₁
        refine ⟨d, by omega, by omega, spells_append_iff.2 ⟨e₁, e₂, he₁, ?_, rfl⟩⟩
        exact (rest.expandsAll_iff_of_seen hps₂ (by omega)).1 he₂
    · rintro ⟨d, hd, hd', he⟩
      obtain ⟨e₁, e₂, he₁, he₂, rfl⟩ := spells_append_iff.1 he
      refine ⟨e₁, e₂, ?_, (rest.expandsAll_iff_of_seen hps₂ hd).2 he₂, rfl⟩
      rcases Nat.eq_or_lt_of_le hd with rfl | hlt
      · exact Or.inl ((spells_iff_of_deeper hdeeper).1 he₁)
      · exact Or.inr ((ihinner hps₁).2 ⟨d, hlt, by omega, he₁⟩)
  | rest =>
    cases hps
    constructor
    · intro he
      refine ⟨depth, Nat.le_refl _, Nat.le_add_right _ _, ?_⟩
      simpa [Term.ExpandsAll, Term.Expands, Spells] using he
    · rintro ⟨d, -, -, he⟩
      simpa [Term.ExpandsAll, Term.Expands, Spells] using he

end Level

end Synopsis
