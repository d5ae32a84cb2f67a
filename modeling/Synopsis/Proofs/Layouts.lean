import Synopsis.Proofs.Expansions

/-!
# What a layout keeps of its terms

`Layout.Fits` says how the parameters of a layout stand for terms: in order, with the segments
around each counted, and with at most one list, which lies at the greatest depth. The layout of a
level fits it (`fits_of_ofTerms`).
-/

namespace Synopsis

/-- The parameters of a layout stand for the terms, and its list may be told from its depth. -/
structure Layout.Fits (l : Layout) (ts : List Term) : Prop where
  deepest : l.deepest = Term.nestingOf ts
  numbered : Numbered 0 (Term.leavesOf 0 ts) l.parameters
  depth_le : ∀ p ∈ l.parameters, p.depth ≤ l.deepest
  list_deepest : ∀ p ∈ l.parameters, p.recurs → p.depth = l.deepest
  one_list : l.parameters.Pairwise fun p q => p.recurs → q.recurs = false

namespace Parameter

/-- What the other parameters decide about one is its aliases. -/
theorem withAliases_eq_map (ps : List Parameter) :
    ∃ aliasesOf : Parameter → List String,
      withAliases ps = ps.map fun p => { p with aliases := aliasesOf p } := by
  refine ⟨fun p => if namesType p then
    (if isUnique ps typeAlias p then [typeAlias p] else []) ++
      (if isUnique ps identifierAlias p then [identifierAlias p] else []) else p.aliases, ?_⟩
  refine List.map_congr_left fun p _ => ?_
  by_cases hp : namesType p <;> simp [hp]

end Parameter

/-! ## Leaves and their depths -/

namespace Level

variable {seen : Bool} {ts : List Term}

theorem depth_le_of_mem (h : Level seen ts) {depth : Nat} {leaf : Leaf}
    (hleaf : leaf ∈ Term.leavesOf depth ts) : leaf.depth ≤ depth + Term.nestingOf ts := by
  induction h generalizing depth with
  | done => simp [Term.leavesOf] at hleaf
  | parameter h rest ih =>
    obtain ⟨leaf', hleaf', rfl, -⟩ := h.leaves depth
    rw [Term.leavesOf, hleaf', List.mem_append, List.mem_singleton] at hleaf
    rw [Term.nestingOf]
    rcases hleaf with rfl | hleaf
    · exact Nat.le_add_right _ _
    · have := ih hleaf
      omega
  | segment hne h rest ihinner ih =>
    rw [Term.leavesOf, Term.leaves, List.mem_append] at hleaf
    rw [Term.nestingOf, Term.nesting]
    rcases hleaf with hleaf | hleaf
    · have := ihinner hleaf
      omega
    · have := ih hleaf
      omega
  | rest => simp [Term.leavesOf, Term.leaves] at hleaf

end Level

theorem numbered_map {first : Nat} {leaves : List Leaf} {ps : List Parameter}
    (aliasesOf : Parameter → List String) (h : Numbered first leaves ps) :
    Numbered first leaves (ps.map fun p => { p with aliases := aliasesOf p }) := by
  induction h with
  | nil => exact .nil
  | cons index depth recurs minimum rest ih => exact .cons index depth recurs minimum ih

theorem length_of_numbered {first : Nat} {leaves : List Leaf} {ps : List Parameter}
    (h : Numbered first leaves ps) : ps.length = leaves.length := by
  induction h with
  | nil => rfl
  | cons index depth recurs minimum rest ih => rw [List.length_cons, ih, List.length_cons]

theorem map_index_of_numbered {first : Nat} {leaves : List Leaf} {ps : List Parameter}
    (h : Numbered first leaves ps) : ps.map Parameter.index = List.range' first ps.length := by
  induction h with
  | nil => rfl
  | cons index depth recurs minimum rest ih =>
    rw [List.map_cons, List.length_cons, List.range'_succ, index, ih]

theorem ReadsOne.subject?_ne_none {k k' : Known} {t : Term} (h : ReadsOne k t k') (r : Registry) :
    t.subject? r ≠ none := by
  cases h <;> simp [Term.subject?]

namespace Layout.Fits

variable {l : Layout} {ts : List Term}

theorem pairwise_index (hl : l.Fits ts) :
    l.parameters.Pairwise fun p q => p.index < q.index := by
  have h : (l.parameters.map Parameter.index).Pairwise (· < ·) := by
    rw [map_index_of_numbered hl.numbered]
    exact List.pairwise_lt_range'
  exact List.pairwise_map.1 h

theorem index_injective (hl : l.Fits ts) {p q : Parameter} (hp : p ∈ l.parameters)
    (hq : q ∈ l.parameters) (h : p.index = q.index) : p = q := by
  have hnodup : (l.parameters.map Parameter.index).Nodup := by
    rw [map_index_of_numbered hl.numbered]
    exact List.nodup_range'
  exact List.inj_on_of_nodup_map hnodup hp hq h

end Layout.Fits

/-! ## The layout of a level -/

namespace Layout

theorem gather_cons_ok_iff {deepest index : Nat} {list : Option String} {leaf : Leaf}
    {leaves : List Leaf} {type : ValueType} {typeName identifier : String} {r r₁ r' : Registry}
    {ps : List Parameter} (hsubject : leaf.term.subject? r = some ((type, typeName, identifier), r₁)) :
    gather deepest (leaf :: leaves) index list r = .ok ps r' ↔
      (leaf.recurs → list = none ∧ leaf.depth = deepest) ∧
      ∃ rest, gather deepest leaves (index + 1) (if leaf.recurs then some identifier else list) r₁ =
          .ok rest r' ∧
        ps = { index, depth := leaf.depth, type, recurs := leaf.recurs, minimum := leaf.minimum,
               typeName, identifier, note := leaf.note } :: rest := by
  cases hrecurs : leaf.recurs
  · simp [gather, hsubject, hrecurs]
  · cases list <;> by_cases hdepth : leaf.depth = deepest <;>
      simp [gather, hsubject, hrecurs, hdepth]

/-- What gathering leaves comes to: a parameter for each, and no second list. -/
theorem gather_sound {deepest index : Nat} {list : Option String} {leaves : List Leaf}
    {r r' : Registry} {ps : List Parameter}
    (hleaves : ∀ leaf ∈ leaves, ∃ k k', ReadsOne k leaf.term k')
    (h : gather deepest leaves index list r = .ok ps r') :
    Numbered index leaves ps ∧
      (∀ p ∈ ps, p.recurs → list = none ∧ p.depth = deepest) ∧
      ps.Pairwise fun p q => p.recurs → q.recurs = false := by
  induction leaves generalizing index list r ps with
  | nil =>
    obtain ⟨rfl, rfl⟩ := by simpa [gather] using h
    exact ⟨.nil, by simp, .nil⟩
  | cons leaf leaves ih =>
    obtain ⟨k, k', hone⟩ := hleaves leaf (by simp)
    obtain ⟨⟨⟨type, typeName, identifier⟩, r₁⟩, hsubject⟩ :=
      Option.ne_none_iff_exists'.1 (hone.subject?_ne_none r)
    obtain ⟨hlist, rest, hrest, rfl⟩ := (gather_cons_ok_iff hsubject).1 h
    obtain ⟨hnumbered, hdeepest, hone_list⟩ := ih (fun l hl => hleaves l (by simp [hl])) hrest
    refine ⟨.cons rfl rfl rfl rfl hnumbered, ?_, List.pairwise_cons.2 ⟨?_, hone_list⟩⟩
    · intro p hp hrecurs
      rcases List.mem_cons.1 hp with rfl | hp
      · exact hlist hrecurs
      · obtain ⟨hnone, hdepth⟩ := hdeepest p hp hrecurs
        refine ⟨?_, hdepth⟩
        split at hnone
        · simp at hnone
        · exact hnone
    · -- after a list no other may come: the rest was gathered knowing of it
      intro q hq hrecurs
      by_contra hq'
      obtain ⟨hnone, -⟩ := hdeepest q hq (by simpa using hq')
      simp [show leaf.recurs = true from hrecurs] at hnone

theorem ofTerms_ok_iff {ts : List Term} {r r' : Registry} {l : Layout} :
    ofTerms ts r = .ok l r' ↔
      ∃ ps layout, gather (Term.nestingOf ts) (Term.leavesOf 0 ts) 0 none r = .ok ps r' ∧
        layout = Layout.mk (Parameter.withAliases ps) (Term.nestingOf ts) none ∧
        (Term.anyHasRest ts → layout.list? = none) ∧
        l = if Term.anyHasRest ts then { layout with tailStart := layout.longest } else layout := by
  simp only [ofTerms, keeping_bind_ok_iff]
  refine exists_congr fun ps => ?_
  cases hrest : Term.anyHasRest ts
  · simp [and_comm]
  · cases hlist : (Layout.mk (Parameter.withAliases ps) (Term.nestingOf ts) none).list? <;>
      simp [hlist, and_comm]

/-- **The layout of a level fits it.** -/
theorem fits_of_ofTerms {seen : Bool} {ts : List Term} {r r' : Registry} {l : Layout}
    (hts : Level seen ts) (h : ofTerms ts r = .ok l r') : l.Fits ts := by
  obtain ⟨ps, layout, hgather, rfl, -, rfl⟩ := ofTerms_ok_iff.1 h
  have hleaves (leaf : Leaf) (hleaf : leaf ∈ Term.leavesOf 0 ts) := (hts.leaf_of_mem hleaf).2
  obtain ⟨hnumbered, hdeepest, hone⟩ := gather_sound hleaves hgather
  obtain ⟨aliasesOf, haliases⟩ := Parameter.withAliases_eq_map ps
  have hdepth (p : Parameter) (hp : p ∈ ps) : p.depth ≤ Term.nestingOf ts := by
    obtain ⟨leaf, hleaf, heq⟩ := depth_mem_of_numbered hnumbered hp
    have := hts.depth_le_of_mem hleaf
    omega
  have hfits : (Layout.mk (Parameter.withAliases ps) (Term.nestingOf ts) none).Fits ts := by
    rw [haliases]
    refine ⟨rfl, numbered_map aliasesOf hnumbered, ?_, ?_, ?_⟩
    · simpa using hdepth
    · simpa using fun p hp hrecurs => (hdeepest p hp hrecurs).2
    · exact List.pairwise_map.2 hone
  split
  · exact ⟨hfits.deepest, hfits.numbered, hfits.depth_le, hfits.list_deepest, hfits.one_list⟩
  · exact hfits

end Layout

end Synopsis
