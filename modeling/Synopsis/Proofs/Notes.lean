import Synopsis.Proofs.Compiled
import Synopsis.Proofs.Layouts
import Synopsis.Proofs.Registries

/-!
# Usages without their notes

A note is shown to a reader and changes nothing else. `bare` drops the notes of a term, an option, a
layout and a usage: what is left is written the same and has the same table, and bare terms have the
bare layout (`Layout.ofTerms_again`), on every registry that has grown from the one the terms left.
-/

namespace Synopsis

open Registry (Grows)

namespace Term

mutual

/-- The term without its notes. -/
def bare : Term → Term
  | option declaration => option { declaration with note := none }
  | list element minimum _ => list element.bare minimum none
  | segment terms => segment (bareAll terms)
  | t => t

def bareAll : List Term → List Term
  | [] => []
  | t :: ts => t.bare :: bareAll ts

end

mutual

@[simp] theorem write_bare (t : Term) : t.bare.write = t.write := by
  cases t with
  | option declaration => rfl
  | list element minimum note => simp [bare, write, write_bare element]
  | segment terms => simp [bare, write, writeAll_bareAll terms]
  | _ => simp [bare]

@[simp] theorem writeAll_bareAll (ts : List Term) : writeAll (bareAll ts) = writeAll ts := by
  cases ts with
  | nil => rfl
  | cons t ts => simp [bareAll, writeAll, write_bare t, writeAll_bareAll ts]

end

mutual

theorem nesting_bare (t : Term) : t.bare.nesting = t.nesting := by
  cases t with
  | segment terms => simp [bare, nesting, nestingOf_bareAll terms]
  | _ => simp [bare, nesting]

theorem nestingOf_bareAll (ts : List Term) : nestingOf (bareAll ts) = nestingOf ts := by
  cases ts with
  | nil => rfl
  | cons t ts => simp [bareAll, nestingOf, nesting_bare t, nestingOf_bareAll ts]

end

mutual

theorem hasRest_bare (t : Term) : t.bare.hasRest = t.hasRest := by
  cases t with
  | segment terms => simp [bare, hasRest, anyHasRest_bareAll terms]
  | _ => simp [bare, hasRest]

theorem anyHasRest_bareAll (ts : List Term) : anyHasRest (bareAll ts) = anyHasRest ts := by
  cases ts with
  | nil => rfl
  | cons t ts => simp [bareAll, anyHasRest, hasRest_bare t, anyHasRest_bareAll ts]

end

theorem subject?_bare (t : Term) (r : Registry) : t.bare.subject? r = t.subject? r := by
  cases t <;> rfl

end Term

def Leaf.bare (leaf : Leaf) : Leaf := { leaf with term := leaf.term.bare, note := none }

namespace Term

mutual

theorem leaves_bare (t : Term) (depth : Nat) :
    t.bare.leaves depth = (t.leaves depth).map Leaf.bare := by
  cases t with
  | segment terms => simp [bare, leaves, leavesOf_bareAll terms]
  | _ => simp [bare, leaves, Leaf.bare]

theorem leavesOf_bareAll (ts : List Term) (depth : Nat) :
    leavesOf depth (bareAll ts) = (leavesOf depth ts).map Leaf.bare := by
  cases ts with
  | nil => rfl
  | cons t ts => simp [bareAll, leavesOf, leaves_bare t, leavesOf_bareAll ts]

end

end Term

/-! ## Options -/

def OptionSpec.bare (o : OptionSpec) : OptionSpec := { o with note := none }

theorem OptionSpec.describe_bare (o : OptionSpec) : o.bare.describe = o.describe := rfl

theorem SwitchTable.build_bare (options : List OptionSpec) :
    build (options.map OptionSpec.bare) = build options := by
  rw [build, build, List.flatMap_map]
  rfl

/-! ## Layouts -/

def Parameter.bare (p : Parameter) : Parameter := { p with note := none }

theorem Parameter.isUnique_bare (ps : List Parameter) (aliasOf : Parameter → String) (p : Parameter)
    (h : ∀ p, aliasOf (bare p) = aliasOf p) :
    isUnique (ps.map bare) aliasOf p.bare = isUnique ps aliasOf p := by
  have hnames : namesType ∘ bare = namesType := rfl
  have halias : aliasOf ∘ bare = aliasOf := funext h
  simp only [isUnique, List.filter_map, List.map_map, hnames, halias, h]

theorem Parameter.withAliases_bare (ps : List Parameter) :
    withAliases (ps.map bare) = (withAliases ps).map bare := by
  simp only [withAliases, List.map_map]
  refine List.map_congr_left fun p _ => ?_
  have htype := isUnique_bare ps typeAlias p fun _ => rfl
  have hidentifier := isUnique_bare ps identifierAlias p fun _ => rfl
  simp only [Function.comp_apply, htype, hidentifier]
  by_cases hp : namesType p
  · rw [if_pos (show namesType p.bare = true from hp), if_pos hp]
    rfl
  · rw [if_neg (show ¬namesType p.bare = true from hp), if_neg hp]

namespace Layout

def bare (l : Layout) : Layout := { l with parameters := l.parameters.map Parameter.bare }

theorem list?_bare (l : Layout) : l.bare.list? = l.list?.map Parameter.bare := by
  rw [list?, bare, List.find?_map]
  rfl

theorem branch_bare (l : Layout) (depth : Nat) : l.bare.branch depth = l.branch depth := by
  have hfixed (depth : Nat) : l.bare.fixed depth = l.fixed depth := by
    simp only [fixed, bare, List.filter_map, List.length_map]
    rfl
  rw [branch, branch, list?_bare, hfixed]
  cases l.list? <;> rfl

theorem longest_bare (l : Layout) : l.bare.longest = l.longest := by
  rw [longest, longest, branch_bare]
  rfl

/-- What a term stands for is found again. -/
theorem subject?_again {t : Term} {r r₁ : Registry} {subject : ValueType × String × String}
    (h : t.subject? r = some (subject, r₁)) :
    Grows r r₁ ∧ ∀ r', Grows r₁ r' → t.subject? r' = some (subject, r') := by
  cases t with
  | word text =>
    simp only [Term.subject?, Option.some.injEq, Prod.mk.injEq] at h
    obtain ⟨rfl, rfl⟩ := h
    refine ⟨Registry.grows_keep r _, fun r' hr' => ?_⟩
    have hkept : r'.word text = ((r.word text).1, r') :=
      Registry.keep_of_some (hr'.types (Registry.types_keep r (.word text)))
    simp only [Term.subject?, hkept]
  | typed type identifier number =>
    obtain ⟨rfl, rfl⟩ := by simpa [Term.subject?] using h
    exact ⟨.refl _, fun _ _ => rfl⟩
  | union type names =>
    obtain ⟨rfl, rfl⟩ := by simpa [Term.subject?] using h
    exact ⟨.refl _, fun _ _ => rfl⟩
  | choice type words =>
    obtain ⟨rfl, rfl⟩ := by simpa [Term.subject?] using h
    exact ⟨.refl _, fun _ _ => rfl⟩
  | _ => simp [Term.subject?] at h

theorem subject?_none {t : Term} {r : Registry} (h : t.subject? r = none) (r' : Registry) :
    t.subject? r' = none := by
  cases t <;> simp_all [Term.subject?]

theorem gather_again {deepest index : Nat} {list : Option String} {leaves : List Leaf}
    {r r₁ : Registry} {ps : List Parameter} (h : gather deepest leaves index list r = .ok ps r₁) :
    Grows r r₁ ∧ ∀ r', Grows r₁ r' →
      gather deepest (leaves.map Leaf.bare) index list r' = .ok (ps.map Parameter.bare) r' := by
  induction leaves generalizing index list r ps with
  | nil =>
    obtain ⟨rfl, rfl⟩ := by simpa [gather] using h
    exact ⟨.refl _, fun _ _ => rfl⟩
  | cons leaf leaves ih =>
    cases hsubject : leaf.term.subject? r with
    | none =>
      obtain ⟨hgrows, hsame⟩ := ih (by simpa [gather, hsubject] using h)
      refine ⟨hgrows, fun r' hr' => ?_⟩
      have hnone : leaf.bare.term.subject? r' = none :=
        (Term.subject?_bare _ _).trans (subject?_none hsubject r')
      simpa [gather, hnone] using hsame r' hr'
    | some found =>
      obtain ⟨⟨type, typeName, identifier⟩, r₂⟩ := found
      obtain ⟨hlist, rest, hrest, rfl⟩ := (gather_cons_ok_iff hsubject).1 h
      obtain ⟨hgrows, hsame⟩ := subject?_again hsubject
      obtain ⟨hgrows', hsame'⟩ := ih hrest
      refine ⟨hgrows.trans hgrows', fun r' hr' => ?_⟩
      have hagain : leaf.bare.term.subject? r' = some ((type, typeName, identifier), r') :=
        (Term.subject?_bare _ _).trans (hsame r' (hgrows'.trans hr'))
      rw [List.map_cons]
      exact (gather_cons_ok_iff hagain).2 ⟨hlist, _, hsame' r' hr', rfl⟩

/-- **Bare terms have the bare layout**, on the registry that the terms left. -/
theorem ofTerms_again {ts : List Term} {r r₁ : Registry} {l : Layout}
    (h : ofTerms ts r = .ok l r₁) :
    Grows r r₁ ∧ ∀ r', Grows r₁ r' → ofTerms (Term.bareAll ts) r' = .ok l.bare r' := by
  obtain ⟨ps, layout, hgather, rfl, hlist, rfl⟩ := ofTerms_ok_iff.1 h
  obtain ⟨hgrows, hsame⟩ := gather_again hgather
  refine ⟨hgrows, fun r' hr' => ?_⟩
  rw [ofTerms_ok_iff, Term.nestingOf_bareAll, Term.leavesOf_bareAll, Term.anyHasRest_bareAll]
  refine ⟨_, _, hsame r' hr', rfl, ?_, ?_⟩ <;> rw [Parameter.withAliases_bare]
  · intro hrest
    have := list?_bare ⟨Parameter.withAliases ps, Term.nestingOf ts, none⟩
    rw [hlist hrest] at this
    exact this
  · have := longest_bare ⟨Parameter.withAliases ps, Term.nestingOf ts, none⟩
    split
    · show _ = _
      rw [← this]
      rfl
    · rfl

end Layout

namespace Usage

/-- The usage without its notes. -/
def bare (u : Usage) : Usage :=
  { u with
    options := u.options.map OptionSpec.bare
    terms := Term.bareAll u.terms
    layout := u.layout.bare }

theorem describe_bare (u : Usage) : u.bare.describe = u.describe := by
  rw [describe, describe, bare, List.map_map, Term.writeAll_bareAll]
  rfl

end Usage

end Synopsis
