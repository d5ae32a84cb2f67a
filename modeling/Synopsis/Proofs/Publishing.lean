import Synopsis.Invocation.Publishing
import Synopsis.Proofs.Dictionaries
import Synopsis.Proofs.Layouts

/-!
# What is published

An alias belongs to one parameter of a layout (`Layout.Aliased`). What stands under a key of its own
is published as it is; a key without a value answers for the parameter that has it as an alias, if
that has a value.
-/

namespace Synopsis

/-! ## Aliases -/

/-- No two parameters of the layout have one alias. -/
def Layout.Aliased (l : Layout) : Prop :=
  ∀ p ∈ l.parameters, ∀ q ∈ l.parameters, ∀ key, key ∈ p.aliases → key ∈ q.aliases → p = q

theorem eq_of_count_map_eq_one {α β : Type} [DecidableEq β] {f : α → β} {as : List α} {a a' : α}
    (ha : a ∈ as) (ha' : a' ∈ as) (heq : f a = f a') (h : (as.map f).count (f a) = 1) : a = a' := by
  rw [List.count_eq_length_filter, List.filter_map, List.length_map, List.length_eq_one_iff] at h
  obtain ⟨x, hx⟩ := h
  have hmem {b : α} (hb : b ∈ as) (hf : f b = f a) : b = x := by
    rw [← List.mem_singleton, ← hx, List.mem_filter]
    exact ⟨hb, by simpa using hf⟩
  rw [hmem ha rfl, hmem ha' heq.symm]

namespace Parameter

theorem identifierAlias_head {p : Parameter} (hp : p.namesType) :
    ∃ c cs, p.identifierAlias.toList = c :: cs ∧ c.isAlpha = true := by
  cases hidentifier : p.identifier.toList with
  | nil => simp [namesType, hidentifier] at hp
  | cons c cs =>
    have hupper : c.isUpper := by simpa [namesType, hidentifier] using hp
    refine ⟨c.toLower, cs.map Char.toLower, by simp [identifierAlias, hidentifier], ?_⟩
    rw [Char.isAlpha_toLower_eq_isAlpha, Char.isAlpha, hupper]
    rfl

theorem typeAlias_ne_identifierAlias {p q : Parameter} (hq : q.namesType) :
    p.typeAlias ≠ q.identifierAlias := by
  obtain ⟨c, cs, hlist, hletter⟩ := identifierAlias_head hq
  intro h
  have hhead : '$' :: (p.typeName.map Char.toLower).toList = c :: cs := by
    rw [← hlist, ← h]
    simp [typeAlias]
  rw [← (List.cons.inj hhead).1] at hletter
  exact absurd hletter (by decide)

/-- A parameter with its aliases among others. -/
def aliasedIn (ps : List Parameter) (p : Parameter) : Parameter :=
  if namesType p then
    { p with
      aliases := (if isUnique ps typeAlias p then [typeAlias p] else []) ++
        (if isUnique ps identifierAlias p then [identifierAlias p] else []) }
  else p

theorem withAliases_eq (ps : List Parameter) : withAliases ps = ps.map (aliasedIn ps) := rfl

/-- A parameter has an alias from its type or from its identifier, where no other parameter would
have it so. -/
theorem unique_of_mem_aliases {ps : List Parameter} {p : Parameter} (hp : p.aliases = [])
    {key : String} (hkey : key ∈ (aliasedIn ps p).aliases) :
    p.namesType ∧ (key = typeAlias p ∧ isUnique ps typeAlias p ∨
      key = identifierAlias p ∧ isUnique ps identifierAlias p) := by
  unfold aliasedIn at hkey
  by_cases hnames : p.namesType
  · rw [if_pos hnames] at hkey
    refine ⟨hnames, ?_⟩
    rcases List.mem_append.1 hkey with hkey | hkey
    · exact Or.inl (by simpa [and_comm] using hkey)
    · exact Or.inr (by simpa [and_comm] using hkey)
  · rw [if_neg hnames, hp] at hkey
    simp at hkey

theorem eq_of_isUnique {ps : List Parameter} {aliasOf : Parameter → String} {p q : Parameter}
    (hp : p ∈ ps.filter namesType) (hq : q ∈ ps.filter namesType) (heq : aliasOf p = aliasOf q)
    (h : isUnique ps aliasOf p) : p = q :=
  eq_of_count_map_eq_one hp hq heq (by simpa [isUnique] using h)

end Parameter

namespace Layout

variable {l : Layout}

theorem aliases_of_gather {deepest index : Nat} {list : Option String} {leaves : List Leaf}
    {r r' : Registry} {ps : List Parameter} (h : gather deepest leaves index list r = .ok ps r') :
    ∀ p ∈ ps, p.aliases = [] := by
  induction leaves generalizing index list r ps with
  | nil =>
    obtain ⟨rfl, rfl⟩ := by simpa [gather] using h
    simp
  | cons leaf leaves ih =>
    cases hsubject : leaf.term.subject? r with
    | none =>
      simp only [gather, keeping_bind_ok_iff, keeping_get_ok_iff] at h
      obtain ⟨_, s₁, ⟨rfl, rfl⟩, h⟩ := h
      rw [hsubject] at h
      exact ih h
    | some subject =>
      obtain ⟨⟨type, typeName, identifier⟩, r₁⟩ := subject
      obtain ⟨-, rest, hrest, rfl⟩ := (gather_cons_ok_iff hsubject).1 h
      intro p hp
      rcases List.mem_cons.1 hp with rfl | hp
      · rfl
      · exact ih hrest p hp

/-- **An alias belongs to one parameter.** -/
theorem aliased_of_ofTerms {ts : List Term} {r r' : Registry} (h : ofTerms ts r = .ok l r') :
    l.Aliased := by
  obtain ⟨ps, layout, hgather, rfl, -, rfl⟩ := ofTerms_ok_iff.1 h
  have hps := aliases_of_gather hgather
  have haliased : ∀ p ∈ Parameter.withAliases ps, ∀ q ∈ Parameter.withAliases ps, ∀ key,
      key ∈ p.aliases → key ∈ q.aliases → p = q := by
    intro _ hmem _ hmem' key hkey hkey'
    obtain ⟨p, hp, rfl⟩ := List.mem_map.1 (Parameter.withAliases_eq ps ▸ hmem)
    obtain ⟨q, hq, rfl⟩ := List.mem_map.1 (Parameter.withAliases_eq ps ▸ hmem')
    obtain ⟨hpnames, halias⟩ := Parameter.unique_of_mem_aliases (hps p hp) hkey
    obtain ⟨hqnames, halias'⟩ := Parameter.unique_of_mem_aliases (hps q hq) hkey'
    have hp' : p ∈ ps.filter Parameter.namesType := List.mem_filter.2 ⟨hp, hpnames⟩
    have hq' : q ∈ ps.filter Parameter.namesType := List.mem_filter.2 ⟨hq, hqnames⟩
    have heq : p = q := by
      rcases halias with ⟨rfl, hunique⟩ | ⟨rfl, hunique⟩ <;>
        rcases halias' with ⟨heq, -⟩ | ⟨heq, -⟩
      · exact Parameter.eq_of_isUnique hp' hq' heq hunique
      · exact absurd heq (Parameter.typeAlias_ne_identifierAlias hqnames)
      · exact absurd heq.symm (Parameter.typeAlias_ne_identifierAlias hpnames)
      · exact Parameter.eq_of_isUnique hp' hq' heq hunique
    rw [heq]
  split
  · exact haliased
  · exact haliased

end Layout

/-! ## Keys and what is published under them -/

namespace Invocation

variable {l : Layout} {values : Dict Value} {explicit : List String} {key : String} {v : Value}

theorem mem_aliasesOf {own : String} :
    (key, own, v) ∈ aliasesOf l values ↔
      values.get? key = none ∧
        ∃ p ∈ l.parameters, key ∈ p.aliases ∧ own = p.key ∧ values.get? p.key = some v := by
  unfold aliasesOf
  rw [List.mem_flatMap]
  constructor
  · rintro ⟨p, hp, hmem⟩
    cases hv : values.get? p.key with
    | none => simp [hv] at hmem
    | some w =>
      obtain ⟨⟨halias, hnone⟩, rfl, rfl⟩ := by simpa [hv, Dict.contains] using hmem
      exact ⟨hnone, p, hp, halias, rfl, hv⟩
  · rintro ⟨hnone, p, hp, halias, rfl, hv⟩
    refine ⟨p, hp, ?_⟩
    simp [hv, halias, hnone, Dict.contains]

/-- What entries put under a key: the value of one with this key, if there is one. -/
theorem get?_foldl_insert (entries : List (String × String × Value)) (d : Dict Value)
    (key : String) :
    (∃ own v, (key, own, v) ∈ entries ∧
        (entries.foldl (fun (d : Dict Value) (key, _, value) => d.insert key value) d).get? key =
          some v) ∨
      (∀ own v, (key, own, v) ∉ entries) ∧
        (entries.foldl (fun (d : Dict Value) (key, _, value) => d.insert key value) d).get? key =
          d.get? key := by
  induction entries generalizing d with
  | nil => exact Or.inr ⟨by simp, rfl⟩
  | cons entry entries ih =>
    obtain ⟨key', own', v'⟩ := entry
    rw [List.foldl_cons]
    rcases ih (d.insert key' v') with ⟨own, v, hmem, hget⟩ | ⟨hnone, hget⟩
    · exact Or.inl ⟨own, v, List.mem_cons_of_mem _ hmem, hget⟩
    · rw [Dict.get?_insert] at hget
      by_cases heq : key' = key
      · rw [if_pos heq] at hget
        exact Or.inl ⟨own', v', by rw [heq]; exact List.mem_cons_self, hget⟩
      · rw [if_neg heq] at hget
        refine Or.inr ⟨fun own v hmem => ?_, hget⟩
        rcases List.mem_cons.1 hmem with h | hmem
        · exact heq (congrArg Prod.fst h).symm
        · exact hnone own v hmem

theorem get?_publish (hkey : key ≠ positionalsKey) :
    (publish l values explicit).get? key =
      ((aliasesOf l values).foldl (fun (d : Dict Value) (key, _, value) => d.insert key value)
        values).get? key := by
  show (Dict.insert _ positionalsKey _).get? key = _
  rw [Dict.get?_insert, if_neg (Ne.symm hkey)]

theorem get?_publish_positionalsKey :
    (publish l values explicit).get? positionalsKey = some (.list (positionalValues l values)) := by
  show (Dict.insert _ positionalsKey _).get? positionalsKey = _
  rw [Dict.get?_insert, if_pos rfl]

/-- A value stands under its own key, whatever has it as an alias. -/
theorem get?_publish_of_some (hkey : key ≠ positionalsKey) (hv : values.get? key = some v) :
    (publish l values explicit).get? key = some v := by
  rw [get?_publish hkey]
  rcases get?_foldl_insert (aliasesOf l values) values key with ⟨own, w, hmem, -⟩ | ⟨-, hget⟩
  · rw [mem_aliasesOf, hv] at hmem
    simp at hmem
  · rw [hget, hv]

theorem get?_publish_of_none (hl : l.Aliased) (hkey : key ≠ positionalsKey)
    (hnone : values.get? key = none) :
    (publish l values explicit).get? key = some v ↔
      ∃ p ∈ l.parameters, key ∈ p.aliases ∧ values.get? p.key = some v := by
  rw [get?_publish hkey]
  rcases get?_foldl_insert (aliasesOf l values) values key with ⟨own, w, hmem, hget⟩ | ⟨habsent, hget⟩
  · obtain ⟨-, p, hp, halias, rfl, hw⟩ := mem_aliasesOf.1 hmem
    rw [hget]
    constructor
    · rintro ⟨⟩
      exact ⟨p, hp, halias, hw⟩
    · rintro ⟨q, hq, halias', hv⟩
      obtain rfl := hl p hp q hq key halias halias'
      rw [← hw, hv]
  · rw [hget, hnone]
    constructor
    · intro h
      simp at h
    · rintro ⟨p, hp, halias, hv⟩
      exact absurd (mem_aliasesOf.2 ⟨hnone, p, hp, halias, rfl, hv⟩) (habsent p.key v)

theorem isExplicit_publish :
    (publish l values explicit).isExplicit key ↔
      key ∈ explicit ∨
        values.get? key = none ∧
          ∃ p ∈ l.parameters, key ∈ p.aliases ∧ p.key ∈ explicit ∧ (values.get? p.key).isSome := by
  have hlist : (publish l values explicit).explicit =
      explicit ++ ((aliasesOf l values).filter (·.2.1 ∈ explicit)).map (·.1) := rfl
  rw [Environment.isExplicit, decide_eq_true_iff, hlist, List.mem_append]
  refine or_congr_right ?_
  rw [List.mem_map]
  constructor
  · rintro ⟨⟨key', own, v⟩, hmem, rfl⟩
    obtain ⟨hmem, hown⟩ := List.mem_filter.1 hmem
    obtain ⟨hnone, p, hp, halias, rfl, hv⟩ := mem_aliasesOf.1 hmem
    exact ⟨hnone, p, hp, halias, by simpa using hown, by rw [hv]; rfl⟩
  · rintro ⟨hnone, p, hp, halias, hown, hsome⟩
    obtain ⟨v, hv⟩ := Option.isSome_iff_exists.1 hsome
    refine ⟨(key, p.key, v), List.mem_filter.2 ⟨?_, by simpa using hown⟩, rfl⟩
    exact mem_aliasesOf.2 ⟨hnone, p, hp, halias, rfl, hv⟩

/-- What is published under a key depends on what stands there and under the keys of parameters. -/
theorem publish_agree (hl : l.Aliased) {values' : Dict Value} {explicit' : List String}
    (hvalues : ∀ p ∈ l.parameters, values.get? p.key = values'.get? p.key)
    (hexplicit : ∀ p ∈ l.parameters, p.key ∈ explicit ↔ p.key ∈ explicit')
    (hvalue : values.get? key = values'.get? key) (hkey : key ∈ explicit ↔ key ∈ explicit') :
    (publish l values explicit).get? key = (publish l values' explicit').get? key ∧
      (publish l values explicit).isExplicit key = (publish l values' explicit').isExplicit key := by
  constructor
  · by_cases hpositionals : key = positionalsKey
    · have hlist : positionalValues l values = positionalValues l values' := by
        refine List.flatMap_congr fun p hp => ?_
        rw [hvalues p hp]
      rw [hpositionals, get?_publish_positionalsKey, get?_publish_positionalsKey, hlist]
    · cases hv : values.get? key with
      | some v =>
        rw [get?_publish_of_some hpositionals hv,
          get?_publish_of_some hpositionals (hvalue.symm.trans hv)]
      | none =>
        ext v
        rw [get?_publish_of_none hl hpositionals hv,
          get?_publish_of_none hl hpositionals (hvalue.symm.trans hv)]
        refine exists_congr fun p => and_congr_right fun hp => ?_
        rw [hvalues p hp]
  · rw [Bool.eq_iff_iff, isExplicit_publish, isExplicit_publish, hvalue, hkey]
    refine or_congr_right (and_congr_right fun _ => ?_)
    refine exists_congr fun p => and_congr_right fun hp => and_congr_right fun _ => ?_
    rw [hvalues p hp, hexplicit p hp]

end Invocation

end Synopsis
