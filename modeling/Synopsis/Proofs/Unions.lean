import Synopsis.Proofs.Dictionaries
import Synopsis.Proofs.Registries

/-!
# What a union is made of

The members of a union are what its names are resolved to, each under its own name and once. A
union is made of them where they unite (`ValueType.Unites`): there are two at least, and all of them
end in one canonical type.
-/

namespace Synopsis

/-- Types of different names, at least two, that end in one canonical type. -/
structure ValueType.Unites (members : List ValueType) : Prop where
  two_le : 2 ≤ members.length
  distinct : (members.map ValueType.name).Nodup
  canonical : ∃ name, ∀ t ∈ members, t.canonicalName = name

theorem ValueType.Unites.ne_nil {members : List ValueType} (h : Unites members) : members ≠ [] := by
  rintro rfl
  exact absurd h.two_le (by decide)

theorem ValueType.Unites.not_all_named {members : List ValueType} (h : Unites members)
    (name : String) : ¬∀ t ∈ members, t.name = name := by
  intro hnames
  have hsame : members.map ValueType.name = List.replicate members.length name :=
    List.eq_replicate_iff.2 ⟨by simp, by simpa using hnames⟩
  have hdistinct := h.distinct
  rw [hsame, List.nodup_replicate] at hdistinct
  exact absurd h.two_le (by omega)

theorem ValueType.canonicalName_union {members : List ValueType} (hne : members ≠ [])
    {name : String} (h : ∀ t ∈ members, t.canonicalName = name) :
    (ValueType.union members).canonicalName = name := by
  cases members with
  | nil => exact absurd rfl hne
  | cons t members =>
    rw [canonicalName]
    exact h t List.mem_cons_self

/-- Types in the order of their names are told by which types they are. -/
theorem ValueType.eq_of_ordered {types types' : List ValueType}
    (h : (types.map ValueType.name).Pairwise (· < ·))
    (h' : (types'.map ValueType.name).Pairwise (· < ·)) (hmem : ∀ t, t ∈ types ↔ t ∈ types') :
    types = types' := by
  have hnodup {types : List ValueType} (h : (types.map ValueType.name).Pairwise (· < ·)) :
      types.Nodup := List.Nodup.of_map _ (h.imp fun hlt => hlt.ne)
  exact ((List.perm_ext_iff_of_nodup (hnodup h) (hnodup h')).2 hmem).eq_of_pairwise
    (fun s t _ _ hlt hlt' => absurd (hlt.trans hlt') (lt_irrefl s.name))
    (List.pairwise_map.1 h) (List.pairwise_map.1 h')

namespace Registry

/-- The members that a union of these types has. -/
def membersOf (resolved : List ValueType) : List ValueType := (byName resolved).entries.map (·.2)

theorem byName_keyed (resolved : List ValueType) :
    ∀ entry ∈ (byName resolved).entries, entry.1 = entry.2.name ∧ entry.2 ∈ resolved := by
  let Keyed (d : Dict ValueType) :=
    ∀ entry ∈ d.entries, entry.1 = entry.2.name ∧ entry.2 ∈ resolved
  refine List.foldlRecOn (motive := Keyed) resolved _ ?_ ?_
  · simp [Keyed, Dict.empty]
  · intro d hkeyed t ht
    split_ifs
    · exact hkeyed
    · intro entry hentry
      rcases Dict.mem_insertEntry hentry with rfl | hentry
      · exact ⟨rfl, ht⟩
      · exact hkeyed entry hentry

theorem mem_of_mem_membersOf {resolved : List ValueType} {t : ValueType}
    (h : t ∈ membersOf resolved) : t ∈ resolved := by
  obtain ⟨entry, hentry, rfl⟩ := List.mem_map.1 h
  exact (byName_keyed resolved entry hentry).2

theorem pairwise_membersOf (resolved : List ValueType) :
    ((membersOf resolved).map ValueType.name).Pairwise (· < ·) := by
  have hkeys : (membersOf resolved).map ValueType.name = (byName resolved).keys := by
    rw [membersOf, List.map_map]
    exact List.map_congr_left fun entry hentry => (byName_keyed resolved entry hentry).1.symm
  rw [hkeys]
  exact Dict.pairwise_keys _

theorem nodup_membersOf (resolved : List ValueType) :
    ((membersOf resolved).map ValueType.name).Nodup :=
  (pairwise_membersOf resolved).imp fun hlt => hlt.ne

/-- Of the types of one name the first is a member. -/
theorem get?_byName (resolved : List ValueType) (name : String) :
    (byName resolved).get? name = resolved.find? (fun t => t.name = name) := by
  have hfold (d : Dict ValueType) :
      (resolved.foldl (fun d t => if d.contains t.name then d else d.insert t.name t) d).get? name =
        (d.get? name).or (resolved.find? fun t => t.name = name) := by
    induction resolved generalizing d with
    | nil => simp
    | cons t resolved ih =>
      rw [List.foldl_cons, ih, List.find?_cons]
      by_cases hname : t.name = name
      · subst hname
        cases hget : d.get? t.name with
        | some found => simp [Dict.contains, hget]
        | none => simp [Dict.contains, hget]
      · by_cases hcontains : d.contains t.name <;> simp [hcontains, hname]
  exact (hfold Dict.empty).trans (by simp)

/-- Where no two types have one name, each of them is a member. -/
theorem mem_membersOf {resolved : List ValueType} {t : ValueType}
    (hnames : ∀ s ∈ resolved, ∀ s' ∈ resolved, s.name = s'.name → s = s') :
    t ∈ membersOf resolved ↔ t ∈ resolved := by
  refine ⟨mem_of_mem_membersOf, fun ht => ?_⟩
  obtain ⟨found, hfound⟩ : ∃ found, resolved.find? (fun s => s.name = t.name) = some found :=
    Option.isSome_iff_exists.1 (List.find?_isSome.2 ⟨t, ht, by simp⟩)
  have hname : found.name = t.name := by simpa using List.find?_some hfound
  obtain rfl := hnames found (List.mem_of_find?_eq_some hfound) t ht hname
  have hentry := Dict.mem_entries.2 ((get?_byName _ _).trans hfound)
  exact List.mem_map.2 ⟨_, hentry, rfl⟩

theorem sortedDistinct_spec (names : List String) :
    (sortedDistinct names).Nodup ∧ ∀ name, name ∈ sortedDistinct names ↔ name ∈ names := by
  have hfold (d : Dict Unit) (name : String) :
      name ∈ (names.foldl (fun (d : Dict Unit) name => d.insert name ()) d).keys ↔
        name ∈ names ∨ name ∈ d.keys := by
    induction names generalizing d with
    | nil => simp
    | cons first names ih =>
      rw [List.foldl_cons, ih, Dict.mem_keys_insert, List.mem_cons, or_left_comm, or_assoc]
  refine ⟨(Dict.pairwise_keys _).imp fun hlt => hlt.ne, fun name => ?_⟩
  exact (hfold Dict.empty name).trans (by simp [Dict.keys, Dict.empty])

/-- One name is left of some exactly if they are all the same. -/
theorem length_sortedDistinct_eq_one_iff {names : List String} (hne : names ≠ []) :
    (sortedDistinct names).length = 1 ↔ ∃ name, ∀ name' ∈ names, name' = name := by
  obtain ⟨hnodup, hmem⟩ := sortedDistinct_spec names
  constructor
  · intro hone
    obtain ⟨name, hname⟩ := List.length_eq_one_iff.1 hone
    exact ⟨name, fun name' h => by simpa [hname] using (hmem name').2 h⟩
  · rintro ⟨name, hall⟩
    have hsame : sortedDistinct names = List.replicate (sortedDistinct names).length name :=
      List.eq_replicate_iff.2 ⟨rfl, fun name' h => hall name' ((hmem name').1 h)⟩
    have hle : (sortedDistinct names).length ≤ 1 := by
      rw [hsame] at hnodup
      exact List.nodup_replicate.1 hnodup
    obtain ⟨name', hname'⟩ := List.exists_mem_of_ne_nil names hne
    have hpos := List.length_pos_of_mem ((hmem name').2 hname')
    omega

/-- Why types cannot be the members of a union. -/
def rejection? (members : List ValueType) : Option TypeError :=
  let name := (ValueType.union members).name
  let canonical := sortedDistinct (members.map ValueType.canonicalName)
  if members.length < 2 then some (.tooFewMembers name)
  else if canonical.length ≠ 1 then some (.unrelatedMembers name canonical)
  else none

/-- **Types are united unless they are rejected**, and where they are not, the union is found or
kept. -/
theorem unite_eq (resolved : List ValueType) (r : Registry) :
    unite resolved r =
      match rejection? (membersOf resolved) with
      | some e => .error e r
      | none => findOrKeep (.union (membersOf resolved)) r := by
  unfold unite rejection? membersOf
  dsimp only
  split_ifs <;> rfl

/-- Types unite where they are two at least and have one canonical type among them. -/
theorem rejection?_eq_none_iff (resolved : List ValueType) :
    rejection? (membersOf resolved) = none ↔ ValueType.Unites (membersOf resolved) := by
  have hone (h : 2 ≤ (membersOf resolved).length) :
      (sortedDistinct ((membersOf resolved).map ValueType.canonicalName)).length = 1 ↔
        ∃ name, ∀ t ∈ membersOf resolved, t.canonicalName = name := by
    have hne : (membersOf resolved).map ValueType.canonicalName ≠ [] := by
      intro hnil
      rw [List.map_eq_nil_iff.1 hnil] at h
      exact absurd h (by decide)
    rw [length_sortedDistinct_eq_one_iff hne]
    simp
  unfold rejection?
  dsimp only
  constructor
  · intro h
    split_ifs at h with hfew hmany
    exact ⟨not_lt.1 hfew, nodup_membersOf resolved, (hone (not_lt.1 hfew)).1 (not_not.1 hmany)⟩
  · intro h
    rw [if_neg (not_lt.2 h.two_le), if_neg (not_not.2 ((hone h.two_le).2 h.canonical))]

theorem findOrKeep_ok_iff {r r' : Registry} {t kept : ValueType} :
    findOrKeep t r = .ok kept r' ↔
      r.get? t.name = some kept ∧ r' = r ∨ r.get? t.name = none ∧ keeping t r = .ok kept r' := by
  cases hfound : r.get? t.name with
  | none => simp [findOrKeep, hfound]
  | some found => simp [findOrKeep, hfound, eq_comm (a := found)]

theorem unites_of_unite {resolved : List ValueType} {r r' : Registry} {t : ValueType}
    (h : unite resolved r = .ok t r') :
    ValueType.Unites (membersOf resolved) ∧
      findOrKeep (.union (membersOf resolved)) r = .ok t r' := by
  rw [unite_eq] at h
  cases hrejected : rejection? (membersOf resolved) with
  | some e => simp [hrejected] at h
  | none =>
    rw [hrejected] at h
    exact ⟨(rejection?_eq_none_iff resolved).1 hrejected, h⟩

end Registry

end Synopsis
