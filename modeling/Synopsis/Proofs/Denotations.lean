import Synopsis.Proofs.Alike

/-!
# What names are resolved to

Resolving a name keeps types, so a list of names is resolved on one registry after another.

**Theorem (`Registry.Resolved.resolveAll_iff`).** That makes no difference: names are resolved
together to what each of them is resolved to alone.

For the name of a type that is so because it is resolved to what it means (`Registry.Agrees`). Any
other name is only looked up, and resolving keeps no type under such a name
(`Registry.Resolved.others`).
-/

namespace Synopsis

namespace Registry

/-- The name is resolved to the type. -/
def Resolves (r : Registry) (name : String) (t : ValueType) : Prop :=
  ∃ r', resolve name r = .ok t r'

/-- One of the names is resolved to the type. -/
def Denotes (r : Registry) (names : List String) (t : ValueType) : Prop :=
  ∃ name ∈ names, r.Resolves name t

variable {r₀ r r' : Registry} {name : String} {t : ValueType}

/-! ## Induction on what is derived -/

/-- What holds of a type that is found under the name of a type, and of one that is derived and kept
if it holds of the base, holds of what a chain of segments stands for. -/
theorem derive_induction {motive : ValueType → Registry → Prop}
    (hfound : ∀ name t, isTypeName name → r.get? name = some t → motive t r)
    (hkept : ∀ name lead base r', isTypeName name → motive base r' →
      motive (r'.keep (.derived name lead base)).1 (r'.keep (.derived name lead base)).2)
    {segments : List (List Char)} (hsegments : nameSegments segments.flatten = segments)
    (hvalid : segments ≠ [] → isTypeName (String.ofList segments.flatten))
    (h : r.derive segments = some (t, r')) : motive t r' := by
  induction segments generalizing r' t with
  | nil => simp [derive] at h
  | cons segment rest ih =>
    have hname := hvalid (List.cons_ne_nil _ _)
    rcases derive_cons_eq_some_iff.1 h with ⟨hget, rfl⟩ |
      ⟨-, base, r₁, derived, hbase, rfl, rfl, rfl⟩
    · exact hfound _ t hname hget
    · exact hkept _ _ base r₁ hname
        (ih (nameSegments_tail hsegments).1 (isTypeName_tail hsegments hname) hbase)

/-- The same of what the name of a type is resolved to. -/
theorem resolve_induction {motive : ValueType → Registry → Prop}
    (hfound : ∀ name t, isTypeName name → r.get? name = some t → motive t r)
    (hkept : ∀ name lead base r', isTypeName name → motive base r' →
      motive (r'.keep (.derived name lead base)).1 (r'.keep (.derived name lead base)).2)
    (hname : isTypeName name) (h : resolve name r = .ok t r') : motive t r' := by
  rcases resolve_ok_iff.1 h with ⟨hget, rfl⟩ | ⟨-, -, hderived⟩
  · exact hfound name t hname hget
  · have hflatten := flatten_nameSegments name.toList
    refine derive_induction hfound hkept ?_ (fun _ => ?_) hderived
    · rw [hflatten]
    · rwa [hflatten, String.ofList_toList]

/-! ## Names one by one -/

theorem Orderly.get?_eq (h : r.Orderly) (hname : ¬isTypeName name) :
    r.get? name = r.types.get? name := by
  unfold get?
  rw [h.aliases_eq_none hname, Option.getD_none]

theorem resolves_iff_of_not_isTypeName (hname : ¬isTypeName name) :
    r.Resolves name t ↔ r.get? name = some t := by
  constructor
  · intro ⟨r', h⟩
    rcases resolve_ok_iff.1 h with ⟨hget, -⟩ | ⟨-, hvalid, -⟩
    · exact hget
    · exact absurd hvalid hname
  · intro h
    exact ⟨r, resolve_of_get? h⟩

theorem Agrees.resolves_iff (hr : Agrees r₀ r) (hname : isTypeName name) :
    r.Resolves name t ↔ r₀.meaning name = some t := by
  unfold Resolves
  rcases hr.resolve hname with ⟨hrun, hmeans⟩ | ⟨found, r', hrun, hmeans, -, -⟩
  · simp [hrun, hmeans]
  · simp [hrun, hmeans]

/-- The registry has come from `r₀` by resolving names. -/
structure Resolved (r₀ r : Registry) : Prop where
  agrees : Agrees r₀ r
  others : ∀ name, ¬isTypeName name → r.types.get? name = r₀.types.get? name

theorem Orderly.resolved (h : r.Orderly) : Resolved r r := ⟨h.agrees, fun _ _ => rfl⟩

/-- What is kept has the name of a type, so nothing new is there under any other name. -/
theorem types_of_resolve {key : String} (hkey : ¬isTypeName key) (hname : isTypeName name)
    (h : resolve name r = .ok t r') : r'.types.get? key = r.types.get? key := by
  refine @resolve_induction r r' name t
    (fun _ r' => r'.types.get? key = r.types.get? key) (fun _ _ _ _ => rfl) ?_ hname h
  intro name lead base r₁ hname ih
  have hne : name ≠ key := fun heq => hkey (heq ▸ hname)
  cases hkept : r₁.types.get? (ValueType.derived name lead base).name with
  | some kept => rw [keep_of_some hkept, ih]
  | none =>
    rw [keep_of_none hkept]
    show (r₁.types.insert name _).get? key = r.types.get? key
    rw [Dict.get?_insert, if_neg hne, ih]

namespace Resolved

theorem resolve (hr : Resolved r₀ r) (h : Registry.resolve name r = .ok t r') :
    Resolved r₀ r' := by
  by_cases hname : isTypeName name
  · rcases hr.agrees.resolve hname with ⟨hrun, -⟩ | ⟨found, r₁, hrun, -, -, hr₁⟩
    · rw [hrun] at h
      cases h
    · have hothers (key : String) (hkey : ¬isTypeName key) :
          r'.types.get? key = r₀.types.get? key :=
        (types_of_resolve hkey hname h).trans (hr.others key hkey)
      rw [hrun] at h
      obtain ⟨-, rfl⟩ := EStateM.Result.ok.inj h
      exact ⟨hr₁, hothers⟩
  · have hsame := stateAfter_resolve hname r
    rw [h] at hsame
    obtain rfl : r' = r := hsame
    exact hr

theorem resolves_iff (hr : Resolved r₀ r) : r.Resolves name t ↔ r₀.Resolves name t := by
  have horderly := hr.agrees.orderly
  by_cases hname : isTypeName name
  · rw [hr.agrees.resolves_iff hname, horderly.agrees.resolves_iff hname]
  · rw [resolves_iff_of_not_isTypeName hname, resolves_iff_of_not_isTypeName hname,
      hr.agrees.orderly_after.get?_eq hname, horderly.get?_eq hname, hr.others name hname]

/-- **Names are resolved together to what each is resolved to alone.** -/
theorem resolveAll_iff (hr : Resolved r₀ r) {names : List String} {ts : List ValueType} :
    (∃ r', names.mapM Registry.resolve r = .ok ts r') ↔ List.Forall₂ r₀.Resolves names ts := by
  induction names generalizing r ts with
  | nil =>
    constructor
    · intro ⟨r', h⟩
      obtain ⟨rfl, -⟩ := by simpa using h
      exact .nil
    · intro h
      cases h
      exact ⟨r, rfl⟩
  | cons name names ih =>
    simp only [List.mapM_cons, keeping_bind_ok_iff, keeping_pure_ok_iff]
    constructor
    · rintro ⟨r', t, r₁, ht, ts', r₂, hts, rfl, rfl⟩
      exact .cons (hr.resolves_iff.1 ⟨r₁, ht⟩) ((ih (hr.resolve ht)).1 ⟨_, hts⟩)
    · rintro (_ | ⟨hname, hnames⟩)
      obtain ⟨r₁, ht⟩ := hr.resolves_iff.2 hname
      obtain ⟨r₂, hts⟩ := (ih (hr.resolve ht)).2 hnames
      exact ⟨r₂, _, r₁, ht, _, r₂, hts, rfl, rfl⟩

end Resolved

theorem Resolves.unique {t' : ValueType} (h : r.Resolves name t) (h' : r.Resolves name t') :
    t = t' := by
  obtain ⟨r₁, hrun⟩ := h
  obtain ⟨r₂, hrun'⟩ := h'
  exact (EStateM.Result.ok.inj (hrun.symm.trans hrun')).1

theorem Resolves.iff_eq {found : ValueType} (h : r.Resolves name found) :
    r.Resolves name t ↔ t = found :=
  ⟨fun h' => h'.unique h, fun heq => heq ▸ h⟩

theorem exists_resolved {names : List String} (h : ∀ name ∈ names, ∃ t, r.Resolves name t) :
    ∃ ts, List.Forall₂ r.Resolves names ts := by
  induction names with
  | nil => exact ⟨[], .nil⟩
  | cons name names ih =>
    rw [List.forall_mem_cons] at h
    obtain ⟨t, ht⟩ := h.1
    obtain ⟨ts, hts⟩ := ih h.2
    exact ⟨t :: ts, .cons ht hts⟩

theorem mem_iff_denotes {names : List String} {ts : List ValueType}
    (h : List.Forall₂ r.Resolves names ts) : t ∈ ts ↔ r.Denotes names t := by
  unfold Denotes
  induction h with
  | nil => simp
  | @cons name found names ts hname _ ih =>
    rw [List.mem_cons, ih, List.exists_mem_cons_iff, hname.iff_eq]

end Registry

end Synopsis
