import Synopsis.Proofs.Steps
import Synopsis.Registry.Standard

/-!
# A registry keeps what it has synthesized

Every step on a registry only keeps types under names that are free (`Grows`), so a name that has a
meaning keeps it. A step that was run once therefore comes to the same again, and changes nothing,
on any registry that has grown from the one it left (`Stable`).

That needs every alias to stand for a type (`Closed`). Every registry that a host can make is of
this kind (`Reachable.closed`).
-/

namespace Synopsis

namespace Registry

/-- Every alias stands for a type. -/
def Closed (r : Registry) : Prop :=
  ∀ name target, r.aliases.get? name = some target → (r.types.get? target).isSome

/-- Types have been kept in the registry, and nothing else. -/
inductive Grows : Registry → Registry → Prop
  | refl (r : Registry) : Grows r r
  | keep {r r' : Registry} (h : Grows r r') (t : ValueType) : Grows r (r'.keep t).2

/-- A registry that holds what a host has registered, and nothing else. -/
inductive Hosted : Registry → Prop
  | empty : Hosted empty
  | register {r r' : Registry} {p : Primitive} (h : Hosted r) (hp : r.register p = .ok r') :
      Hosted r'

/-- A registry as a host makes it: primitives registered in an empty one, and types kept there by
the steps that were run on it. -/
inductive Reachable : Registry → Prop
  | empty : Reachable empty
  | register {r r' : Registry} {p : Primitive} (h : Reachable r) (hp : r.register p = .ok r') :
      Reachable r'
  | keep {r : Registry} (h : Reachable r) (t : ValueType) : Reachable (r.keep t).2

/-! ## Keeping one type -/

section Keep

variable {r : Registry} {t : ValueType} {name : String}

theorem keep_of_some {kept : ValueType} (h : r.types.get? t.name = some kept) :
    r.keep t = (kept, r) := by
  simp [keep, h]

theorem keep_of_none (h : r.types.get? t.name = none) :
    r.keep t = (t, { r with types := r.types.insert t.name t }) := by
  simp [keep, h]

theorem types_keep (r : Registry) (t : ValueType) :
    (r.keep t).2.types.get? t.name = some (r.keep t).1 := by
  cases h : r.types.get? t.name with
  | some kept => rw [keep_of_some h, h]
  | none => simp [keep_of_none h]

@[simp] theorem aliases_keep (r : Registry) (t : ValueType) :
    (r.keep t).2.aliases = r.aliases := by
  cases h : r.types.get? t.name with
  | some kept => rw [keep_of_some h]
  | none => rw [keep_of_none h]

theorem types_keep_of_some {found : ValueType} (h : r.types.get? name = some found)
    (t : ValueType) : (r.keep t).2.types.get? name = some found := by
  cases ht : r.types.get? t.name with
  | some kept =>
    rw [keep_of_some ht]
    exact h
  | none =>
    have hne : t.name ≠ name := by
      intro heq
      rw [heq, h] at ht
      simp at ht
    rw [keep_of_none ht]
    show (r.types.insert t.name t).get? name = some found
    rw [Dict.get?_insert, if_neg hne, h]

theorem Closed.keep (h : r.Closed) (t : ValueType) : (r.keep t).2.Closed := by
  intro name target halias
  rw [aliases_keep] at halias
  obtain ⟨found, hfound⟩ := Option.isSome_iff_exists.1 (h name target halias)
  rw [types_keep_of_some hfound]
  rfl

end Keep

/-! ## What has grown -/

namespace Grows

variable {r r' r'' : Registry} {name : String} {t : ValueType}

theorem trans (h : Grows r r') (h' : Grows r' r'') : Grows r r'' := by
  induction h' with
  | refl => exact h
  | keep _ t ih => exact ih.keep t

theorem types (h : Grows r r') (ht : r.types.get? name = some t) :
    r'.types.get? name = some t := by
  induction h with
  | refl => exact ht
  | keep _ t' ih => exact types_keep_of_some ih t'

theorem aliases (h : Grows r r') : r'.aliases = r.aliases := by
  induction h with
  | refl => rfl
  | keep _ t ih => rw [aliases_keep, ih]

theorem closed (h : Grows r r') (hr : r.Closed) : r'.Closed := by
  induction h with
  | refl => exact hr
  | keep _ t ih => exact ih.keep t

theorem reachable (h : Grows r r') (hr : Reachable r) : Reachable r' := by
  induction h with
  | refl => exact hr
  | keep _ t ih => exact ih.keep t

theorem get? (h : Grows r r') (ht : r.get? name = some t) : r'.get? name = some t := by
  unfold Registry.get? at ht ⊢
  rw [h.aliases]
  exact h.types ht

end Grows

theorem grows_keep (r : Registry) (t : ValueType) : Grows r (r.keep t).2 := (Grows.refl r).keep t

theorem get?_empty (name : String) : empty.get? name = none := rfl

/-- A name that stands for nothing is no alias. -/
theorem Closed.aliases_of_get? {r : Registry} {name : String} (hr : r.Closed)
    (h : r.get? name = none) : r.aliases.get? name = none := by
  by_contra hsome
  obtain ⟨target, htarget⟩ := Option.ne_none_iff_exists'.1 hsome
  have hfound := hr name target htarget
  unfold get? at h
  rw [htarget, Option.getD_some] at h
  rw [h] at hfound
  simp at hfound

theorem get?_of_types {r r' : Registry} {name : String} {t : ValueType} (hr : r.Closed)
    (hnone : r.get? name = none) (h : Grows r r') (ht : r'.types.get? name = some t) :
    r'.get? name = some t := by
  unfold get?
  rw [h.aliases, hr.aliases_of_get? hnone]
  exact ht

/-! ## Registries that a host makes -/

theorem get?_types_add (r : Registry) (p : Primitive) (name : String) :
    (r.add p).types.get? name =
      if p.name = name then some (.primitive p) else r.types.get? name :=
  Dict.get?_insert _ _ _ _

theorem get?_aliases_add (r : Registry) (p : Primitive) (name : String) :
    (r.add p).aliases.get? name =
      if name ∈ p.aliases then some p.name else r.aliases.get? name := by
  have hfold (aliases : Dict String) (names : List String) :
      (names.foldl (fun aliases a => aliases.insert a p.name) aliases).get? name =
        if name ∈ names then some p.name else aliases.get? name := by
    induction names generalizing aliases with
    | nil => simp
    | cons a names ih =>
      rw [List.foldl_cons, ih, Dict.get?_insert]
      by_cases hmem : name ∈ names
      · simp [hmem]
      · by_cases heq : a = name
        · simp [heq]
        · simp [hmem, heq, Ne.symm heq]
  exact hfold r.aliases p.aliases

theorem Closed.add {r : Registry} (h : r.Closed) (p : Primitive) : (r.add p).Closed := by
  intro name target halias
  show ((r.types.insert p.name (.primitive p)).get? target).isSome
  rw [Dict.get?_insert]
  rw [get?_aliases_add] at halias
  by_cases hmem : name ∈ p.aliases
  · rw [if_pos hmem] at halias
    rw [if_pos (Option.some.inj halias)]
    rfl
  · rw [if_neg hmem] at halias
    split_ifs
    · rfl
    · exact h name target halias

theorem eq_add_of_register {r r' : Registry} {p : Primitive} (h : r.register p = .ok r') :
    r' = r.add p := by
  simp only [register] at h
  split at h
  · simp at h
  · simp at h
  · exact (Except.ok.inj h).symm

theorem names_of_register {r r' : Registry} {p : Primitive} (h : r.register p = .ok r') :
    ∀ name ∈ p.name :: p.aliases, isTypeName name ∧ r.contains name = false := by
  unfold register at h
  dsimp only at h
  cases hinvalid : (p.name :: p.aliases).find? (!isTypeName ·) with
  | some name => simp [hinvalid] at h
  | none =>
    cases hused : (p.name :: p.aliases).find? r.contains with
    | some name => simp [hinvalid, hused] at h
    | none =>
      rw [List.find?_eq_none] at hinvalid hused
      intro name hname
      exact ⟨by simpa using hinvalid name hname, by simpa using hused name hname⟩

theorem free_of_register {r r' : Registry} {p : Primitive} (h : r.register p = .ok r') :
    ∀ name ∈ p.name :: p.aliases, r.types.get? name = none ∧ r.aliases.get? name = none := by
  intro name hname
  simpa [contains, Dict.contains] using (names_of_register h name hname).2

/-- **In every registry that a host makes an alias stands for a type.** -/
theorem Reachable.closed {r : Registry} (h : Reachable r) : r.Closed := by
  induction h with
  | empty =>
    intro name target halias
    simp [Registry.empty] at halias
  | register _ hp ih =>
    rw [eq_add_of_register hp]
    exact ih.add _
  | keep _ t ih => exact ih.keep t

theorem Hosted.reachable {r : Registry} (h : Hosted r) : Reachable r := by
  induction h with
  | empty => exact .empty
  | register _ hp ih => exact ih.register hp

theorem hosted_standard : Hosted standard :=
  have hstring := Hosted.register (p := Primitive.string) .empty rfl
  have hint := hstring.register (p := Primitive.int) rfl
  have hnumber := hint.register (p := Primitive.number) rfl
  have hboolean := hnumber.register (p := Primitive.boolean) rfl
  hboolean.register (p := Primitive.count) rfl

theorem reachable_standard : Reachable standard := hosted_standard.reachable

/-! ## Steps that come to the same again -/

/-- A step that succeeds only keeps types, and comes to the same, changing nothing, wherever those
it kept are. -/
def Stable {α : Type} (step : Step α) : Prop :=
  ∀ r a r₁, r.Closed → step r = .ok a r₁ →
    Grows r r₁ ∧ ∀ r', Grows r₁ r' → step r' = .ok a r'

section Stable

variable {α β : Type}

theorem stable_pure (a : α) : Stable (pure a : Step α) := by
  intro r b r₁ _ h
  obtain ⟨rfl, rfl⟩ := keeping_pure_ok_iff.1 h
  exact ⟨.refl _, fun r' _ => rfl⟩

theorem stable_throw_bind (e : TypeError) (f : α → Step β) :
    Stable ((throw e : Step α) >>= f) := by
  intro r b r₁ _ h
  simp at h

theorem Stable.bind {x : Step α} {f : α → Step β} (hx : Stable x) (hf : ∀ a, Stable (f a)) :
    Stable (x >>= f) := by
  intro r b r₂ hr h
  obtain ⟨a, r₁, ha, hb⟩ := keeping_bind_ok_iff.1 h
  obtain ⟨hgrows, hsame⟩ := hx r a r₁ hr ha
  obtain ⟨hgrows', hsame'⟩ := hf a r₁ b r₂ (hgrows.closed hr) hb
  refine ⟨hgrows.trans hgrows', fun r' hr' => ?_⟩
  rw [keeping_bind_ok_iff]
  exact ⟨a, r', hsame r' (hgrows'.trans hr'), hsame' r' hr'⟩

theorem stable_mapM {f : α → Step β} (hf : ∀ a, Stable (f a)) (as : List α) :
    Stable (as.mapM f) := by
  induction as with
  | nil => exact stable_pure []
  | cons a as ih =>
    rw [List.mapM_cons]
    exact (hf a).bind fun b => ih.bind fun bs => stable_pure (b :: bs)

end Stable

theorem stable_keeping (t : ValueType) : Stable (keeping t) := by
  intro r a r₁ _ h
  obtain ⟨rfl, rfl⟩ := by simpa [keeping] using h
  refine ⟨grows_keep r t, fun r' hr' => ?_⟩
  have hkept := keep_of_some (hr'.types (types_keep r t))
  simp [keeping, hkept]

/-! ## Resolving -/

theorem flatten_nameSegments (cs : List Char) : (nameSegments cs).flatten = cs := by
  induction cs with
  | nil => rfl
  | cons c cs ih =>
    rw [nameSegments]
    cases hsegments : nameSegments cs with
    | nil => simpa [hsegments] using ih
    | cons segment segments =>
      rw [hsegments] at ih
      dsimp only
      split_ifs <;> simpa using ih

/-- A chain of segments stands for the type that has the name it makes up. If there is none, it
stands for one that is derived from what the segments after the first stand for. -/
theorem derive_cons_eq_some_iff {r r₁ : Registry} {segment : List Char} {rest : List (List Char)}
    {t : ValueType} :
    r.derive (segment :: rest) = some (t, r₁) ↔
      (r.get? (String.ofList (segment :: rest).flatten) = some t ∧ r₁ = r) ∨
      (r.get? (String.ofList (segment :: rest).flatten) = none ∧ ∃ base r₂ derived,
        r.derive rest = some (base, r₂) ∧
        derived = .derived (String.ofList (segment :: rest).flatten) (String.ofList segment) base ∧
        t = (r₂.keep derived).1 ∧ r₁ = (r₂.keep derived).2) := by
  simp only [derive, List.flatten_cons]
  cases r.get? (String.ofList (segment ++ rest.flatten)) with
  | some found => simp [eq_comm]
  | none => simp [Prod.ext_iff, eq_comm]

/-- A name is resolved to the type that has it, or to one that is derived for its segments. -/
theorem resolve_ok_iff {r r₁ : Registry} {name : String} {t : ValueType} :
    resolve name r = .ok t r₁ ↔
      (r.get? name = some t ∧ r₁ = r) ∨
      (r.get? name = none ∧ isTypeName name ∧
        r.derive (nameSegments name.toList) = some (t, r₁)) := by
  unfold resolve
  cases r.get? name with
  | some found =>
    simp only [EStateM.Result.ok.injEq, Option.some.injEq, reduceCtorEq, false_and, or_false]
    exact and_congr_right fun _ => eq_comm
  | none =>
    by_cases hvalid : isTypeName name
    · cases r.derive (nameSegments name.toList) <;> simp [hvalid, Prod.ext_iff]
    · simp [hvalid]

theorem get?_of_derive {r r₁ : Registry} {segments : List (List Char)} {t : ValueType}
    (hr : r.Closed) (h : r.derive segments = some (t, r₁)) :
    Grows r r₁ ∧ r₁.get? (String.ofList segments.flatten) = some t := by
  induction segments generalizing r r₁ t with
  | nil => simp [derive] at h
  | cons segment rest ih =>
    rcases derive_cons_eq_some_iff.1 h with ⟨hfound, rfl⟩ |
      ⟨hnone, base, r₂, derived, hbase, rfl, rfl, rfl⟩
    · exact ⟨.refl _, hfound⟩
    · have hgrows := (ih hr hbase).1.keep
        (.derived (String.ofList (segment :: rest).flatten) (String.ofList segment) base)
      exact ⟨hgrows, get?_of_types hr hnone hgrows (types_keep _ _)⟩

theorem get?_of_resolve {r r₁ : Registry} {name : String} {t : ValueType} (hr : r.Closed)
    (h : resolve name r = .ok t r₁) : Grows r r₁ ∧ r₁.get? name = some t := by
  rcases resolve_ok_iff.1 h with ⟨hfound, rfl⟩ | ⟨-, -, hderived⟩
  · exact ⟨.refl _, hfound⟩
  · have hspec := get?_of_derive hr hderived
    rwa [flatten_nameSegments, String.ofList_toList] at hspec

theorem resolve_of_get? {r : Registry} {name : String} {t : ValueType} (h : r.get? name = some t) :
    resolve name r = .ok t r := by
  simp [resolve, h]

/-- **A name that was resolved stands for the same type from then on.** -/
theorem stable_resolve (name : String) : Stable (resolve name) := by
  intro r t r₁ hr h
  obtain ⟨hgrows, hget⟩ := get?_of_resolve hr h
  exact ⟨hgrows, fun r' hr' => resolve_of_get? (hr'.get? hget)⟩

/-! ## Unions -/

/-- Finding a type by its name, or keeping it. -/
def findOrKeep (t : ValueType) : Step ValueType := do
  match (← get).get? t.name with
  | some found => return found
  | none => keeping t

theorem stable_findOrKeep (t : ValueType) : Stable (findOrKeep t) := by
  intro r a r₁ hr h
  have hstable (r' : Registry) (hget : r'.get? t.name = some a) : findOrKeep t r' = .ok a r' := by
    simp [findOrKeep, hget]
  cases hfound : r.get? t.name with
  | some found =>
    obtain ⟨rfl, rfl⟩ := by simpa [findOrKeep, hfound] using h
    exact ⟨.refl _, fun r' hr' => hstable r' (hr'.get? hfound)⟩
  | none =>
    obtain ⟨rfl, rfl⟩ := by simpa [findOrKeep, hfound, keeping] using h
    refine ⟨grows_keep r t, fun r' hr' => hstable r' (hr'.get? ?_)⟩
    exact get?_of_types hr hfound (grows_keep r t) (types_keep r t)

/-- The union of types that are resolved. -/
def unite (resolved : List ValueType) : Step ValueType := do
  let members := (byName resolved).entries.map (·.2)
  let name := (ValueType.union members).name
  if members.length < 2 then throw (.tooFewMembers name)
  let canonical := sortedDistinct (members.map ValueType.canonicalName)
  if canonical.length ≠ 1 then throw (.unrelatedMembers name canonical)
  findOrKeep (.union members)

theorem union_eq (names : List String) : union names = names.mapM resolve >>= unite := rfl

theorem stable_unite (resolved : List ValueType) : Stable (unite resolved) := by
  unfold unite
  dsimp only
  split_ifs
  · exact stable_throw_bind _ _
  · exact stable_throw_bind _ _
  · exact stable_throw_bind _ _
  · exact stable_findOrKeep _

/-- **A union that was made is found again.** -/
theorem stable_union (names : List String) : Stable (union names) := by
  rw [union_eq]
  exact (stable_mapM stable_resolve names).bind stable_unite

end Registry

end Synopsis
