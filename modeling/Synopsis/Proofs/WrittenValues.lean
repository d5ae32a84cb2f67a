import Synopsis.Proofs.Histories
import Synopsis.Proofs.Numerals
import Synopsis.Proofs.Requests

/-!
# Values are read as they were written

**Theorem (`Registry.Standardized.read?_write`).** A type that has come from the standard registry
reads the text of a value that it accepts as that value, unless it ends in the type of fractions
(`ValueType.Exact`).

After any texts, each type that is kept is made of one standard primitive, or lists words
(`Registry.Agrees.standardized`). What has the name of a type is what that name is resolved to on the
standard registry, and the members of a union end in one name, under which there is one standard
primitive. So a derived type or a union reads and accepts what its primitive does, and there are four
primitives to look at. The fifth takes an integer for a number, and would read it back as a fraction.
-/

namespace Synopsis

/-! ## The standard primitives -/

namespace Primitive

/-- The names of the standard types without fractions. -/
def exactNames : List String := ["String", "Int", ValueType.booleanName, ValueType.countName]

theorem eq_of_name {p q : Primitive} (hp : p ∈ standard) (hq : q ∈ standard)
    (h : p.name = q.name) : p = q :=
  List.inj_on_of_nodup_map (f := Primitive.name) (by decide) hp hq h

theorem isTypeName_name {p : Primitive} (hp : p ∈ standard) : isTypeName p.name := by
  fin_cases hp <;> decide

theorem takesTopic_eq_false {p : Primitive} (hp : p ∈ standard) : p.takesTopic = false := by
  fin_cases hp <;> rfl

/-- **A standard primitive without fractions reads a value as it was written.** -/
theorem read?_write {p : Primitive} (hp : p ∈ standard) (hname : p.name ∈ exactNames) {v : Value}
    (h : (ValueType.primitive p).accepts v) : (ValueType.primitive p).read? v.write = some v := by
  have hheld : p.holds v := by
    cases v with
    | topic =>
      have htopic : p.takesTopic := h
      simp [takesTopic_eq_false hp] at htopic
    | _ => exact h
  have hread : (p.convert v.write) = some v := by
    fin_cases hp
    · cases v <;> simp [string] at hheld
      rfl
    · cases v <;> simp [int] at hheld
      exact congrArg (Option.map Value.integer) (readInt64?_writeInt64 _)
    · exact absurd hname (by decide)
    · cases v <;> simp [boolean] at hheld
      next on => cases on <;> rfl
    · cases v <;> simp [count] at hheld
      exact congrArg (Option.map Value.count) (readUInt64?_writeUInt64 _)
  rw [ValueType.read?, hread, Option.filter_some, if_pos hheld]

end Primitive

/-! ## The types of a registry -/

theorem ValueType.Refines.mem_primitives {p : Primitive} {t : ValueType} (h : t.Refines p) :
    p ∈ t.primitives := by
  induction h with
  | primitive => exact List.mem_singleton_self _
  | derived _ _ ih => exact ih
  | @union members hne _ ih =>
    obtain ⟨t, ht⟩ := List.exists_mem_of_ne_nil members hne
    exact mem_primitivesOf.2 ⟨t, ht, ih t ht⟩

namespace Registry

variable {r : Registry} {t : ValueType} {name : String}

/-- What a host has registered is regular: no word has been asked for. -/
theorem Hosted.regular (h : Hosted r) : r.Regular fun _ => False := by
  induction h with
  | empty => exact regular_empty fun _ h => h.elim
  | register _ hp ih => exact ih.register hp

theorem sound_standard : standard.Sound (· ∈ Primitive.standard) := by
  refine reachable_standard.sound fun name t h => ?_
  obtain ⟨p, hp, rfl⟩ := (get?_foldl_add h).resolve_left (by simp [Registry.empty])
  exact ValueType.over_primitive.2 hp

/-- What the name of a type means on the standard registry is made of one standard primitive. -/
theorem IsMeant.refines (h : standard.IsMeant t) : ∃ p ∈ Primitive.standard, t.Refines p := by
  rcases hosted_standard.agrees.resolve h.valid with ⟨-, hnone⟩ | ⟨t', r', hrun, hmeans, -, -⟩
  · rw [h.own] at hnone
    cases hnone
  · obtain rfl : t = t' := Option.some.inj (h.own.symm.trans hmeans)
    obtain ⟨hregular, hheld, -⟩ := hosted_standard.regular.of_resolve h.valid hrun
    obtain ⟨p, -, hrefines⟩ :=
      hregular.refines_of_isTypeName (hregular.admits_of_holds hheld) h.valid
    exact ⟨p, (sound_standard.of_resolve hrun).1 p hrefines.mem_primitives, hrefines⟩

/-- A type is made of a standard primitive, or lists words. -/
inductive Standardized : ValueType → Prop
  | refining {p : Primitive} {t : ValueType} (hp : p ∈ Primitive.standard) (h : t.Refines p) :
      Standardized t
  | choice (words : List String) : Standardized (.choice words)
  | word (text : String) : Standardized (.word text)

/-- **The types of a registry that agrees with the standard one.** -/
theorem Agrees.standardized (hr : standard.Agrees r) (ht : r.types.get? name = some t) :
    Standardized t := by
  rcases hr.shaped name t ht with hstandard | ⟨-, hshaped⟩
  · obtain ⟨p, hp, rfl⟩ := (get?_foldl_add hstandard).resolve_left (by simp [Registry.empty])
    exact .refining hp (.primitive (Primitive.isTypeName_name hp))
  · cases hshaped with
    | named h =>
      obtain ⟨p, hp, hrefines⟩ := h.refines
      exact .refining hp hrefines
    | word => exact .word _
    | choice => exact .choice _
    | @union members hunites hmembers =>
      obtain ⟨first, hfirst⟩ := List.exists_mem_of_ne_nil members hunites.ne_nil
      obtain ⟨p, hp, hrefines⟩ := (hmembers first hfirst).refines
      refine .refining hp (.union hunites.ne_nil fun s hs => ?_)
      obtain ⟨q, hq, hs'⟩ := (hmembers s hs).refines
      obtain ⟨name, hcanonical⟩ := hunites.canonical
      have hname : q.name = p.name := by
        rw [← hs'.canonicalName_eq, ← hrefines.canonicalName_eq, hcanonical s hs,
          hcanonical first hfirst]
      exact Primitive.eq_of_name hq hp hname ▸ hs'

end Registry

/-! ## Reading what was written -/

namespace ValueType

/-- The type ends in a standard type without fractions, or it lists words. -/
def Exact (t : ValueType) : Prop :=
  t.canonicalName ∈ Primitive.exactNames ∨ t.isChoice ∨ t.isWord

instance (t : ValueType) : Decidable t.Exact := inferInstanceAs (Decidable (_ ∨ _ ∨ _))

end ValueType

namespace Registry

variable {t : ValueType}

theorem Standardized.takesTopic_eq_false (h : Standardized t) : t.takesTopic = false := by
  cases h with
  | refining hp h => rw [h.takesTopic_eq, Primitive.takesTopic_eq_false hp]
  | choice => rfl
  | word => rfl

/-- **A type without fractions reads a value that it accepts as it was written.** -/
theorem Standardized.read?_write (h : Standardized t) (hexact : t.Exact) {v : Value}
    (hv : t.accepts v) : t.read? v.write = some v := by
  cases h with
  | @refining p t hp h =>
    have hname : p.name ∈ Primitive.exactNames := by
      rcases hexact with hname | hchoice | hword
      · rwa [← h.canonicalName_eq]
      · cases h <;> simp [ValueType.isChoice] at hchoice
      · cases h <;> simp [ValueType.isWord] at hword
    rw [h.accepts_eq] at hv
    rw [h.read?_eq]
    exact Primitive.read?_write hp hname hv
  | choice words =>
    cases v <;> simp [ValueType.accepts, ValueType.holds, ValueType.takesTopic] at hv
    next text => exact if_pos hv
  | word text =>
    cases v <;> simp [ValueType.accepts, ValueType.holds, ValueType.takesTopic] at hv
    next text' => exact if_pos hv

end Registry

end Synopsis
