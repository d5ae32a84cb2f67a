import Synopsis.Proofs.Bracketing
import Synopsis.Proofs.Typing

/-!
# Types that refine a primitive

A type that is made of one primitive alone does what the primitive does: a derived type is asked
what its base is asked, and a union whose members all answer alike answers as any of them, whether
it takes the first answer or looks for one that says yes (`ValueType.Refines`).

A union without members would answer nothing at all, so the members of a union must be some. They
may be unions in turn, and then the name of the union has brackets in its brackets
(`ValueType.Refines.isBracketed`).
-/

namespace Synopsis

namespace ValueType

/-- The type is made of the primitive alone, and named as types are. -/
inductive Refines (p : Primitive) : ValueType → Prop
  | primitive (hname : isTypeName p.name) : Refines p (.primitive p)
  | derived {name lead : String} {base : ValueType} (hname : isTypeName name)
      (h : Refines p base) : Refines p (.derived name lead base)
  | union {members : List ValueType} (hne : members ≠ []) (h : ∀ t ∈ members, Refines p t) :
      Refines p (.union members)

/-! ## Members that answer alike -/

section Members

/-- Some answers that are all the same come to that answer, if it comes to itself with another one
and with none. -/
theorem foldr_eq_of_forall {α β : Type} {f : α → β} {combine : β → β → β} {answer last : β}
    (hself : combine answer answer = answer) (hlast : combine answer last = answer) {as : List α}
    (hne : as ≠ []) (h : ∀ a ∈ as, f a = answer) :
    as.foldr (fun a rest => combine (f a) rest) last = answer := by
  induction as with
  | nil => exact absurd rfl hne
  | cons a as ih =>
    rw [List.forall_mem_cons] at h
    rw [List.foldr_cons, h.1]
    cases as with
    | nil => exact hlast
    | cons next as => rw [ih (List.cons_ne_nil _ _) h.2, hself]

variable (members : List ValueType)

theorem readFirst?_eq_foldr (text : String) :
    readFirst? members text = members.foldr (fun t rest => (t.read? text).or rest) none := by
  induction members with
  | nil => rfl
  | cons t members ih => rw [readFirst?, ih, List.foldr_cons]

theorem anyTakesTopic_eq_foldr :
    anyTakesTopic members = members.foldr (fun t rest => t.takesTopic || rest) false := by
  induction members with
  | nil => rfl
  | cons t members ih => rw [anyTakesTopic, ih, List.foldr_cons]

theorem anyHolds_eq_foldr (v : Value) :
    anyHolds members v = members.foldr (fun t rest => t.holds v || rest) false := by
  induction members with
  | nil => rfl
  | cons t members ih => rw [anyHolds, ih, List.foldr_cons]

end Members

/-! ## What a refinement does -/

namespace Refines

variable {p : Primitive} {t : ValueType}

theorem canonicalName_eq (h : t.Refines p) : t.canonicalName = p.name := by
  induction h with
  | primitive => rfl
  | derived _ _ ih => exact ih
  | @union members hne _ ih =>
    cases members with
    | nil => exact absurd rfl hne
    | cons member members =>
      rw [canonicalName]
      exact ih member List.mem_cons_self

theorem read?_eq (h : t.Refines p) (text : String) :
    t.read? text = (ValueType.primitive p).read? text := by
  induction h with
  | primitive => rfl
  | derived _ _ ih => exact ih
  | union hne _ ih =>
    exact (readFirst?_eq_foldr _ text).trans
      (foldr_eq_of_forall Option.or_self Option.or_none hne ih)

theorem takesTopic_eq (h : t.Refines p) : t.takesTopic = p.takesTopic := by
  induction h with
  | primitive => rfl
  | derived _ _ ih => exact ih
  | union hne _ ih =>
    exact (anyTakesTopic_eq_foldr _).trans
      (foldr_eq_of_forall (Bool.or_self _) (Bool.or_false _) hne ih)

theorem holds_eq (h : t.Refines p) (v : Value) :
    t.holds v = (ValueType.primitive p).holds v := by
  induction h with
  | primitive => rfl
  | derived _ _ ih => exact ih
  | union hne _ ih =>
    exact (anyHolds_eq_foldr _ v).trans
      (foldr_eq_of_forall (Bool.or_self _) (Bool.or_false _) hne ih)

/-- The file topic, too, is a value of the type exactly where it is one of the primitive. -/
theorem accepts_eq (h : t.Refines p) (v : Value) :
    t.accepts v = (ValueType.primitive p).accepts v := by
  cases v with
  | topic => exact h.takesTopic_eq
  | _ => exact h.holds_eq _

theorem accepts_of_read? (h : t.Refines p) (hp : p.Topicless) {text : String} {v : Value}
    (hread : t.read? text = some v) : t.accepts v := by
  rw [h.read?_eq] at hread
  rw [h.accepts_eq]
  have hheld := holds_of_read? _ hread
  cases v with
  | topic => exact absurd hread (read?_ne_topic _ (over_primitive.2 hp))
  | _ => exact hheld

/-! ## How a refinement is named -/

theorem isTypeName_name (h : t.Refines p) : isTypeName p.name := by
  induction h with
  | primitive hname => exact hname
  | derived _ _ ih => exact ih
  | @union members hne _ ih =>
    obtain ⟨t, ht⟩ := List.exists_mem_of_ne_nil members hne
    exact ih t ht

/-- A refinement is named as a type is, unless it is a union. -/
theorem named (h : t.Refines p) : isTypeName t.name ∨ ∃ members, t = .union members := by
  cases h with
  | primitive hname => exact Or.inl hname
  | derived hname => exact Or.inl hname
  | union => exact Or.inr ⟨_, rfl⟩

theorem isBracketed (h : t.Refines p) : IsBracketed t.name := by
  induction h with
  | primitive hname => exact isBracketed_of_unmarked (unmarked_of_isTypeName hname)
  | derived hname => exact isBracketed_of_unmarked (unmarked_of_isTypeName hname)
  | @union members _ _ ih =>
    rw [name, Registry.names_eq_map]
    exact isBracketed_writeAlternatives (List.forall_mem_map.2 ih)

end Refines

end ValueType

end Synopsis
