import Synopsis.Invocation.Binding
import Synopsis.Proofs.Steps

/-!
# What binding comes to

What a text, an occurrence or a default of a parameter is bound to, the claim on the file topic
aside.
-/

namespace Synopsis

/-- What a parameter of the type is bound to by a text: the file topic where the type takes it, and
what the type reads otherwise. -/
def ValueType.Reads (type : ValueType) (text : String) (value : Value) : Prop :=
  if text = fileTopic ∧ type.takesTopic then value = .topic else type.read? text = some value

/-- Two slots of one shape, related value by value. -/
inductive Slot.Rel {α β : Type} (R : α → β → Prop) : Slot α → Slot β → Prop
  | single {a : α} {b : β} (h : R a b) : Rel R (.single a) (.single b)
  | list {as : List α} {bs : List β} (h : List.Forall₂ R as bs) : Rel R (.list as) (.list bs)

/-- The entry that an occurrence makes. -/
def Payload.Enters (type : ValueType) : Payload → Entry → Prop
  | .text written, entry => ∃ value, type.Reads written value ∧ entry = .ready value
  | .implied on, entry => entry = .ready (.boolean on)
  | .deferred expression, entry => entry = .deferred expression

/-- The value of a default. A raw default of a list is its only element. -/
def DefaultValue.Gives (type : ValueType) (list : Bool) : DefaultValue → Value → Prop
  | .value given, v => v = given
  | .raw text, v => ∃ read, type.Reads text read ∧ v = if list then type.collect [read] else read

namespace Claiming

variable {type : ValueType} {parameter : String} {c c' : Option String}

/-- The file topic is claimed once, and any other text claims nothing. -/
theorem read_ok_iff {text : String} {value : Value} :
    read type parameter text c = .ok (value, c') ↔
      (text = fileTopic ∧ type.takesTopic) ∧ c = none ∧ value = .topic ∧ c' = some parameter ∨
      ¬(text = fileTopic ∧ type.takesTopic) ∧ type.read? text = some value ∧ c' = c := by
  unfold read
  by_cases htopic : text = fileTopic ∧ type.takesTopic
  · cases c <;> simp [htopic, and_comm]
  · rw [if_neg (by simpa using htopic)]
    cases hread : type.read? text <;> simp [htopic, @eq_comm _ value]

theorem reads_of_read {text : String} {value : Value}
    (h : read type parameter text c = .ok (value, c')) : type.Reads text value := by
  unfold ValueType.Reads
  rcases read_ok_iff.1 h with ⟨htopic, -, rfl, -⟩ | ⟨htopic, hread, -⟩
  · rw [if_pos htopic]
  · rw [if_neg htopic]
    exact hread

theorem enters_of_entry {payload : Payload} {entry : Entry}
    (h : Claiming.entry type parameter payload c = .ok (entry, c')) :
    payload.Enters type entry := by
  cases payload with
  | text written =>
    obtain ⟨value, hread, rfl⟩ := by simpa [Claiming.entry] using h
    exact ⟨value, reads_of_read hread, rfl⟩
  | implied on => exact (losing_pure_ok_iff.1 h).1
  | deferred expression => exact (losing_pure_ok_iff.1 h).1

theorem gives_of_default {list : Bool} {d : DefaultValue} {value : Value}
    (h : Claiming.default type parameter list d c = .ok (value, c')) : d.Gives type list value := by
  cases d with
  | value given => exact (losing_pure_ok_iff.1 h).1
  | raw text =>
    simp only [Claiming.default, losing_bind_ok_iff, losing_pure_ok_iff] at h
    obtain ⟨read, c₁, hread, rfl, rfl⟩ := h
    exact ⟨read, reads_of_read hread, rfl⟩

theorem forall₂_of_mapM {α β : Type} {f : α → Claiming β} {R : α → β → Prop} {as : List α}
    {bs : List β} (hf : ∀ a b c c', f a c = .ok (b, c') → R a b)
    (h : as.mapM f c = .ok (bs, c')) : List.Forall₂ R as bs := by
  induction as generalizing c bs with
  | nil =>
    obtain ⟨rfl, -⟩ := by simpa using h
    exact .nil
  | cons a as ih =>
    simp only [List.mapM_cons, losing_bind_ok_iff, losing_pure_ok_iff] at h
    obtain ⟨b, c₁, hb, bs, c₂, hbs, rfl, rfl⟩ := h
    exact .cons (hf _ _ _ _ hb) (ih hbs)

theorem forall₂_of_filterMapM {α β : Type} {f : α → Claiming (Option β)}
    {R : α → Option β → Prop} {as : List α} {bs : List β}
    (hf : ∀ a b c c', f a c = .ok (b, c') → R a b)
    (h : as.filterMapM f c = .ok (bs, c')) :
    ∃ found, List.Forall₂ R as found ∧ bs = found.reduceOption := by
  induction as generalizing c bs with
  | nil =>
    obtain ⟨rfl, -⟩ := by simpa using h
    exact ⟨[], .nil, rfl⟩
  | cons a as ih =>
    simp only [List.filterMapM_cons, losing_bind_ok_iff] at h
    obtain ⟨b, c₁, hb, h⟩ := h
    cases b with
    | none =>
      obtain ⟨found, hfound, rfl⟩ := ih h
      exact ⟨none :: found, .cons (hf _ _ _ _ hb) hfound, rfl⟩
    | some b =>
      simp only [losing_bind_ok_iff, losing_pure_ok_iff] at h
      obtain ⟨bs, c₂, hbs, rfl, rfl⟩ := h
      obtain ⟨found, hfound, rfl⟩ := ih hbs
      exact ⟨some b :: found, .cons (hf _ _ _ _ hb) hfound, rfl⟩

theorem rel_of_slot_mapM {α β : Type} {f : α → Claiming β} {R : α → β → Prop} {slot : Slot α}
    {slot' : Slot β} (hf : ∀ a b c c', f a c = .ok (b, c') → R a b)
    (h : slot.mapM f c = .ok (slot', c')) : slot.Rel R slot' := by
  cases slot with
  | single a =>
    simp only [Slot.mapM, losing_bind_ok_iff, losing_pure_ok_iff] at h
    obtain ⟨b, c₁, hb, rfl, rfl⟩ := h
    exact .single (hf _ _ _ _ hb)
  | list as =>
    simp only [Slot.mapM, losing_bind_ok_iff, losing_pure_ok_iff] at h
    obtain ⟨bs, c₁, hbs, rfl, rfl⟩ := h
    exact .list (forall₂_of_mapM hf hbs)

end Claiming

end Synopsis
