import Synopsis.Proofs.Meanings

/-!
# Names in brackets

The name of a union or a choice lists the names of its parts in brackets, with bars between them.
A part may be named so itself, so not every bar stands between two parts: one that stands in further
brackets does not.

**Theorem (`writeAlternatives_injective_of_bracketed`).** The parts can be told from the name, if
they have no marks other than those of alternatives. For then the first part ends at the first bar
or closing bracket that is in no brackets (`leadingPart`), whatever follows.
-/

namespace Synopsis

/-- Alternatives are written with brackets and bars. -/
def IsMark (c : Char) : Prop := c = '(' ∨ c = '|' ∨ c = ')'

instance (c : Char) : Decidable (IsMark c) :=
  inferInstanceAs (Decidable (c = '(' ∨ c = '|' ∨ c = ')'))

/-- A text without marks, or alternatives of such texts. -/
inductive Bracketed : List Char → Prop
  | unmarked {cs : List Char} (h : ∀ c ∈ cs, ¬IsMark c) : Bracketed cs
  | alternatives {parts : List (List Char)} (h : ∀ part ∈ parts, Bracketed part) :
      Bracketed ('(' :: (['|'].intercalate parts ++ [')']))

/-- The text up to the first bar or closing bracket that is in no brackets, where `depth` brackets
are open. -/
def leadingPart : Nat → List Char → List Char
  | _, [] => []
  | depth, c :: cs =>
    if c = '(' then c :: leadingPart (depth + 1) cs
    else if depth = 0 ∧ (c = '|' ∨ c = ')') then []
    else if c = ')' then c :: leadingPart (depth - 1) cs
    else c :: leadingPart depth cs

section LeadingPart

variable {depth : Nat} {cs rest : List Char}

@[simp] theorem leadingPart_open (depth : Nat) (cs : List Char) :
    leadingPart depth ('(' :: cs) = '(' :: leadingPart (depth + 1) cs := by
  simp [leadingPart]

@[simp] theorem leadingPart_close (depth : Nat) (cs : List Char) :
    leadingPart (depth + 1) (')' :: cs) = ')' :: leadingPart depth cs := by
  simp [leadingPart]

@[simp] theorem leadingPart_bar (depth : Nat) (cs : List Char) :
    leadingPart (depth + 1) ('|' :: cs) = '|' :: leadingPart (depth + 1) cs := by
  simp [leadingPart]

theorem leadingPart_unmarked {c : Char} (hc : ¬IsMark c) (depth : Nat) (cs : List Char) :
    leadingPart depth (c :: cs) = c :: leadingPart depth cs := by
  simp only [IsMark, not_or] at hc
  simp [leadingPart, hc.1, hc.2.1, hc.2.2]

/-- Parts in brackets are passed over where each of them is. -/
theorem leadingPart_intercalate {parts : List (List Char)}
    (h : ∀ part ∈ parts, ∀ depth rest,
      leadingPart depth (part ++ rest) = part ++ leadingPart depth rest) :
    leadingPart (depth + 1) (['|'].intercalate parts ++ rest) =
      ['|'].intercalate parts ++ leadingPart (depth + 1) rest := by
  induction parts with
  | nil => simp
  | cons part parts ih =>
    rw [List.forall_mem_cons] at h
    cases parts with
    | nil => simpa using h.1 (depth + 1) rest
    | cons next parts =>
      have hrest := ih h.2
      simp only [List.intercalate_cons_cons, List.append_assoc,
        List.cons_append, List.nil_append] at hrest ⊢
      rw [h.1, leadingPart_bar, hrest]

/-- **A bracketed text is passed over.** -/
theorem Bracketed.leadingPart_append (h : Bracketed cs) (depth : Nat) (rest : List Char) :
    leadingPart depth (cs ++ rest) = cs ++ leadingPart depth rest := by
  induction h generalizing depth rest with
  | @unmarked cs h =>
    induction cs with
    | nil => rfl
    | cons c cs ih =>
      rw [List.forall_mem_cons] at h
      rw [List.cons_append, leadingPart_unmarked h.1, ih h.2, List.cons_append]
  | alternatives h ih =>
    rw [List.cons_append, leadingPart_open, List.append_assoc, leadingPart_intercalate ih,
      List.singleton_append, leadingPart_close]
    simp

/-- A bracketed text is what leads, up to where it ends. -/
theorem Bracketed.eq_leadingPart (h : Bracketed cs)
    (hrest : ∀ c ∈ rest.head?, c = '|' ∨ c = ')') : leadingPart 0 (cs ++ rest) = cs := by
  have hnone : leadingPart 0 rest = [] := by
    cases rest with
    | nil => rfl
    | cons c rest =>
      have hc : c = '|' ∨ c = ')' := hrest c rfl
      have hopen : c ≠ '(' := by
        rintro rfl
        exact absurd hc (by decide)
      simp [leadingPart, hopen, hc]
  rw [h.leadingPart_append, hnone, List.append_nil]

end LeadingPart

/-! ## Names -/

/-- The text is bracketed, as a name is. -/
def IsBracketed (text : String) : Prop := Bracketed text.toList

section Names

variable {text : String} {parts parts' : List String}

theorem isBracketed_of_unmarked (h : ∀ c ∈ text.toList, ¬IsMark c) : IsBracketed text :=
  .unmarked h

theorem isBracketed_writeAlternatives (h : ∀ part ∈ parts, IsBracketed part) :
    IsBracketed (writeAlternatives parts) := by
  unfold IsBracketed
  rw [toList_writeAlternatives]
  exact .alternatives (List.forall_mem_map.2 h)

theorem open_mem_writeAlternatives (parts : List String) :
    '(' ∈ (writeAlternatives parts).toList := by
  rw [toList_writeAlternatives]
  exact List.mem_cons_self

theorem unmarked_of_isTypeName (h : isTypeName text) : ∀ c ∈ text.toList, ¬IsMark c := by
  obtain ⟨c, cs, htext, -, halphanum⟩ := Registry.head_of_isTypeName h
  intro d hd hmark
  have hd' := halphanum d (htext ▸ hd)
  rcases hmark with rfl | rfl | rfl <;> exact absurd hd' (by decide)

theorem barred_injective_of_bracketed (hne : parts ≠ []) (hne' : parts' ≠ [])
    (h : ∀ part ∈ parts, IsBracketed part) (h' : ∀ part ∈ parts', IsBracketed part)
    (heq : barred parts = barred parts') : parts = parts' := by
  -- the first part is what leads, whether or not another follows
  have hfirst (part : String) (parts : List String) (hpart : IsBracketed part) :
      leadingPart 0 (barred (part :: parts)) = part.toList := by
    cases parts with
    | nil =>
      have hwhole : leadingPart 0 (part.toList ++ []) = part.toList :=
        hpart.eq_leadingPart (by simp)
      rw [List.append_nil] at hwhole
      rw [barred_singleton, hwhole]
    | cons next parts =>
      rw [barred_cons part (List.cons_ne_nil _ _)]
      exact hpart.eq_leadingPart (by simp)
  induction parts generalizing parts' with
  | nil => exact absurd rfl hne
  | cons part parts ih =>
    cases parts' with
    | nil => exact absurd rfl hne'
    | cons part' parts' =>
      rw [List.forall_mem_cons] at h h'
      have hpart : part = part' := by
        rw [← String.toList_inj, ← hfirst part parts h.1, ← hfirst part' parts' h'.1, heq]
      subst hpart
      cases parts with
      | nil =>
        cases parts' with
        | nil => rfl
        | cons next' parts' =>
          rw [barred_singleton, barred_cons part (List.cons_ne_nil _ _)] at heq
          simp at heq
      | cons next parts =>
        cases parts' with
        | nil =>
          rw [barred_singleton, barred_cons part (List.cons_ne_nil _ _)] at heq
          simp at heq
        | cons next' parts' =>
          rw [barred_cons part (List.cons_ne_nil _ _), barred_cons part (List.cons_ne_nil _ _)]
            at heq
          have hrest : barred (next :: parts) = barred (next' :: parts') := by simpa using heq
          rw [ih (List.cons_ne_nil _ _) (List.cons_ne_nil _ _) h.2 h'.2 hrest]

/-- **The parts can be told from the name**, if they are bracketed. -/
theorem writeAlternatives_injective_of_bracketed (hne : parts ≠ []) (hne' : parts' ≠ [])
    (h : ∀ part ∈ parts, IsBracketed part) (h' : ∀ part ∈ parts', IsBracketed part)
    (heq : writeAlternatives parts = writeAlternatives parts') : parts = parts' := by
  have hlist := congrArg String.toList heq
  rw [toList_writeAlternatives, toList_writeAlternatives] at hlist
  exact barred_injective_of_bracketed hne hne' h h' (by simpa using hlist)

end Names

end Synopsis
