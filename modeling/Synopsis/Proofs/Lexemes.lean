import Mathlib
import Synopsis.Grammar.Lexeme

/-!
# Whole lexemes

A text is a whole lexeme when the lexeme takes all of it. What a lexeme takes is always whole, and
a whole lexeme is taken again wherever the character after it cannot go on with it
(`leading_append`). Blanks, closing brackets and bars go on with none.
-/

namespace Synopsis

namespace Lexeme

/-- The text is one lexeme, and not empty. -/
def IsWhole (lexeme : List Char → List Char) (cs : List Char) : Prop := cs ≠ [] ∧ lexeme cs = cs

/-- No character that satisfies `tail` stands at the front. -/
def StopsAt (tail : Char → Bool) (cs : List Char) : Prop := ∀ c ∈ cs.head?, tail c = false

theorem stopsAt_cons {tail : Char → Bool} {c : Char} {cs : List Char} (h : tail c = false) :
    StopsAt tail (c :: cs) := by
  intro d hd
  obtain rfl : c = d := by simpa using hd
  exact h

section Leading

variable {head tail : Char → Bool} {c : Char} {cs ds : List Char}

theorem leading_cons (hc : head c = true) : leading head tail (c :: cs) = c :: cs.takeWhile tail := by
  rw [leading, if_pos hc]

theorem isWhole_leading_iff :
    IsWhole (leading head tail) (c :: cs) ↔ head c = true ∧ ∀ d ∈ cs, tail d = true := by
  by_cases hc : head c = true <;> simp [IsWhole, leading, hc, List.takeWhile_eq_self_iff]

theorem isWhole_leading (h : leading head tail cs ≠ []) :
    IsWhole (leading head tail) (leading head tail cs) := by
  cases cs with
  | nil => exact absurd rfl h
  | cons c cs =>
    by_cases hc : head c = true
    · rw [leading_cons hc, isWhole_leading_iff]
      exact ⟨hc, fun d hd => List.mem_takeWhile_imp hd⟩
    · simp [leading, hc] at h

theorem takeWhile_append_of_stopsAt {p : Char → Bool} (hcs : ∀ c ∈ cs, p c = true)
    (hds : StopsAt p ds) : (cs ++ ds).takeWhile p = cs := by
  rw [List.takeWhile_append_of_pos hcs]
  cases ds with
  | nil => simp
  | cons d ds => simp [hds d rfl]

/-- A whole lexeme is taken again where what follows cannot go on with it. -/
theorem leading_append (h : IsWhole (leading head tail) cs) (hds : StopsAt tail ds) :
    leading head tail (cs ++ ds) = cs := by
  cases cs with
  | nil => exact absurd rfl h.1
  | cons c cs =>
    obtain ⟨hc, htail⟩ := isWhole_leading_iff.1 h
    rw [List.cons_append, leading_cons hc, takeWhile_append_of_stopsAt htail hds]

theorem append_drop_leading :
    leading head tail cs ++ cs.drop (leading head tail cs).length = cs :=
  List.prefix_iff_eq_append.1 ( leading_prefix head tail cs)

theorem leading_eq_nil (hc : head c = false) : leading head tail (c :: cs) = [] := by
  simp [leading, hc]

end Leading

/-! ## Words and identifiers -/

section Lexemes

variable {cs ds : List Char}

/-- A character that a word goes on with. -/
def wordTail (c : Char) : Bool := c.isLower || c.isDigit || c = '_' || c = '-'

/-- A character that an identifier goes on with. -/
def identifierTail (c : Char) : Bool := c.isAlphanum || c = '_'

theorem isWhole_word (h : word cs ≠ []) : IsWhole word (word cs) := isWhole_leading h

theorem isWhole_identifier (h : identifier cs ≠ []) : IsWhole identifier (identifier cs) :=
  isWhole_leading h

theorem word_append_drop : word cs ++ cs.drop (word cs).length = cs := append_drop_leading

theorem identifier_append_drop : identifier cs ++ cs.drop (identifier cs).length = cs :=
  append_drop_leading

theorem word_append (h : IsWhole word cs) (hds : StopsAt wordTail ds) : word (cs ++ ds) = cs :=
  leading_append h hds

theorem identifier_append (h : IsWhole identifier cs) (hds : StopsAt identifierTail ds) :
    identifier (cs ++ ds) = cs :=
  leading_append h hds

theorem isLower_of_isWhole_word {c : Char} (h : IsWhole word (c :: cs)) : c.isLower = true :=
  (isWhole_leading_iff.1 h).1

theorem isUpper_of_isWhole_identifier {c : Char} (h : IsWhole identifier (c :: cs)) :
    c.isUpper = true :=
  (isWhole_leading_iff.1 h).1

end Lexemes

theorem startsWith_iff {mark : String} {cs : List Char} :
    startsWith mark cs = true ↔ ∃ ds, cs = mark.toList ++ ds := by
  rw [startsWith, List.isPrefixOf_iff_prefix]
  exact ⟨fun ⟨ds, h⟩ => ⟨ds, h.symm⟩, fun ⟨ds, h⟩ => ⟨ds, h.symm⟩⟩

/-! ## Blanks -/

theorem trimStart_append {blanks cs : List Char} (hb : ∀ c ∈ blanks, isBlank c = true)
    (hcs : StopsAt isBlank cs) : trimStart (blanks ++ cs) = cs := by
  rw [trimStart, List.dropWhile_append_of_pos hb]
  cases cs with
  | nil => rfl
  | cons c cs => simp [hcs c rfl]

theorem exists_blanks (cs : List Char) :
    ∃ blanks, (∀ c ∈ blanks, isBlank c = true) ∧ cs = blanks ++ trimStart cs :=
  ⟨cs.takeWhile isBlank, fun _ hc => List.mem_takeWhile_imp hc,
    List.takeWhile_append_dropWhile.symm⟩

/-! ## Characters -/

theorem isBlank_bounds {c : Char} (h : isBlank c = true) : c.toNat ≤ 32 ∨ 133 ≤ c.toNat := by
  simp only [isBlank, Bool.or_eq_true, Bool.and_eq_true, decide_eq_true_eq, beq_iff_eq] at h
  rcases h with (((((((((⟨-, h⟩ | rfl) | rfl) | rfl) | rfl) | ⟨h, -⟩) | rfl) | rfl) | rfl) | rfl) | rfl
  · exact Or.inl (Nat.le_trans h (by decide))
  · decide
  · decide
  · decide
  · decide
  · exact Or.inr (Nat.le_trans (by decide) h)
  all_goals decide

theorem isAlphanum_bounds {c : Char} (h : c.isAlphanum = true) : 48 ≤ c.toNat ∧ c.toNat ≤ 122 := by
  simp only [Char.isAlphanum, Char.isAlpha, Char.isUpper, Char.isLower, Char.isDigit,
    Bool.or_eq_true, Bool.and_eq_true, decide_eq_true_eq, ge_iff_le, UInt32.le_iff_toNat_le] at h
  change (((65 ≤ c.toNat ∧ c.toNat ≤ 90) ∨ (97 ≤ c.toNat ∧ c.toNat ≤ 122)) ∨
    (48 ≤ c.toNat ∧ c.toNat ≤ 57)) at h
  omega

theorem isAlphanum_of_isBlank {c : Char} (h : isBlank c = true) : c.isAlphanum = false := by
  by_contra hc
  have := isAlphanum_bounds (Bool.of_not_eq_false hc)
  have := isBlank_bounds h
  omega

/-! ## Boundaries -/

section Boundaries

variable {c : Char} {cs ds : List Char}

/-- A character that an option goes on with. -/
def optionTail (c : Char) : Bool := c.isAlphanum || c = '_' || c = '-'

/-- At a boundary no word, identifier or option goes on. -/
theorem optionTail_of_atBoundary (h : atBoundary (c :: cs) = true) : optionTail c = false := by
  simp only [atBoundary, Bool.or_eq_true, decide_eq_true_eq] at h
  rcases h with ((hblank | rfl) | rfl) | rfl
  · have hunderscore : c ≠ '_' := by
      rintro rfl
      exact absurd hblank (by decide)
    have hhyphen : c ≠ '-' := by
      rintro rfl
      exact absurd hblank (by decide)
    simp [optionTail, isAlphanum_of_isBlank hblank, hunderscore, hhyphen]
  all_goals decide

theorem stopsAt_of_atBoundary {tail : Char → Bool} (htail : ∀ c, tail c → optionTail c)
    (h : atBoundary cs = true) : StopsAt tail cs := by
  intro c hc
  cases cs with
  | nil => simp at hc
  | cons d ds =>
    obtain rfl : d = c := by simpa using hc
    by_contra hgoes
    have := htail d (Bool.of_not_eq_false hgoes)
    simp [optionTail_of_atBoundary h] at this

theorem optionTail_of_wordTail (h : wordTail c) : optionTail c := by
  simp only [wordTail, Bool.or_eq_true, decide_eq_true_eq] at h
  simp only [optionTail, Char.isAlphanum, Char.isAlpha, Bool.or_eq_true, decide_eq_true_eq]
  tauto

theorem optionTail_of_identifierTail (h : identifierTail c) : optionTail c := by
  simp only [identifierTail, Bool.or_eq_true, decide_eq_true_eq] at h
  simp only [optionTail, Bool.or_eq_true, decide_eq_true_eq]
  tauto

theorem atBoundary_append (hcs : ∀ c ∈ cs, isBlank c = true) (hds : atBoundary ds = true) :
    atBoundary (cs ++ ds) = true := by
  cases cs with
  | nil => exact hds
  | cons c cs => simp [atBoundary, hcs c (by simp)]

end Boundaries

end Lexeme

end Synopsis
