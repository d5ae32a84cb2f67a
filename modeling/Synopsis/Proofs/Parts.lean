import Synopsis.Proofs.Reading

/-!
# Texts made of parts

A usage is described as parts with one blank between them. A reader that has taken a part stands at
the end of the text or at the blank before the next part (`Ends`), where a term may end and no note
begins; the next reader drops that blank.
-/

namespace Synopsis

open Lexeme (StopsAt)

/-- Parts with a blank between them. -/
def joined (parts : List String) : List Char := [' '].intercalate (parts.map String.toList)

/-- Parts with a blank before each. -/
def spaced (parts : List String) : List Char := parts.flatMap fun part => ' ' :: part.toList

theorem toList_intercalate_blank (parts : List String) :
    (" ".intercalate parts).toList = joined parts := by
  rw [String.toList_intercalate]
  rfl

@[simp] theorem joined_nil : joined [] = [] := rfl

@[simp] theorem spaced_nil : spaced [] = [] := rfl

@[simp] theorem spaced_cons (part : String) (parts : List String) :
    spaced (part :: parts) = ' ' :: (part.toList ++ spaced parts) := rfl

@[simp] theorem joined_cons (part : String) (parts : List String) :
    joined (part :: parts) = part.toList ++ spaced parts := by
  induction parts generalizing part with
  | nil => simp [joined]
  | cons next parts ih =>
    have hnext := ih next
    simp only [joined, List.map_cons, List.intercalate_cons_cons] at hnext ⊢
    rw [hnext]
    simp

theorem spaced_append (parts parts' : List String) :
    spaced (parts ++ parts') = spaced parts ++ spaced parts' := List.flatMap_append

theorem length_joined_le (first parts : List String) :
    (joined parts).length ≤ (joined (first ++ parts)).length := by
  have hspaced (parts : List String) : (joined parts).length ≤ (spaced parts).length := by
    cases parts with
    | nil => exact le_refl _
    | cons part parts =>
      rw [joined_cons, spaced_cons, List.length_cons]
      exact Nat.le_succ _
  cases first with
  | nil => exact le_refl _
  | cons part first =>
    rw [List.cons_append, joined_cons, spaced_append, List.length_append, List.length_append]
    have := hspaced parts
    omega

/-- A cursor where a term may end and no note begins. -/
structure Ends (cs : List Char) : Prop where
  boundary : Lexeme.atBoundary cs = true
  no_note : Lexeme.note? cs = none

/-- The text does not start with a blank, nor with what would make a note after one. -/
structure IsPart (text : String) : Prop where
  ne_nil : text.toList ≠ []
  solid : StopsAt isBlank text.toList
  no_note : ∀ after, Lexeme.note? (' ' :: (text.toList ++ after)) = none

/-! ## What is a part -/

theorem isBlank_of_isSpaceOrTab {c : Char} (h : Lexeme.isSpaceOrTab c = true) :
    isBlank c = true := by
  simp only [Lexeme.isSpaceOrTab, Bool.or_eq_true, decide_eq_true_eq] at h
  rcases h with rfl | rfl <;> decide

section Start

variable {text : String} {c : Char} {cs : List Char}

theorem dropWhile_isSpaceOrTab (hc : isBlank c = false) (cs : List Char) :
    (' ' :: c :: cs).dropWhile Lexeme.isSpaceOrTab = c :: cs := by
  have hc' : Lexeme.isSpaceOrTab c = false := by
    by_contra h
    simp [isBlank_of_isSpaceOrTab (Bool.of_not_eq_false h)] at hc
  rw [List.dropWhile_cons_of_pos rfl, List.dropWhile_cons_of_neg (by simpa using hc')]

/-- A note begins with two hyphens and a blank. -/
theorem note?_blank (hc : isBlank c = false)
    (h : ∀ d ds, c :: cs = '-' :: '-' :: d :: ds → Lexeme.isSpaceOrTab d = false) :
    Lexeme.note? (' ' :: c :: cs) = none := by
  unfold Lexeme.note?
  split
  · next d ds heq hcs =>
    rw [dropWhile_isSpaceOrTab hc] at hcs
    simp [h _ _ hcs]
  · rfl

theorem isBlank_of_isAlphanum (h : c.isAlphanum = true) : isBlank c = false := by
  by_contra hblank
  simp [Lexeme.isAlphanum_of_isBlank (Bool.of_not_eq_false hblank)] at h

theorem isSpaceOrTab_of_isAlphanum (h : c.isAlphanum = true) : Lexeme.isSpaceOrTab c = false := by
  by_contra hspace
  have hblank := isBlank_of_isSpaceOrTab (Bool.of_not_eq_false hspace)
  simp [isBlank_of_isAlphanum h] at hblank

theorem isBlank_hyphen : isBlank '-' = false := by decide

theorem isPart_of_head (htext : text.toList = c :: cs) (hc : isBlank c = false) (hne : c ≠ '-') :
    IsPart text where
  ne_nil := by simp [htext]
  solid := htext ▸ Lexeme.stopsAt_cons hc
  no_note after := by
    rw [htext]
    refine note?_blank hc fun d ds heq => ?_
    exact absurd (List.head_eq_of_cons_eq heq) hne

/-- A text that starts with a hyphen is a part, unless it could be a note. -/
theorem isPart_of_hyphen (htext : text.toList = '-' :: cs)
    (h : ∀ after d ds, cs ++ after = '-' :: d :: ds → Lexeme.isSpaceOrTab d = false) :
    IsPart text where
  ne_nil := by simp [htext]
  solid := htext ▸ Lexeme.stopsAt_cons isBlank_hyphen
  no_note after := by
    rw [htext]
    exact note?_blank isBlank_hyphen fun d ds heq => h after d ds (List.tail_eq_of_cons_eq heq)

theorem isPart_of_short (htext : text.toList = '-' :: c :: cs) (hc : c.isAlphanum = true) :
    IsPart text := by
  refine isPart_of_hyphen htext fun after d ds heq => ?_
  obtain rfl : c = '-' := List.head_eq_of_cons_eq heq
  simp at hc

theorem isPart_of_long (htext : text.toList = '-' :: '-' :: c :: cs) (hc : c.isAlphanum = true) :
    IsPart text := by
  refine isPart_of_hyphen htext fun after d ds heq => ?_
  obtain rfl : c = d := List.head_eq_of_cons_eq (List.tail_eq_of_cons_eq heq)
  exact isSpaceOrTab_of_isAlphanum hc

end Start

/-! ## Where a reader stands after a part -/

theorem ends_nil : Ends [] := ⟨rfl, rfl⟩

theorem ends_bracket (cs : List Char) : Ends (']' :: cs) := ⟨rfl, rfl⟩

section Standing

variable {parts : List String} {after : List Char}

theorem ends_spaced (hparts : ∀ part ∈ parts, IsPart part) (hafter : Ends after) :
    Ends (spaced parts ++ after) := by
  cases parts with
  | nil => exact hafter
  | cons part parts =>
    have hpart := hparts part (by simp)
    rw [spaced_cons, List.cons_append, List.append_assoc]
    exact ⟨rfl, hpart.no_note _⟩

theorem trimStart_of_stopsAt {cs : List Char} (h : StopsAt isBlank cs) : trimStart cs = cs :=
  @Lexeme.trimStart_append [] cs (by simp) h

theorem stopsAt_joined (hparts : ∀ part ∈ parts, IsPart part) (hafter : StopsAt isBlank after) :
    StopsAt isBlank (joined parts ++ after) := by
  cases parts with
  | nil => exact hafter
  | cons part parts =>
    have hpart := hparts part (by simp)
    intro c hc
    refine hpart.solid c ?_
    rw [joined_cons, List.append_assoc, List.head?_append_of_ne_nil _ hpart.ne_nil] at hc
    exact hc

theorem trimStart_joined (hparts : ∀ part ∈ parts, IsPart part) :
    trimStart (joined parts) = joined parts := by
  have hstops := @stopsAt_joined parts [] hparts (by simp [StopsAt])
  rw [List.append_nil] at hstops
  exact trimStart_of_stopsAt hstops

theorem trimStart_spaced (hparts : ∀ part ∈ parts, IsPart part) (hafter : StopsAt isBlank after) :
    trimStart (spaced parts ++ after) = joined parts ++ after := by
  cases parts with
  | nil => exact trimStart_of_stopsAt hafter
  | cons part parts =>
    have hdrop := @Lexeme.trimStart_append [' '] (joined (part :: parts) ++ after)
      (by simp; decide) (stopsAt_joined hparts hafter)
    rw [← hdrop]
    simp

/-- Past one part a reader comes to the next, with less of the text before it. -/
theorem next_part {part : String} {cs cs' : List Char} (hpart : IsPart part)
    (hparts : ∀ part ∈ parts, IsPart part) (hafter : StopsAt isBlank after)
    (hcs : trimStart cs = joined (part :: parts) ++ after) (hcs' : cs' = spaced parts ++ after) :
    trimStart cs' = joined parts ++ after ∧ cs'.length < cs.length := by
  refine ⟨hcs' ▸ trimStart_spaced hparts hafter, ?_⟩
  have hlength : (trimStart cs).length ≤ cs.length := List.length_dropWhile_le _ _
  have hpos := List.length_pos_of_ne_nil hpart.ne_nil
  rw [hcs, joined_cons, List.append_assoc, ← hcs', List.length_append] at hlength
  omega

/-- No mark starts at a boundary but a closing bracket or a bar. -/
theorem startsWith_of_atBoundary {mark : String} {cs : List Char}
    (hmark : Lexeme.atBoundary mark.toList = false) (h : Lexeme.atBoundary cs = true) :
    Lexeme.startsWith mark cs = false := by
  by_contra hstarts
  obtain ⟨ds, rfl⟩ := Lexeme.startsWith_iff.1 (Bool.of_not_eq_false hstarts)
  cases hlist : mark.toList with
  | nil => simp [hlist, Lexeme.atBoundary] at hmark
  | cons c cs =>
    rw [hlist] at h hmark
    exact absurd (hmark.symm.trans h) (by decide)

theorem Ends.startsWith_dots {cs : List Char} (h : Ends cs) :
    Lexeme.startsWith "..." cs = false :=
  startsWith_of_atBoundary (by decide) h.boundary

theorem Ends.note {s : ReaderState} (h : Ends s.rest) : Reader.note s = .ok none s := by
  simp [Reader.note, h.no_note]

end Standing

end Synopsis
