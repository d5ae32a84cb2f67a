import Synopsis.Grammar.Outline
import Synopsis.Proofs.Lexemes
import Synopsis.Proofs.Steps

/-!
# What the steps of a reader do

Each step of a reader either fails or comes to a result and a next state. The theorems here say
which, one for each step, as an equivalence: read from left to right they take a successful run
apart, and from right to left they build one.

They are simp lemmas, so `simp` with the name of a reader turns "this reader succeeded" into the
list of what its steps found.
-/

namespace Synopsis

/-- What a reader has learnt, its place in the text aside. -/
structure Known where
  registry : Registry
  /-- The identifiers with a number met so far. -/
  numbered : List String

namespace ReaderState

def known (s : ReaderState) : Known := ⟨s.registry, s.numbered⟩

@[simp] theorem rest_advance (s : ReaderState) (n : Nat) : (s.advance n).rest = s.rest.drop n := rfl

@[simp] theorem registry_advance (s : ReaderState) (n : Nat) :
    (s.advance n).registry = s.registry := rfl

@[simp] theorem numbered_advance (s : ReaderState) (n : Nat) :
    (s.advance n).numbered = s.numbered := rfl

@[simp] theorem known_advance (s : ReaderState) (n : Nat) : (s.advance n).known = s.known := rfl

@[simp] theorem advance_zero (s : ReaderState) : s.advance 0 = s := by
  simp [advance]

end ReaderState

namespace Reader

variable {α : Type} {s s' : ReaderState}

@[simp] theorem fail_ok_iff {kind : FaultKind} {detail : String} {start : Nat} {a : α} :
    (fail kind detail start : Reader α) s = .ok a s' ↔ False := by
  simp [fail]

/-! ## Steps through the text -/

@[simp] theorem offset_ok_iff {n : Nat} : offset s = .ok n s' ↔ n = s.offset ∧ s' = s := by
  simp [offset, and_comm]

@[simp] theorem remaining_ok_iff {cs : List Char} :
    remaining s = .ok cs s' ↔ cs = s.rest ∧ s' = s := by
  simp [remaining, and_comm, and_assoc]

@[simp] theorem accept_ok_iff {lexeme : List Char → List Char} {found : List Char} :
    accept lexeme s = .ok found s' ↔
      found = lexeme s.rest ∧ s' = s.advance (lexeme s.rest).length := by
  simp [accept, and_comm, and_assoc]

/-- The state after a mark, if it is there. -/
def past (mark : String) (s : ReaderState) : ReaderState :=
  if Lexeme.startsWith mark s.rest then s.advance mark.toList.length else s

@[simp] theorem known_past (mark : String) (s : ReaderState) : (past mark s).known = s.known := by
  unfold past
  split <;> rfl

theorem rest_past {mark : String} {cs : List Char} (h : s.rest = mark.toList ++ cs) :
    (past mark s).rest = cs := by
  have hmark : Lexeme.startsWith mark s.rest = true := Lexeme.startsWith_iff.2 ⟨cs, h⟩
  rw [past, if_pos hmark, ReaderState.rest_advance, h, List.drop_left]

theorem past_of_not {mark : String} (h : Lexeme.startsWith mark s.rest = false) :
    past mark s = s := by
  simp [past, h]

@[simp] theorem acceptMark_ok_iff {mark : String} {found : Bool} :
    acceptMark mark s = .ok found s' ↔
      found = Lexeme.startsWith mark s.rest ∧ s' = past mark s := by
  cases h : Lexeme.startsWith mark s.rest <;> simp [acceptMark, past, h, and_assoc, and_comm]

/-- The state after the blanks at the cursor. -/
def pastBlanks (s : ReaderState) : ReaderState := s.advance (s.rest.takeWhile isBlank).length

@[simp] theorem rest_pastBlanks (s : ReaderState) : (pastBlanks s).rest = trimStart s.rest := by
  have h : (s.rest.takeWhile isBlank ++ s.rest.dropWhile isBlank).drop
      (s.rest.takeWhile isBlank).length = s.rest.dropWhile isBlank := List.drop_left
  rwa [List.takeWhile_append_dropWhile] at h

@[simp] theorem known_pastBlanks (s : ReaderState) : (pastBlanks s).known = s.known := rfl

@[simp] theorem skipBlanks_ok_iff {u : Unit} : skipBlanks s = .ok u s' ↔ s' = pastBlanks s := by
  simp [skipBlanks, pastBlanks]

@[simp] theorem acceptMarkBlanks_ok_iff {mark : String} {found : Bool} :
    acceptMarkBlanks mark s = .ok found s' ↔
      found = Lexeme.startsWith mark s.rest ∧
        s' = if Lexeme.startsWith mark s.rest then pastBlanks (past mark s) else s := by
  cases h : Lexeme.startsWith mark s.rest <;> simp [acceptMarkBlanks, past, h, and_comm]

@[simp] theorem expectBoundary_ok_iff {u : Unit} :
    expectBoundary s = .ok u s' ↔ Lexeme.atBoundary s.rest ∧ s' = s := by
  simp [expectBoundary, and_assoc, and_comm]

@[simp] theorem rejectNote_ok_iff {u : Unit} :
    rejectNote s = .ok u s' ↔ Lexeme.note? s.rest = none ∧ s' = s := by
  simp [rejectNote, and_assoc, and_comm]

/-! ## Steps on the registry -/

@[simp] theorem resolving_ok_iff {start : Nat} {step : Registry.Step α} {a : α} :
    resolving start step s = .ok a s' ↔
      ∃ r, step s.registry = .ok a r ∧ s' = { s with registry := r } := by
  unfold resolving
  cases step s.registry <;> simp [eq_comm, and_assoc]

@[simp] theorem identified_ok_iff {start : Nat} {identifier : String}
    {named : String × Option String} :
    identified start identifier s = .ok named s' ↔
      readIdentifier identifier = .ok named ∧ s' = s := by
  unfold identified
  cases readIdentifier identifier <;> simp [eq_comm (a := named)]

end Reader

end Synopsis
