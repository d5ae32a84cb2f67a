import Synopsis.Grammar.Lexeme
import Synopsis.Grammar.Span
import Synopsis.Grammar.Term

/-!
# Reading a usage text

The steps that a reader of usage texts is made of. A reader holds the remaining characters and the
number of bytes before them, the registry it resolves types in, and the numbered identifiers it has
met. It moves through the text by `advance` alone. What it has put into the registry stays there
when it fails.
-/

namespace Synopsis

/-- What is wrong with a usage text. -/
inductive FaultKind where
  /-- It does not follow the grammar. -/
  | malformed
  /-- Its positional arguments can be counted in more than one way. -/
  | ambiguous
  /-- It declares something twice. -/
  | duplicate
  /-- It names a type that cannot be resolved. -/
  | type
  deriving DecidableEq

/-- A complaint about a part of a usage text. -/
structure Fault where
  kind : FaultKind
  detail : String
  span : Span
  deriving DecidableEq

/-- A complaint together with the text it is about. -/
structure GrammarError extends Fault where
  text : String
  deriving DecidableEq

def FaultKind.heading : FaultKind → String
  | malformed => "Syntax error: "
  | ambiguous => "Ambiguous grammar: "
  | duplicate => "Duplicate declaration: "
  | type => "Type error: "

/-- The complaint as it is shown, where it can be. -/
def GrammarError.message? (e : GrammarError) : Option String :=
  (e.span.show? e.detail e.text).map (e.kind.heading ++ ·)

structure ReaderState where
  /-- The remaining characters. -/
  rest : List Char
  /-- The number of bytes before them. -/
  offset : Nat := 0
  registry : Registry
  /-- The identifiers with a number met so far. -/
  numbered : List String := []

/-- The state after `n` more characters. -/
def ReaderState.advance (s : ReaderState) (n : Nat) : ReaderState :=
  { s with
    rest := s.rest.drop n
    offset := s.offset + (String.ofList (s.rest.take n)).utf8ByteSize }

abbrev Reader := EStateM Fault ReaderState

namespace Reader

def remaining : Reader (List Char) := return (← get).rest

def offset : Reader Nat := return (← get).offset

/-- Complain about the text from `start` to the cursor. -/
def fail {α : Type} (kind : FaultKind) (detail : String) (start : Nat) : Reader α := do
  throw ⟨kind, detail, .upTo start (← offset)⟩

/-- Take a lexeme, which is empty if it is not there. -/
def accept (lexeme : List Char → List Char) : Reader (List Char) := do
  let found := lexeme (← remaining)
  modify (·.advance found.length)
  return found

/-- Take a mark, if it is there. -/
def acceptMark (mark : String) : Reader Bool := do
  if Lexeme.startsWith mark (← remaining) then
    modify (·.advance mark.toList.length)
    return true
  else return false

/-- Take blanks. -/
def skipBlanks : Reader Unit := do
  let _ ← accept (·.takeWhile isBlank)

/-- Take a mark and the blanks after it, if it is there. -/
def acceptMarkBlanks (mark : String) : Reader Bool := do
  let found ← acceptMark mark
  if found then skipBlanks
  return found

/-- Run a step on the registry; its error is about the text from `start` to the cursor. -/
def resolving {α : Type} (start : Nat) (step : Registry.Step α) : Reader α := fun s =>
  match step s.registry with
  | .ok a r => .ok a { s with registry := r }
  | .error e r => .error ⟨.type, e.message, .upTo start s.offset⟩ { s with registry := r }

/-- The type that an identifier names, and its number. -/
def identified (start : Nat) (identifier : String) : Reader (String × Option String) :=
  match readIdentifier identifier with
  | .ok named => return named
  | .error e => fail .type e.message start

/-- A term has to end at the cursor. -/
def expectBoundary : Reader Unit := do
  unless Lexeme.atBoundary (← remaining) do
    fail .malformed "Unexpected input." (← offset)

/-- Take a note, if there is one. An empty note is taken and counts as none. -/
def note : Reader (Option String) := do
  let cs ← remaining
  match Lexeme.note? cs with
  | none => return none
  | some (text, after) =>
    modify (·.advance (cs.length - after.length))
    let text := trimEnd text
    return if text.isEmpty then none else some (String.ofList text)

/-- No note may stand at the cursor. -/
def rejectNote : Reader Unit := do
  if (Lexeme.note? (← remaining)).isSome then
    fail .malformed "Annotations may only follow an option or a list." (← offset)

end Reader

end Synopsis
