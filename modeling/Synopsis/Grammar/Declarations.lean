import Synopsis.Grammar.Alternatives
import Synopsis.Grammar.Spelling

/-!
# Option declarations

An option stands in brackets when it may be supplied; in parentheses or bare when it must be. In a
group its spellings are parted by bars. The affirmative long spellings of a group declare one
option and each negated one declares its own side. A short spelling joins the first long one; alone
it declares an option of its own.
-/

namespace Synopsis

/-- What all declarations of a group share. -/
structure Shared where
  value : TakenValue
  metavar : Option String
  recurs : Bool
  note : Option String

namespace Shared

def declare (s : Shared) (key spelling : String) (negated : Bool) : Declaration where
  key
  spellings := [spelling]
  negated
  value := s.value
  metavar := s.metavar
  recurs := s.recurs
  note := s.note

end Shared

/-- Add an affirmative long spelling to the first affirmative declaration; if there is none,
declare it. -/
def joinAffirmative (shared : Shared) (key spelling : String) :
    List Declaration → List Declaration
  | [] => [shared.declare key spelling false]
  | d :: ds =>
    if d.negated then d :: joinAffirmative shared key spelling ds
    else { d with spellings := d.spellings ++ [spelling] } :: ds

/-- Give a short spelling to the first declaration; if there is none, declare it. -/
def joinShort (shared : Shared) (spelling : String) : List Declaration → List Declaration
  | [] => [shared.declare (optionKey spelling).1 spelling false]
  | d :: ds =>
    { d with shortAlias := spelling.toList[1]?, spellings := d.spellings ++ [spelling] } :: ds

namespace Reader

/-- The spelling of an option, and the offset it starts at. -/
def spelling : Reader (String × Nat) := do
  let start ← offset
  let word := String.ofList (← accept Lexeme.option)
  if word.isEmpty then
    fail .malformed "Expected an option (ex: '--name' or '-n')." start
  unless isLongSpelling word || isShortSpelling word do
    fail .malformed
      s!"Invalid option '{word}' (expected kebab-case, ex: '--dry-run' or '-d')." start
  return (word, start)

/-- The spellings of a group. Each round takes a character, so `fuel` above the number of remaining
characters does not run out. -/
def spellings : Nat → Reader (List (String × Nat))
  | 0 => return []
  | fuel + 1 => do
    let first ← spelling
    skipBlanks
    if ← acceptMarkBlanks "|" then return first :: (← spellings fuel) else return [first]

/-- The value that an option takes, and its label. -/
def takenValue : Reader (TakenValue × Option String) := do
  let start ← offset
  if ← acceptMark "=" then
    let (type, label) ← valueType
    return (.required type, some label)
  else if ← acceptMark "[=" then
    let (type, label) ← valueType
    unless ← acceptMark "]" do
      fail .malformed "Expected ']'." start
    return (.optional type, some label)
  else return (.flag, none)

/-- No spelling of a group may stand in it twice. -/
def rejectRepeats : List String → List (String × Nat) → Reader Unit
  | _, [] => return
  | seen, (spelling, start) :: rest => do
    if spelling ∈ seen then
      throw ⟨.duplicate, s!"The option '{spelling}' is listed more than once.",
        ⟨start, start + spelling.utf8ByteSize⟩⟩
    rejectRepeats (spelling :: seen) rest

/-- Declare the long spellings of a group in order, and find its short one. -/
def declareLong (shared : Shared) :
    List (String × Nat) → List Declaration → Option String →
      Reader (List Declaration × Option String)
  | [], declared, short => return (declared, short)
  | (spelling, start) :: rest, declared, short => do
    if startsLong spelling then
      let (key, negated) := optionKey spelling
      if negated then
        unless shared.value.isFlag do
          fail .malformed s!"The negated option '{spelling}' cannot take a value." start
        declareLong shared rest (declared ++ [shared.declare key spelling true]) short
      else declareLong shared rest (joinAffirmative shared key spelling declared) short
    else
      if short.isSome then
        fail .malformed "At most one short alias per option." start
      declareLong shared rest declared (some spelling)

/-- The declarations that the spellings of a group make. -/
def declarations (spellings : List (String × Nat)) (shared : Shared) :
    Reader (List Declaration) := do
  rejectRepeats [] spellings
  let (declared, short) ← declareLong shared spellings [] none
  match short with
  | none => return declared
  | some spelling => return joinShort shared spelling declared

/-- A group of spellings in brackets. -/
def optionGroup (opener closer : String) : Reader (List Declaration) := do
  let start ← offset
  let _ ← acceptMarkBlanks opener
  let spellings ← spellings ((← remaining).length + 1)
  skipBlanks
  let (value, metavar) ← takenValue
  skipBlanks
  unless ← acceptMark closer do
    fail .malformed s!"Expected '{closer}'." start
  let recurs ← acceptMark "..."
  let note ← note
  declarations spellings { value, metavar, recurs, note }

/-- An option without brackets. -/
def bareOption : Reader (List Declaration) := do
  let spelling ← spelling
  let (value, metavar) ← takenValue
  let recurs ← acceptMark "..."
  expectBoundary
  let note ← note
  declarations [spelling] { value, metavar, recurs, note }

/-- The ways in which an option can stand in a usage. -/
inductive OptionForm where
  /-- In brackets: it may be supplied. -/
  | bracketed
  /-- In parentheses: it must be supplied. -/
  | parenthesized
  /-- Without either: it must be supplied. -/
  | bare

/-- The form of the option that the remaining characters start with, if they start with one. -/
def optionForm? (cs : List Char) : Option OptionForm :=
  if Lexeme.opensOption '[' cs then some .bracketed
  else if Lexeme.opensOption '(' cs then some .parenthesized
  else if (Lexeme.option cs).isEmpty then none
  else some .bare

/-- All option declarations, the mandatory ones and the optional ones. Each round takes a
character, so `fuel` above the number of remaining characters does not run out. -/
def options : Nat → Reader (List Declaration × List Declaration)
  | 0 => return ([], [])
  | fuel + 1 => do
    skipBlanks
    match optionForm? (← remaining) with
    | none => return ([], [])
    | some .bracketed =>
      let declared ← optionGroup "[" "]"
      let (mandatory, optional) ← options fuel
      return (mandatory, declared ++ optional)
    | some .parenthesized =>
      let declared ← optionGroup "(" ")"
      let (mandatory, optional) ← options fuel
      return (declared ++ mandatory, optional)
    | some .bare =>
      let declared ← bareOption
      let (mandatory, optional) ← options fuel
      return (declared ++ mandatory, optional)

end Reader

end Synopsis
