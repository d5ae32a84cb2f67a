import Synopsis.Grammar.Declarations

/-!
# Outlines

A usage text is words, then options, then positional terms. A bracketed segment of terms is the
next level; each level has at most one, and a bracketed term followed by `...` is a list instead.
`Outline.read` reads a whole text.
-/

namespace Synopsis

namespace Reader

/-- The words of the command. Each round takes a character, so `fuel` above the number of remaining
characters does not run out. -/
def words : Nat → Reader (List String)
  | 0 => return []
  | fuel + 1 => do
    let cs ← remaining
    let word := Lexeme.word cs
    if word.isEmpty || !Lexeme.atBoundary (cs.drop word.length) then return []
    let _ ← accept Lexeme.word
    skipBlanks
    return String.ofList word :: (← words fuel)

/-- A parameter of a named type. A numbered identifier stands for one parameter only. -/
def typed : Reader Term := do
  let start ← offset
  let identifier := String.ofList (← accept Lexeme.identifier)
  let (name, number) ← identified start identifier
  let type ← resolving start (Registry.resolve name)
  if number.isSome then
    if identifier ∈ (← get).numbered then
      fail .duplicate s!"The positional '{identifier}' is declared more than once." start
    modify fun s => { s with numbered := identifier :: s.numbered }
  return .typed type identifier number

/-- A parameter that is one of several words or of several types. -/
def grouped : Reader Term := do
  let start ← offset
  let group ← alternatives
  let type ← alternativesType start group
  match group with
  | .words words => return .choice type words
  | .types names => return .union type names

/-- A parameter that may be followed by `...`, which makes it a list. -/
def repeatable (term : Term) : Reader Term := do
  if ← acceptMark "..." then
    expectBoundary
    return .list term 1 (← note)
  else
    expectBoundary
    rejectNote
    return term

/-- A word that stands for itself. -/
def wordTerm : Reader Term := do
  let word := String.ofList (← accept Lexeme.word)
  expectBoundary
  rejectNote
  return .word word

/-- The list that a segment followed by `...` is. It holds one parameter. -/
def repeatedSegment (terms : List Term) (start : Nat) : Reader Term := do
  if Term.anyContainsList terms then
    fail .ambiguous "'...' cannot follow a segment that already repeats." start
  match terms with
  | [] | [.segment _] | [.rest] | _ :: _ :: _ =>
    fail .malformed "A repeated optional segment must hold exactly one positional." start
  | [term] =>
    expectBoundary
    return .list term 0 (← note)

/-- The rest of a segment that starts at `start` and holds `terms`: its closing bracket, and `...`
if it is a list. -/
def segmentTerm (terms : List Term) (segmentSeen : Bool) (start : Nat) : Reader Term := do
  skipBlanks
  unless ← acceptMark "]" do
    fail .malformed "Expected ']'." start
  if ← acceptMark "..." then repeatedSegment terms start
  else
    if segmentSeen then
      fail .ambiguous "Only one optional segment allowed per nesting level." start
    if terms.isEmpty then
      fail .malformed "Empty optional segment." start
    rejectNote
    return .segment terms

/-- The trailing capture, which ends the text. -/
def restTerm (depth start : Nat) : Reader Term := do
  let _ ← acceptMark "..."
  skipBlanks
  if depth > 0 || !(← remaining).isEmpty then
    fail .malformed "A trailing capture '...' must be the final term." start
  return .rest

/-- What a level can go on with. -/
inductive Opening where
  /-- The end of the text, or the bracket that closes the level. -/
  | levelEnd
  | segment
  | rest
  | group
  | identifier
  | word
  /-- An option, which comes too late here. -/
  | option
  | unexpected

/-- What the remaining characters start with. -/
def opening (cs : List Char) : Opening :=
  if cs.isEmpty || Lexeme.startsWith "]" cs then .levelEnd
  else if Lexeme.startsWith "[" cs then .segment
  else if Lexeme.startsWith "..." cs then .rest
  else if Lexeme.startsWith "(" cs then .group
  else if !(Lexeme.identifier cs).isEmpty then .identifier
  else if !(Lexeme.word cs).isEmpty then .word
  else if !(Lexeme.option cs).isEmpty then .option
  else .unexpected

/-- The terms of a level. Each round takes a character, so `fuel` above the number of remaining
characters does not run out. -/
def terms : Nat → (depth : Nat) → (segmentSeen : Bool) → Reader (List Term)
  | 0, _, _ => return []
  | fuel + 1, depth, segmentSeen => do
    skipBlanks
    let start ← offset
    match opening (← remaining) with
    | .levelEnd => return []
    | .segment =>
      let _ ← acceptMark "["
      let inner ← terms fuel (depth + 1) false
      let term ← segmentTerm inner segmentSeen start
      return term :: (← terms fuel depth (segmentSeen || term.isSegment))
    | .rest => return [← restTerm depth start]
    | .group =>
      let term ← repeatable (← grouped)
      return term :: (← terms fuel depth segmentSeen)
    | .identifier =>
      let term ← repeatable (← typed)
      return term :: (← terms fuel depth segmentSeen)
    | .word =>
      let term ← wordTerm
      return term :: (← terms fuel depth segmentSeen)
    | .option =>
      let _ ← accept Lexeme.option
      fail .malformed "Options must precede positional arguments." start
    | .unexpected => fail .malformed "Unexpected input." start

/-- A whole usage text. -/
def outline : Reader Outline := do
  skipBlanks
  let fuel := (← remaining).length + 1
  let words ← words fuel
  let (mandatory, optional) ← options fuel
  let terms ← terms fuel 0 false
  skipBlanks
  unless (← remaining).isEmpty do
    fail .malformed "Unexpected input." (← offset)
  return { words, mandatory, optional, terms }

end Reader

/-- Read a usage text, resolving its types in a registry. -/
def Outline.read (text : String) : EStateM GrammarError Registry Outline := fun r =>
  match Reader.outline { rest := text.toList, registry := r } with
  | .ok outline s => .ok outline s.registry
  | .error fault s => .error { fault with text } s.registry

end Synopsis
