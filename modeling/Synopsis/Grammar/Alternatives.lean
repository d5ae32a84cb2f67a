import Synopsis.Grammar.Reader

/-!
# Alternatives and types

A group in parentheses lists either words or types, at least two of them, parted by bars. A type
is an identifier or such a group: words make a choice, types a union.
-/

namespace Synopsis

/-- The alternatives of a group: words, or names of types. -/
inductive Alternatives where
  | words (words : List String)
  | types (names : List String)

namespace Reader

/-- What a group has listed so far: words, and identifiers with the offsets they start at. -/
structure Listed where
  words : List String := []
  identifiers : List (String × Nat) := []

/-- One item of a group, which no word may repeat. -/
def item (items : Listed) : Reader Listed := do
  let start ← offset
  let identifier ← accept Lexeme.identifier
  if !identifier.isEmpty then
    return { items with identifiers := items.identifiers ++ [(String.ofList identifier, start)] }
  let word := String.ofList (← accept Lexeme.word)
  if word.isEmpty then
    fail .malformed "Expected a literal or a type (ex: 'fast' or 'INT')." start
  if word ∈ items.words then
    fail .duplicate s!"The alternative '{word}' is listed more than once." start
  return { items with words := items.words ++ [word] }

/-- The items of a group up to its closing bracket. Each round takes a character, so `fuel` above
the number of remaining characters does not run out. -/
def listed : Nat → Listed → Reader Listed
  | 0, items => return items
  | fuel + 1, items => do
    let items ← item items
    skipBlanks
    if ← acceptMarkBlanks "|" then listed fuel items else return items

/-- A group in parentheses. -/
def alternatives : Reader Alternatives := do
  let start ← offset
  let _ ← acceptMarkBlanks "("
  let items ← listed ((← remaining).length + 1) {}
  unless ← acceptMark ")" do
    fail .malformed "Expected ')'." start
  if !items.words.isEmpty && !items.identifiers.isEmpty then
    fail .malformed "Cannot mix literals and types in one group." start
  if items.words.length + items.identifiers.length < 2 then
    fail .malformed "A group needs at least two alternatives." start
  if items.words.isEmpty then
    let names ← items.identifiers.mapM fun (identifier, start) =>
      return (← identified start identifier).1
    return .types names
  else return .words items.words

/-- The type of a group that starts at `start`. -/
def alternativesType (start : Nat) : Alternatives → Reader ValueType
  | .words words => resolving start (Registry.keeping (.choice words))
  | .types names => resolving start (Registry.union names)

/-- A type, and the label that it is written as. -/
def valueType : Reader (ValueType × String) := do
  let start ← offset
  let before ← remaining
  if Lexeme.startsWith "(" before then
    let type ← alternativesType start (← alternatives)
    let written := before.take (before.length - (← remaining).length)
    return (type, String.ofList written)
  else
    let identifier := String.ofList (← accept Lexeme.identifier)
    if identifier.isEmpty then
      fail .malformed "Expected a type (ex: 'INT')." start
    let (name, _) ← identified start identifier
    return (← resolving start (Registry.resolve name), identifier)

end Reader

end Synopsis
