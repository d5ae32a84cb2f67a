/-!
# Spellings of options

A long spelling is `--` and a kebab-case name, a short one `-` and a letter or digit. The *key* of
an option is its name with `_` for `-`; `--no-` before a name gives the same key with the opposite
polarity. `longSpelling` is the way back from a key.
-/

namespace Synopsis

/-- A lower case letter or a digit. -/
def isKebabChar (c : Char) : Bool := c.isLower || c.isDigit

/-- What may follow the first letter of a kebab-case name: letters and digits, and hyphens each
followed by one of these. -/
def isKebabRest : List Char → Bool
  | [] => true
  | ['-'] => false
  | '-' :: c :: cs => isKebabChar c && isKebabRest cs
  | c :: cs => isKebabChar c && isKebabRest cs

/-- `--` and a kebab-case name. -/
def isLongSpelling (spelling : String) : Bool :=
  match spelling.toList with
  | '-' :: '-' :: c :: cs => c.isLower && isKebabRest cs
  | _ => false

/-- `-` and one letter or digit. -/
def isShortSpelling (spelling : String) : Bool :=
  match spelling.toList with
  | ['-', c] => c.isAlphanum
  | _ => false

/-- The spelling starts with two hyphens. -/
def startsLong (spelling : String) : Bool := ['-', '-'].isPrefixOf spelling.toList

def underscored (cs : List Char) : String :=
  String.ofList (cs.map fun c => if c = '-' then '_' else c)

def hyphenated (key : String) : String := key.map fun c => if c = '_' then '-' else c

/-- The key that a spelling or a bare name stands for, and whether it is the negated side:
`--no-dry-run` is the negated side of `dry_run`. -/
def optionKey (spelling : String) : String × Bool :=
  let name := spelling.toList.dropWhile (· = '-')
  match name with
  | 'n' :: 'o' :: '-' :: base =>
    if startsLong spelling && !base.isEmpty then (underscored base, true)
    else (underscored name, false)
  | _ => (underscored name, false)

/-- The long spelling of a key, on one side or the other. -/
def longSpelling (key : String) (negated : Bool) : String :=
  (if negated then "--no-" else "--") ++ hyphenated key

end Synopsis
