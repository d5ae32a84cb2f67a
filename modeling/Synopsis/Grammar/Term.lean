import Synopsis.Grammar.Identifier

/-!
# Terms of a usage

A usage text in parsed form, and the text of each term. A term that came from a text is written as
it stood there, blanks and notes aside.
-/

namespace Synopsis

/-- The value that a written option takes. -/
inductive TakenValue where
  /-- None: the option is a switch. -/
  | flag
  /-- `--name=TYPE`: a value must follow. -/
  | required (type : ValueType)
  /-- `--name[=TYPE]`: a value may be attached. -/
  | optional (type : ValueType)

namespace TakenValue

def isFlag : TakenValue → Bool
  | flag => true
  | _ => false

end TakenValue

/-- One option as it is written. -/
structure Declaration where
  key : String
  /-- The spellings, in written order. -/
  spellings : List String
  shortAlias : Option Char := none
  /-- The `--no-` side of a switch. -/
  negated : Bool := false
  value : TakenValue := .flag
  /-- The label of the value, as it is written. -/
  metavar : Option String := none
  /-- The option may be repeated. -/
  recurs : Bool := false
  /-- The text after ` -- ` at the end of the line. -/
  note : Option String := none

inductive Term where
  /-- A word that stands for itself. -/
  | word (text : String)
  | option (declaration : Declaration)
  /-- A parameter of a named type, with the number that its identifier ends in. -/
  | typed (type : ValueType) (identifier : String) (number : Option String)
  /-- A parameter of any of several related types. -/
  | union (type : ValueType) (typeNames : List String)
  /-- A parameter that is one of several words. -/
  | choice (type : ValueType) (words : List String)
  /-- A repeated term, which occurs at least `minimum` times. -/
  | list (element : Term) (minimum : Nat) (note : Option String)
  /-- A bracketed segment, present whole or not at all. -/
  | segment (terms : List Term)
  /-- All remaining tokens. -/
  | rest

/-- A usage text in parsed form. -/
structure Outline where
  /-- The words of the command. -/
  words : List String := []
  /-- The options that must be supplied. -/
  mandatory : List Declaration := []
  /-- The options that may be supplied. -/
  optional : List Declaration := []
  /-- The positional terms, with at most one segment a level. -/
  terms : List Term := []

/-- The written form of the value that an option takes. -/
def TakenValue.write (value : TakenValue) (metavar : Option String) : String :=
  match value, metavar with
  | .required _, some label => "=" ++ label
  | .optional _, some label => "[=" ++ label ++ "]"
  | _, _ => ""

/-- The written form of an option: its spellings and the value it takes. -/
def Declaration.write (d : Declaration) : String :=
  "|".intercalate d.spellings ++ d.value.write d.metavar

namespace Term

mutual

/-- The term is a list or a segment that holds one. -/
def containsList : Term → Bool
  | list _ _ _ => true
  | segment terms => anyContainsList terms
  | _ => false

def anyContainsList : List Term → Bool
  | [] => false
  | t :: ts => t.containsList || anyContainsList ts

end

mutual

/-- The written form of a term. -/
def write : Term → String
  | word text => text
  | option declaration => declaration.write
  | typed _ identifier _ => identifier
  | union _ typeNames => writeAlternatives (typeNames.map identifierOf)
  | choice _ words => writeAlternatives words
  | list element minimum _ =>
    if minimum = 0 then "[" ++ element.write ++ "]..." else element.write ++ "..."
  | segment terms => "[" ++ " ".intercalate (writeAll terms) ++ "]"
  | rest => "..."

def writeAll : List Term → List String
  | [] => []
  | t :: ts => t.write :: writeAll ts

end

def isSegment : Term → Bool
  | segment _ => true
  | _ => false

def isRest : Term → Bool
  | rest => true
  | _ => false

end Term

end Synopsis
