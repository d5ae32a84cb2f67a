import Synopsis.Grammar.Declarations

/-!
# Named options

An option of a usage: its key, its spellings on both sides, the type and the number of its values,
and how it is defaulted.
-/

namespace Synopsis

/-- Whether an option takes a value. -/
inductive Arity where
  | none
  | required
  | optional
  deriving DecidableEq

/-- Where an option was declared. -/
inductive Origin where
  | usage
  | inline
  | platform (name : String)
  deriving DecidableEq

/-- The sides that a switch is declared with. -/
inductive Polarity where
  | affirmative
  | negative
  | both
  deriving DecidableEq

structure OptionSpec where
  key : String
  /-- The spellings that turn a switch on or introduce a value. -/
  spellings : List String
  /-- The spellings that turn a switch off. -/
  negatives : List String := []
  shortAlias : Option Char := none
  type : ValueType
  arity : Arity
  mandatory : Bool := false
  recurs : Bool := false
  default : Option DefaultValue := none
  origin : Origin := .usage
  /-- The sides of a switch; none where the option takes a value. -/
  polarity : Option Polarity := none
  metavar : Option String := none
  note : Option String := none

/-- Why options cannot stand together. -/
inductive OptionError where
  | declaredTwice (key : String)
  /-- A repeated negated option, written with these spellings. -/
  | negatedRecurs (spellings : List String)
  /-- An inline declaration that would change the declared option `key`. -/
  | conflicting (key : String)
  | missingType (key : String)
  | missingDefault (key : String)
  | claimedTwice (spelling : String)
  | type (e : TypeError)
  deriving DecidableEq

namespace OptionError

def message : OptionError → String
  | declaredTwice key => s!"The option '{key}' is declared more than once."
  | negatedRecurs spellings =>
    let written := "|".intercalate spellings
    s!"The negated option '{written}' cannot repeat."
  | conflicting key =>
    s!"The option '{key}' is already declared; it cannot be redeclared with a type or default."
  | missingType key => s!"Cannot determine a type for the option '{key}'."
  | missingDefault key => s!"The boolean option '{key}' requires a default."
  | claimedTwice spelling => s!"The switch '{spelling}' is claimed by more than one option."
  | type e => e.message

end OptionError

namespace OptionSpec

/-- The option takes no value. -/
def isFlag (o : OptionSpec) : Bool := o.arity = .none

/-- All spellings, those that turn a switch on first. -/
def allSpellings (o : OptionSpec) : List String := o.spellings ++ o.negatives

/-- The spelling that stands for the option in messages: the first long one, or else the first. -/
def primary (o : OptionSpec) : String :=
  ((o.allSpellings.find? startsLong).or o.spellings.head?).getD o.key

end OptionSpec

end Synopsis
