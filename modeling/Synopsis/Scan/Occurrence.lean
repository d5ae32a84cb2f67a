import Synopsis.Token

/-!
# Occurrences

What a command line is made of once its tokens are matched: uses of options, positionals, and the
tail that a usage captures.
-/

namespace Synopsis

/-- What an occurrence carries. -/
inductive Payload where
  /-- Text that the parameter's type is to read. -/
  | text (text : String)
  /-- The side that a switch stands for. -/
  | implied (on : Bool)
  /-- An expression that an evaluator is to compute. -/
  | deferred (expression : String)
  deriving DecidableEq

/-- One use of a parameter on a command line. -/
inductive Occurrence where
  /-- A use of the option `key`, written `spelling`. -/
  | named (key spelling : String) (payload : Payload)
  | positional (index : Nat) (payload : Payload)
  | tail (tokens : List Token)
  deriving DecidableEq

/-- Why tokens do not match the switches. -/
inductive ScanError where
  | unknownOption (spelling : String)
  | missingValue (spelling : String)
  | unexpectedValue (spelling : String)
  deriving DecidableEq

def ScanError.message : ScanError → String
  | unknownOption spelling => s!"Unknown option '{spelling}'."
  | missingValue spelling => s!"Missing value for option '{spelling}'."
  | unexpectedValue spelling => s!"Option '{spelling}' does not take a value."

end Synopsis
