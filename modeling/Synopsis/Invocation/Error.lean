import Synopsis.Layout.Arrangement
import Synopsis.Scan

/-!
# Errors of an invocation

Why a command line, once its usage is built, yields no environment: its tokens do not match, their
number fits no branch, or a parameter cannot be bound.
-/

namespace Synopsis

/-- Why a parameter cannot be bound. -/
inductive BindError where
  | repeatedOption (spelling : String)
  | missingOption (spelling : String)
  /-- Neither side of a switch is given. -/
  | missingChoice (affirmative negative : String)
  /-- A text that the type `typeName` does not read. `choices` are the words that the type lists,
  if it does. -/
  | invalidValue (value parameter typeName : String) (choices : Option (List String))
  | topicReused (first second : String)
  | evaluation (parameter complaint : String)
  | unknownKey (key : String)
  deriving DecidableEq

namespace BindError

/-- What a type expects, for a reader. -/
def expected (typeName : String) : Option (List String) → String
  | some words => "one of " ++ ", ".intercalate words
  | none => typeName

def message : BindError → String
  | repeatedOption spelling => s!"Cannot repeat option '{spelling}'."
  | missingOption spelling => s!"Missing option '{spelling}'."
  | missingChoice affirmative negative => s!"Missing option '{affirmative}' or '{negative}'."
  | invalidValue value parameter typeName choices =>
    let wanted := expected typeName choices
    s!"Invalid value '{value}' for '{parameter}': expected {wanted}."
  | topicReused first second =>
    s!"The file topic '-' is already bound to '{first}'; it cannot also bind '{second}'."
  | evaluation parameter complaint => s!"Cannot evaluate '{parameter}': {complaint}"
  | unknownKey key => s!"No parameter answers to the key '{key}'."

end BindError

/-- Why an invocation yields no environment. -/
inductive InvokeError where
  | scan (e : ScanError)
  | count (e : CountError)
  | bind (e : BindError)
  /-- Something was fed to an invocation that is finished. -/
  | fedAfterFinish
  | finishedTwice
  /-- A positional whose index is not the number of those before it. -/
  | outOfOrder (index : Nat)
  deriving DecidableEq

namespace InvokeError

def message (e : InvokeError) : String :=
  let detail :=
    match e with
    | scan e => e.message
    | count e => e.message
    | bind e => e.message
    | fedAfterFinish => "internal error - cannot feed a finalized environment."
    | finishedTwice => "internal error - the environment is already finalized."
    | outOfOrder index => s!"internal error - positional {index} arrived out of order."
  "Parse error: " ++ detail

end InvokeError

end Synopsis
