import Synopsis.Dict
import Synopsis.Value

/-!
# Environments and evaluators

The values that an invocation binds, by key, and the functions that compute expressions from the
values bound so far.
-/

namespace Synopsis

/-- The key of the captured tail. -/
def tailKey : String := "..."

/-- The key of all positional values, in argument order. -/
def positionalsKey : String := "$"

structure Environment where
  values : Dict Value
  /-- The keys whose values were supplied. -/
  explicit : List String

namespace Environment

def get? (e : Environment) (key : String) : Option Value := e.values.get? key

def isExplicit (e : Environment) (key : String) : Bool := key ∈ e.explicit

/-- All positional values, in argument order. -/
def positionals (e : Environment) : List Value :=
  ((e.get? positionalsKey).bind Value.elements?).getD []

end Environment

/-- The values that an expression may refer to. -/
abbrev View := String → Option Value

/-- A function from an expression and the values bound so far to a text, or to a complaint. -/
abbrev Evaluator := String → View → Except String String

namespace Evaluator

/-- No expression has a value. -/
def unsupported : Evaluator := fun expression _ =>
  .error s!"expressions are not supported ('{expression}')."

/-- `env:NAME` is the value of a variable and `$key` the text of a bound value. -/
def ofVariables (values : Dict String) : Evaluator := fun expression view =>
  match expression.toList with
  | 'e' :: 'n' :: 'v' :: ':' :: cs =>
    let name := String.ofList cs
    match values.get? name with
    | some text => .ok text
    | none => .error s!"undefined variable '{name}'."
  | '$' :: cs =>
    let key := String.ofList cs
    match view key with
    | some value => .ok value.write
    | none => .error s!"unbound key '{key}'."
  | _ => .error s!"unsupported expression '{expression}'."

end Evaluator

end Synopsis
