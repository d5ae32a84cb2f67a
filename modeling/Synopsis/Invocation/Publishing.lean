import Synopsis.Environment
import Synopsis.Layout

/-!
# Publishing

Bound values become an environment. Positionals are published under their aliases too, where no
value stands, and all together under `$`.
-/

namespace Synopsis

namespace Invocation

/-- The positional values among `values`, in argument order, with the elements of a list in place
of the list. -/
def positionalValues (l : Layout) (values : Dict Value) : List Value :=
  l.parameters.flatMap fun p =>
    match values.get? p.key with
    | none => []
    | some value => if p.recurs then value.elements?.getD [value] else [value]

/-- The aliases to publish, each with the key and the value of its parameter. -/
def aliasesOf (l : Layout) (values : Dict Value) : List (String × String × Value) :=
  l.parameters.flatMap fun p =>
    match values.get? p.key with
    | none => []
    | some value => (p.aliases.filter (!values.contains ·)).map (·, p.key, value)

/-- The environment of `values`, those under the keys `explicit` supplied. -/
def publish (l : Layout) (values : Dict Value) (explicit : List String) : Environment :=
  let aliases := aliasesOf l values
  let published := aliases.foldl (fun (d : Dict Value) (key, _, value) => d.insert key value) values
  { values := published.insert positionalsKey (.list (positionalValues l values))
    explicit := explicit ++ (aliases.filter (·.2.1 ∈ explicit)).map (·.1) }

end Invocation

end Synopsis
