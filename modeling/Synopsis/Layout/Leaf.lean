import Synopsis.Grammar.Term

/-!
# Terms by depth

The terms of a usage that stand for one parameter each, in order, with the number of segments
around them.
-/

namespace Synopsis

/-- A term that stands for one parameter. -/
structure Leaf where
  term : Term
  depth : Nat
  recurs : Bool := false
  minimum : Nat := 1
  note : Option String := none

namespace Term

mutual

/-- The parameters of a term, in order. -/
def leaves (depth : Nat) : Term → List Leaf
  | segment terms => leavesOf (depth + 1) terms
  | list element minimum note => [{ term := element, depth, recurs := true, minimum, note }]
  | rest => []
  | t => [{ term := t, depth }]

def leavesOf (depth : Nat) : List Term → List Leaf
  | [] => []
  | t :: ts => t.leaves depth ++ leavesOf depth ts

end

mutual

/-- The number of segments inside each other. -/
def nesting : Term → Nat
  | segment terms => nestingOf terms + 1
  | _ => 0

def nestingOf : List Term → Nat
  | [] => 0
  | t :: ts => max t.nesting (nestingOf ts)

end

mutual

/-- The term is the trailing capture or holds it. -/
def hasRest : Term → Bool
  | rest => true
  | segment terms => anyHasRest terms
  | _ => false

def anyHasRest : List Term → Bool
  | [] => false
  | t :: ts => t.hasRest || anyHasRest ts

end

/-- What a term that stands for one parameter is: its type, the name of its type, and the parameter
as it is written. The type of a word is kept in the registry. -/
def subject? (t : Term) (r : Registry) : Option ((ValueType × String × String) × Registry) :=
  match t with
  | word text =>
    let (type, r) := r.word text
    some ((type, text, text), r)
  | typed type identifier _ => some ((type, type.name, identifier), r)
  | union type _ => some ((type, type.name, t.write), r)
  | choice type _ => some ((type, type.name, t.write), r)
  | _ => none

end Term

end Synopsis
