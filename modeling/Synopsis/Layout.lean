import Synopsis.Layout.Leaf
import Synopsis.Layout.Parameter

/-!
# Positional layouts

The parameters of a usage in order, each with the number of segments around it. A command line
fills the parameters up to some depth; the branch of a depth says how many values that takes. At
most one parameter is a list. It sits at the greatest depth, so it alone decides whether the last
branch is open.
-/

namespace Synopsis

/-- How many values a branch takes. -/
inductive Branch where
  | exactly (n : Nat)
  | atLeast (n : Nat)
  deriving DecidableEq

namespace Branch

def minimum : Branch → Nat
  | exactly n => n
  | atLeast n => n

def admits : Branch → Nat → Bool
  | exactly n, count => count = n
  | atLeast n, count => n ≤ count

def write : Branch → String
  | exactly n => n.repr
  | atLeast n => "at least " ++ n.repr

end Branch

/-- Why terms have no layout. -/
inductive LayoutError where
  /-- Two lists, as they are written. -/
  | multipleLists (first second : String)
  | listNotDeepest (list : String)
  | tailAfterList (list : String)
  deriving DecidableEq

namespace LayoutError

def message : LayoutError → String
  | multipleLists first second =>
    s!"Only one positional list is allowed, found '{first}' and '{second}'."
  | listNotDeepest list => s!"The positional list '{list}' must sit at the deepest optional level."
  | tailAfterList list => s!"A trailing capture cannot follow the positional list '{list}'."

end LayoutError

structure Layout where
  parameters : List Parameter
  /-- The greatest number of segments inside each other. -/
  deepest : Nat
  /-- The positional that the trailing capture starts at. -/
  tailStart : Option Nat

namespace Layout

/-- The parameters of `leaves`, numbered from `index` on, after the list `list`, if there was one.
No other term than those that stand for one parameter occurs in a usage text. -/
def gather (deepest : Nat) :
    List Leaf → (index : Nat) → (list : Option String) →
      EStateM LayoutError Registry (List Parameter)
  | [], _, _ => return []
  | leaf :: leaves, index, list => do
    match leaf.term.subject? (← get) with
    | none => gather deepest leaves index list
    | some ((type, typeName, identifier), r) =>
      set r
      if leaf.recurs then
        if let some first := list then throw (.multipleLists first identifier)
        if leaf.depth ≠ deepest then throw (.listNotDeepest identifier)
      let parameter : Parameter :=
        { index, depth := leaf.depth, type, recurs := leaf.recurs, minimum := leaf.minimum
          typeName, identifier, note := leaf.note }
      let rest ← gather deepest leaves (index + 1) (if leaf.recurs then some identifier else list)
      return parameter :: rest

/-- The list among the parameters. -/
def list? (l : Layout) : Option Parameter := l.parameters.find? (·.recurs)

/-- The number of parameters up to a depth that take one value. -/
def fixed (l : Layout) (depth : Nat) : Nat :=
  (l.parameters.filter fun p => p.depth ≤ depth && !p.recurs).length

/-- How many values the parameters up to a depth take. -/
def branch (l : Layout) (depth : Nat) : Branch :=
  match l.list? with
  | some list =>
    if list.depth ≤ depth then .atLeast (l.fixed depth + list.minimum) else .exactly (l.fixed depth)
  | none => .exactly (l.fixed depth)

/-- The branches, from the outermost depth on. -/
def branches (l : Layout) : List Branch := (List.range (l.deepest + 1)).map l.branch

/-- The least number of values. -/
def shortest (l : Layout) : Nat := (l.branch 0).minimum

/-- The greatest number of values; none where a list takes any number. -/
def longest (l : Layout) : Option Nat :=
  match l.branch l.deepest with
  | .exactly n => some n
  | .atLeast _ => none

/-- The layout of `terms`. -/
def ofTerms (terms : List Term) : EStateM LayoutError Registry Layout := do
  let deepest := Term.nestingOf terms
  let parameters ← gather deepest (Term.leavesOf 0 terms) 0 none
  let layout : Layout :=
    { parameters := Parameter.withAliases parameters, deepest, tailStart := none }
  if Term.anyHasRest terms then
    if let some list := layout.list? then throw (.tailAfterList list.identifier)
    return { layout with tailStart := layout.longest }
  else return layout

/-- The layout with a trailing capture after its last parameter, which must not be a list. -/
def withTailCapture (l : Layout) : Except LayoutError Layout :=
  match l.list? with
  | some list => .error (.tailAfterList list.identifier)
  | none => .ok { l with tailStart := l.longest }

end Layout

end Synopsis
