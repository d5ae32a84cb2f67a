import Synopsis.Layout

/-!
# Arranging values

Dealing positional values to parameters. The count of the values selects the depth: the greatest
whose branch they can fill. Parameters up to that depth take one value each, and a list what the
others leave.
-/

namespace Synopsis

/-- What a parameter is dealt. -/
inductive Slot (α : Type) where
  | single (value : α)
  | list (values : List α)

/-- Run a step on each value, in order. -/
def Slot.mapM {α β : Type} {m : Type → Type} [Monad m] (f : α → m β) : Slot α → m (Slot β)
  | single value => return .single (← f value)
  | list values => return .list (← values.mapM f)

/-- Why a number of values fits no branch. -/
inductive CountError where
  /-- `ranged` where more than one count is admitted. -/
  | tooFew (needed got : Nat) (ranged : Bool)
  | tooMany (limit got : Nat) (ranged : Bool)
  | noMatchingBranch (lengths : List Branch) (got : Nat)
  deriving DecidableEq

namespace CountError

def arguments (n : Nat) : String := if n = 1 then "argument" else "arguments"

/-- The items of a list, the last after `or`. -/
def disjunction : List String → String
  | [] => ""
  | [item] => item
  | items => ", ".intercalate items.dropLast ++ " or " ++ items.getLastD ""

def message : CountError → String
  | tooFew needed got ranged =>
    let qualifier := if ranged then "at least" else "exactly"
    let noun := arguments needed
    s!"Required {qualifier} {needed} {noun}, got {got}."
  | tooMany limit got ranged =>
    let qualifier := if ranged then "at most" else "exactly"
    let noun := arguments limit
    s!"Required {qualifier} {limit} {noun}, got {got}."
  | noMatchingBranch lengths got =>
    let listing := disjunction (lengths.map Branch.write)
    s!"Required {listing} arguments, got {got}."

end CountError

/-- A list without repeats of one item in a row. -/
def withoutRepeats {α : Type} [DecidableEq α] : List α → List α
  | a :: b :: rest => if a = b then withoutRepeats (b :: rest) else a :: withoutRepeats (b :: rest)
  | items => items

namespace Layout

/-- More than one count is admitted, as far as the segments and the list tell. -/
def ranged (l : Layout) : Bool := l.deepest > 0 || l.longest.isNone

/-- The greatest depth up to `deepest` whose branch `count` values can fill. -/
def depthFor (l : Layout) (count : Nat) : Nat → Nat
  | 0 => 0
  | depth + 1 =>
    if (l.branch (depth + 1)).minimum ≤ count then depth + 1 else l.depthFor count depth

/-- Deal values to parameters in order: `listLength` to a list, one to any other. A list that is
dealt nothing gets no slot. -/
def deal {α : Type} (listLength : Nat) : List Parameter → List α → List (Parameter × Slot α)
  | [], _ => []
  | p :: ps, values =>
    if p.recurs then
      match values.take listLength with
      | [] => deal listLength ps values
      | dealt => (p, .list dealt) :: deal listLength ps (values.drop listLength)
    else
      match values with
      | [] => []
      | value :: values => (p, .single value) :: deal listLength ps values

/-- Deal values to the parameters that their number selects. -/
def arrange {α : Type} (l : Layout) (values : List α) :
    Except CountError (List (Parameter × Slot α)) :=
  let count := values.length
  if count < l.shortest then .error (.tooFew l.shortest count l.ranged)
  else
    match l.longest with
    | some longest =>
      if longest < count then .error (.tooMany longest count l.ranged) else select count
    | none => select count
where
  select (count : Nat) : Except CountError (List (Parameter × Slot α)) :=
    let depth := l.depthFor count l.deepest
    if (l.branch depth).admits count then
      .ok (deal (count - l.fixed depth) (l.parameters.filter (·.depth ≤ depth)) values)
    else .error (.noMatchingBranch (withoutRepeats l.branches) count)

end Layout

end Synopsis
