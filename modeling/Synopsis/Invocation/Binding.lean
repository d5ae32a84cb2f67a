import Synopsis.Environment
import Synopsis.Invocation.Error

/-!
# Binding parameters

What a parameter is bound to is settled in two steps. Text is read at once by the parameter's type;
an expression is left for an evaluator. A parameter is *ready* when none of its entries is left,
and *pending* otherwise.

The file topic `-` stands for one input, so one parameter at most may claim it: the claim is the
state of every step here.
-/

namespace Synopsis

/-- One value of a parameter, or the expression it is to be computed from. -/
inductive Entry where
  | ready (value : Value)
  | deferred (expression : String)

/-- What a parameter is bound to. -/
inductive Bound where
  | ready (value : Value)
  | pending (entries : Slot Entry)

/-- A parameter and what it is bound to. -/
structure Binding where
  key : String
  /-- The parameter, as messages name it. -/
  parameter : String
  type : ValueType
  bound : Bound
  /-- The binding was supplied. -/
  explicit : Bool

/-- A step that may claim the file topic. The state is the parameter that has claimed it. -/
abbrev Claiming := StateT (Option String) (Except InvokeError)

namespace Entry

def value? : Entry → Option Value
  | ready value => some value
  | deferred _ => none

end Entry

namespace Slot

/-- The value of a slot whose entries are values: a list is collected as its type says. -/
def collect (type : ValueType) : Slot Value → Value
  | single value => value
  | list values => type.collect values

end Slot

namespace Bound

/-- Ready if every entry is. -/
def ofEntries (type : ValueType) : Slot Entry → Bound
  | .single (.ready value) => ready value
  | .single (.deferred expression) => pending (.single (.deferred expression))
  | .list entries =>
    match entries.mapM Entry.value? with
    | some values => ready (type.collect values)
    | none => pending (.list entries)

end Bound

namespace Claiming

/-- Read the text of a parameter. The file topic is claimed where the type takes it. -/
def read (type : ValueType) (parameter text : String) : Claiming Value := do
  if text = fileTopic && type.takesTopic then
    if let some first := (← get) then throw (.bind (.topicReused first parameter))
    set (some parameter)
    return .topic
  else
    match type.read? text with
    | some value => return value
    | none => throw (.bind (.invalidValue text parameter type.name type.choices?))

/-- The entry that an occurrence makes. -/
def entry (type : ValueType) (parameter : String) : Payload → Claiming Entry
  | .text text => return .ready (← read type parameter text)
  | .implied on => return .ready (.boolean on)
  | .deferred expression => return .deferred expression

/-- The value of a default. A raw default of a list is its only element. -/
def default (type : ValueType) (parameter : String) (list : Bool) :
    DefaultValue → Claiming Value
  | .value value => return value
  | .raw text => do
    let value ← read type parameter text
    return if list then type.collect [value] else value

end Claiming

end Synopsis
