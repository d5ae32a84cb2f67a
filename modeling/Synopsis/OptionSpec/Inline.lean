import Synopsis.OptionSpec.Reconcile
import Synopsis.Text.UpperCase

/-!
# Inline options

Options that a host adds to a usage by name. An inline option has a type, given or read off its
default, and one long spelling made from its key; a boolean one has a spelling for either side and
must have a default. A bare name that the usage already declares adds nothing.
-/

namespace Synopsis

structure InlineOption where
  name : String
  typeName : Option String := none
  default : Option DefaultValue := none

namespace InlineOption

def key (o : InlineOption) : String := (optionKey o.name).1

/-- The name of the type that a default has of itself. -/
def typeNameOf : DefaultValue → Option String
  | .value (.text _) => some "String"
  | .value (.integer _) => some "Int"
  | .value (.number _) => some "Number"
  | .value (.boolean _) => some ValueType.booleanName
  | .value (.count _) => some ValueType.countName
  | _ => none

/-- The name of the type, as given or as the default has it. -/
def inferredTypeName (o : InlineOption) : Option String :=
  o.typeName.or (o.default.bind typeNameOf)

/-- The option of a type that is resolved. -/
def toSpec (o : InlineOption) (type : ValueType) : Except OptionError OptionSpec :=
  if type.isBoolean then
    match o.default with
    | none => .error (.missingDefault o.key)
    | some default =>
      .ok { key := o.key, spellings := [longSpelling o.key false]
            negatives := [longSpelling o.key true]
            type, arity := .none, default := some default, origin := .inline
            polarity := some .both }
  else
    .ok { key := o.key, spellings := [longSpelling o.key false], type, arity := .required
          default := o.default, origin := .inline, metavar := some (upperCase type.name) }

/-- The option to add to `declared`, if it is not declared already. -/
def reconcile (o : InlineOption) (declared : List OptionSpec) :
    EStateM OptionError Registry (Option OptionSpec) := do
  if declared.any (·.key = o.key) then
    if o.typeName.isSome || o.default.isSome then throw (.conflicting o.key)
    return none
  let some typeName := o.inferredTypeName | throw (.missingType o.key)
  let type ← OptionSpec.resolveType typeName
  match o.toSpec type with
  | .ok spec => return some spec
  | .error e => throw e

end InlineOption

end Synopsis
