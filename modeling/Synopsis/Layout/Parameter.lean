import Synopsis.ValueType

/-!
# Positional parameters

A parameter is bound under its number, `$1`, `$2`, …, and published under aliases too: one made from
its type and one from its identifier, each where no other parameter would have it. Only parameters
written as the identifier of a type have aliases; words and groups have none.
-/

namespace Synopsis

/-- A positional parameter. -/
structure Parameter where
  index : Nat
  /-- The number of segments around the parameter. -/
  depth : Nat
  type : ValueType
  recurs : Bool
  /-- The least number of values of a list. -/
  minimum : Nat
  /-- The type, as the parameter's aliases have it. -/
  typeName : String
  /-- The parameter, as it is written. -/
  identifier : String
  /-- Further keys that the parameter is published under. -/
  aliases : List String := []
  note : Option String

/-- The key of the positional with this index. -/
def positionalKey (index : Nat) : String := "$" ++ (index + 1).repr

def Parameter.key (p : Parameter) : String := positionalKey p.index

namespace Parameter

/-- The parameter is written as the identifier of a type, and so has aliases. -/
def namesType (p : Parameter) : Bool := p.identifier.toList.head?.any Char.isUpper

/-- The alias that a type gives: `$int`. -/
def typeAlias (p : Parameter) : String := "$" ++ p.typeName.map Char.toLower

/-- The alias that an identifier gives: `int2`. -/
def identifierAlias (p : Parameter) : String := p.identifier.map Char.toLower

/-- An alias that one parameter alone would have. -/
def isUnique (parameters : List Parameter) (aliasOf : Parameter → String) (p : Parameter) : Bool :=
  ((parameters.filter namesType).map aliasOf).count (aliasOf p) = 1

/-- Give the parameters their aliases: those of a type and those of an identifier, each where no
other parameter would have it. -/
def withAliases (parameters : List Parameter) : List Parameter :=
  parameters.map fun p =>
    if namesType p then
      { p with
        aliases := (if isUnique parameters typeAlias p then [typeAlias p] else []) ++
          (if isUnique parameters identifierAlias p then [identifierAlias p] else []) }
    else p

end Parameter

end Synopsis
