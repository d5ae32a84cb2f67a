import Synopsis.Registry

/-!
# The standard types

Text, integers, finite numbers, switches and counts, and the registry that holds them.
-/

namespace Synopsis

namespace Primitive

/-- Any text. -/
def string : Primitive where
  name := "String"
  aliases := ["Str", "Text"]
  convert text := some (.text text)
  holds
    | .text _ => true
    | _ => false

/-- Signed 64-bit integers. -/
def int : Primitive where
  name := "Int"
  aliases := ["Integer"]
  convert text := (readInt64? text).map .integer
  holds
    | .integer _ => true
    | _ => false

/-- Finite floating point numbers. An integer is accepted as a number. -/
def number : Primitive where
  name := "Number"
  aliases := ["Float"]
  convert text := ((readFloat? text).filter Float.isFinite).map .number
  holds
    | .number _ => true
    | .integer _ => true
    | _ => false

/-- The side of a switch that a word stands for. -/
def side? (text : String) : Option Bool :=
  if text ∈ ["true", "yes", "on", "1"] then some true
  else if text ∈ ["false", "no", "off", "0"] then some false
  else none

/-- The two sides of a switch. -/
def boolean : Primitive where
  name := ValueType.booleanName
  aliases := ["Bool"]
  convert text := (side? text).map .boolean
  holds
    | .boolean _ => true
    | _ => false

/-- Unsigned 64-bit integers. -/
def count : Primitive where
  name := ValueType.countName
  convert text := (readUInt64? text).map .count
  holds
    | .count _ => true
    | _ => false

def standard : List Primitive := [string, int, number, boolean, count]

end Primitive

namespace Registry

/-- The registry of the standard types. -/
def standard : Registry := Primitive.standard.foldl add empty

end Registry

end Synopsis
