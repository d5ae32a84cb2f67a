import Synopsis.Registry

/-!
# Type identifiers

In a usage a type is written in upper case: `INT`, `BYTE_COUNT`. An identifier has one or two
parts, each of upper case letters, and may end in a number that tells two parameters of one type
apart. The type it names is written in PascalCase: `Int`, `ByteCount`.
-/

namespace Synopsis

/-- A part of an identifier as it stands in the name of a type: `BYTE` as `Byte`. -/
def capitalized : List Char → List Char
  | [] => []
  | c :: cs => c :: cs.map Char.toLower

/-- The type that an identifier names and the number that it ends in. -/
def readIdentifier (identifier : String) : Except TypeError (String × Option String) :=
  let cs := identifier.toList
  let first := cs.takeWhile Char.isUpper
  let afterFirst := cs.dropWhile Char.isUpper
  let (second, number) :=
    match afterFirst with
    | '_' :: r => (r.takeWhile Char.isUpper, r.dropWhile Char.isUpper)
    | r => ([], r)
  -- an underscore without a second part leaves nothing that a number could follow
  let separated := afterFirst.head? = some '_'
  if first.isEmpty || (separated && second.isEmpty) || !number.all Char.isDigit then
    .error (.invalidIdentifier identifier)
  else
    .ok (String.ofList (capitalized first ++ capitalized second),
      if number.isEmpty then none else some (String.ofList number))

/-- The identifier that names a type: `ByteCount` is written `BYTE_COUNT`. -/
def identifierOf (name : String) : String :=
  String.ofList (match name.toList with
    | [] => []
    | c :: cs => c.toUpper :: cs.flatMap fun c => if c.isUpper then ['_', c] else [c.toUpper])

end Synopsis
