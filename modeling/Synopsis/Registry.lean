import Synopsis.Dict
import Synopsis.ValueType

/-!
# The type registry

Types by name. The host registers primitives with their aliases; all other types are synthesized
on request and kept, so that a name, once it has a meaning, keeps it.

**Resolving.** A name that is not registered is read as a chain of derived types: its first
segment, up to the next upper case letter, is the lead word, and the rest names the base. So
`BigIcoFile` is derived from `IcoFile`, which is derived from `File`, and the longest registered
ending of a name decides what it is made from.

**Unions.** The members of a union are a set: repeats are dropped and the rest is put in code
point order, so one set of members has one union. Members must end in one canonical type.
-/

namespace Synopsis

/-- Why a type cannot be registered or resolved. -/
inductive TypeError where
  | unknown (name : String)
  | alreadyInUse (name : String)
  | invalidName (name : String)
  | invalidIdentifier (identifier : String)
  /-- A union of the alternatives `name`, which are fewer than two. -/
  | tooFewMembers (name : String)
  /-- A union whose members end in several canonical types. -/
  | unrelatedMembers (name : String) (canonical : List String)
  deriving DecidableEq

namespace TypeError

def message : TypeError → String
  | unknown name => s!"Unknown type '{name}'."
  | alreadyInUse name => s!"Cannot register '{name}': the name is already in use."
  | invalidName name => s!"Invalid type name '{name}' (expected PascalCase, ex: 'ByteCount')."
  | invalidIdentifier identifier =>
    s!"Invalid type identifier '{identifier}' (expected ex: 'COUNT', 'BYTE_COUNT', 'COUNT2')."
  | tooFewMembers name => s!"A variant requires at least two distinct member types, found {name}."
  | unrelatedMembers name canonical =>
    let supers := ", ".intercalate canonical
    s!"Variant members {name} do not share one canonical supertype ({supers})."

end TypeError

/-- A name of a type: an upper case letter, then letters and digits, all of them ASCII. -/
def isTypeName (name : String) : Bool :=
  match name.toList with
  | [] => false
  | c :: cs => c.isUpper && cs.all Char.isAlphanum

/-- The segments of a name: each starts at an upper case letter, the first at the start. -/
def nameSegments : List Char → List (List Char)
  | [] => []
  | c :: cs =>
    match nameSegments cs with
    | [] => [[c]]
    | segment :: segments =>
      if segment.head?.any Char.isUpper then [c] :: segment :: segments
      else (c :: segment) :: segments

/-- The texts of a list, each once, in code point order. -/
def sortedDistinct (names : List String) : List String :=
  (names.foldl (fun (d : Dict Unit) name => d.insert name ()) Dict.empty).keys

structure Registry where
  types : Dict ValueType := Dict.empty
  /-- Names that stand for another name. -/
  aliases : Dict String := Dict.empty

namespace Registry

/-- A step that may synthesize types. What it has synthesized stays, also when it fails. -/
abbrev Step := EStateM TypeError Registry

def empty : Registry := {}

/-- The type that a name or an alias stands for. -/
def get? (r : Registry) (name : String) : Option ValueType :=
  r.types.get? ((r.aliases.get? name).getD name)

/-- The name or the alias is in use. -/
def contains (r : Registry) (name : String) : Bool :=
  r.types.contains name || r.aliases.contains name

/-- Add a primitive without asking whether its names are free. -/
def add (r : Registry) (p : Primitive) : Registry where
  types := r.types.insert p.name (.primitive p)
  aliases := p.aliases.foldl (fun aliases a => aliases.insert a p.name) r.aliases

/-- Register a primitive under its name and its aliases, all of them valid and free. -/
def register (r : Registry) (p : Primitive) : Except TypeError Registry :=
  let names := p.name :: p.aliases
  match names.find? (!isTypeName ·), names.find? r.contains with
  | some name, _ => .error (.invalidName name)
  | none, some name => .error (.alreadyInUse name)
  | none, none => .ok (r.add p)

/-- Keep a synthesized type under its own name. A type already kept under it is given instead. -/
def keep (r : Registry) (t : ValueType) : ValueType × Registry :=
  match r.types.get? t.name with
  | some kept => (kept, r)
  | none => (t, { r with types := r.types.insert t.name t })

/-- The type named by a chain of segments: the one registered under the longest ending, with a
derived type kept for each segment before it. -/
def derive (r : Registry) : List (List Char) → Option (ValueType × Registry)
  | [] => none
  | segment :: rest =>
    let name := String.ofList (segment ++ rest.flatten)
    match r.get? name with
    | some t => some (t, r)
    | none =>
      (r.derive rest).map fun (base, r) => r.keep (.derived name (String.ofList segment) base)

/-- The type that `name` stands for. -/
def resolve (name : String) : Step ValueType := fun r =>
  match r.get? name with
  | some t => .ok t r
  | none =>
    if isTypeName name then
      match r.derive (nameSegments name.toList) with
      | some (t, r) => .ok t r
      | none => .error (.unknown name) r
    else .error (.invalidName name) r

/-- Keep a synthesized type, as a step. -/
def keeping (t : ValueType) : Step ValueType := fun r =>
  let (kept, r) := r.keep t
  .ok kept r

/-- The types of a list by name: each name once, in code point order. -/
def byName (types : List ValueType) : Dict ValueType :=
  types.foldl (fun d t => if d.contains t.name then d else d.insert t.name t) Dict.empty

/-- The union of the types that `names` stand for. -/
def union (names : List String) : Step ValueType := do
  let resolved ← names.mapM resolve
  let members := (byName resolved).entries.map (·.2)
  let name := (ValueType.union members).name
  if members.length < 2 then throw (.tooFewMembers name)
  let canonical := sortedDistinct (members.map ValueType.canonicalName)
  if canonical.length ≠ 1 then throw (.unrelatedMembers name canonical)
  match (← get).get? name with
  | some t => return t
  | none => keeping (.union members)

/-- The choice between `words`. -/
def choice (words : List String) (r : Registry) : ValueType × Registry := r.keep (.choice words)

/-- The type of one word. -/
def word (text : String) (r : Registry) : ValueType × Registry := r.keep (.word text)

/-- The name of the type that `name` ends in. -/
def canonicalName (name : String) : Step String := do return (← resolve name).canonicalName

end Registry

end Synopsis
