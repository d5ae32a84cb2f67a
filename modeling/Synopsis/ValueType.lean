import Synopsis.Value

/-!
# Types of values

A type reads text into values and says which values it accepts. The host supplies *primitives*;
every other type is made from them: a *derived* type puts a lead word before the name of its base
and behaves like it, a *union* tries its members in turn, a *choice* lists words and a *word* is a
single one.

The name of a union or a choice is written from its parts, so two of them have one name exactly
when they have the same written form.
-/

namespace Synopsis

/-- A type that the host supplies. -/
structure Primitive where
  name : String
  aliases : List String := []
  /-- The value that a text stands for, before `holds` is asked. -/
  convert : String → Option Value
  /-- The values of the type. -/
  holds : Value → Bool
  /-- The text `-` stands for the pipeline input. -/
  takesTopic : Bool := false
  /-- What a sequence of values is bound as, where that is not a list. -/
  collector : Option (List Value → Value) := none

inductive ValueType where
  | primitive (p : Primitive)
  /-- The type `name`, which is `lead` before the name under which `base` was found. -/
  | derived (name lead : String) (base : ValueType)
  | union (members : List ValueType)
  | choice (words : List String)
  | word (text : String)

/-- Alternatives as they are written: `(a|b)`. -/
def writeAlternatives (parts : List String) : String := "(" ++ "|".intercalate parts ++ ")"

namespace ValueType

mutual

def name : ValueType → String
  | primitive p => p.name
  | derived name _ _ => name
  | union members => writeAlternatives (names members)
  | choice words => writeAlternatives words
  | word text => text

def names : List ValueType → List String
  | [] => []
  | t :: ts => t.name :: names ts

end

def aliases : ValueType → List String
  | primitive p => p.aliases
  | _ => []

/-- The type that a derived type is derived from. -/
def base? : ValueType → Option ValueType
  | derived _ _ base => some base
  | _ => none

def members? : ValueType → Option (List ValueType)
  | union members => some members
  | _ => none

def isWord : ValueType → Bool
  | word _ => true
  | _ => false

def isChoice : ValueType → Bool
  | choice _ => true
  | _ => false

/-- The words that a choice or a single word accepts. -/
def choices? : ValueType → Option (List String)
  | choice words => some words
  | word text => some [text]
  | _ => none

/-- The form of a type, for a reader. -/
def kindText : ValueType → String
  | primitive _ => "Primitive"
  | derived _ lead base => "Derived(" ++ lead ++ " over " ++ base.name ++ ")"
  | union members => "Variant(" ++ "|".intercalate (names members) ++ ")"
  | choice words => "Enum(" ++ "|".intercalate words ++ ")"
  | word text => "Literal(" ++ text ++ ")"

mutual

/-- The text `-` stands for the pipeline input. -/
def takesTopic : ValueType → Bool
  | primitive p => p.takesTopic
  | derived _ _ base => base.takesTopic
  | union members => anyTakesTopic members
  | choice _ => false
  | word _ => false

def anyTakesTopic : List ValueType → Bool
  | [] => false
  | t :: ts => t.takesTopic || anyTakesTopic ts

end

/-- The name of the type that a chain of derived types ends in. All members of a union share it,
so the first is asked. -/
def canonicalName : ValueType → String
  | primitive p => p.name
  | derived _ _ base => base.canonicalName
  | union [] => (union []).name
  | union (member :: _) => member.canonicalName
  | choice words => (choice words).name
  | word text => text

/-- The name of the type of switches. -/
def booleanName : String := "Boolean"

/-- The name of the type of repeated switches. -/
def countName : String := "Count"

def isBoolean (t : ValueType) : Bool := t.canonicalName = booleanName

mutual

/-- The value that a text stands for; of the members of a union the first to read it wins. -/
def read? : ValueType → String → Option Value
  | primitive p, text => (p.convert text).filter p.holds
  | derived _ _ base, text => base.read? text
  | union members, text => readFirst? members text
  | choice words, text => if text ∈ words then some (.text text) else none
  | word w, text => if text = w then some (.text text) else none

def readFirst? : List ValueType → String → Option Value
  | [], _ => none
  | t :: ts, text => (t.read? text).or (readFirst? ts text)

end

mutual

/-- The values of the type other than the file topic. -/
def holds : ValueType → Value → Bool
  | primitive p, v => p.holds v
  | derived _ _ base, v => base.holds v
  | union members, v => anyHolds members v
  | choice words, .text s => s ∈ words
  | choice _, _ => false
  | word w, .text s => s = w
  | word _, _ => false

def anyHolds : List ValueType → Value → Bool
  | [], _ => false
  | t :: ts, v => t.holds v || anyHolds ts v

end

/-- The values of the type. The file topic is one of them exactly where it may be written. -/
def accepts (t : ValueType) : Value → Bool
  | .topic => t.takesTopic
  | v => t.holds v

/-- What a sequence of values is bound as. -/
def collector? : ValueType → Option (List Value → Value)
  | primitive p => p.collector
  | derived _ _ base => base.collector?
  | _ => none

/-- The value that a sequence of values is bound as: a list, unless the type collects otherwise. -/
def collect (t : ValueType) (values : List Value) : Value :=
  match t.collector? with
  | some collector => collector values
  | none => .list values

end ValueType

end Synopsis
