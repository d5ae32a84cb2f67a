import Synopsis.Numeral.Shortest
import Synopsis.Token

/-!
# Values

What a parameter can be bound to, and the text of a value.
-/

namespace Synopsis

inductive Value where
  | text (text : String)
  | integer (n : Int64)
  | number (x : Float)
  | boolean (b : Bool)
  | count (n : UInt64)
  /-- What a repeated option or a positional list is bound to. -/
  | list (elements : List Value)
  /-- The file topic: read from the implicit pipeline input. -/
  | topic
  /-- Tokens kept as they are, for a nested invocation. -/
  | tail (tokens : List Token)

namespace Value

def elements? : Value → Option (List Value)
  | list elements => some elements
  | _ => none

mutual

/-- The text of a value. Text stands for itself, without quotes. -/
def write : Value → String
  | text s => s
  | integer n => writeInt64 n
  | number x => writeFloat x
  | boolean b => if b then "true" else "false"
  | count n => writeUInt64 n
  | list elements => "[" ++ ", ".intercalate (writeAll elements) ++ "]"
  | topic => fileTopic
  | tail tokens => " ".intercalate (tokens.map Token.text)

def writeAll : List Value → List String
  | [] => []
  | v :: vs => v.write :: writeAll vs

end

end Value

/-- What an absent parameter is bound to. -/
inductive DefaultValue where
  /-- Text, read by the parameter's type as if it had been supplied. -/
  | raw (text : String)
  /-- A value, bound as it is. -/
  | value (value : Value)

end Synopsis
