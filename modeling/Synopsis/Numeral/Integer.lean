/-!
# Decimal integers

Reading the decimal text of a 64-bit integer, signed or not. A `+` is accepted before either kind
and a `-` before a signed one; at least one digit must follow, ASCII digits only, and the value
must be in range. A text that breaks one of these rules stands for no integer.
-/

namespace Synopsis

/-- The number that a nonempty run of ASCII digits stands for. -/
def natural? (digits : List Char) : Option Nat :=
  if digits.isEmpty || !digits.all Char.isDigit then none
  else some (Nat.ofDigitChars 10 digits 0)

/-- The number of signed 64-bit integers on either side of the least nonnegative one. -/
def int64Bound : Nat := 0x8000000000000000

/-- The number of unsigned 64-bit integers. -/
def uint64Bound : Nat := 0x10000000000000000

/-- The signed 64-bit integer that a text stands for. -/
def readInt64? (text : String) : Option Int64 :=
  match text.toList with
  | '-' :: digits =>
    (natural? digits).bind fun n => if n ≤ int64Bound then some (Int64.ofInt (-n)) else none
  | '+' :: digits => (natural? digits).bind nonnegative
  | digits => (natural? digits).bind nonnegative
where
  nonnegative (n : Nat) : Option Int64 := if n < int64Bound then some (Int64.ofInt n) else none

/-- The unsigned 64-bit integer that a text stands for. -/
def readUInt64? (text : String) : Option UInt64 :=
  match text.toList with
  | '+' :: digits => (natural? digits).bind inRange
  | digits => (natural? digits).bind inRange
where
  inRange (n : Nat) : Option UInt64 := if n < uint64Bound then some (UInt64.ofNat n) else none

/-- The decimal text of a signed integer. -/
def writeInt64 (n : Int64) : String := n.toInt.repr

/-- The decimal text of an unsigned integer. -/
def writeUInt64 (n : UInt64) : String := n.toNat.repr

end Synopsis
