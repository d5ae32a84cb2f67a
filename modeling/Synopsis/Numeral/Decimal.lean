import Synopsis.Numeral.Integer

/-!
# Decimal fractions

Reading the decimal text of a binary floating point number: an optional sign, then `inf`,
`infinity` or `nan` in any case, or digits with an optional point and an optional exponent. At
least one digit stands before or after the point. The number read is the one nearest to the
decimal written; a decimal beyond the largest finite number is read as an infinity.
-/

namespace Synopsis

/-- The number nearest to `mantissa * 10 ^ exponent`. A decimal far outside the range of the
format is settled by its magnitude, before any power of ten is computed. -/
def nearestFloat (mantissa : Nat) (exponent : Int) : Float :=
  let magnitude : Int := (Nat.toDigits 10 mantissa).length + exponent
  if mantissa = 0 || magnitude < -400 then 0.0
  else if magnitude > 400 then 1.0 / 0.0
  else Float.ofScientific mantissa (exponent < 0) exponent.natAbs

/-- The exponent after the mark `e`: an optional sign and at least one digit. -/
def exponent? : List Char → Option Int
  | '-' :: digits => (natural? digits).map fun n => -(n : Int)
  | '+' :: digits => (natural? digits).map Int.ofNat
  | digits => (natural? digits).map Int.ofNat

/-- An unsigned decimal: whole digits, fraction digits, exponent. -/
def decimal? (cs : List Char) : Option Float :=
  let whole := cs.takeWhile Char.isDigit
  let afterWhole := cs.dropWhile Char.isDigit
  let (fraction, rest) :=
    match afterWhole with
    | '.' :: r => (r.takeWhile Char.isDigit, r.dropWhile Char.isDigit)
    | r => ([], r)
  let exponent :=
    match rest with
    | [] => some 0
    | 'e' :: r => exponent? r
    | 'E' :: r => exponent? r
    | _ => none
  match natural? (whole ++ fraction), exponent with
  | some mantissa, some e => some (nearestFloat mantissa (e - fraction.length))
  | _, _ => none

/-- The magnitude that an unsigned text stands for. -/
def magnitude? (cs : List Char) : Option Float :=
  let word := String.ofList (cs.map Char.toLower)
  if word = "inf" || word = "infinity" then some (1.0 / 0.0)
  else if word = "nan" then some (0.0 / 0.0)
  else decimal? cs

/-- The floating point number that a text stands for. -/
def readFloat? (text : String) : Option Float :=
  match text.toList with
  | '-' :: cs => (magnitude? cs).map (-·)
  | '+' :: cs => magnitude? cs
  | cs => magnitude? cs

end Synopsis
