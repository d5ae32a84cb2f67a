/-!
# Shortest decimals

The text of a floating point number: the fewest decimal digits that read back as that number, and
of those the digits nearest to it.

**The interval.** A finite number is `m * 2 ^ q`. The reals that round to it are those within half
the gap to its neighbours; the ends belong to it when `m` is even. The gap below a power of two is
half the gap above it. In units of `2 ^ (q - 2)` the number is `4 * m` and the ends are whole.

**The search.** For 1, 2, … 17 digits the two neighbours of the number on that decimal grid are
tried. If any point of a grid lies in the interval, one of these two does, so the first grid with a
hit has the fewest digits. Of two hits the nearer is taken, and of two equally near the larger.

**The layout.** Digits are written positionally, whatever the magnitude; a whole number has no
point.
-/

namespace Synopsis

/-- A positive finite number `m * 2 ^ q`, with the lower end of its interval. -/
structure Dyadic where
  m : Nat
  q : Int
  /-- The neighbour below is half as far away as the neighbour above. -/
  narrowBelow : Bool := false

namespace Dyadic

/-- The least number that is too large for the fraction field: `2 ^ 52`. -/
def fractionBound : Nat := 0x10000000000000

/-- The magnitude that the exponent and fraction fields of a finite number stand for. -/
def ofFields (exponent fraction : Nat) : Dyadic :=
  if exponent = 0 then ⟨fraction, -1074, false⟩
  else ⟨fractionBound + fraction, exponent - 1075, fraction = 0 && exponent > 1⟩

/-- `scale base e` is `base ^ e` as a quotient of two whole numbers. -/
def scale (base : Nat) (e : Int) : Nat × Nat :=
  if e < 0 then (1, base.pow e.natAbs) else (base.pow e.natAbs, 1)

/-- The exponent of the leading decimal digit. -/
def leading (x : Dyadic) : Int :=
  let (up, down) := scale 2 x.q
  let num := x.m * up
  if num ≥ down then (Nat.toDigits 10 (num / down)).length - 1
  else -((Nat.toDigits 10 ((down - 1) / num)).length : Int)

/-- The multiple of `10 ^ k` that reads back as `x` and is nearest to it, if one of the two
neighbours of `x` on that grid reads back. -/
def onGrid (x : Dyadic) (k : Int) : Option Nat :=
  let (up, down) := scale 2 (x.q - 2)
  let (gridUp, gridDown) := scale 10 k
  -- a multiple `d` is compared with `n * 2 ^ (q - 2)` as `d * grid` with `n * unit`
  let grid := gridUp * down
  let unit := up * gridDown
  let value := 4 * x.m * unit
  let low := (4 * x.m - if x.narrowBelow then 1 else 2) * unit
  let high := (4 * x.m + 2) * unit
  let within (d : Nat) : Bool :=
    if x.m % 2 = 0 then low ≤ d * grid && d * grid ≤ high else low < d * grid && d * grid < high
  let below := value / grid
  match within below, within (below + 1) with
  | true, true =>
    some (if value - below * grid < (below + 1) * grid - value then below else below + 1)
  | true, false => some below
  | false, true => some (below + 1)
  | false, false => none

/-- The digits and the exponent of the shortest decimal that reads back as `x`. -/
def shortest (x : Dyadic) : Nat × Int :=
  ((List.range 17).findSome? fun (n : Nat) =>
    let k := x.leading - n
    (x.onGrid k).map (·, k)).getD (0, 0)

end Dyadic

/-- The decimal `digits * 10 ^ k`, written out positionally. -/
def positional (digits : Nat) (k : Int) : String :=
  -- the search leaves a trailing zero only where it rounds up to the next power of ten
  let (digits, k) := if digits % 10 = 0 then (digits / 10, k + 1) else (digits, k)
  let ds := Nat.toDigits 10 digits
  if k ≥ 0 then String.ofList (ds ++ List.replicate k.natAbs '0')
  else
    let places := k.natAbs
    let padded := List.replicate (places + 1 - ds.length) '0' ++ ds
    let whole := padded.length - places
    String.ofList (padded.take whole ++ '.' :: padded.drop whole)

/-- The text of a floating point number. -/
def writeFloat (x : Float) : String :=
  let bits := x.toBits.toNat
  let fraction := bits % Dyadic.fractionBound
  let exponent := bits / Dyadic.fractionBound % 2048
  let sign := if bits / Dyadic.fractionBound / 2048 = 1 then "-" else ""
  if exponent = 2047 then if fraction = 0 then sign ++ "inf" else "NaN"
  else if exponent = 0 && fraction = 0 then sign ++ "0"
  else
    let (digits, k) := (Dyadic.ofFields exponent fraction).shortest
    sign ++ positional digits k

end Synopsis
