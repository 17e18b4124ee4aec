/-!
# Shortest decimals

The text of a double: the fewest significant digits that read back as the same
double, of those the digits nearest to its value, a half going up, and always
written positionally.

A finite double is `m * 2 ^ q` with `-1074 ≤ q`, so it is a whole number of
units of `10 ^ -1076`, and so are the points halfway to its two neighbours.  The
digits are chosen in that unit, in exact arithmetic on natural numbers: on each
grid of powers of ten, from coarse to fine, only the two grid points around the
value can read back, and the first grid with one that does is taken.
-/

namespace LazyDispatch.Text

/-- The numeral `digits * 10 ^ exponent`. -/
structure Decimal where
  digits : Nat
  exponent : Int
deriving DecidableEq

/-- The number of decimal places of the unit in which digits are chosen. -/
def unitPlaces : Nat := 1076

/-- The numbers that read back as one double, in units of `10 ^ -unitPlaces`:
those from `low` to `high`, the ends included exactly if `closed`. -/
structure RoundingInterval where
  value : Nat
  low : Nat
  high : Nat
  closed : Bool

/-- The interval of the double with the given exponent field and fraction field.
Its lower half is only half as wide above a power of two. -/
def RoundingInterval.ofFields (exponentField fraction : Nat) :
    RoundingInterval :=
  let mantissa := if exponentField = 0 then fraction else fraction + Nat.pow 2 52
  let shift := max exponentField 1 + 1
  let unit := Nat.pow 5 unitPlaces
  let value := mantissa * Nat.pow 2 shift * unit
  let half := Nat.pow 2 (shift - 1) * unit
  let below := if fraction = 0 ∧ 1 < exponentField then half / 2 else half
  { value, low := value - below, high := value + half, closed := mantissa % 2 = 0 }

/-- Whether a number reads back as the double of the interval. -/
def RoundingInterval.contains (interval : RoundingInterval) (number : Nat) :
    Bool :=
  if interval.closed then interval.low ≤ number && number ≤ interval.high
  else interval.low < number && number < interval.high

/-- The multiple of `grid` nearest to the value among those that read back, as a
multiple. -/
def RoundingInterval.onGrid? (interval : RoundingInterval) (grid : Nat) :
    Option Nat :=
  let down := interval.value / grid
  let up := down + 1
  match interval.contains (down * grid), interval.contains (up * grid) with
  | true, true => some (if grid ≤ 2 * (interval.value % grid) then up else down)
  | true, false => some down
  | false, true => some up
  | false, false => none

/-- Tries ever finer grids, starting at the one of `place` powers of ten. -/
def RoundingInterval.refine (interval : RoundingInterval) : Nat → Decimal
  | 0 => ⟨interval.value, -unitPlaces⟩
  | place + 1 =>
    match interval.onGrid? (Nat.pow 10 (place + 1)) with
    | some digits => ⟨digits, (place + 1 : Nat) - (unitPlaces : Int)⟩
    | none => interval.refine place

/-- The shortest numeral that reads back. -/
def RoundingInterval.shortest (interval : RoundingInterval) : Decimal :=
  interval.refine ((toString interval.value).length - 1)

/-- A numeral without zeros at the end of its digits. -/
def Decimal.dropZeros (d : Decimal) : Decimal :=
  let zeros := ((toString d.digits).toList.reverse.takeWhile (· = '0')).length
  if d.digits = 0 then ⟨0, 0⟩ else ⟨d.digits / Nat.pow 10 zeros, d.exponent + zeros⟩

/-- The numeral written positionally, with a point only before digits. -/
def Decimal.text (d : Decimal) : String :=
  let digits := (toString d.digits).toList
  let places := (-d.exponent).toNat
  let chars :=
    if 0 ≤ d.exponent then
      digits ++ List.replicate d.exponent.toNat '0'
    else if places < digits.length then
      digits.take (digits.length - places) ++ '.' :: digits.drop (digits.length - places)
    else
      '0' :: '.' :: List.replicate (places - digits.length) '0' ++ digits
  String.ofList chars

/-- The text of a double: its shortest numeral, `NaN`, `inf` or `-inf`; a zero
keeps its sign. -/
def doubleText (x : Float) : String :=
  let bits := x.toBits.toNat
  let sign := if Nat.pow 2 63 ≤ bits then "-" else ""
  let exponentField := bits / Nat.pow 2 52 % Nat.pow 2 11
  let fraction := bits % Nat.pow 2 52
  if exponentField = 2047 then
    if fraction = 0 then sign ++ "inf" else "NaN"
  else if exponentField = 0 ∧ fraction = 0 then
    sign ++ "0"
  else
    sign ++ (RoundingInterval.ofFields exponentField fraction).shortest.dropZeros.text

end LazyDispatch.Text
