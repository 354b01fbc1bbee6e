import GraphFusion.Numeric.Binary

/-!
The fewest decimal digits that read back as a given binary number. A decimal
reads back when it lies between the midpoints to the two neighbouring numbers,
midpoints included for an even mantissa. Grids of one, two, ... significant
digits are tried in turn; on the first with a hit the nearer hit is taken, and
of two equally near ones the even.
-/

namespace GraphFusion

/-- The number `significand * 10 ^ exponent`. -/
structure Decimal where
  significand : Nat
  exponent : Int
  deriving DecidableEq, Repr

namespace Decimal

def digitCount (n : Nat) : Nat := (Nat.toDigits 10 n).length

/-- Drops trailing zeros of the significand, at most `fuel` of them. -/
def trim (fuel : Nat) (d : Decimal) : Decimal :=
  match fuel with
  | 0 => d
  | fuel + 1 =>
    if d.significand ≠ 0 ∧ d.significand % 10 = 0 then
      trim fuel ⟨d.significand / 10, d.exponent + 1⟩
    else d

/-- Place of the leading digit, counted from the decimal point. -/
def scientificExponent (d : Decimal) : Int := d.exponent + (digitCount d.significand - 1 : Nat)

end Decimal

namespace Dyadic

/-- Smallest `k` with `x < 10 ^ k`, for a positive `x = numerator / denominator`. -/
def decimalMagnitude (numerator denominator : Nat) : Int :=
  if denominator ≤ numerator then Decimal.digitCount (numerator / denominator)
  else 1 - (Decimal.digitCount (denominator / numerator) : Int)

/-- The hit on the grid of multiples of `10 ^ place`, if there is one. -/
def nearestOnGrid? (x : Dyadic) (place : Int) : Option Nat :=
  let quarter := x.exponent - 2
  let gridScale := Nat.pow 10 place.toNat * Nat.pow 2 (-quarter).toNat
  let valueScale := Nat.pow 2 quarter.toNat * Nat.pow 10 (-place).toNat
  let value := 4 * x.mantissa * valueScale
  let low := (4 * x.mantissa - if x.narrowBelow then 1 else 2) * valueScale
  let high := (4 * x.mantissa + 2) * valueScale
  let readsBack (c : Nat) : Bool :=
    let point := c * gridScale
    if x.mantissa % 2 = 0 then low ≤ point && point ≤ high else low < point && point < high
  let below := value / gridScale
  let above := below + 1
  match readsBack below, readsBack above with
  | true, true =>
    let half := (2 * below + 1) * gridScale
    if 2 * value < half then some below
    else if half < 2 * value then some above
    else some (if below % 2 = 0 then below else above)
  | true, false => some below
  | false, true => some above
  | false, false => none

/-- Shortest decimal that reads back as `x`, for a positive `x` of a format in
which `digits` significant digits always suffice. -/
def shortest (x : Dyadic) (digits : Nat) : Decimal :=
  let top := decimalMagnitude (x.mantissa * Nat.pow 2 x.exponent.toNat) (Nat.pow 2 (-x.exponent).toNat)
  let hit := (List.range' 1 digits).findSome? fun count =>
    let place : Int := top - (count : Nat)
    (x.nearestOnGrid? place).map fun c => (⟨c, place⟩ : Decimal)
  (hit.getD ⟨0, 0⟩).trim (digits + 1)

end Dyadic

end GraphFusion
