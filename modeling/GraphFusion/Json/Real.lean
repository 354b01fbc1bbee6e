import GraphFusion.Json.Basic
import GraphFusion.Numeric.Shortest

/-!
Numbers of JSON text and binary floating point. A float is written with the
fewest digits that read back. Reading is quick rather than exact: the leading
digits that fit 64 bits are rounded to a double, which is then multiplied or
divided by one rounded power of ten.
-/

namespace GraphFusion.Json

/-- How a floating-point format is written. -/
structure RealFormat where
  /-- Significant digits that always suffice. -/
  digits : Nat
  /-- Place of the leading digit from which numbers are written without exponent. -/
  plainFrom : Int
  /-- Place of the leading digit from which they need one. -/
  plainBelow : Int

def binary32Format : RealFormat := ⟨9, -6, 13⟩

def binary64Format : RealFormat := ⟨17, -5, 16⟩

namespace Number

def decimalDigits (n : Nat) : List Nat := (Nat.toDigits 10 n).map fun c => c.toNat - '0'.toNat

/-- The last `width` digits of `n`, zeros in front. -/
def paddedDigits : Nat → Nat → List Nat
  | 0, _ => []
  | width + 1, n => paddedDigits width (n / 10) ++ [n % 10]

def plain (negative : Bool) (d : Decimal) : Number :=
  if 0 ≤ d.exponent then ⟨negative, d.significand * Nat.pow 10 d.exponent.toNat, [0], none⟩
  else
    let places := (-d.exponent).toNat
    ⟨negative, d.significand / Nat.pow 10 places, paddedDigits places d.significand, none⟩

def scientific (negative : Bool) (d : Decimal) : Number :=
  let digits := decimalDigits d.significand
  let power := d.scientificExponent
  ⟨negative, digits.headD 0, digits.tail, some ⟨decide (power < 0), power.natAbs⟩⟩

/-- The number written for a finite value. -/
def ofMagnitude (format : RealFormat) (negative : Bool) (x : Dyadic) : Number :=
  if x.mantissa = 0 then ⟨negative, 0, [0], none⟩
  else
    let d := x.shortest format.digits
    let power := d.scientificExponent
    if format.plainFrom ≤ power ∧ power < format.plainBelow then plain negative d
    else scientific negative d

/-- Drops final digits until the number is below `2 ^ 64`, and counts them. At
most `fuel` digits are dropped. -/
def clip : Nat → Nat → Nat × Nat
  | 0, n => (n, 0)
  | fuel + 1, n =>
    if n < UInt64.size then (n, 0)
    else
      let (leading, dropped) := clip fuel (n / 10)
      (leading, dropped + 1)

/-- Appends fraction digits to a significand while it stays below `2 ^ 64`. -/
def appendFraction : Nat → Int → List Nat → Nat × Int
  | significand, exponent, [] => (significand, exponent)
  | significand, exponent, d :: rest =>
    if significand * 10 + d < UInt64.size then
      appendFraction (significand * 10 + d) (exponent - 1) rest
    else (significand, exponent)

def powerOfTen (n : Nat) : Float := Float.ofScientific 1 false n

/-- Divides by `10 ^ 308` until the remaining power of ten is in range or the
value vanishes, which takes at most two divisions, then divides by the rest. -/
def scaleDown : Nat → Float → Nat → Float
  | 0, x, _ => x
  | steps + 1, x, power =>
    if power ≤ 308 then x / powerOfTen power
    else if x == 0 then x
    else scaleDown steps (x / powerOfTen 308) (power - 308)

/-- `significand * 10 ^ exponent`; `none` when that is too large. -/
def magnitude? (significand : Nat) (exponent : Int) : Option Float :=
  let x := (UInt64.ofNat significand).toFloat
  if exponent < 0 then some (scaleDown 3 x (-exponent).toNat)
  else if exponent ≤ 308 then
    let y := x * powerOfTen exponent.toNat
    if y.isInf then none else some y
  else if significand = 0 then some x
  else none

def withSign (negative : Bool) (x : Binary64) : Binary64 := if negative then x.neg else x

/-- Largest power of ten that is taken at its word. -/
def exponentLimit : Nat := UInt32.size / 2 - 1

/-- The value of a number that is not a machine integer. -/
def real? (n : Number) : Option Binary64 :=
  let (leading, dropped) := clip (Nat.toDigits 10 n.whole).length n.whole
  let (significand, power) := appendFraction leading dropped n.fraction
  let magnitude :=
    match n.exponent with
    | none => magnitude? significand power
    | some e =>
      if exponentLimit < e.magnitude then
        if significand ≠ 0 ∧ !e.negative then none else some 0
      else
        let signed : Int := if e.negative then -(e.magnitude : Int) else e.magnitude
        magnitude? significand (max (-(exponentLimit : Int) - 1) (min exponentLimit (power + signed)))
  magnitude.map fun x => withSign n.negative (.ofFloat x)

/-- A natural number below `2 ^ 64`, written as an integer without a sign. -/
def natural? (n : Number) : Option Nat :=
  if n.isInteger && !n.negative && n.whole < UInt64.size then some n.whole else none

/-- A negative integer down to `- 2 ^ 63`, as its distance from zero. -/
def negative? (n : Number) : Option Nat :=
  if n.isInteger && n.negative && 0 < n.whole && n.whole ≤ UInt64.size / 2 then some n.whole else none

/-- An integer of 64 signed or unsigned bits. -/
def integer? (n : Number) : Option Int :=
  match n.natural?, n.negative? with
  | some m, _ => some m
  | none, some m => some (-(m : Int))
  | none, none => none

def toBinary64? (n : Number) : Option Binary64 :=
  match n.natural?, n.negative? with
  | some m, _ => some (.ofFloat (UInt64.ofNat m).toFloat)
  | none, some m => some (Binary64.ofFloat (UInt64.ofNat m).toFloat).neg
  | none, none => n.real?

/-- Integers are rounded once, other numbers by way of double precision. -/
def toBinary32? (n : Number) : Option Binary32 :=
  match n.natural?, n.negative? with
  | some m, _ => some (.ofFloat (UInt64.ofNat m).toFloat32)
  | none, some m => some (Binary32.ofFloat (UInt64.ofNat m).toFloat32).neg
  | none, none => n.real?.map Binary64.toBinary32

end Number

/-- Infinities and NaN are written as null. -/
def ofBinary32 (x : Binary32) : Json :=
  match x.magnitude? with
  | none => .null
  | some m => .number (.ofMagnitude binary32Format x.isNegative m)

/-- Infinities and NaN are written as null. -/
def ofBinary64 (x : Binary64) : Json :=
  match x.magnitude? with
  | none => .null
  | some m => .number (.ofMagnitude binary64Format x.isNegative m)

end GraphFusion.Json
