/-!
Binary floating-point numbers held as their bits, so that equality, storage
and hashing see every NaN payload and both zeros. Arithmetic is the IEEE one;
`numericEq` is its equality, which no NaN satisfies and which joins the zeros.
-/

namespace GraphFusion

/-- A finite magnitude `mantissa * 2 ^ exponent`. -/
structure Dyadic where
  mantissa : Nat
  exponent : Int
  /-- The next smaller number is only half as far away as the next larger one. -/
  narrowBelow : Bool
  deriving DecidableEq, Repr

/-- The magnitude in the low `exponentBits + fractionBits` bits; `none` for
infinities and NaN. -/
def Dyadic.ofBits? (exponentBits fractionBits bits : Nat) : Option Dyadic :=
  let fraction := bits % Nat.pow 2 fractionBits
  let biased := bits / Nat.pow 2 fractionBits % Nat.pow 2 exponentBits
  let lowest : Int := 2 - (Nat.pow 2 (exponentBits - 1) : Nat) - fractionBits
  if biased = Nat.pow 2 exponentBits - 1 then none
  else if biased = 0 then some ⟨fraction, lowest, false⟩
  else some ⟨Nat.pow 2 fractionBits + fraction, lowest + (biased - 1),
    fraction == 0 && decide (1 < biased)⟩

/-- Single precision. -/
structure Binary32 where
  bits : UInt32
  deriving DecidableEq, Repr, Inhabited

namespace Binary32

def toFloat (x : Binary32) : Float32 := Float32.ofBits x.bits

def ofFloat (x : Float32) : Binary32 := ⟨x.toBits⟩

def zero : Binary32 := ⟨0⟩

def signBit : UInt32 := 0x80000000

def isNegative (x : Binary32) : Bool := x.bits &&& signBit != 0

def isNaN (x : Binary32) : Bool := x.bits &&& 0x7fffffff > 0x7f800000

def magnitude? (x : Binary32) : Option Dyadic := Dyadic.ofBits? 8 23 x.bits.toNat

def neg (x : Binary32) : Binary32 := ⟨x.bits ^^^ signBit⟩

def abs (x : Binary32) : Binary32 := ⟨x.bits &&& 0x7fffffff⟩

def add (x y : Binary32) : Binary32 := ofFloat (x.toFloat + y.toFloat)

def sub (x y : Binary32) : Binary32 := ofFloat (x.toFloat - y.toFloat)

def mul (x y : Binary32) : Binary32 := ofFloat (x.toFloat * y.toFloat)

def div (x y : Binary32) : Binary32 := ofFloat (x.toFloat / y.toFloat)

/-- The larger operand; a NaN gives way to the other one. -/
def max (x y : Binary32) : Binary32 :=
  if x.isNaN then y else if y.isNaN then x else if x.toFloat < y.toFloat then y else x

/-- The smaller operand; a NaN gives way to the other one. -/
def min (x y : Binary32) : Binary32 :=
  if x.isNaN then y else if y.isNaN then x else if y.toFloat < x.toFloat then y else x

def numericEq (x y : Binary32) : Bool := x.toFloat == y.toFloat

end Binary32

/-- Double precision. -/
structure Binary64 where
  bits : UInt64
  deriving DecidableEq, Repr, Inhabited

namespace Binary64

def toFloat (x : Binary64) : Float := Float.ofBits x.bits

def ofFloat (x : Float) : Binary64 := ⟨x.toBits⟩

def zero : Binary64 := ⟨0⟩

def one : Binary64 := ⟨0x3ff0000000000000⟩

def signBit : UInt64 := 0x8000000000000000

def isNegative (x : Binary64) : Bool := x.bits &&& signBit != 0

def isNaN (x : Binary64) : Bool := x.bits &&& 0x7fffffffffffffff > 0x7ff0000000000000

def magnitude? (x : Binary64) : Option Dyadic := Dyadic.ofBits? 11 52 x.bits.toNat

def neg (x : Binary64) : Binary64 := ⟨x.bits ^^^ signBit⟩

def abs (x : Binary64) : Binary64 := ⟨x.bits &&& 0x7fffffffffffffff⟩

def add (x y : Binary64) : Binary64 := ofFloat (x.toFloat + y.toFloat)

def sub (x y : Binary64) : Binary64 := ofFloat (x.toFloat - y.toFloat)

def mul (x y : Binary64) : Binary64 := ofFloat (x.toFloat * y.toFloat)

def div (x y : Binary64) : Binary64 := ofFloat (x.toFloat / y.toFloat)

/-- The larger operand; a NaN gives way to the other one. -/
def max (x y : Binary64) : Binary64 :=
  if x.isNaN then y else if y.isNaN then x else if x.toFloat < y.toFloat then y else x

/-- The smaller operand; a NaN gives way to the other one. -/
def min (x y : Binary64) : Binary64 :=
  if x.isNaN then y else if y.isNaN then x else if y.toFloat < x.toFloat then y else x

def numericEq (x y : Binary64) : Bool := x.toFloat == y.toFloat

/-- Every number but the two zeros; NaN counts as nonzero. -/
def isNonzero (x : Binary64) : Bool := x.abs.bits != 0

def ofInt32 (n : Int32) : Binary64 := ofFloat n.toFloat

/-- Rounds to nearest, ties to even. -/
def ofInt64 (n : Int64) : Binary64 := ofFloat n.toFloat

def ofBinary32 (x : Binary32) : Binary64 := ofFloat x.toFloat.toFloat

/-- Truncates toward zero and saturates; NaN becomes zero. -/
def toInt32 (x : Binary64) : Int32 := if x.isNaN then 0 else x.toFloat.toInt32

/-- Truncates toward zero and saturates; NaN becomes zero. -/
def toInt64 (x : Binary64) : Int64 := if x.isNaN then 0 else x.toFloat.toInt64

/-- Rounds to nearest, ties to even. -/
def toBinary32 (x : Binary64) : Binary32 := .ofFloat x.toFloat.toFloat32

end Binary64

end GraphFusion
