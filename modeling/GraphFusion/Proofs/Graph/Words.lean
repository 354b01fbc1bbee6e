import GraphFusion.Graph.Kernels
import Mathlib.Algebra.Group.Nat.Defs
import Mathlib.Algebra.Ring.Int.Defs
import Mathlib.Logic.Function.Defs

/-!
Arithmetic on elements. Whatever the elements are, only division can have no
result. Signed machine words stand for integers: sums, differences, products,
negations and absolute values are the exact ones wrapped around to the width, the
larger and the smaller of two are exact, and a quotient is the exact one truncated
toward zero. There is none by zero, and none of the least integer by minus one, which
is one too large for the width.
-/

namespace GraphFusion

namespace BinaryOp

theorem apply_error {α : Type} {op : BinaryOp} {arithmetic : Arithmetic α} {x y : α}
    {e : ExecutionError} (h : op.apply arithmetic x y = .error e) :
    op = div ∧ arithmetic.div? x y = none ∧ e = .fault .divisionByZero := by
  cases op with
  | div =>
    simp only [apply] at h
    split at h
    · cases h
    · rename_i hnone
      cases h
      exact ⟨rfl, hnone, rfl⟩
  | add | sub | mul | maximum | minimum => cases h

/-- The integer operations that do not depend on the order of their operands. -/
def Commutes : BinaryOp → Prop
  | add | mul | maximum | minimum => True
  | sub | div => False

/-- The result of an operation on signed integers of `bits` bits: exact for the larger and
the smaller of two, and else the exact one wrapped around. -/
def onIntegers (bits : Nat) (op : BinaryOp) (x y : Int) : Int :=
  match op with
  | add => (x + y).bmod (2 ^ bits)
  | sub => (x - y).bmod (2 ^ bits)
  | mul => (x * y).bmod (2 ^ bits)
  | div => (x.tdiv y).bmod (2 ^ bits)
  | maximum => max x y
  | minimum => min x y

/-- A division that has no quotient of `bits` bits. -/
def NoQuotient (bits : Nat) (op : BinaryOp) (x y : Int) : Prop :=
  op = div ∧ (y = 0 ∨ (x = -2 ^ (bits - 1) ∧ y = -1))

instance (bits : Nat) (op : BinaryOp) (x y : Int) : Decidable (op.NoQuotient bits x y) :=
  inferInstanceAs (Decidable (_ ∧ _))

theorem Commutes.onIntegers {op : BinaryOp} (h : op.Commutes) (bits : Nat) (x y : Int) :
    op.onIntegers bits x y = op.onIntegers bits y x := by
  cases op with
  | add => exact congrArg (Int.bmod · (2 ^ bits)) (Int.add_comm x y)
  | mul => exact congrArg (Int.bmod · (2 ^ bits)) (Int.mul_comm x y)
  | maximum => exact Int.max_comm x y
  | minimum => exact Int.min_comm x y
  | sub | div => exact h.elim

theorem Commutes.not_noQuotient {op : BinaryOp} (h : op.Commutes) (bits : Nat) (x y : Int) :
    ¬ op.NoQuotient bits x y := by
  rintro ⟨rfl, -⟩
  exact h

end BinaryOp

namespace UnaryOp

/-- The result of an operation on a signed integer of `bits` bits, wrapped around. -/
def onInteger (bits : Nat) (op : UnaryOp) (x : Int) : Int :=
  match op with
  | neg => (-x).bmod (2 ^ bits)
  | abs => (x.natAbs : Int).bmod (2 ^ bits)

end UnaryOp

namespace Arithmetic

/-- Elements stand for the signed integers of `bits` bits, one for each, and are put through
the operations as these integers are. -/
structure Realizes {α : Type} (arithmetic : Arithmetic α) (bits : Nat) (value : α → Int) :
    Prop where
  injective : Function.Injective value
  defined : ∀ (op : BinaryOp) (x y : α), ¬ op.NoQuotient bits (value x) (value y) →
    ∃ z, op.apply arithmetic x y = .ok z ∧ value z = op.onIntegers bits (value x) (value y)
  undefined : ∀ (op : BinaryOp) (x y : α), op.NoQuotient bits (value x) (value y) →
    op.apply arithmetic x y = .error (.fault .divisionByZero)
  unary : ∀ (op : UnaryOp) (x : α), value (op.apply arithmetic x) = op.onInteger bits (value x)

theorem Realizes.apply_comm {α : Type} {arithmetic : Arithmetic α} {bits : Nat} {value : α → Int}
    (h : arithmetic.Realizes bits value) {op : BinaryOp} (hop : op.Commutes) (x y : α) :
    op.apply arithmetic x y = op.apply arithmetic y x := by
  obtain ⟨z, hz, hvalue⟩ := h.defined op x y (hop.not_noQuotient _ _ _)
  obtain ⟨z', hz', hvalue'⟩ := h.defined op y x (hop.not_noQuotient _ _ _)
  have hsame : z = z' := h.injective (by rw [hvalue, hvalue', hop.onIntegers])
  rw [hz, hz', hsame]

section

variable {α : Type} [Add α] [Sub α] [Mul α] [Div α] [Neg α] [LT α] [OfNat α 0] [OfNat α 1]
  {bits : Nat} {value : α → Int} {least : α}

/-- Words of `bits` bits, read as signed integers. -/
structure Signed (bits : Nat) (value : α → Int) (least : α) : Prop where
  injective : Function.Injective value
  wrapped : ∀ x, (value x).bmod (2 ^ bits) = value x
  lt_iff : ∀ x y, x < y ↔ value x < value y
  zero : value 0 = 0
  minusOne : value (-1) = -1
  least : value least = -2 ^ (bits - 1)
  add : ∀ x y, value (x + y) = (value x + value y).bmod (2 ^ bits)
  sub : ∀ x y, value (x - y) = (value x - value y).bmod (2 ^ bits)
  mul : ∀ x y, value (x * y) = (value x * value y).bmod (2 ^ bits)
  div : ∀ x y, value (x / y) = ((value x).tdiv (value y)).bmod (2 ^ bits)
  neg : ∀ x, value (-x) = (-value x).bmod (2 ^ bits)

namespace Signed

theorem larger [DecidableLT α] (h : Signed bits value least) (x y : α) :
    value (if x < y then y else x) = max (value x) (value y) := by
  rw [apply_ite value]
  simp only [h.lt_iff]
  omega

theorem smaller [DecidableLT α] (h : Signed bits value least) (x y : α) :
    value (if y < x then y else x) = min (value x) (value y) := by
  rw [apply_ite value]
  simp only [h.lt_iff]
  omega

/-- The sign is turned around where it is negative. -/
theorem absolute [DecidableLT α] (h : Signed bits value least) (x : α) :
    value (if x < 0 then -x else x) = ((value x).natAbs : Int).bmod (2 ^ bits) := by
  by_cases hlt : x < 0
  · have habs : ((value x).natAbs : Int) = -value x := by
      rw [h.lt_iff, h.zero] at hlt
      omega
    rw [if_pos hlt, habs, h.neg]
  · have habs : ((value x).natAbs : Int) = value x := by
      rw [h.lt_iff, h.zero] at hlt
      omega
    rw [if_neg hlt, habs, h.wrapped]

theorem noQuotient_iff (h : Signed bits value least) (x y : α) :
    BinaryOp.div.NoQuotient bits (value x) (value y) ↔ y = 0 ∨ (x = least ∧ y = -1) := by
  rw [BinaryOp.NoQuotient, ← h.zero, ← h.minusOne, ← h.least, h.injective.eq_iff,
    h.injective.eq_iff, h.injective.eq_iff]
  exact and_iff_right rfl

theorem realizes [DecidableLT α] [DecidableEq α] (h : Signed bits value least) :
    (words least).Realizes bits value where
  injective := h.injective
  defined op x y hquotient := by
    cases op with
    | add => exact ⟨_, rfl, h.add x y⟩
    | sub => exact ⟨_, rfl, h.sub x y⟩
    | mul => exact ⟨_, rfl, h.mul x y⟩
    | div =>
      have hsome : (words least).div? x y = some (x / y) :=
        if_neg (mt (h.noQuotient_iff x y).mpr hquotient)
      exact ⟨x / y, by rw [BinaryOp.apply, hsome], h.div x y⟩
    | maximum => exact ⟨_, rfl, h.larger x y⟩
    | minimum => exact ⟨_, rfl, h.smaller x y⟩
  undefined op x y hquotient := by
    obtain rfl := hquotient.1
    have hnone : (words least).div? x y = none := if_pos ((h.noQuotient_iff x y).mp hquotient)
    rw [BinaryOp.apply, hnone]
  unary op x := by
    cases op with
    | neg => exact h.neg x
    | abs => exact h.absolute x

end Signed

end

theorem signed_int32 : Signed 32 Int32.toInt Int32.minValue where
  injective _ _ := Int32.toInt_inj.mp
  wrapped := Int32.toInt_bmod
  lt_iff _ _ := Int32.lt_iff_toInt_lt
  zero := rfl
  minusOne := rfl
  least := rfl
  add := Int32.toInt_add
  sub := Int32.toInt_sub
  mul := Int32.toInt_mul
  div := Int32.toInt_div
  neg := Int32.toInt_neg

theorem signed_int64 : Signed 64 Int64.toInt Int64.minValue where
  injective _ _ := Int64.toInt_inj.mp
  wrapped := Int64.toInt_bmod
  lt_iff _ _ := Int64.lt_iff_toInt_lt
  zero := rfl
  minusOne := rfl
  least := rfl
  add := Int64.toInt_add
  sub := Int64.toInt_sub
  mul := Int64.toInt_mul
  div := Int64.toInt_div
  neg := Int64.toInt_neg

theorem realizes_int32 : int32.Realizes 32 Int32.toInt := signed_int32.realizes

theorem realizes_int64 : int64.Realizes 64 Int64.toInt := signed_int64.realizes

end Arithmetic

end GraphFusion
