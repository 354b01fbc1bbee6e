import GraphFusion.Graph.Error
import GraphFusion.Values.Basic

/-!
Elementwise arithmetic on tensors. Integers wrap around; division has no
quotient by zero and none that overflows. Operands are paired element by
element, and an operand with a single element is paired with every element of
the other.
-/

namespace GraphFusion

/-- What goes wrong while a graph runs. -/
inductive ExecutionFault where
  | argumentRequired (type : Ty)
  | argumentRefused
  | operandMissing (id : ValueId)
  | resultMissing (id : ValueId)
  | parameterWithoutArgument
  | selectOutOfRange (index : Nat)
  | packArity (expected found : Nat)
  | binaryArity
  | arity (op : String) (found : Nat)
  | structOperand
  | incompatibleLengths (lhs rhs : Nat)
  | divisionByZero
  | mismatchedDTypes (op : BinaryOp) (lhs rhs : DType)
  | malformedTensor (error : TensorError)
  | unreadableGraph (error : GraphError)
  deriving DecidableEq, Inhabited

namespace ExecutionFault

def message : ExecutionFault → String
  | argumentRequired type => "graph requires an argument of type " ++ type.text
  | argumentRefused => "graph takes no argument"
  | operandMissing id => "value " ++ id.text ++ " has not been computed"
  | resultMissing id => "result " ++ id.text ++ " was not computed"
  | parameterWithoutArgument => "parameter read in a no-arg graph"
  | selectOutOfRange index => s!"select index {index} out of range"
  | packArity expected found => s!"pack expects {expected} operands, got {found}"
  | binaryArity => "elementwise binary expects two operands"
  | arity op found => s!"{op} expects one operand, got {found}"
  | structOperand => "expected a tensor operand, found a struct"
  | incompatibleLengths lhs rhs =>
    s!"elementwise operands have incompatible lengths {lhs} and {rhs}"
  | divisionByZero => "integer division by zero"
  | mismatchedDTypes op lhs rhs =>
    "elementwise " ++ op.name ++ " on mismatched dtypes " ++ lhs.name ++ " and " ++ rhs.name
  | malformedTensor error => error.message
  | unreadableGraph error => error.message

end ExecutionFault

inductive ExecutionError where
  | argumentMismatch (expected found : Ty)
  | unimplemented (op reason : String)
  | fault (cause : ExecutionFault)
  deriving DecidableEq, Inhabited

namespace ExecutionError

def message : ExecutionError → String
  | argumentMismatch expected found =>
    "argument of type " ++ found.text ++ " does not conform to " ++ expected.text
  | unimplemented op reason => op ++ " is not implemented: " ++ reason
  | fault cause => "execution error: " ++ cause.message

end ExecutionError

/-- Arithmetic on the elements of one type. -/
structure Arithmetic (α : Type) where
  add : α → α → α
  sub : α → α → α
  mul : α → α → α
  /-- Nothing where there is no quotient. -/
  div? : α → α → Option α
  maximum : α → α → α
  minimum : α → α → α
  neg : α → α
  abs : α → α

namespace Arithmetic

/-- Signed machine words, of which `least` is the least. -/
def words {α : Type} [Add α] [Sub α] [Mul α] [Div α] [Neg α] [LT α] [DecidableLT α]
    [DecidableEq α] [OfNat α 0] [OfNat α 1] (least : α) : Arithmetic α where
  add x y := x + y
  sub x y := x - y
  mul x y := x * y
  div? x y := if y = 0 ∨ (x = least ∧ y = -1) then none else some (x / y)
  maximum x y := if x < y then y else x
  minimum x y := if y < x then y else x
  neg x := -x
  abs x := if x < 0 then -x else x

def int32 : Arithmetic Int32 := words Int32.minValue

def int64 : Arithmetic Int64 := words Int64.minValue

def float32 : Arithmetic Binary32 where
  add := Binary32.add
  sub := Binary32.sub
  mul := Binary32.mul
  div? x y := some (x.div y)
  maximum := Binary32.max
  minimum := Binary32.min
  neg := Binary32.neg
  abs := Binary32.abs

def float64 : Arithmetic Binary64 where
  add := Binary64.add
  sub := Binary64.sub
  mul := Binary64.mul
  div? x y := some (x.div y)
  maximum := Binary64.max
  minimum := Binary64.min
  neg := Binary64.neg
  abs := Binary64.abs

end Arithmetic

def BinaryOp.apply {α : Type} (op : BinaryOp) (arithmetic : Arithmetic α) (x y : α) :
    Except ExecutionError α :=
  match op with
  | add => .ok (arithmetic.add x y)
  | sub => .ok (arithmetic.sub x y)
  | mul => .ok (arithmetic.mul x y)
  | div =>
    match arithmetic.div? x y with
    | some quotient => .ok quotient
    | none => .error (.fault .divisionByZero)
  | maximum => .ok (arithmetic.maximum x y)
  | minimum => .ok (arithmetic.minimum x y)

def UnaryOp.apply {α : Type} (op : UnaryOp) (arithmetic : Arithmetic α) (x : α) : α :=
  match op with
  | neg => arithmetic.neg x
  | abs => arithmetic.abs x

/-- Applies `f` to paired elements; a single element is paired with all of the
other side. -/
def pairwise {α : Type} (f : α → α → Except ExecutionError α) (lhs rhs : List α) :
    Except ExecutionError (List α) :=
  if lhs.length = rhs.length then (lhs.zip rhs).mapM fun (x, y) => f x y
  else
    match lhs, rhs with
    | _, [y] => lhs.mapM fun x => f x y
    | [x], _ => rhs.mapM fun y => f x y
    | _, _ => .error (.fault (.incompatibleLengths lhs.length rhs.length))

namespace TensorData

def binary (op : BinaryOp) : TensorData → TensorData → Except ExecutionError TensorData
  | int32 a, int32 b => (pairwise (op.apply .int32) a b).map int32
  | int64 a, int64 b => (pairwise (op.apply .int64) a b).map int64
  | float32 a, float32 b => (pairwise (op.apply .float32) a b).map float32
  | float64 a, float64 b => (pairwise (op.apply .float64) a b).map float64
  | bool _, bool _ =>
    .error (.unimplemented "elementwise_binary" "bool operands are not supported")
  | a, b => .error (.fault (.mismatchedDTypes op a.dtype b.dtype))

def unary (op : UnaryOp) : TensorData → Except ExecutionError TensorData
  | int32 values => .ok (int32 (values.map (op.apply .int32)))
  | int64 values => .ok (int64 (values.map (op.apply .int64)))
  | float32 values => .ok (float32 (values.map (op.apply .float32)))
  | float64 values => .ok (float64 (values.map (op.apply .float64)))
  | bool _ => .error (.unimplemented "elementwise_unary" "bool operands are not supported")

/-- Every element as a double. -/
def widen : TensorData → List Binary64
  | bool values => values.map fun b => if b then .one else .zero
  | int32 values => values.map Binary64.ofInt32
  | int64 values => values.map Binary64.ofInt64
  | float32 values => values.map Binary64.ofBinary32
  | float64 values => values

/-- Conversion by way of doubles, but for an element type that stays and for
integers that grow. -/
def cast (data : TensorData) (dtype : DType) : TensorData :=
  if data.dtype = dtype then data
  else
    match dtype, data with
    | .bool, data => bool (data.widen.map Binary64.isNonzero)
    | .int32, data => int32 (data.widen.map Binary64.toInt32)
    | .int64, int32 values => int64 (values.map Int32.toInt64)
    | .int64, data => int64 (data.widen.map Binary64.toInt64)
    | .float32, data => float32 (data.widen.map Binary64.toBinary32)
    | .float64, data => float64 data.widen

end TensorData

namespace Tensor

/-- A tensor that an operation returns. -/
def checked (shape : List Nat) (data : TensorData) : Except ExecutionError Tensor :=
  (ofData shape data).mapError fun e => .fault (.malformedTensor e)

/-- The result has the extents of the left operand unless that one is a scalar. -/
def binary (op : BinaryOp) (lhs rhs : Tensor) : Except ExecutionError Tensor := do
  let data ← lhs.data.binary op rhs.data
  checked (if lhs.shape.isEmpty then rhs.shape else lhs.shape) data

def unary (op : UnaryOp) (input : Tensor) : Except ExecutionError Tensor := do
  let data ← input.data.unary op
  checked input.shape data

def cast (input : Tensor) (dtype : DType) : Except ExecutionError Tensor :=
  if input.dtype = dtype then .ok input else checked input.shape (input.data.cast dtype)

end Tensor

end GraphFusion
