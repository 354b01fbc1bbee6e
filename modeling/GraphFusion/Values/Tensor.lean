import GraphFusion.Numeric.Binary
import GraphFusion.Types.Basic

/-!
Dense tensors: extents and row-major elements. `Tensor.ofData` refuses elements
that are not as many as the extents multiply to in a machine word; records read
from storage may break that rule, so the type does not carry it and
`Tensor.Sized` says it. The product wraps around, as it does where arithmetic is
not checked for overflow, so a sized tensor is `Tensor.Filled` only as long as
the product fits the word.
-/

namespace GraphFusion

/-- Elements of a tensor, all of one element type. -/
inductive TensorData where
  | bool (values : List Bool)
  | int32 (values : List Int32)
  | int64 (values : List Int64)
  | float32 (values : List Binary32)
  | float64 (values : List Binary64)
  deriving DecidableEq, Inhabited

namespace TensorData

def dtype : TensorData → DType
  | bool _ => .bool
  | int32 _ => .int32
  | int64 _ => .int64
  | float32 _ => .float32
  | float64 _ => .float64

def length : TensorData → Nat
  | bool values => values.length
  | int32 values => values.length
  | int64 values => values.length
  | float32 values => values.length
  | float64 values => values.length

/-- `length` copies of zero, or of false. -/
def zeros (d : DType) (length : Nat) : TensorData :=
  match d with
  | .bool => bool (.replicate length false)
  | .int32 => int32 (.replicate length 0)
  | .int64 => int64 (.replicate length 0)
  | .float32 => float32 (.replicate length .zero)
  | .float64 => float64 (.replicate length .zero)

/-- Element by element, floats by value. -/
def numericEq : TensorData → TensorData → Bool
  | bool a, bool b => a == b
  | int32 a, int32 b => a == b
  | int64 a, int64 b => a == b
  | float32 a, float32 b => a.length == b.length && (a.zip b).all fun (x, y) => x.numericEq y
  | float64 a, float64 b => a.length == b.length && (a.zip b).all fun (x, y) => x.numericEq y
  | _, _ => false

end TensorData

/-- The elements do not fill the extents. -/
structure TensorError where
  length : Nat
  shape : List Nat
  deriving DecidableEq, Inhabited

namespace TensorError

def message (e : TensorError) : String :=
  s!"tensor data length ({e.length}) does not match shape [" ++
    ", ".intercalate (e.shape.map toString) ++ "]"

end TensorError

structure Tensor where
  shape : List Nat
  data : TensorData
  deriving DecidableEq, Inhabited

namespace Tensor

/-- Number of elements that fill the given extents. -/
def volume (shape : List Nat) : Nat := shape.foldr (· * ·) 1

/-- There are as many elements as the extents multiply to. -/
def Filled (t : Tensor) : Prop := t.data.length = volume t.shape

instance (t : Tensor) : Decidable t.Filled := inferInstanceAs (Decidable (_ = _))

/-- What a product of machine words gives for the volume: the part above 64 bits
is lost. -/
def capacity (shape : List Nat) : Nat := volume shape % UInt64.size

/-- There are as many elements as the machine computes from the extents. A filled
tensor whose elements a word can count is sized. -/
def Sized (t : Tensor) : Prop := t.data.length = capacity t.shape

instance (t : Tensor) : Decidable t.Sized := inferInstanceAs (Decidable (_ = _))

def ofData (shape : List Nat) (data : TensorData) : Except TensorError Tensor :=
  if data.length = capacity shape then .ok ⟨shape, data⟩ else .error ⟨data.length, shape⟩

def scalar (data : TensorData) : Except TensorError Tensor := ofData [] data

def zeros (d : DType) (shape : List Nat) : Tensor := ⟨shape, .zeros d (capacity shape)⟩

def dtype (t : Tensor) : DType := t.data.dtype

def elementCount (t : Tensor) : Nat := t.data.length

def type (t : Tensor) : TensorType := ⟨t.dtype, .ofExtents t.shape⟩

/-- The element type agrees and the extents fit the shape. -/
def conformsTo (t : Tensor) (type : TensorType) : Bool :=
  t.dtype == type.dtype && type.shape.admits t.shape

def int32Scalar? (t : Tensor) : Option Int32 :=
  match t.data with
  | .int32 values => if t.shape.isEmpty then values.head? else none
  | _ => none

def float32Scalar? (t : Tensor) : Option Binary32 :=
  match t.data with
  | .float32 values => if t.shape.isEmpty then values.head? else none
  | _ => none

def boolScalar? (t : Tensor) : Option Bool :=
  match t.data with
  | .bool values => if t.shape.isEmpty then values.head? else none
  | _ => none

def numericEq (s t : Tensor) : Bool := s.shape == t.shape && s.data.numericEq t.data

end Tensor

end GraphFusion
