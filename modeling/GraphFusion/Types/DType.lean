/-!
The scalar element types of tensors, with their storage tags and printed names.
-/

namespace GraphFusion

/-- Element type of a tensor. -/
inductive DType where
  | bool
  | int32
  | int64
  | float32
  | float64
  deriving DecidableEq, Repr, Inhabited

namespace DType

def all : List DType := [bool, int32, int64, float32, float64]

/-- Bytes one element takes in a stored payload. -/
def sizeInBytes : DType → Nat
  | bool => 1
  | int32 | float32 => 4
  | int64 | float64 => 8

def isFloat : DType → Bool
  | float32 | float64 => true
  | _ => false

def isInteger : DType → Bool
  | int32 | int64 => true
  | _ => false

/-- The number that stands for the type in stored data. -/
def tag : DType → Nat
  | bool => 0
  | int32 => 1
  | int64 => 2
  | float32 => 3
  | float64 => 4

def ofTag? : Nat → Option DType
  | 0 => some bool
  | 1 => some int32
  | 2 => some int64
  | 3 => some float32
  | 4 => some float64
  | _ => none

def name : DType → String
  | bool => "bool"
  | int32 => "int32"
  | int64 => "int64"
  | float32 => "float32"
  | float64 => "float64"

def ofName? (text : String) : Option DType :=
  all.find? (·.name == text)

theorem ofTag?_tag (d : DType) : ofTag? d.tag = some d := by
  cases d <;> rfl

theorem tag_of_ofTag? {n : Nat} {d : DType} (h : ofTag? n = some d) : d.tag = n := by
  unfold ofTag? at h
  split at h <;> cases h <;> rfl

theorem tag_lt (d : DType) : d.tag < 5 := by
  cases d <;> decide

end DType

end GraphFusion
