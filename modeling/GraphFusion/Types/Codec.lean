import GraphFusion.Types.Basic
import GraphFusion.Bytes.Reader

/-!
Stored form of types. Each node is a four-byte tag and its parts; a reader is
allowed one level of nesting per remaining byte, more than any input can use.
-/

namespace GraphFusion

namespace DType

def write (d : DType) : List UInt8 := Bytes.word32 d.tag

def read : Reader DType := do
  match ofTag? (← Reader.word32) with
  | some d => return d
  | none => failure

end DType

namespace Dimension

def write : Dimension → List UInt8
  | fixed extent => Bytes.word32 0 ++ Bytes.word64 extent
  | dynamic => Bytes.word32 1

def read : Reader Dimension := do
  match ← Reader.word32 with
  | 0 => return .fixed (← Reader.word64)
  | 1 => return .dynamic
  | _ => failure

end Dimension

namespace Shape

def write (s : Shape) : List UInt8 := Bytes.list Dimension.write s.dims

def read : Reader Shape := do
  return ⟨← Reader.list Dimension.read⟩

end Shape

namespace TensorType

def write (t : TensorType) : List UInt8 := t.dtype.write ++ t.shape.write

def read : Reader TensorType := do
  let dtype ← DType.read
  let shape ← Shape.read
  return ⟨dtype, shape⟩

end TensorType

namespace Ty

mutual

def write : Ty → List UInt8
  | .tensor t => Bytes.word32 0 ++ t.write
  | .struct es => Bytes.word32 1 ++ Bytes.word64 es.length ++ writeElements es
  | .function none r => Bytes.word32 2 ++ Bytes.flag false ++ write r
  | .function (some p) r => Bytes.word32 2 ++ Bytes.flag true ++ write p ++ write r

def writeElements : List (Label × Ty) → List UInt8
  | [] => []
  | (n, t) :: es => Bytes.option Bytes.text n ++ write t ++ writeElements es

end

/-- Reads a type nested at most `depth` levels deep. -/
def readWithin : Nat → Reader Ty
  | 0 => failure
  | depth + 1 => do
    match ← Reader.word32 with
    | 0 => return .tensor (← TensorType.read)
    | 1 =>
      let element : Reader (Label × Ty) := do
        let label ← Reader.option Reader.text
        let type ← readWithin depth
        return (label, type)
      return .struct (← Reader.list element)
    | 2 =>
      let parameter ← Reader.option (readWithin depth)
      let result ← readWithin depth
      return .function parameter result
    | _ => failure

def read : Reader Ty := fun bytes => readWithin (bytes.length + 1) bytes

end Ty

end GraphFusion
