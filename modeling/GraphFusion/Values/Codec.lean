import GraphFusion.Types.Codec
import GraphFusion.Values.Basic

/-!
Stored form of tensors and values, and the envelope that carries a value alone:
eight magic bytes, a four-byte version and the payload. Reading a tensor does
not compare its elements with its extents.
-/

namespace GraphFusion

namespace Binary32

def write (x : Binary32) : List UInt8 := Bytes.word32 x.bits.toNat

def read : Reader Binary32 := do
  return ⟨UInt32.ofNat (← Reader.word32)⟩

end Binary32

namespace Binary64

def write (x : Binary64) : List UInt8 := Bytes.word64 x.bits.toNat

def read : Reader Binary64 := do
  return ⟨UInt64.ofNat (← Reader.word64)⟩

end Binary64

namespace Bytes

def int32 (n : Int32) : List UInt8 := word32 n.toUInt32.toNat

def int64 (n : Int64) : List UInt8 := word64 n.toUInt64.toNat

end Bytes

namespace Reader

def int32 : Reader Int32 := do
  return (UInt32.ofNat (← word32)).toInt32

def int64 : Reader Int64 := do
  return (UInt64.ofNat (← word64)).toInt64

end Reader

namespace TensorData

def write : TensorData → List UInt8
  | bool values => Bytes.word32 0 ++ Bytes.list Bytes.flag values
  | int32 values => Bytes.word32 1 ++ Bytes.list Bytes.int32 values
  | int64 values => Bytes.word32 2 ++ Bytes.list Bytes.int64 values
  | float32 values => Bytes.word32 3 ++ Bytes.list Binary32.write values
  | float64 values => Bytes.word32 4 ++ Bytes.list Binary64.write values

def read : Reader TensorData := do
  match ← Reader.word32 with
  | 0 => return .bool (← Reader.list Reader.flag)
  | 1 => return .int32 (← Reader.list Reader.int32)
  | 2 => return .int64 (← Reader.list Reader.int64)
  | 3 => return .float32 (← Reader.list Binary32.read)
  | 4 => return .float64 (← Reader.list Binary64.read)
  | _ => failure

end TensorData

namespace Tensor

def write (t : Tensor) : List UInt8 := Bytes.list Bytes.word64 t.shape ++ t.data.write

def read : Reader Tensor := do
  let shape ← Reader.list Reader.word64
  let data ← TensorData.read
  return ⟨shape, data⟩

end Tensor

/-- Why bytes are not an enveloped value. -/
inductive EnvelopeError where
  | badMagic
  | unsupportedVersion (version : Nat)
  | undecodable
  deriving DecidableEq, Inhabited

namespace EnvelopeError

/-- Text of an error; none is fixed for a payload that does not decode. -/
def message? : EnvelopeError → Option String
  | badMagic => some "invalid value magic header"
  | unsupportedVersion version => some s!"unsupported value encoding version {version}"
  | undecodable => none

end EnvelopeError

namespace Value

mutual

def write : Value → List UInt8
  | .tensor t => Bytes.word32 0 ++ t.write
  | .struct es => Bytes.word32 1 ++ Bytes.word64 es.length ++ writeElements es

def writeElements : List (Label × Value) → List UInt8
  | [] => []
  | (n, v) :: es => Bytes.option Bytes.text n ++ write v ++ writeElements es

end

/-- Reads a value nested at most `depth` levels deep. -/
def readWithin : Nat → Reader Value
  | 0 => failure
  | depth + 1 => do
    match ← Reader.word32 with
    | 0 => return .tensor (← Tensor.read)
    | 1 =>
      let element : Reader (Label × Value) := do
        let label ← Reader.option Reader.text
        let value ← readWithin depth
        return (label, value)
      return .struct (← Reader.list element)
    | _ => failure

def read : Reader Value := fun bytes => readWithin (bytes.length + 1) bytes

/-- The letters FEDRSVAL. -/
def envelopeMagic : List UInt8 := [70, 69, 68, 82, 83, 86, 65, 76]

def envelopeVersion : Nat := 1

def serialize (v : Value) : List UInt8 :=
  envelopeMagic ++ Bytes.word32 envelopeVersion ++ v.write

def deserialize (bytes : List UInt8) : Except EnvelopeError Value :=
  let (magic, rest) := bytes.splitAt 8
  if magic ≠ envelopeMagic then .error .badMagic
  else
    match Reader.word32 rest with
    | none => .error .badMagic
    | some (version, payload) =>
      if version ≠ envelopeVersion then .error (.unsupportedVersion version)
      else
        match Reader.front? Value.read payload with
        | none => .error .undecodable
        | some v => .ok v

end Value

end GraphFusion
