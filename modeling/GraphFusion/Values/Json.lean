import GraphFusion.Json.Decode
import GraphFusion.Values.Tensor

/-!
Tensors as JSON: extents, and the elements under the name of their type.
Reading does not compare the elements with the extents.
-/

namespace GraphFusion

namespace TensorData

def toJson : TensorData → Json
  | bool values => .tagged "Bool" (.ofList .bool values)
  | int32 values => .tagged "I32" (.ofList (fun n => .ofInt n.toInt) values)
  | int64 values => .tagged "I64" (.ofList (fun n => .ofInt n.toInt) values)
  | float32 values => .tagged "F32" (.ofList .ofBinary32 values)
  | float64 values => .tagged "F64" (.ofList .ofBinary64 values)

def ofJson? (j : Json) : Option TensorData :=
  match j.alternative? with
  | some ("Bool", some content) => (content.list? Json.bool?).map bool
  | some ("I32", some content) => (content.list? Json.int32?).map int32
  | some ("I64", some content) => (content.list? Json.int64?).map int64
  | some ("F32", some content) => (content.list? Json.binary32?).map float32
  | some ("F64", some content) => (content.list? Json.binary64?).map float64
  | _ => none

end TensorData

namespace Tensor

def toJson (t : Tensor) : Json :=
  .record [("shape", .ofList .ofNat t.shape), ("data", t.data.toJson)]

def ofJson? (j : Json) : Option Tensor := do
  match ← j.fields? ["shape", "data"] with
  | [shape, data] =>
    return ⟨← shape.required? (Json.list? Json.word64?), ← data.required? TensorData.ofJson?⟩
  | _ => none

end Tensor

end GraphFusion
