import GraphFusion.Json.Decode
import GraphFusion.Types.Basic

/-!
Types as JSON: records by field name, alternatives under their names, labels as
strings or null.
-/

namespace GraphFusion

namespace DType

/-- Name of the element type in JSON. -/
def jsonName : DType → String
  | bool => "Bool"
  | int32 => "I32"
  | int64 => "I64"
  | float32 => "F32"
  | float64 => "F64"

def ofJsonName? (name : String) : Option DType := all.find? (·.jsonName == name)

def toJson (d : DType) : Json := .ofString d.jsonName

def ofJson? : Json → Option DType := Json.constant? ofJsonName?

end DType

namespace Dimension

def toJson : Dimension → Json
  | fixed extent => .tagged "Static" (.ofNat extent)
  | dynamic => .ofString "Dynamic"

def ofJson? (j : Json) : Option Dimension :=
  match j.alternative? with
  | some ("Static", some extent) => extent.word64?.map fixed
  | some ("Dynamic", none) => some dynamic
  | some ("Dynamic", some .null) => some dynamic
  | _ => none

end Dimension

namespace Shape

def toJson (s : Shape) : Json := .record [("dims", .ofList Dimension.toJson s.dims)]

def ofJson? (j : Json) : Option Shape := do
  match ← j.fields? ["dims"] with
  | [dims] => return ⟨← dims.required? (Json.list? Dimension.ofJson?)⟩
  | _ => none

end Shape

namespace TensorType

def toJson (t : TensorType) : Json :=
  .record [("dtype", t.dtype.toJson), ("shape", t.shape.toJson)]

def ofJson? (j : Json) : Option TensorType := do
  match ← j.fields? ["dtype", "shape"] with
  | [dtype, shape] => return ⟨← dtype.required? DType.ofJson?, ← shape.required? Shape.ofJson?⟩
  | _ => none

end TensorType

namespace Label

def toJson : Label → Json := Json.ofOption .ofString

def ofJson? : Json → Option Label := Json.option? Json.text?

end Label

namespace Ty

mutual

def toJson : Ty → Json
  | .tensor t => .tagged "Tensor" t.toJson
  | .struct es => .tagged "Struct" (.record [("elements", .array (elementsToJson es))])
  | .function none r => .tagged "Function" (.record [("parameter", .null), ("result", toJson r)])
  | .function (some p) r =>
    .tagged "Function" (.record [("parameter", toJson p), ("result", toJson r)])

def elementsToJson : List (Label × Ty) → List Json
  | [] => []
  | (n, t) :: es => .array [n.toJson, toJson t] :: elementsToJson es

end

/-- Reads a type from a value nested at most `depth` levels deep. -/
def ofJsonWithin? : Nat → Json → Option Ty
  | 0, _ => none
  | depth + 1, j =>
    match j.alternative? with
    | some ("Tensor", some content) => (TensorType.ofJson? content).map .tensor
    | some ("Struct", some content) => do
      match ← content.fields? ["elements"] with
      | [elements] =>
        let element := Json.pair? Label.ofJson? (ofJsonWithin? depth)
        return .struct (← elements.required? (Json.list? element))
      | _ => none
    | some ("Function", some content) => do
      match ← content.fields? ["parameter", "result"] with
      | [parameter, result] =>
        return .function (← parameter.optional? (ofJsonWithin? depth))
          (← result.required? (ofJsonWithin? depth))
      | _ => none
    | _ => none

def ofJson? (j : Json) : Option Ty := ofJsonWithin? j.depth j

end Ty

end GraphFusion
