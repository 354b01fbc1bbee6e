import GraphFusion.Graph.Verify
import GraphFusion.Json.Printer
import GraphFusion.Types.Json
import GraphFusion.Values.Json

/-!
Graphs as JSON text. Reading takes the current format version where none is
given and accepts what the byte form accepts: that version and a well-formed
graph.
-/

namespace GraphFusion

namespace Operation

def toJson : Operation → Json
  | parameter => .ofString "Parameter"
  | constant tensor => .tagged "Constant" tensor.toJson
  | select index => .tagged "Select" (.record [("index", .ofNat index)])
  | pack labels => .tagged "Pack" (.record [("names", .ofList Label.toJson labels)])
  | binary op => .tagged "ElementwiseBinary" (.ofString op.name)
  | unary op => .tagged "ElementwiseUnary" (.ofString op.name)
  | cast dtype => .tagged "Cast" (.record [("dtype", dtype.toJson)])

/-- The one field of a record, read by `decode`. -/
def soleField? {α : Type} (name : String) (decode : Json → Option α) (j : Json) : Option α := do
  match ← j.fields? [name] with
  | [field] => field.required? decode
  | _ => none

def ofJson? (j : Json) : Option Operation :=
  match j.alternative? with
  | some ("Parameter", none) => some parameter
  | some ("Parameter", some .null) => some parameter
  | some ("Constant", some content) => (Tensor.ofJson? content).map constant
  | some ("Select", some content) => (soleField? "index" Json.word64? content).map select
  | some ("Pack", some content) => (soleField? "names" (Json.list? Label.ofJson?) content).map pack
  | some ("ElementwiseBinary", some content) => (content.constant? BinaryOp.ofName?).map binary
  | some ("ElementwiseUnary", some content) => (content.constant? UnaryOp.ofName?).map unary
  | some ("Cast", some content) => (soleField? "dtype" DType.ofJson? content).map cast
  | _ => none

end Operation

namespace Instruction

def toJson (i : Instruction) : Json :=
  .record [("id", .ofNat i.id), ("op", i.op.toJson), ("operands", .ofList .ofNat i.operands),
    ("output", i.output.toJson)]

def ofJson? (j : Json) : Option Instruction := do
  match ← j.fields? ["id", "op", "operands", "output"] with
  | [id, op, operands, output] =>
    return ⟨← id.required? Json.word32?, ← op.required? Operation.ofJson?,
      ← operands.required? (Json.list? Json.word32?), ← output.required? Ty.ofJson?⟩
  | _ => none

end Instruction

namespace Graph

def toJson (g : Graph) : Json :=
  .record [("format_version", .ofString g.formatVersion),
    ("parameter", .ofOption Ty.toJson g.parameter), ("result", g.result.toJson),
    ("body", .ofList Instruction.toJson g.body), ("result_id", .ofNat g.resultId)]

def toJsonText (g : Graph) : String := g.toJson.pretty

def ofJson? (j : Json) : Option Graph := do
  match ← j.fields? ["format_version", "parameter", "result", "body", "result_id"] with
  | [formatVersion, parameter, result, body, resultId] =>
    return ⟨← formatVersion.orDefault? currentVersion Json.text?, ← parameter.optional? Ty.ofJson?,
      ← result.required? Ty.ofJson?, ← body.required? (Json.list? Instruction.ofJson?),
      ← resultId.required? Json.word32?⟩
  | _ => none

def ofJsonText (text : String) : Except GraphError Graph :=
  match (Json.parse? text).bind ofJson? with
  | none => .error .undecodableText
  | some g => g.accept

end Graph

end GraphFusion
