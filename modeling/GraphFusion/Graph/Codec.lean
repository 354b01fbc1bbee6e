import GraphFusion.Graph.Verify
import GraphFusion.Hash.Blake3
import GraphFusion.Values.Codec

/-!
Stored form of graphs. Any record can be written; reading accepts only the
current version of the format and well-formed graphs. A graph is named by the
first digits of the hash of its stored form.
-/

namespace GraphFusion

namespace BinaryOp

def tag : BinaryOp → Nat
  | add => 0
  | sub => 1
  | mul => 2
  | div => 3
  | maximum => 4
  | minimum => 5

def write (op : BinaryOp) : List UInt8 := Bytes.word32 op.tag

def read : Reader BinaryOp := do
  match all[← Reader.word32]? with
  | some op => return op
  | none => failure

end BinaryOp

namespace UnaryOp

def tag : UnaryOp → Nat
  | neg => 0
  | abs => 1

def write (op : UnaryOp) : List UInt8 := Bytes.word32 op.tag

def read : Reader UnaryOp := do
  match all[← Reader.word32]? with
  | some op => return op
  | none => failure

end UnaryOp

namespace Operation

def write : Operation → List UInt8
  | parameter => Bytes.word32 0
  | constant tensor => Bytes.word32 1 ++ tensor.write
  | select index => Bytes.word32 2 ++ Bytes.word64 index
  | pack labels => Bytes.word32 3 ++ Bytes.list (Bytes.option Bytes.text) labels
  | binary op => Bytes.word32 4 ++ op.write
  | unary op => Bytes.word32 5 ++ op.write
  | cast dtype => Bytes.word32 6 ++ dtype.write

def read : Reader Operation := do
  match ← Reader.word32 with
  | 0 => return .parameter
  | 1 => return .constant (← Tensor.read)
  | 2 => return .select (← Reader.word64)
  | 3 => return .pack (← Reader.list (Reader.option Reader.text))
  | 4 => return .binary (← BinaryOp.read)
  | 5 => return .unary (← UnaryOp.read)
  | 6 => return .cast (← DType.read)
  | _ => failure

end Operation

namespace Instruction

def write (i : Instruction) : List UInt8 :=
  Bytes.word32 i.id ++ i.op.write ++ Bytes.list Bytes.word32 i.operands ++ i.output.write

def read : Reader Instruction := do
  let id ← Reader.word32
  let op ← Operation.read
  let operands ← Reader.list Reader.word32
  let output ← Ty.read
  return ⟨id, op, operands, output⟩

end Instruction

namespace Graph

def write (g : Graph) : List UInt8 :=
  Bytes.text g.formatVersion ++ Bytes.option Ty.write g.parameter ++ g.result.write ++
    Bytes.list Instruction.write g.body ++ Bytes.word32 g.resultId

def read : Reader Graph := do
  let formatVersion ← Reader.text
  let parameter ← Reader.option Ty.read
  let result ← Ty.read
  let body ← Reader.list Instruction.read
  let resultId ← Reader.word32
  return ⟨formatVersion, parameter, result, body, resultId⟩

/-- The graph stored at the front of `bytes`. -/
def ofBytes (bytes : List UInt8) : Except GraphError Graph :=
  match Reader.front? read bytes with
  | none => .error .undecodableBytes
  | some g => g.accept

/-- Eight hexadecimal digits that name a graph by its stored form. -/
def fingerprint (g : Graph) : String := Bytes.hex ((Blake3.digest g.write).take 4)

/-- Size and fingerprint of the stored form. -/
def storedText (g : Graph) : String :=
  s!"GraphProto({g.write.length} bytes, #{g.fingerprint})"

end Graph

end GraphFusion
