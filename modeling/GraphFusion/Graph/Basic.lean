import GraphFusion.Values.Tensor

/-!
Straight-line graphs: an optional parameter, a list of instructions that each
define one value from earlier ones, and the value returned. Ids, extents and
element positions are unbounded here; stored forms bound them. Values are counted
in words of 32 bits, and graphs that emit 2^32 or more of them are outside this
model.
-/

namespace GraphFusion

/-- Number of a value in a graph, below 2^32 in every graph that is meant here. -/
abbrev ValueId := Nat

namespace ValueId

def text (id : ValueId) : String := "%" ++ toString id

end ValueId

inductive BinaryOp where
  | add
  | sub
  | mul
  | div
  | maximum
  | minimum
  deriving DecidableEq, Repr, Inhabited

namespace BinaryOp

def all : List BinaryOp := [add, sub, mul, div, maximum, minimum]

def name : BinaryOp → String
  | add => "Add"
  | sub => "Sub"
  | mul => "Mul"
  | div => "Div"
  | maximum => "Maximum"
  | minimum => "Minimum"

def ofName? (text : String) : Option BinaryOp := all.find? (·.name == text)

end BinaryOp

inductive UnaryOp where
  | neg
  | abs
  deriving DecidableEq, Repr, Inhabited

namespace UnaryOp

def all : List UnaryOp := [neg, abs]

def name : UnaryOp → String
  | neg => "Neg"
  | abs => "Abs"

def ofName? (text : String) : Option UnaryOp := all.find? (·.name == text)

end UnaryOp

inductive Operation where
  /-- The argument of the graph. -/
  | parameter
  | constant (tensor : Tensor)
  /-- One element of a struct. -/
  | select (index : Nat)
  /-- A struct of the operands, one element each. -/
  | pack (labels : List Label)
  | binary (op : BinaryOp)
  | unary (op : UnaryOp)
  | cast (dtype : DType)
  deriving DecidableEq, Inhabited

namespace Operation

/-- Name of the operation without its details. -/
def kind : Operation → String
  | parameter => "Parameter"
  | constant _ => "Constant"
  | select _ => "Select"
  | pack _ => "Pack"
  | binary _ => "Binary"
  | unary _ => "Unary"
  | cast _ => "Cast"

def text : Operation → String
  | parameter => "Parameter"
  | constant tensor => "Constant<" ++ tensor.type.text ++ ">"
  | select index => s!"Select[{index}]"
  | pack _ => "Pack"
  | binary op => op.name
  | unary op => op.name
  | cast dtype => "Cast<" ++ dtype.name ++ ">"

/-- Floats inside constants are compared by value. -/
def numericEq : Operation → Operation → Bool
  | constant s, constant t => s.numericEq t
  | o, p => o == p

end Operation

structure Instruction where
  id : ValueId
  op : Operation
  operands : List ValueId
  output : Ty
  deriving DecidableEq, Inhabited

namespace Instruction

def text (i : Instruction) : String :=
  i.id.text ++ " = " ++ i.op.text ++ "(" ++ ", ".intercalate (i.operands.map ValueId.text) ++
    ") : " ++ i.output.text

def numericEq (i j : Instruction) : Bool :=
  i.id == j.id && i.op.numericEq j.op && i.operands == j.operands && i.output == j.output

end Instruction

structure Graph where
  formatVersion : String
  parameter : Option Ty
  result : Ty
  body : List Instruction
  resultId : ValueId
  deriving DecidableEq, Inhabited

namespace Graph

/-- The one version of the format that stored graphs may have. -/
def currentVersion : String := "fedgraph.v1"

/-- The function type a graph implements. -/
def type (g : Graph) : Ty := .function g.parameter g.result

/-- Id of the first instruction that reads the argument. -/
def parameterId? (g : Graph) : Option ValueId :=
  (g.body.find? (·.op == .parameter)).map (·.id)

/-- Signature, one line per instruction and the returned value. -/
def text (g : Graph) : String :=
  let head := "graph (" ++ (g.parameter.map Ty.text).getD "" ++ ") -> " ++ g.result.text ++ " \x7b\n"
  let lines := g.body.map fun i => "  " ++ i.text ++ "\n"
  head ++ String.join lines ++ "  return " ++ g.resultId.text ++ "\n\x7d"

/-- Equality that compares floats inside constants by value. -/
def numericEq (g h : Graph) : Bool :=
  g.formatVersion == h.formatVersion && g.parameter == h.parameter && g.result == h.result &&
    g.body.length == h.body.length && (g.body.zip h.body).all (fun (i, j) => i.numericEq j) &&
    g.resultId == h.resultId

end Graph

end GraphFusion
