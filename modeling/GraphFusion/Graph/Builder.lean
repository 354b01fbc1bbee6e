import GraphFusion.Graph.Verify

/-!
Building graphs step by step. A builder holds the instructions emitted so far,
numbered by position, and each step checks the types of its operands before it
emits. A step that fails reports its error and leaves what it had already
emitted: only inlining emits more than one instruction. Numbers go on without end
here, while a machine counts values in words of 32 bits: graphs of 2^32 or more
emitted values are outside this model.
-/

namespace GraphFusion

/-- A graph under construction; instruction `n` defines value `n`. -/
structure Builder where
  parameter : Option Ty
  body : List Instruction
  deriving DecidableEq, Inhabited

/-- A building action. Its error does not undo what it did to the builder. -/
abbrev Build (α : Type) := ExceptT GraphError (StateM Builder) α

namespace Builder

/-- The instruction that reads the argument comes first, if there is one. -/
def start (parameter : Option Ty) : Builder :=
  match parameter with
  | none => ⟨none, []⟩
  | some type => ⟨some type, [⟨0, .parameter, [], type⟩]⟩

def argument? (b : Builder) : Option ValueId := b.parameter.map fun _ => 0

def typeOf? (b : Builder) (id : ValueId) : Option Ty := (b.body[id]?).map (·.output)

def toGraph (b : Builder) (result : Ty) (resultId : ValueId) : Graph :=
  ⟨Graph.currentVersion, b.parameter, result, b.body, resultId⟩

end Builder

namespace Build

def fail {α : Type} (fault : GraphFault) : Build α := throw (.invalid fault)

def emit (op : Operation) (operands : List ValueId) (output : Ty) : Build ValueId := do
  let b ← get
  let id := b.body.length
  let instruction : Instruction := ⟨id, op, operands, output⟩
  set { b with body := b.body ++ [instruction] }
  return id

def argument? : Build (Option ValueId) := do
  return (← get).argument?

def typeOf (id : ValueId) : Build Ty := do
  match (← get).typeOf? id with
  | some type => return type
  | none => fail (.valueUndefined id)

def elementsOf (id : ValueId) : Build (List (Label × Ty)) := do
  match ← typeOf id with
  | .struct elements => return elements
  | type => fail (.expectedStruct id type)

def tensorTypeOf (id : ValueId) : Build TensorType := do
  match ← typeOf id with
  | .tensor type => return type
  | type => fail (.expectedTensor id type)

def constant (tensor : Tensor) : Build ValueId := emit (.constant tensor) [] (.tensor tensor.type)

def select (source : ValueId) (index : Nat) : Build ValueId := do
  let elements ← elementsOf source
  match elements[index]? with
  | some (_, type) => emit (.select index) [source] type
  | none => fail (.selectOutOfRange index elements.length)

/-- The labels with the types of the values they are paired with. -/
def labelledTypes : List (Label × ValueId) → Build (List (Label × Ty))
  | [] => return []
  | (label, id) :: rest => do
    let type ← typeOf id
    return (label, type) :: (← labelledTypes rest)

def pack (elements : List (Label × ValueId)) : Build ValueId := do
  let types ← labelledTypes elements
  emit (.pack (elements.map (·.1))) (elements.map (·.2)) (.struct types)

/-- Type of an elementwise operation on two tensors of one element type: shapes
agree, or one operand is a scalar. -/
def broadcastType? (lhs rhs : TensorType) : Option TensorType :=
  if lhs.dtype ≠ rhs.dtype then none
  else if lhs.shape = rhs.shape ∨ rhs.shape.rank = 0 then some lhs
  else if lhs.shape.rank = 0 then some rhs
  else none

def binary (op : BinaryOp) (lhs rhs : ValueId) : Build ValueId := do
  let lhsType ← tensorTypeOf lhs
  let rhsType ← tensorTypeOf rhs
  match broadcastType? lhsType rhsType with
  | some type => emit (.binary op) [lhs, rhs] (.tensor type)
  | none => throw (.typeMismatch .elementwiseBinary (.tensor lhsType) (.tensor rhsType))

def unary (op : UnaryOp) (input : ValueId) : Build ValueId := do
  let type ← tensorTypeOf input
  if type.dtype = .bool then
    fail (.boolOperand op)
  else
    emit (.unary op) [input] (.tensor type)

def cast (input : ValueId) (dtype : DType) : Build ValueId := do
  let type ← tensorTypeOf input
  emit (.cast dtype) [input] (.tensor ⟨dtype, type.shape⟩)

/-- Values of an inlined graph with the values that stand for them, newest first. -/
abbrev Renaming := List (ValueId × ValueId)

def renamed (table : Renaming) : List ValueId → Build (List ValueId)
  | [] => return []
  | id :: rest =>
    match table.lookup id with
    | some new => return new :: (← renamed table rest)
    | none => fail (.inlinedValueUndefined id)

/-- Copies instructions under new ids; those that read the argument become
`argument` itself. -/
def inlineBody (argument : Option ValueId) : Renaming → List Instruction → Build Renaming
  | table, [] => return table
  | table, i :: rest => do
    if i.op = .parameter then
      inlineBody argument ((argument.map fun a => (i.id, a)).toList ++ table) rest
    else
      let operands ← renamed table i.operands
      let id ← emit i.op operands i.output
      inlineBody argument ((i.id, id) :: table) rest

/-- An argument is supplied exactly where one is expected, and of its type. -/
def checkArgument (parameter : Option Ty) (argument : Option ValueId) : Build Unit := do
  match parameter, argument with
  | some expected, some id =>
    let found ← typeOf id
    if expected ≠ found then
      throw (.typeMismatch .inlineArgument expected found)
  | none, none => return ()
  | some expected, none => fail (.inlineNeedsArgument expected)
  | none, some _ => fail .inlineTakesNoArgument

/-- Copies the body of `graph` with its argument replaced by `argument`, and
returns the value that holds its result. -/
def inline (graph : Graph) (argument : Option ValueId) : Build ValueId := do
  checkArgument graph.parameter argument
  let table ← inlineBody argument [] graph.body
  match table.lookup graph.resultId with
  | some id => return id
  | none => fail (.inlinedResultUndefined graph.resultId)

/-- The verified graph that returns `result`. -/
def finish (result : ValueId) : Build Graph := do
  let type ← typeOf result
  let graph := (← get).toGraph type result
  graph.verify
  return graph

end Build

/-- Runs a building action on a fresh builder and returns the graph of the value it yields. -/
def Graph.build (parameter : Option Ty) (action : Build ValueId) : Except GraphError Graph :=
  ((action >>= Build.finish).run.run (.start parameter)).1

/-- One step of a building script. -/
inductive BuildStep where
  | constant (tensor : Tensor)
  | select (source : ValueId) (index : Nat)
  | pack (elements : List (Label × ValueId))
  | binary (op : BinaryOp) (lhs rhs : ValueId)
  | unary (op : UnaryOp) (input : ValueId)
  | cast (input : ValueId) (dtype : DType)
  | inline (graph : Graph) (argument : Option ValueId)
  deriving DecidableEq, Inhabited

namespace BuildStep

def run : BuildStep → Build ValueId
  | constant tensor => Build.constant tensor
  | select source index => Build.select source index
  | pack elements => Build.pack elements
  | binary op lhs rhs => Build.binary op lhs rhs
  | unary op input => Build.unary op input
  | cast input dtype => Build.cast input dtype
  | inline graph argument => Build.inline graph argument

/-- Runs the steps in order and stops at the first that fails. -/
def runAll : List BuildStep → Build Unit
  | [] => return ()
  | step :: rest => do
    let _ ← step.run
    runAll rest

end BuildStep

/-- The graph that a script of steps builds, when every step succeeds. -/
def Graph.ofSteps (parameter : Option Ty) (steps : List BuildStep) (result : ValueId) :
    Except GraphError Graph :=
  Graph.build parameter do
    BuildStep.runAll steps
    return result

end GraphFusion
