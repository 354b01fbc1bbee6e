import GraphFusion.Graph.Codec
import GraphFusion.Graph.Kernels

/-!
The reference interpreter: instructions run in order on an environment of
values. A hook sees every instruction first and may answer in its place.
-/

namespace GraphFusion

def interpreterName : String := "cpu-reference"

/-- Values computed so far, newest first. -/
abbrev Environment := List (ValueId × Value)

/-- Asked before each instruction; `none` leaves it to the interpreter. -/
abbrev Hook (m : Type → Type) :=
  Operation → List Value → m (Option (Except ExecutionError Value))

def soleInput (op : String) : List Value → Except ExecutionError Value
  | [v] => .ok v
  | inputs => .error (.fault (.arity op inputs.length))

def tensorInput : Value → Except ExecutionError Tensor
  | .tensor t => .ok t
  | .struct _ => .error (.fault .structOperand)

namespace Operation

/-- The value an operation gives for its inputs in a graph run on `argument`. -/
def apply (argument : Option Value) (inputs : List Value) :
    Operation → Except ExecutionError Value
  | parameter =>
    match argument with
    | some v => .ok v
    | none => .error (.fault .parameterWithoutArgument)
  | constant tensor => .ok (.tensor tensor)
  | select index => do
    let source ← soleInput "select" inputs
    match source.element? index with
    | some v => .ok v
    | none => .error (.fault (.selectOutOfRange index))
  | pack labels =>
    if labels.length ≠ inputs.length then .error (.fault (.packArity labels.length inputs.length))
    else .ok (.struct (labels.zip inputs))
  | binary op =>
    match inputs with
    | [lhs, rhs] => do
      let lhs ← tensorInput lhs
      let rhs ← tensorInput rhs
      return .tensor (← lhs.binary op rhs)
    | _ => .error (.fault .binaryArity)
  | unary op => do
    let input ← tensorInput (← soleInput "elementwise unary" inputs)
    return .tensor (← input.unary op)
  | cast dtype => do
    let input ← tensorInput (← soleInput "cast" inputs)
    return .tensor (← input.cast dtype)

end Operation

namespace Environment

def operands (env : Environment) : List ValueId → Except ExecutionError (List Value)
  | [] => .ok []
  | id :: rest =>
    match env.lookup id with
    | none => .error (.fault (.operandMissing id))
    | some v => (operands env rest).map (v :: ·)

end Environment

namespace Graph

/-- The argument a graph runs on, relabelled as its parameter type says. -/
def bindArgument (g : Graph) (argument : Option Value) : Except ExecutionError (Option Value) :=
  match g.parameter, argument with
  | some type, some v =>
    if v.conformsTo type then .ok (some (v.withNamesOf type))
    else .error (.argumentMismatch type v.type)
  | none, none => .ok none
  | some type, none => .error (.fault (.argumentRequired type))
  | none, some _ => .error (.fault .argumentRefused)

def runInstruction {m : Type → Type} [Monad m] (hook : Hook m) (argument : Option Value)
    (env : Environment) (i : Instruction) : ExceptT ExecutionError m Environment := do
  let inputs ← ExceptT.mk (pure (env.operands i.operands))
  let output ← ExceptT.mk do
    match ← hook i.op inputs with
    | some answer => pure answer
    | none => pure (i.op.apply argument inputs)
  return (i.id, output) :: env

def runBody {m : Type → Type} [Monad m] (hook : Hook m) (argument : Option Value) :
    Environment → List Instruction → ExceptT ExecutionError m Environment
  | env, [] => return env
  | env, i :: rest => do
    runBody hook argument (← runInstruction hook argument env i) rest

/-- The returned value, relabelled as the result type says. -/
def resultOf (g : Graph) (env : Environment) : Except ExecutionError Value :=
  match env.lookup g.resultId with
  | none => .error (.fault (.resultMissing g.resultId))
  | some v => .ok (v.withNamesOf g.result)

def executeWith {m : Type → Type} [Monad m] (hook : Hook m) (g : Graph)
    (argument : Option Value) : ExceptT ExecutionError m Value := do
  let argument ← ExceptT.mk (pure (g.bindArgument argument))
  let env ← runBody hook argument [] g.body
  ExceptT.mk (pure (g.resultOf env))

/-- The hook that leaves every instruction to the interpreter. -/
def noHook : Hook Id := fun _ _ => none

def execute (g : Graph) (argument : Option Value) : Except ExecutionError Value :=
  (g.executeWith noHook argument).run

/-- Runs the graph stored in `bytes`. -/
def executeBytes (bytes : List UInt8) (argument : Option Value) : Except ExecutionError Value :=
  match ofBytes bytes with
  | .error e => .error (.fault (.unreadableGraph e))
  | .ok g => g.execute argument

end Graph

end GraphFusion
