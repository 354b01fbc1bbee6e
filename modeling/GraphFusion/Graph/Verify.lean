import GraphFusion.Graph.Error

/-!
Well-formedness of graphs: every operand is defined earlier, ids are distinct,
the argument is read at most once and only where there is one, all types are
data, and the recorded parameter and result types are those of the body.
-/

namespace GraphFusion

namespace Graph

/-- Ids defined so far with their types, newest first, and whether the argument
has been read. -/
structure Checked where
  defined : List (ValueId × Ty)
  readsArgument : Bool
  deriving Inhabited

def Checked.empty : Checked := ⟨[], false⟩

/-- The first operand that is not defined yet. -/
def Checked.undefinedOperand? (c : Checked) (i : Instruction) : Option ValueId :=
  i.operands.find? fun operand => (c.defined.lookup operand).isNone

/-- Checks an instruction that reads the argument against the parameter type. -/
def checkParameter (parameter : Option Ty) (c : Checked) (i : Instruction) :
    Except GraphError Bool :=
  if i.op = .parameter then
    match parameter with
    | none => .error (.invalid .parameterWithoutArgument)
    | some type =>
      if c.readsArgument then .error (.invalid .duplicateParameter)
      else if type ≠ i.output then .error (.typeMismatch .parameter type i.output)
      else .ok true
  else .ok c.readsArgument

def checkInstruction (parameter : Option Ty) (c : Checked) (i : Instruction) :
    Except GraphError Checked := do
  if let some operand := c.undefinedOperand? i then
    throw (.invalid (.usedBeforeDefined operand i.id))
  let readsArgument ← checkParameter parameter c i
  if !i.output.isData then
    throw (.invalid (.outputNotData i.id i.output))
  if (c.defined.lookup i.id).isSome then
    throw (.invalid (.duplicateDefinition i.id))
  return ⟨(i.id, i.output) :: c.defined, readsArgument⟩

def checkResult (g : Graph) (c : Checked) : Except GraphError Unit :=
  match c.defined.lookup g.resultId with
  | none => .error (.invalid (.resultUndefined g.resultId))
  | some type => if g.result ≠ type then .error (.typeMismatch .result g.result type) else .ok ()

/-- Succeeds exactly on well-formed graphs; the format version is not looked at. -/
def verify (g : Graph) : Except GraphError Unit := do
  if let some type := g.parameter then
    if !type.isData then
      throw (.invalid (.parameterNotData type))
  if !g.result.isData then
    throw (.invalid (.resultNotData g.result))
  g.checkResult (← g.body.foldlM (checkInstruction g.parameter) .empty)

def checkVersion (g : Graph) : Except GraphError Unit :=
  if g.formatVersion = currentVersion then .ok () else .error (.versionMismatch g.formatVersion)

/-- What a reader of stored graphs accepts: the current version of the format
first, then a well-formed graph. -/
def accept (g : Graph) : Except GraphError Graph := do
  g.checkVersion
  g.verify
  return g

end Graph

end GraphFusion
