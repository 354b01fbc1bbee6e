import GraphFusion.Graph.Compose
import GraphFusion.Terms.Basic
import GraphFusion.Types.Error

/-!
Checked construction of terms. Calls, selections and compiled units are refused
when their types do not fit; the other kinds of term always fit together.
-/

namespace GraphFusion

/-- Why a term cannot be compiled. -/
inductive CompileError where
  | invalidArgument (reason : String)
  | typeChanged (rewrite : String) (expected found : Ty)
  | type (error : TypeError)
  | graph (error : GraphError)
  deriving DecidableEq, Inhabited

namespace CompileError

def message : CompileError → String
  | invalidArgument reason => "invalid argument: " ++ reason
  | typeChanged rewrite expected found =>
    "rewrite '" ++ rewrite ++ "' changed type signature from " ++ expected.text ++ " to " ++
      found.text
  | type error => error.message
  | graph error => error.message

end CompileError

namespace Term

/-- A call. The argument is there exactly when the function takes one, and has
the type of its parameter. -/
def apply (function : Term) (argument : Option Term) : Except TypeError Term :=
  match function.type with
  | .function parameter result =>
    match parameter, argument with
    | some expected, some a => do
      expected.checkEquivalent a.type
      return .call function argument
    | none, none => .ok (.call function none)
    | some expected, none =>
      .error (.missingArgument (.function (some expected) result) expected)
    | none, some _ => .error (.unexpectedArgument (.function none result))
  | found => .error (.notAFunction found)

def elementsOf (source : Term) : Except TypeError (List (Label × Ty)) :=
  match source.type with
  | .struct elements => .ok elements
  | found => .error (.notAStruct found)

/-- Selection by position. -/
def select (source : Term) (index : Nat) : Except TypeError Term := do
  let elements ← source.elementsOf
  if index < elements.length then
    return .selection source index
  else
    throw (.indexOutOfRange index elements.length)

/-- Selection of the first element called `name`. -/
def selectNamed (source : Term) (name : String) : Except TypeError Term := do
  let elements ← source.elementsOf
  match indexOfLabel? elements name with
  | some index => source.select index
  | none => throw (.unknownName name (.struct elements))

/-- A struct without element names. -/
def tuple (elements : List Term) : Term := .struct (elements.map fun t => (none, t))

/-- The node of a graph that passes verification. -/
def ofGraph (g : Graph) : Except GraphError Term := do
  return .compiled (← CompiledUnit.ofGraph g)

def compiledIdentity (type : Ty) : Except GraphError Term := do
  ofGraph (← Graph.identity type)

def compiledEmptyStruct : Except GraphError Term := do
  ofGraph (← Graph.emptyStruct)

/-- The term passed through a compiled identity of its type. -/
def identityCall (t : Term) : Except CompileError Term := do
  let identity ← (compiledIdentity t.type).mapError .graph
  (identity.apply (some t)).mapError .type

/-- The same node over other children, given in the order of `children`. -/
def withChildren (t : Term) (parts : List Term) : Except TypeError Term :=
  if parts.length ≠ t.children.length then
    .error (.arityMismatch t.kind t.children.length parts.length)
  else
    match t, parts with
    | .lambda x type _, [r] => .ok (.lambda x type r)
    | .call _ none, [f] => f.apply none
    | .call _ (some _), [f, a] => f.apply (some a)
    | .selection _ index, [s] => s.select index
    | .struct es, parts => .ok (.struct ((es.map (·.1)).zip parts))
    | .block ls r, parts => .ok (.block ((ls.map (·.1)).zip parts) (parts.getLastD r))
    | t, _ => .ok t

end Term

end GraphFusion
