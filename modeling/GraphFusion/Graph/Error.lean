import GraphFusion.Graph.Basic

/-!
Why a graph cannot be built, verified, composed or read.
-/

namespace GraphFusion

/-- A broken rule of graphs. -/
inductive GraphFault where
  | parameterNotData (type : Ty)
  | resultNotData (type : Ty)
  | usedBeforeDefined (operand user : ValueId)
  | parameterWithoutArgument
  | duplicateParameter
  | outputNotData (id : ValueId) (type : Ty)
  | duplicateDefinition (id : ValueId)
  | resultUndefined (id : ValueId)
  | valueUndefined (id : ValueId)
  | expectedStruct (id : ValueId) (type : Ty)
  | expectedTensor (id : ValueId) (type : Ty)
  | selectOutOfRange (index length : Nat)
  | boolOperand (op : UnaryOp)
  | inlineNeedsArgument (type : Ty)
  | inlineTakesNoArgument
  | inlinedValueUndefined (id : ValueId)
  | inlinedResultUndefined (id : ValueId)
  | composeIntoNoArgument
  | concatenateNothing
  | concatenateMixed
  | ignoreParameterOfFunction
  deriving DecidableEq, Inhabited

namespace GraphFault

def message : GraphFault → String
  | parameterNotData type => "parameter type " ++ type.text ++ " is not tensor compatible"
  | resultNotData type => "result type " ++ type.text ++ " is not tensor compatible"
  | usedBeforeDefined operand user =>
    "value " ++ operand.text ++ " is used by " ++ user.text ++ " before it is defined"
  | parameterWithoutArgument => "parameter instruction in a no-arg graph"
  | duplicateParameter => "duplicate parameter instruction"
  | outputNotData id type => "value " ++ id.text ++ " has non-tensor type " ++ type.text
  | duplicateDefinition id => "duplicate value definition for " ++ id.text
  | resultUndefined id => "result " ++ id.text ++ " is never defined"
  | valueUndefined id => "value " ++ id.text ++ " is not defined"
  | expectedStruct id type =>
    "value " ++ id.text ++ " has type " ++ type.text ++ ", expected a struct"
  | expectedTensor id type =>
    "value " ++ id.text ++ " has type " ++ type.text ++ ", expected a tensor"
  | selectOutOfRange index length =>
    s!"select index {index} out of range for {length} elements"
  | boolOperand op => op.name ++ " is not defined for bool"
  | inlineNeedsArgument type => "inlined graph requires an argument of type " ++ type.text
  | inlineTakesNoArgument => "inlined graph takes no argument"
  | inlinedValueUndefined id => "inlined value " ++ id.text ++ " is undefined"
  | inlinedResultUndefined id => "inlined result " ++ id.text ++ " is undefined"
  | composeIntoNoArgument => "cannot compose into a no-argument graph"
  | concatenateNothing => "concatenate requires at least one graph"
  | concatenateMixed =>
    "concatenate cannot mix no-argument graphs with graphs that take one"
  | ignoreParameterOfFunction => "ignore_parameter expects a no-argument graph"

end GraphFault

/-- Where two types had to agree. -/
inductive Junction where
  | parameter
  | result
  | elementwiseBinary
  | inlineArgument
  | compose
  deriving DecidableEq, Inhabited

namespace Junction

def text : Junction → String
  | parameter => "parameter"
  | result => "result"
  | elementwiseBinary => "elementwise binary"
  | inlineArgument => "inline argument"
  | compose => "compose"

end Junction

inductive GraphError where
  | invalid (fault : GraphFault)
  | typeMismatch (junction : Junction) (expected found : Ty)
  | versionMismatch (found : String)
  | undecodableBytes
  | undecodableText
  deriving DecidableEq, Inhabited

namespace GraphError

/-- Text of an error; those of undecodable input are only a kind. -/
def message : GraphError → String
  | invalid fault => "invalid graph: " ++ fault.message
  | typeMismatch junction expected found =>
    "type mismatch in " ++ junction.text ++ ": expected " ++ expected.text ++
      ", found " ++ found.text
  | versionMismatch found =>
    "graph format version '" ++ found ++ "' does not match expected '" ++
      Graph.currentVersion ++ "'"
  | undecodableBytes => "bincode error"
  | undecodableText => "json error"

end GraphError

end GraphFusion
