import GraphFusion.Types.Basic

/-!
What can be wrong with the types of a term under construction.
-/

namespace GraphFusion

inductive TypeError where
  | notEquivalent (expected found : Ty)
  | notAFunction (found : Ty)
  | notAStruct (found : Ty)
  | indexOutOfRange (index length : Nat)
  | unknownName (name : String) (type : Ty)
  | unexpectedArgument (function : Ty)
  | missingArgument (function parameter : Ty)
  | arityMismatch (node : String) (expected found : Nat)
  deriving DecidableEq, Inhabited

namespace TypeError

def message : TypeError → String
  | notEquivalent expected found =>
    "expected a type equivalent to " ++ expected.text ++ ", found " ++ found.text
  | notAFunction found => "expected a function type, found " ++ found.text
  | notAStruct found => "expected a struct type, found " ++ found.text
  | indexOutOfRange index length =>
    s!"index {index} out of range for struct of {length} elements"
  | unknownName name type =>
    "struct type " ++ type.text ++ " has no element named '" ++ name ++ "'"
  | unexpectedArgument function =>
    "function " ++ function.text ++ " takes no argument but one was supplied"
  | missingArgument function parameter =>
    "function " ++ function.text ++ " requires an argument of type " ++ parameter.text
  | arityMismatch node expected found => s!"{node} expects {expected} children, found {found}"

end TypeError

namespace Ty

/-- Succeeds exactly on equal types. -/
def checkEquivalent (expected found : Ty) : Except TypeError Unit :=
  if expected = found then .ok () else .error (.notEquivalent expected found)

end Ty

end GraphFusion
