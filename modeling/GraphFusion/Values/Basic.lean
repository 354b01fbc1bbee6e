import GraphFusion.Values.Tensor

/-!
Host values: tensors and nested structs of them. A value conforms to a type
when the nesting agrees, every tensor fits, and every element that has a name
has the one the type gives it; relabelling then supplies the missing names.
-/

namespace GraphFusion

inductive Value where
  | tensor (tensor : Tensor)
  | struct (elements : List (Label × Value))
  deriving Inhabited

namespace Value

def tensor? : Value → Option Tensor
  | .tensor t => some t
  | .struct _ => none

def elements? : Value → Option (List (Label × Value))
  | .tensor _ => none
  | .struct es => some es

def element? (v : Value) (index : Nat) : Option Value :=
  (v.elements?.bind (·[index]?)).map (·.2)

def elementNamed? (v : Value) (name : String) : Option Value :=
  (v.elements?.bind (·.find? fun (label, _) => label == some name)).map (·.2)

mutual

/-- The type with exactly the names and extents of the value. -/
def type : Value → Ty
  | .tensor t => .tensor t.type
  | .struct es => .struct (elementTypes es)

def elementTypes : List (Label × Value) → List (Label × Ty)
  | [] => []
  | (n, v) :: es => (n, type v) :: elementTypes es

end

/-- A value's label may stand where a type's label is expected. -/
def labelFits (found expected : Label) : Bool := found.isNone || found == expected

mutual

def conformsTo : Value → Ty → Bool
  | .tensor t, .tensor type => t.conformsTo type
  | .struct es, .struct types => elementsConform es types
  | _, _ => false

def elementsConform : List (Label × Value) → List (Label × Ty) → Bool
  | [], [] => true
  | (n, v) :: es, (m, type) :: types =>
    labelFits n m && conformsTo v type && elementsConform es types
  | _, _ => false

end

mutual

/-- The value with the element names of `type`, as deep as their nesting agrees. -/
def withNamesOf : Value → Ty → Value
  | .tensor t, _ => .tensor t
  | .struct es, .struct types =>
    .struct (if es.length = types.length then relabelElements es types else es)
  | .struct es, _ => .struct es

def relabelElements : List (Label × Value) → List (Label × Ty) → List (Label × Value)
  | (_, v) :: es, (n, type) :: types => (n, withNamesOf v type) :: relabelElements es types
  | es, _ => es

end

end Value

end GraphFusion
