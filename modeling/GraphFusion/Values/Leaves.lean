import GraphFusion.Values.Basic

/-!
The leaves of a nested value, with or without their paths, and the way back: a
template gives the nesting and the names, a list of tensors the leaves. A path
joins one segment per struct level with slashes, the element's name or else its
position.
-/

namespace GraphFusion

/-- The template has a different number of leaves than were supplied. -/
structure StructureMismatch where
  expected : Nat
  found : Nat
  deriving DecidableEq, Inhabited

namespace StructureMismatch

def message (e : StructureMismatch) : String :=
  s!"program state has {e.found} leaves but the structure expects {e.expected}"

end StructureMismatch

namespace Value

mutual

/-- Leaves from left to right, depth first. -/
def leaves : Value → List Tensor
  | .tensor t => [t]
  | .struct es => elementLeaves es

def elementLeaves : List (Label × Value) → List Tensor
  | [] => []
  | (_, v) :: es => leaves v ++ elementLeaves es

end

/-- Path of an element below the struct at `path`; an empty path adds no slash. -/
def extendPath (path : String) (label : Label) (index : Nat) : String :=
  (if path.isEmpty then path else path ++ "/") ++ label.getD (toString index)

mutual

/-- Leaves with their paths, for a value standing at `path`. -/
def leavesAt (path : String) : Value → List (String × Tensor)
  | .tensor t => [(path, t)]
  | .struct es => elementLeavesAt path 0 es

def elementLeavesAt (path : String) (index : Nat) :
    List (Label × Value) → List (String × Tensor)
  | [] => []
  | (n, v) :: es =>
    leavesAt (extendPath path n index) v ++ elementLeavesAt path (index + 1) es

end

/-- Leaves with their paths; a bare tensor has the empty path. -/
def namedLeaves (v : Value) : List (String × Tensor) := leavesAt "" v

mutual

def leafCount : Value → Nat
  | .tensor _ => 1
  | .struct es => elementLeafCount es

def elementLeafCount : List (Label × Value) → Nat
  | [] => 0
  | (_, v) :: es => leafCount v + elementLeafCount es

end

mutual

/-- Puts the first tensors into the template and returns the unused ones. A
template leaf for which none is left stays. -/
def refill : Value → List Tensor → Value × List Tensor
  | .tensor t, [] => (.tensor t, [])
  | .tensor _, t :: rest => (.tensor t, rest)
  | .struct es, tensors =>
    let (filled, rest) := refillElements es tensors
    (.struct filled, rest)

def refillElements : List (Label × Value) → List Tensor → List (Label × Value) × List Tensor
  | [], tensors => ([], tensors)
  | (n, v) :: es, tensors =>
    let (head, rest) := refill v tensors
    let (tail, rest) := refillElements es rest
    ((n, head) :: tail, rest)

end

/-- A value nested and named like `template`, with the given leaves in order. -/
def pack (template : Value) (tensors : List Tensor) : Except StructureMismatch Value :=
  let expected := template.leafCount
  if tensors.length = expected then .ok (template.refill tensors).1
  else .error ⟨expected, tensors.length⟩

end Value

end GraphFusion
