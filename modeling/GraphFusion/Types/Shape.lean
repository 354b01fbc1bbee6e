/-!
Tensor shapes. Each axis has a fixed extent or leaves it open; no axis at all
is the shape of a scalar.
-/

namespace GraphFusion

/-- Extent of one axis. -/
inductive Dimension where
  | fixed (extent : Nat)
  | dynamic
  deriving DecidableEq, Repr, Inhabited

namespace Dimension

def admits : Dimension → Nat → Bool
  | fixed extent, actual => extent == actual
  | dynamic, _ => true

def extent? : Dimension → Option Nat
  | fixed extent => some extent
  | dynamic => none

def text : Dimension → String
  | fixed extent => toString extent
  | dynamic => "?"

end Dimension

/-- Axes of a tensor in row-major order. -/
structure Shape where
  dims : List Dimension
  deriving DecidableEq, Repr, Inhabited

namespace Shape

def scalar : Shape := ⟨[]⟩

def ofExtents (extents : List Nat) : Shape := ⟨extents.map .fixed⟩

def rank (s : Shape) : Nat := s.dims.length

/-- The extents, when every axis fixes its own. -/
def extents? (s : Shape) : Option (List Nat) := s.dims.mapM Dimension.extent?

/-- Concrete extents fit the shape axis by axis. -/
def admits (s : Shape) (extents : List Nat) : Bool :=
  s.dims.length == extents.length && (s.dims.zip extents).all fun (d, n) => d.admits n

/-- Bracketed extents; a scalar prints as nothing. -/
def text (s : Shape) : String :=
  if s.dims.isEmpty then "" else "[" ++ ",".intercalate (s.dims.map Dimension.text) ++ "]"

end Shape

end GraphFusion
