import GraphFusion.Types.DType
import GraphFusion.Types.Shape

/-!
Structural types: tensors, ordered structs with optional element names, and
functions of at most one parameter. Two types are equivalent when they are
equal as trees, which `Ty.beq` decides and `Ty.eq_of_beq` proves.
-/

namespace GraphFusion

/-- Name of a struct element; `none` for an unnamed one. -/
abbrev Label := Option String

/-- Text of an element: its name and an equals sign, when it is named, then its content. -/
def Label.tagged (label : Label) (content : String) : String :=
  match label with
  | some name => name ++ "=" ++ content
  | none => content

/-- Element type and shape of a tensor. -/
structure TensorType where
  dtype : DType
  shape : Shape
  deriving DecidableEq, Repr, Inhabited

namespace TensorType

def scalar (d : DType) : TensorType := ⟨d, .scalar⟩

def text (t : TensorType) : String := t.dtype.name ++ t.shape.text

end TensorType

/-- Type of a term, a graph value or a host value. -/
inductive Ty where
  | tensor (type : TensorType)
  | struct (elements : List (Label × Ty))
  | function (parameter : Option Ty) (result : Ty)
  deriving Inhabited

namespace Ty

def scalar (d : DType) : Ty := .tensor (.scalar d)

/-- A struct without element names. -/
def tuple (types : List Ty) : Ty := .struct (types.map fun t => (none, t))

mutual

def beq : Ty → Ty → Bool
  | .tensor t, .tensor u => t == u
  | .struct es, .struct fs => beqElements es fs
  | .function none r, .function none s => beq r s
  | .function (some p) r, .function (some q) s => beq p q && beq r s
  | _, _ => false

def beqElements : List (Label × Ty) → List (Label × Ty) → Bool
  | [], [] => true
  | (n, t) :: es, (m, u) :: fs => n == m && beq t u && beqElements es fs
  | _, _ => false

end

mutual

theorem beq_refl : ∀ t : Ty, beq t t = true
  | .tensor t => by simp [beq]
  | .struct es => by simp [beq, beqElements_refl es]
  | .function none r => by simp [beq, beq_refl r]
  | .function (some p) r => by simp [beq, beq_refl p, beq_refl r]

theorem beqElements_refl : ∀ es : List (Label × Ty), beqElements es es = true
  | [] => by simp [beqElements]
  | (n, t) :: es => by simp [beqElements, beq_refl t, beqElements_refl es]

end

mutual

theorem eq_of_beq : ∀ {t u : Ty}, beq t u = true → t = u
  | .tensor t, .tensor u, h => by simp_all [beq]
  | .struct es, .struct fs, h => by
    simp only [beq] at h
    rw [eq_of_beqElements h]
  | .function none r, .function none s, h => by
    simp only [beq] at h
    rw [eq_of_beq h]
  | .function (some p) r, .function (some q) s, h => by
    simp only [beq, Bool.and_eq_true] at h
    rw [eq_of_beq h.1, eq_of_beq h.2]
  | .tensor _, .struct _, h => by simp [beq] at h
  | .tensor _, .function .., h => by simp [beq] at h
  | .struct _, .tensor _, h => by simp [beq] at h
  | .struct _, .function .., h => by simp [beq] at h
  | .function .., .tensor _, h => by simp [beq] at h
  | .function .., .struct _, h => by simp [beq] at h
  | .function none _, .function (some _) _, h => by simp [beq] at h
  | .function (some _) _, .function none _, h => by simp [beq] at h

theorem eq_of_beqElements :
    ∀ {es fs : List (Label × Ty)}, beqElements es fs = true → es = fs
  | [], [], _ => rfl
  | (n, t) :: es, (m, u) :: fs, h => by
    simp only [beqElements, Bool.and_eq_true, beq_iff_eq] at h
    rw [h.1.1, eq_of_beq h.1.2, eq_of_beqElements h.2]
  | [], _ :: _, h => by simp [beqElements] at h
  | _ :: _, [], h => by simp [beqElements] at h

end

instance : BEq Ty := ⟨beq⟩

instance : LawfulBEq Ty where
  eq_of_beq := eq_of_beq
  rfl := beq_refl _

instance : DecidableEq Ty := fun t u =>
  decidable_of_iff (beq t u = true) ⟨eq_of_beq, fun h => h ▸ beq_refl t⟩

def elements? : Ty → Option (List (Label × Ty))
  | .struct es => some es
  | _ => none

/-- Type of the struct element at `index`. -/
def element? (t : Ty) (index : Nat) : Option Ty :=
  (t.elements?.bind (·[index]?)).map (·.2)

mutual

/-- Built from tensors and structs alone, with no function inside. -/
def isData : Ty → Bool
  | .tensor _ => true
  | .struct es => elementsAreData es
  | .function .. => false

def elementsAreData : List (Label × Ty) → Bool
  | [] => true
  | (_, t) :: es => isData t && elementsAreData es

end

mutual

/-- Compact notation: `<a=int32,bool>` for structs, `(p -> r)` for functions. -/
def text : Ty → String
  | .tensor t => t.text
  | .struct es => "<" ++ ",".intercalate (elementTexts es) ++ ">"
  | .function none r => "( -> " ++ text r ++ ")"
  | .function (some p) r => "(" ++ text p ++ " -> " ++ text r ++ ")"

def elementTexts : List (Label × Ty) → List String
  | [] => []
  | (n, t) :: es => n.tagged (text t) :: elementTexts es

end

end Ty

/-- Position of the first element called `name`. -/
def indexOfLabel? {α : Type} (elements : List (Label × α)) (name : String) : Option Nat :=
  elements.findIdx? fun (label, _) => label == some name

end GraphFusion
