import GraphFusion.Values.Basic
import GraphFusion.Proofs.Lists

/-!
Values of a type. A value has a type when the nesting agrees, every tensor fits
and every struct element carries exactly the name that the type gives it.
Relabelling turns a conforming value into one that has the type, and leaves a
value that already has it alone.
-/

namespace GraphFusion

theorem Ty.isData_struct (types : List (Label × Ty)) :
    (Ty.struct types).isData = true ↔ ∀ e ∈ types, e.2.isData = true := by
  rw [Ty.isData]
  induction types with
  | nil => simp [Ty.elementsAreData]
  | cons e types ih => simp [Ty.elementsAreData, ih]

theorem Ty.isData_tuple (types : List Ty) :
    (Ty.tuple types).isData = true ↔ ∀ type ∈ types, type.isData = true := by
  rw [Ty.tuple, Ty.isData_struct, List.forall_mem_map]

theorem Ty.element?_eq_some {t type : Ty} {index : Nat} :
    t.element? index = some type ↔
      ∃ es label, t = .struct es ∧ es[index]? = some (label, type) := by
  constructor
  · intro h
    obtain ⟨⟨label, type'⟩, hget, rfl⟩ := Option.map_eq_some_iff.mp h
    cases t with
    | struct es => exact ⟨es, label, rfl, hget⟩
    | tensor _ => cases hget
    | function _ _ => cases hget
  · rintro ⟨es, label, rfl, h⟩
    simp [element?, elements?, h]

/-- A tensor of the type, with no elements along the axes that it leaves open. -/
def TensorType.zero (type : TensorType) : Tensor :=
  .zeros type.dtype (type.shape.dims.map fun d => d.extent?.getD 0)

theorem Shape.admits_extents (s : Shape) :
    s.admits (s.dims.map fun d => d.extent?.getD 0) = true := by
  obtain ⟨dims⟩ := s
  have hdims : ∀ d : Dimension, d.admits (d.extent?.getD 0) = true := by
    intro d
    cases d <;> simp [Dimension.admits, Dimension.extent?]
  simp only [admits, List.length_map, beq_self_eq_true, Bool.true_and]
  induction dims with
  | nil => rfl
  | cons d dims ih =>
    rw [List.map_cons, List.zip_cons_cons, List.all_cons, hdims, ih]
    rfl

theorem TensorType.zero_conformsTo (type : TensorType) : type.zero.conformsTo type = true := by
  have hdtype : type.zero.dtype = type.dtype := by
    obtain ⟨dtype, shape⟩ := type
    cases dtype <;> rfl
  rw [Tensor.conformsTo, hdtype, beq_self_eq_true, Bool.true_and]
  exact type.shape.admits_extents

namespace Tensor

theorem conformsTo_iff (t : Tensor) (type : TensorType) :
    t.conformsTo type = true ↔ t.dtype = type.dtype ∧ type.shape.admits t.shape = true := by
  simp [conformsTo]

theorem conformsTo_type (t : Tensor) : t.conformsTo t.type = true := by
  have hadmits : ∀ shape : List Nat, (Shape.ofExtents shape).admits shape = true := by
    intro shape
    induction shape with
    | nil => rfl
    | cons n shape ih =>
      simp only [Shape.ofExtents, Shape.admits, List.map_cons, List.length_cons, List.zip_cons_cons,
        List.all_cons, Dimension.admits, Bool.and_eq_true] at ih ⊢
      simpa using ih
  exact (conformsTo_iff t t.type).mpr ⟨rfl, hadmits t.shape⟩

end Tensor

namespace Value

mutual

def HasType : Value → Ty → Prop
  | .tensor t, .tensor type => t.conformsTo type = true
  | .struct es, .struct types => ElementsHaveType es types
  | _, _ => False

def ElementsHaveType : List (Label × Value) → List (Label × Ty) → Prop
  | [], [] => True
  | (n, v) :: es, (m, type) :: types => n = m ∧ HasType v type ∧ ElementsHaveType es types
  | _, _ => False

end

theorem elementsHaveType_iff (es : List (Label × Value)) (types : List (Label × Ty)) :
    ElementsHaveType es types ↔
      List.Forall₂ (fun e f => e.1 = f.1 ∧ e.2.HasType f.2) es types := by
  induction es generalizing types with
  | nil => cases types <;> simp [ElementsHaveType]
  | cons e es ih =>
    cases types with
    | nil => simp [ElementsHaveType]
    | cons f types => simp [ElementsHaveType, ih, and_assoc]

theorem hasType_struct (es : List (Label × Value)) (types : List (Label × Ty)) :
    (Value.struct es).HasType (.struct types) ↔
      List.Forall₂ (fun e f => e.1 = f.1 ∧ e.2.HasType f.2) es types := by
  rw [← elementsHaveType_iff, HasType]

theorem exists_struct_of_hasType {v : Value} {types : List (Label × Ty)}
    (h : v.HasType (.struct types)) :
    ∃ es, v = .struct es ∧
      List.Forall₂ (fun e f => e.1 = f.1 ∧ e.2.HasType f.2) es types := by
  cases v with
  | tensor t => simp [HasType] at h
  | struct es => exact ⟨es, rfl, (hasType_struct es types).mp h⟩

theorem exists_tensor_of_hasType {v : Value} {type : TensorType} (h : v.HasType (.tensor type)) :
    ∃ t, v = .tensor t ∧ t.conformsTo type = true := by
  cases v with
  | tensor t => exact ⟨t, rfl, by simpa [HasType] using h⟩
  | struct es => simp [HasType] at h

/-- Operands of one tensor type are one tensor that fits. -/
theorem exists_tensor_of_hasTypes {vs : List Value} {type : TensorType}
    (h : List.Forall₂ HasType vs [.tensor type]) :
    ∃ t, vs = [.tensor t] ∧ t.conformsTo type = true := by
  obtain _ | ⟨hv, hnil⟩ := h
  obtain _ | _ := hnil
  obtain ⟨t, rfl, ht⟩ := exists_tensor_of_hasType hv
  exact ⟨t, rfl, ht⟩

theorem exists_tensorPair_of_hasTypes {vs : List Value} {left right : TensorType}
    (h : List.Forall₂ HasType vs [.tensor left, .tensor right]) :
    ∃ l r, vs = [.tensor l, .tensor r] ∧ l.conformsTo left = true ∧
      r.conformsTo right = true := by
  obtain _ | ⟨hv, hrest⟩ := h
  obtain ⟨l, rfl, hl⟩ := exists_tensor_of_hasType hv
  obtain ⟨r, rfl, hr⟩ := exists_tensor_of_hasTypes hrest
  exact ⟨l, r, rfl, hl, hr⟩

theorem element?_struct (es : List (Label × Value)) (index : Nat) :
    (Value.struct es).element? index = (es[index]?).map (·.2) := rfl

/-- A value of a struct type has an element of the right type at every position. -/
theorem exists_element_of_hasType {v : Value} {types : List (Label × Ty)} {index : Nat}
    {label : Label} {type : Ty} (h : v.HasType (.struct types))
    (hindex : types[index]? = some (label, type)) :
    ∃ w, v.element? index = some w ∧ w.HasType type := by
  obtain ⟨es, rfl, hes⟩ := exists_struct_of_hasType h
  obtain ⟨e, he, -, htype⟩ := exists_left_of_forall₂ hes hindex
  exact ⟨e.2, by rw [element?_struct, he, Option.map_some], htype⟩

mutual

theorem conformsTo_of_hasType : ∀ {v : Value} {type : Ty}, v.HasType type → v.conformsTo type = true
  | .tensor _, .tensor _, h => by simpa only [HasType, conformsTo] using h
  | .struct _, .struct _, h => by
    simp only [HasType] at h
    simpa only [conformsTo] using elementsConform_of_elementsHaveType h
  | .tensor _, .struct _, h => by simp [HasType] at h
  | .tensor _, .function .., h => by simp [HasType] at h
  | .struct _, .tensor _, h => by simp [HasType] at h
  | .struct _, .function .., h => by simp [HasType] at h

theorem elementsConform_of_elementsHaveType :
    ∀ {es : List (Label × Value)} {types : List (Label × Ty)},
      ElementsHaveType es types → elementsConform es types = true
  | [], [], _ => by simp [elementsConform]
  | (_, _) :: _, (_, _) :: _, h => by
    simp only [ElementsHaveType] at h
    simp [elementsConform, labelFits, h.1, conformsTo_of_hasType h.2.1,
      elementsConform_of_elementsHaveType h.2.2]
  | [], _ :: _, h => by simp [ElementsHaveType] at h
  | _ :: _, [], h => by simp [ElementsHaveType] at h

end

theorem length_eq_of_elementsConform :
    ∀ {es : List (Label × Value)} {types : List (Label × Ty)},
      elementsConform es types = true → es.length = types.length
  | [], [], _ => rfl
  | (_, _) :: _, (_, _) :: _, h => by
    simp only [elementsConform, Bool.and_eq_true] at h
    simpa using length_eq_of_elementsConform h.2
  | [], _ :: _, h => by simp [elementsConform] at h
  | _ :: _, [], h => by simp [elementsConform] at h

mutual

/-- Relabelling supplies the names that a conforming value may leave out. -/
theorem hasType_withNamesOf :
    ∀ {v : Value} {type : Ty}, v.conformsTo type = true → (v.withNamesOf type).HasType type
  | .tensor _, .tensor _, h => by simpa only [withNamesOf, HasType, conformsTo] using h
  | .struct es, .struct types, h => by
    simp only [conformsTo] at h
    simpa only [withNamesOf, length_eq_of_elementsConform h, if_true, HasType] using
      elementsHaveType_relabelElements h
  | .tensor _, .struct _, h => by simp [conformsTo] at h
  | .tensor _, .function .., h => by simp [conformsTo] at h
  | .struct _, .tensor _, h => by simp [conformsTo] at h
  | .struct _, .function .., h => by simp [conformsTo] at h

theorem elementsHaveType_relabelElements :
    ∀ {es : List (Label × Value)} {types : List (Label × Ty)},
      elementsConform es types = true → ElementsHaveType (relabelElements es types) types
  | [], [], _ => by simp [relabelElements, ElementsHaveType]
  | (_, _) :: _, (_, _) :: _, h => by
    simp only [elementsConform, Bool.and_eq_true] at h
    simp [relabelElements, ElementsHaveType, hasType_withNamesOf h.1.2,
      elementsHaveType_relabelElements h.2]
  | [], _ :: _, h => by simp [elementsConform] at h
  | _ :: _, [], h => by simp [elementsConform] at h

end

mutual

theorem withNamesOf_of_hasType :
    ∀ {v : Value} {type : Ty}, v.HasType type → v.withNamesOf type = v
  | .tensor _, _, _ => by simp only [withNamesOf]
  | .struct es, .struct types, h => by
    simp only [HasType] at h
    simp only [withNamesOf, relabelElements_of_elementsHaveType h, ite_self]
  | .struct _, .tensor _, h => by simp [HasType] at h
  | .struct _, .function .., h => by simp [HasType] at h

theorem relabelElements_of_elementsHaveType :
    ∀ {es : List (Label × Value)} {types : List (Label × Ty)},
      ElementsHaveType es types → relabelElements es types = es
  | [], [], _ => by simp [relabelElements]
  | (_, _) :: _, (_, _) :: _, h => by
    simp only [ElementsHaveType] at h
    simp [relabelElements, h.1, withNamesOf_of_hasType h.2.1,
      relabelElements_of_elementsHaveType h.2.2]
  | [], _ :: _, h => by simp [ElementsHaveType] at h
  | _ :: _, [], h => by simp [ElementsHaveType] at h

end

end Value

end GraphFusion
