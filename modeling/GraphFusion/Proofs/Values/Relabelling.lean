import GraphFusion.Proofs.Values.Leaves
import GraphFusion.Proofs.Values.Typing

/-!
Relabelling a value by a type that it conforms to. The outcome has the type, so it carries
the type's element names wherever a struct stands in it, and the leaves are those of the
value. A value of a type is determined by its leaves: all values that conform to the type
and have the same leaves are relabelled alike.
-/

namespace GraphFusion

/-- The type of what stands behind the elements at `positions`, taken one after the other. -/
def Ty.at? (t : Ty) (positions : List Nat) : Option Ty := positions.foldlM element? t

/-- The element names of a struct type. -/
def Ty.labels? (t : Ty) : Option (List Label) := t.elements?.map (·.map (·.1))

namespace Value

/-- What stands behind the elements at `positions`, taken one after the other. -/
def at? (v : Value) (positions : List Nat) : Option Value := positions.foldlM element? v

/-- The element names of a struct. -/
def labels? (v : Value) : Option (List Label) := v.elements?.map (·.map (·.1))

mutual

theorem hasType_type : ∀ v : Value, v.HasType v.type
  | .tensor t => by simpa only [type, HasType] using t.conformsTo_type
  | .struct es => by simpa only [type, HasType] using elementsHaveType_elementTypes es

theorem elementsHaveType_elementTypes : ∀ es : List (Label × Value),
    ElementsHaveType es (elementTypes es)
  | [] => by simp [elementTypes, ElementsHaveType]
  | (_, v) :: es => by
    simpa only [elementTypes, ElementsHaveType, true_and] using
      ⟨hasType_type v, elementsHaveType_elementTypes es⟩

end

section

variable {v w : Value} {t : Ty}

/-- An element of a value of a type has the type's element at the same position. -/
theorem HasType.element? (h : v.HasType t) (index : Nat) :
    Option.Rel HasType (v.element? index) (t.element? index) := by
  cases t with
  | tensor type =>
    obtain ⟨tensor, rfl, -⟩ := exists_tensor_of_hasType h
    exact .none
  | function p r => cases v <;> simp [HasType] at h
  | struct types =>
    obtain ⟨es, rfl, hes⟩ := exists_struct_of_hasType h
    change Option.Rel HasType (es[index]?.map (·.2)) (types[index]?.map (·.2))
    cases htypes : types[index]? with
    | some e =>
      obtain ⟨e', he', -, htype⟩ := exists_left_of_forall₂ hes htypes
      rw [he']
      exact .some htype
    | none =>
      rw [List.getElem?_eq_none_iff] at htypes
      rw [List.getElem?_eq_none (Nat.le_trans (Nat.le_of_eq hes.length_eq) htypes)]
      exact .none

theorem HasType.labels? (h : v.HasType t) : v.labels? = t.labels? := by
  cases t with
  | tensor type =>
    obtain ⟨tensor, rfl, -⟩ := exists_tensor_of_hasType h
    rfl
  | function p r => cases v <;> simp [HasType] at h
  | struct types =>
    obtain ⟨es, rfl, hes⟩ := exists_struct_of_hasType h
    exact congrArg some (map_fst_of_forall₂ hes)

/-- A value of a type has the type's element names at every level. -/
theorem HasType.labels_at (h : v.HasType t) (positions : List Nat) :
    (v.at? positions).bind Value.labels? = (t.at? positions).bind Ty.labels? := by
  induction positions generalizing v t with
  | nil => exact h.labels?
  | cons index positions ih =>
    have helement := h.element? index
    rw [at?, Ty.at?, List.foldlM_cons, List.foldlM_cons]
    generalize v.element? index = v', t.element? index = t' at helement ⊢
    cases helement with
    | none => rfl
    | some h' => exact ih h'

end

mutual

/-- Values of one type are nested and named alike. -/
theorem sameFrame_of_hasType :
    ∀ {v w : Value} {t : Ty}, v.HasType t → w.HasType t → v.SameFrame w
  | .tensor _, .tensor _, _, _, _ => by simp [Alike]
  | .struct _, .struct _, .struct _, hv, hw => by
    simp only [HasType] at hv hw
    simpa only [Alike] using elementsSameFrame_of_haveType hv hw
  | .tensor _, .struct _, .tensor _, _, hw => by simp [HasType] at hw
  | .tensor _, .struct _, .struct _, hv, _ => by simp [HasType] at hv
  | .struct _, .tensor _, .tensor _, hv, _ => by simp [HasType] at hv
  | .struct _, .tensor _, .struct _, _, hw => by simp [HasType] at hw
  | _, .struct _, .function .., _, hw => by simp [HasType] at hw
  | .struct _, _, .function .., hv, _ => by simp [HasType] at hv
  | .struct _, .struct _, .tensor _, hv, _ => by simp [HasType] at hv

theorem elementsSameFrame_of_haveType :
    ∀ {es fs : List (Label × Value)} {types : List (Label × Ty)},
      ElementsHaveType es types → ElementsHaveType fs types → ElementsAlike (· = ·) es fs
  | [], [], _, _, _ => by simp [ElementsAlike]
  | (_, _) :: _, (_, _) :: _, (_, _) :: _, hes, hfs => by
    simp only [ElementsHaveType] at hes hfs
    simpa only [ElementsAlike] using ⟨hes.1.trans hfs.1.symm, sameFrame_of_hasType hes.2.1 hfs.2.1,
      elementsSameFrame_of_haveType hes.2.2 hfs.2.2⟩
  | [], _ :: _, [], _, hfs => by simp [ElementsHaveType] at hfs
  | [], _ :: _, _ :: _, hes, _ => by simp [ElementsHaveType] at hes
  | _ :: _, [], [], hes, _ => by simp [ElementsHaveType] at hes
  | _ :: _, [], _ :: _, _, hfs => by simp [ElementsHaveType] at hfs
  | _ :: _, _ :: _, [], hes, _ => by simp [ElementsHaveType] at hes

end

/-- A value of a type is determined by its leaves. -/
theorem HasType.eq_of_leaves {v w : Value} {t : Ty} (hv : v.HasType t) (hw : w.HasType t)
    (h : v.leaves = w.leaves) : v = w := by
  have hself := pack_eq_ok_iff.mpr ⟨sameFrame_of_hasType hv hv, rfl⟩
  have hother := pack_eq_ok_iff.mpr ⟨sameFrame_of_hasType hv hw, h.symm⟩
  exact Except.ok.inj (hself.symm.trans hother)

/-- Every value conforms to its own type. Relabelled by a type that it conforms to, it
conforms to the type, carries the names of the type at every level and has its leaves in
their order; relabelling it again changes nothing, and what else conforms to the type with
the same leaves is relabelled to the same value. -/
theorem relabelled (v : Value) :
    v.conformsTo v.type = true ∧
      ∀ t : Ty, v.conformsTo t = true →
        (v.withNamesOf t).conformsTo t = true ∧
        (∀ positions, ((v.withNamesOf t).at? positions).bind labels? =
          (t.at? positions).bind Ty.labels?) ∧
        (v.withNamesOf t).leaves = v.leaves ∧
        (v.withNamesOf t).withNamesOf t = v.withNamesOf t ∧
        ∀ u : Value, u.conformsTo t = true → u.leaves = v.leaves →
          u.withNamesOf t = v.withNamesOf t := by
  refine ⟨conformsTo_of_hasType (hasType_type v), fun t hv => ?_⟩
  have hw : (v.withNamesOf t).HasType t := hasType_withNamesOf hv
  refine ⟨conformsTo_of_hasType hw, hw.labels_at, leaves_withNamesOf v t,
    withNamesOf_of_hasType hw, fun u hu hleaves => ?_⟩
  refine (hasType_withNamesOf hu).eq_of_leaves hw ?_
  rw [leaves_withNamesOf, leaves_withNamesOf, hleaves]

/-- Two values that leave out different names, under a type with an open axis. -/
theorem relabelled_openAxis :
    let t : Ty := .struct [(some "a", .tensor ⟨.int32, ⟨[.dynamic]⟩⟩),
      (none, .struct [(some "b", .scalar .bool)])]
    let labelled (n m : Label) : Value := .struct [(n, .tensor ⟨[2], .int32 [1, 2]⟩),
      (none, .struct [(m, .tensor ⟨[], .bool [true]⟩)])]
    let v := labelled none (some "b")
    let u := labelled (some "a") none
    (v.conformsTo t = true ∧ u.conformsTo t = true ∧ u.leaves = v.leaves) ∧
      v.withNamesOf t = labelled (some "a") (some "b") ∧
      (v.withNamesOf t).conformsTo t = true ∧
      ((v.withNamesOf t).at? [1]).bind labels? = some [some "b"] ∧
      (v.withNamesOf t).leaves = v.leaves ∧
      (v.withNamesOf t).withNamesOf t = v.withNamesOf t ∧
      u.withNamesOf t = v.withNamesOf t := by
  intro t labelled v u
  have hv : v.conformsTo t = true := by decide
  have hu : u.conformsTo t = true := by decide
  have hleaves : u.leaves = v.leaves := by decide
  obtain ⟨hw, hlabels, hsame, hagain, hunique⟩ := (relabelled v).2 t hv
  exact ⟨⟨hv, hu, hleaves⟩, rfl, hw, (hlabels [1]).trans rfl, hsame, hagain, hunique u hu hleaves⟩

end Value

end GraphFusion
