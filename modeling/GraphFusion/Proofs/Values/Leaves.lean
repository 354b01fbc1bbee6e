import GraphFusion.Values.Leaves
import GraphFusion.Values.Basic

/-!
Packing as the inverse of taking leaves. The leaves of a value, packed into a
template of the same nesting, give the value under the template's names; and what
packing gives has the template's nesting and names and the leaves that were packed.
-/

namespace GraphFusion

namespace Value

mutual

/-- The same nesting, with names related by `r`. -/
def Alike (r : Label → Label → Prop) : Value → Value → Prop
  | .tensor _, .tensor _ => True
  | .struct es, .struct es' => ElementsAlike r es es'
  | _, _ => False

def ElementsAlike (r : Label → Label → Prop) :
    List (Label × Value) → List (Label × Value) → Prop
  | [], [] => True
  | (n, v) :: es, (n', v') :: es' => r n n' ∧ Alike r v v' ∧ ElementsAlike r es es'
  | _, _ => False

end

/-- The same nesting, whatever the names. -/
abbrev SameNesting : Value → Value → Prop := Alike fun _ _ => True

/-- The same nesting and the same names. -/
abbrev SameFrame : Value → Value → Prop := Alike (· = ·)

variable {r : Label → Label → Prop}

mutual

theorem sameNesting_of_sameFrame : ∀ {v v' : Value}, v.SameFrame v' → v.SameNesting v'
  | .tensor _, .tensor _, _ => by simp [Alike]
  | .struct _, .struct _, h => by
    simp only [Alike] at h
    simpa only [Alike] using elementsSameNesting_of_sameFrame h
  | .tensor _, .struct _, h => by simp [Alike] at h
  | .struct _, .tensor _, h => by simp [Alike] at h

theorem elementsSameNesting_of_sameFrame : ∀ {es es' : List (Label × Value)},
    ElementsAlike (· = ·) es es' → ElementsAlike (fun _ _ => True) es es'
  | [], [], _ => by simp [ElementsAlike]
  | (_, _) :: _, (_, _) :: _, h => by
    simp only [ElementsAlike] at h
    simpa only [ElementsAlike, true_and] using
      ⟨sameNesting_of_sameFrame h.2.1, elementsSameNesting_of_sameFrame h.2.2⟩
  | [], _ :: _, h => by simp [ElementsAlike] at h
  | _ :: _, [], h => by simp [ElementsAlike] at h

end

theorem length_eq_of_elementsAlike :
    ∀ {es es' : List (Label × Value)}, ElementsAlike r es es' → es.length = es'.length
  | [], [], _ => rfl
  | (_, _) :: _, (_, _) :: _, h => by
    simp only [ElementsAlike] at h
    simpa using length_eq_of_elementsAlike h.2.2
  | [], _ :: _, h => by simp [ElementsAlike] at h
  | _ :: _, [], h => by simp [ElementsAlike] at h

theorem length_elementTypes : ∀ es : List (Label × Value), (elementTypes es).length = es.length
  | [] => by simp [elementTypes]
  | (_, _) :: es => by simp [elementTypes, length_elementTypes es]

mutual

/-- Relabelling keeps the tensors. -/
theorem leaves_withNamesOf : ∀ (v : Value) (type : Ty), (v.withNamesOf type).leaves = v.leaves
  | .tensor _, _ => by rw [withNamesOf]
  | .struct es, .struct types => by
    rw [withNamesOf, leaves, leaves]
    split
    · exact leaves_relabelElements es types
    · rfl
  | .struct _, .tensor _ => by simp [withNamesOf]
  | .struct _, .function .. => by simp [withNamesOf]

theorem leaves_relabelElements : ∀ (es : List (Label × Value)) (types : List (Label × Ty)),
    elementLeaves (relabelElements es types) = elementLeaves es
  | (_, v) :: es, (_, type) :: types => by
    simp only [relabelElements, elementLeaves, leaves_withNamesOf v type,
      leaves_relabelElements es types]
  | [], _ => by simp only [relabelElements]
  | _ :: _, [] => by simp only [relabelElements]

end

mutual

/-- The leaves of a value fill a template of its nesting, and no more are taken. -/
theorem refill_leaves : ∀ {template v : Value} (_ : template.Alike r v) (rest : List Tensor),
    template.refill (v.leaves ++ rest) = (v.withNamesOf template.type, rest)
  | .tensor _, .tensor _, _, _ => by simp [refill, leaves, withNamesOf]
  | .struct es, .struct es', h, rest => by
    simp only [Alike] at h
    have hlength : es'.length = (elementTypes es).length := by
      rw [length_elementTypes, length_eq_of_elementsAlike h]
    rw [refill, leaves, refillElements_leaves h rest, type, withNamesOf, if_pos hlength]
  | .tensor _, .struct _, h, _ => by simp [Alike] at h
  | .struct _, .tensor _, h, _ => by simp [Alike] at h

theorem refillElements_leaves : ∀ {es es' : List (Label × Value)} (_ : ElementsAlike r es es')
    (rest : List Tensor), refillElements es (elementLeaves es' ++ rest) =
      (relabelElements es' (elementTypes es), rest)
  | [], [], _, _ => by simp [refillElements, elementLeaves, relabelElements]
  | (_, _) :: _, (_, _) :: _, h, rest => by
    simp only [ElementsAlike] at h
    simp [refillElements, elementLeaves, elementTypes, relabelElements, List.append_assoc,
      refill_leaves h.2.1, refillElements_leaves h.2.2]
  | [], _ :: _, h, _ => by simp [ElementsAlike] at h
  | _ :: _, [], h, _ => by simp [ElementsAlike] at h

end

mutual

theorem leafCount_eq : ∀ v : Value, v.leafCount = v.leaves.length
  | .tensor _ => by simp [leafCount, leaves]
  | .struct es => by simp [leafCount, leaves, elementLeafCount_eq es]

theorem elementLeafCount_eq : ∀ es : List (Label × Value),
    elementLeafCount es = (elementLeaves es).length
  | [] => by simp [elementLeafCount, elementLeaves]
  | (_, v) :: es => by
    simp [elementLeafCount, elementLeaves, leafCount_eq v, elementLeafCount_eq es]

end

mutual

theorem length_leaves_of_alike : ∀ {v v' : Value}, v.Alike r v' → v.leaves.length = v'.leaves.length
  | .tensor _, .tensor _, _ => by simp [leaves]
  | .struct _, .struct _, h => by
    simp only [Alike] at h
    simpa only [leaves] using length_leaves_of_elementsAlike h
  | .tensor _, .struct _, h => by simp [Alike] at h
  | .struct _, .tensor _, h => by simp [Alike] at h

theorem length_leaves_of_elementsAlike : ∀ {es es' : List (Label × Value)},
    ElementsAlike r es es' → (elementLeaves es).length = (elementLeaves es').length
  | [], [], _ => rfl
  | (_, _) :: _, (_, _) :: _, h => by
    simp only [ElementsAlike] at h
    simp [elementLeaves, length_leaves_of_alike h.2.1, length_leaves_of_elementsAlike h.2.2]
  | [], _ :: _, h => by simp [ElementsAlike] at h
  | _ :: _, [], h => by simp [ElementsAlike] at h

end

/-- The leaves of a value, packed into a template of the same nesting, are the value
under the template's names. -/
theorem pack_leaves {template v : Value} (h : template.Alike r v) :
    template.pack v.leaves = .ok (v.withNamesOf template.type) := by
  have hrefill := refill_leaves h []
  rw [List.append_nil] at hrefill
  rw [pack, leafCount_eq, if_pos (length_leaves_of_alike h).symm, hrefill]

mutual

theorem withNamesOf_of_sameFrame : ∀ {template v : Value}, template.SameFrame v →
    v.withNamesOf template.type = v
  | .tensor _, .tensor _, _ => by simp [withNamesOf]
  | .struct _, .struct _, h => by
    simp only [Alike] at h
    simp only [type, withNamesOf, relabelElements_of_sameFrame h, ite_self]
  | .tensor _, .struct _, h => by simp [Alike] at h
  | .struct _, .tensor _, h => by simp [Alike] at h

theorem relabelElements_of_sameFrame : ∀ {es es' : List (Label × Value)},
    ElementsAlike (· = ·) es es' → relabelElements es' (elementTypes es) = es'
  | [], [], _ => by simp [relabelElements]
  | (_, _) :: _, (_, _) :: _, h => by
    simp only [ElementsAlike] at h
    simp [elementTypes, relabelElements, h.1, withNamesOf_of_sameFrame h.2.1,
      relabelElements_of_sameFrame h.2.2]
  | [], _ :: _, h => by simp [ElementsAlike] at h
  | _ :: _, [], h => by simp [ElementsAlike] at h

end

mutual

/-- Filling a template keeps its nesting and its names. -/
theorem sameFrame_refill : ∀ (template : Value) (tensors : List Tensor),
    template.SameFrame (template.refill tensors).1
  | .tensor _, [] => by simp [refill, Alike]
  | .tensor _, _ :: _ => by simp [refill, Alike]
  | .struct es, tensors => by simpa only [refill, Alike] using sameFrame_refillElements es tensors

theorem sameFrame_refillElements : ∀ (es : List (Label × Value)) (tensors : List Tensor),
    ElementsAlike (· = ·) es (refillElements es tensors).1
  | [], _ => by simp [refillElements, ElementsAlike]
  | (_, v) :: es, tensors => by
    simp only [refillElements, ElementsAlike, true_and]
    exact ⟨sameFrame_refill v tensors, sameFrame_refillElements es _⟩

end

mutual

/-- A template takes as many tensors as it has leaves. -/
theorem leaves_refill : ∀ (template : Value) (tensors : List Tensor),
    template.leafCount ≤ tensors.length →
      (template.refill tensors).1.leaves ++ (template.refill tensors).2 = tensors
  | .tensor _, [], h => by simp [leafCount] at h
  | .tensor _, _ :: _, _ => by simp [refill, leaves]
  | .struct es, tensors, h => by
    simp only [leafCount] at h
    simpa only [refill, leaves] using leaves_refillElements es tensors h

theorem leaves_refillElements : ∀ (es : List (Label × Value)) (tensors : List Tensor),
    elementLeafCount es ≤ tensors.length →
      elementLeaves (refillElements es tensors).1 ++ (refillElements es tensors).2 = tensors
  | [], _, _ => by simp [refillElements, elementLeaves]
  | (_, v) :: es, tensors, h => by
    simp only [elementLeafCount] at h
    have hhead := leaves_refill v tensors (by omega)
    have hlength := congrArg List.length hhead
    rw [List.length_append, ← length_leaves_of_alike (sameFrame_refill v tensors),
      ← leafCount_eq] at hlength
    have htail := leaves_refillElements es (v.refill tensors).2 (by omega)
    rw [refillElements, elementLeaves, List.append_assoc, htail, hhead]

end

/-- What packing gives: the template's nesting and names, and the packed leaves. -/
theorem pack_eq_ok_iff {template v : Value} {tensors : List Tensor} :
    template.pack tensors = .ok v ↔ template.SameFrame v ∧ v.leaves = tensors := by
  constructor
  · intro h
    rw [pack] at h
    split at h
    · rename_i hcount
      cases h
      have hleaves := leaves_refill template tensors (Nat.le_of_eq hcount.symm)
      have hlength := congrArg List.length hleaves
      rw [List.length_append, ← length_leaves_of_alike (sameFrame_refill template tensors),
        ← leafCount_eq] at hlength
      have hrest : (template.refill tensors).2 = [] := List.length_eq_zero_iff.mp (by omega)
      rw [hrest, List.append_nil] at hleaves
      exact ⟨sameFrame_refill template tensors, hleaves⟩
    · cases h
  · rintro ⟨hframe, rfl⟩
    rw [pack_leaves hframe, withNamesOf_of_sameFrame hframe]

/-- The only reason not to pack is a number of tensors other than that of the leaves. -/
theorem pack_eq_error_iff {template : Value} {tensors : List Tensor} {e : StructureMismatch} :
    template.pack tensors = .error e ↔ tensors.length ≠ template.leaves.length ∧
      e = ⟨template.leaves.length, tensors.length⟩ := by
  rw [pack, leafCount_eq]
  constructor
  · intro h
    split at h
    · cases h
    · rename_i hcount
      cases h
      exact ⟨hcount, rfl⟩
  · rintro ⟨hcount, rfl⟩
    rw [if_neg hcount]

mutual

theorem map_leavesAt : ∀ (path : String) (v : Value), (leavesAt path v).map (·.2) = v.leaves
  | _, .tensor _ => by simp [leavesAt, leaves]
  | path, .struct es => by simpa only [leavesAt, leaves] using map_elementLeavesAt path 0 es

theorem map_elementLeavesAt : ∀ (path : String) (index : Nat) (es : List (Label × Value)),
    (elementLeavesAt path index es).map (·.2) = elementLeaves es
  | _, _, [] => by simp [elementLeavesAt, elementLeaves]
  | path, index, (_, v) :: es => by
    simp [elementLeavesAt, elementLeaves, map_leavesAt _ v, map_elementLeavesAt path (index + 1) es]

end

theorem map_namedLeaves (v : Value) : v.namedLeaves.map (·.2) = v.leaves := map_leavesAt "" v

/-- Packing and taking leaves are inverse. Tensors are packed exactly where there are as many
as the template has leaves, and then stand in its nesting and under its names in their order;
a value framed like the template is what packing its leaves gives. The leaves are those that
stand next to the paths. -/
theorem pack_inverts_leaves (template : Value) :
    (∀ tensors, tensors.length = template.leaves.length →
      ∃ v, template.pack tensors = .ok v ∧ template.SameFrame v ∧ v.leaves = tensors) ∧
    (∀ tensors e, template.pack tensors = .error e ↔
      tensors.length ≠ template.leaves.length ∧
        e = ⟨template.leaves.length, tensors.length⟩) ∧
    (∀ v, template.SameFrame v → template.pack v.leaves = .ok v) ∧
    template.namedLeaves.map (·.2) = template.leaves := by
  refine ⟨fun tensors hcount => ?_, fun _ _ => pack_eq_error_iff,
    fun v hframe => pack_eq_ok_iff.mpr ⟨hframe, rfl⟩, map_namedLeaves template⟩
  cases hpack : template.pack tensors with
  | ok v => exact ⟨v, rfl, pack_eq_ok_iff.mp hpack⟩
  | error e => exact absurd hcount (pack_eq_error_iff.mp hpack).1

/-- A template with two leaves between structs without any. -/
theorem pack_inverts_leaves_emptyStructs :
    let t : Tensor := ⟨[], .int32 [1]⟩
    let u : Tensor := ⟨[0], .bool []⟩
    let framed (a b : Tensor) : Value :=
      .struct [(none, .struct []), (some "w", .tensor a),
        (some "", .struct [(none, .tensor b), (some "w", .struct [])])]
    (framed t t).SameFrame (framed u t) ∧ (framed u t).leaves = [u, t] ∧
      (framed t t).pack [u, t] = .ok (framed u t) ∧
      (∃ v, (framed t t).pack [u, u] = .ok v ∧ (framed t t).SameFrame v ∧ v.leaves = [u, u]) ∧
      (framed t t).pack [u] = .error ⟨2, 1⟩ := by
  intro t u framed
  have hframe : (framed t t).SameFrame (framed u t) := by simp [framed, Alike, ElementsAlike]
  have hleaves : ∀ a b, (framed a b).leaves = [a, b] := fun a b => by
    simp [framed, leaves, elementLeaves]
  obtain ⟨hpacked, herror, hback, -⟩ := pack_inverts_leaves (framed t t)
  have hvalue := hback (framed u t) hframe
  rw [hleaves] at hvalue
  refine ⟨hframe, hleaves u t, hvalue, hpacked [u, u] (by rw [hleaves]; rfl), ?_⟩
  rw [herror, hleaves]
  exact ⟨by decide, rfl⟩

end Value

end GraphFusion
