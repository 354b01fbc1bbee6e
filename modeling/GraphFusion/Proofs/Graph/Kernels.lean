import GraphFusion.Proofs.Graph.Execution
import GraphFusion.Proofs.Graph.Words

/-!
Elementwise arithmetic on tensors with as many elements as their extents ask for.
Pairing elements gives as many as the longer operand has or reports that neither
length is one; the arithmetic itself fails in integer division only. On operands
of broadcast types the lengths always match the extents of the result, except
between two operands of one shape that leaves an axis open.
-/

namespace GraphFusion

theorem exists_error_of_mapM {ε α β : Type} {f : α → Except ε β} {xs : List α} {e : ε}
    (h : xs.mapM f = .error e) : ∃ x, f x = .error e := by
  induction xs with
  | nil => cases h
  | cons x xs ih =>
    rw [List.mapM_cons] at h
    cases hx : f x with
    | error d =>
      rw [hx] at h
      cases h
      exact ⟨x, hx⟩
    | ok y =>
      rw [hx, ok_bind] at h
      cases hrest : xs.mapM f with
      | error d =>
        rw [hrest] at h
        cases h
        exact ih hrest
      | ok ys =>
        rw [hrest] at h
        cases h

/-- Length of the result of pairing operands of the given lengths. -/
def pairedLength (lhs rhs : Nat) : Nat := if lhs = 1 then rhs else lhs

/-- Neither are the lengths the same nor is one of them that of a single element. -/
def Unpaired (lhs rhs : Nat) : Prop := lhs ≠ rhs ∧ lhs ≠ 1 ∧ rhs ≠ 1

section

variable {α : Type} {f : α → α → Except ExecutionError α} {lhs rhs : List α}

theorem length_of_pairwise {values : List α} (h : pairwise f lhs rhs = .ok values) :
    values.length = pairedLength lhs.length rhs.length := by
  unfold pairwise at h
  unfold pairedLength
  split at h
  · rename_i hlen
    have hvalues := (mapM_eq_ok_iff.mp h).length_eq
    rw [List.length_zip] at hvalues
    split <;> omega
  · rename_i hlen
    split at h
    · rename_i y
      have hne : lhs.length ≠ 1 := by simpa using hlen
      rw [if_neg hne, (mapM_eq_ok_iff.mp h).length_eq]
    · rename_i x _
      rw [← (mapM_eq_ok_iff.mp h).length_eq]
      rfl
    · cases h

theorem pairwise_error {e : ExecutionError} (h : pairwise f lhs rhs = .error e) :
    (∃ x y, f x y = .error e) ∨ (Unpaired lhs.length rhs.length ∧
      e = .fault (.incompatibleLengths lhs.length rhs.length)) := by
  unfold pairwise at h
  split at h
  · obtain ⟨p, hp⟩ := exists_error_of_mapM h
    exact .inl ⟨p.1, p.2, hp⟩
  · rename_i hlen
    split at h
    · rename_i y
      obtain ⟨x, hx⟩ := exists_error_of_mapM h
      exact .inl ⟨x, y, hx⟩
    · rename_i x _
      obtain ⟨y, hy⟩ := exists_error_of_mapM h
      exact .inl ⟨x, y, hy⟩
    · rename_i hlhs hrhs
      cases h
      refine .inr ⟨⟨hlen, fun hone => ?_, fun hone => ?_⟩, rfl⟩
      · obtain ⟨x, hx⟩ := List.length_eq_one_iff.mp hone
        exact hlhs x hx
      · obtain ⟨y, hy⟩ := List.length_eq_one_iff.mp hone
        exact hrhs y hy

end

namespace TensorData

/-- Why elementwise arithmetic on two operands of one element type fails. -/
inductive BinaryFault (op : BinaryOp) (lhs rhs : TensorData) : ExecutionError → Prop
  | division : op = .div → lhs.dtype.isInteger = true →
      BinaryFault op lhs rhs (.fault .divisionByZero)
  | bool : lhs.dtype = .bool → BinaryFault op lhs rhs
      (.unimplemented "elementwise_binary" "bool operands are not supported")
  | length : Unpaired lhs.length rhs.length →
      BinaryFault op lhs rhs (.fault (.incompatibleLengths lhs.length rhs.length))

/-- Arithmetic on the elements of two operands, which `wrap` makes operands of. -/
theorem binary_of_pairwise {α : Type} {op : BinaryOp} (wrap : List α → TensorData)
    {f : α → α → Except ExecutionError α} {lhs rhs : List α}
    (hwrap : ∀ values, (wrap values).length = values.length)
    (hbinary : (wrap lhs).binary op (wrap rhs) = (pairwise f lhs rhs).map wrap)
    (hf : ∀ x y e, f x y = .error e → BinaryFault op (wrap lhs) (wrap rhs) e) :
    (∃ d, (wrap lhs).binary op (wrap rhs) = .ok d ∧
      d.length = pairedLength (wrap lhs).length (wrap rhs).length) ∨
    ∃ e, (wrap lhs).binary op (wrap rhs) = .error e ∧
      BinaryFault op (wrap lhs) (wrap rhs) e := by
  rw [hbinary]
  cases h : pairwise f lhs rhs with
  | ok values =>
    refine .inl ⟨wrap values, rfl, ?_⟩
    rw [hwrap, hwrap, hwrap, length_of_pairwise h]
  | error e =>
    refine .inr ⟨e, rfl, ?_⟩
    rcases pairwise_error h with ⟨x, y, hxy⟩ | ⟨hlen, rfl⟩
    · exact hf x y e hxy
    · rw [← hwrap lhs, ← hwrap rhs]
      rw [← hwrap lhs, ← hwrap rhs] at hlen
      exact .length hlen

theorem binary_outcome (op : BinaryOp) {lhs rhs : TensorData} (h : lhs.dtype = rhs.dtype) :
    (∃ d, lhs.binary op rhs = .ok d ∧ d.length = pairedLength lhs.length rhs.length) ∨
    ∃ e, lhs.binary op rhs = .error e ∧ BinaryFault op lhs rhs e := by
  match lhs, rhs, h with
  | .bool _, .bool _, _ => exact .inr ⟨_, rfl, .bool rfl⟩
  | .int32 _, .int32 _, _ =>
    refine binary_of_pairwise int32 (fun _ => rfl) rfl fun x y e he => ?_
    obtain ⟨hop, -, rfl⟩ := BinaryOp.apply_error he
    exact .division hop rfl
  | .int64 _, .int64 _, _ =>
    refine binary_of_pairwise int64 (fun _ => rfl) rfl fun x y e he => ?_
    obtain ⟨hop, -, rfl⟩ := BinaryOp.apply_error he
    exact .division hop rfl
  | .float32 _, .float32 _, _ =>
    exact binary_of_pairwise float32 (fun _ => rfl) rfl fun _ _ _ he =>
      nomatch (BinaryOp.apply_error he).2.1
  | .float64 _, .float64 _, _ =>
    exact binary_of_pairwise float64 (fun _ => rfl) rfl fun _ _ _ he =>
      nomatch (BinaryOp.apply_error he).2.1

theorem unary_outcome (op : UnaryOp) {data : TensorData} (h : data.dtype ≠ .bool) :
    ∃ d, data.unary op = .ok d ∧ d.length = data.length := by
  cases data with
  | bool values => exact absurd rfl h
  | int32 values | int64 values | float32 values | float64 values =>
    exact ⟨_, rfl, List.length_map _⟩

theorem length_widen (data : TensorData) : data.widen.length = data.length := by
  cases data <;> simp [widen, length]

theorem length_cast (data : TensorData) (dtype : DType) :
    (data.cast dtype).length = data.length := by
  unfold cast
  split
  · rfl
  · split <;> simp [length, length_widen]

end TensorData

/-- How an operation of a well typed graph may still fail, from the types of its
operands: integer division, arithmetic on truth values, and arithmetic on operands of
one shape with an open axis whose extents turn out to differ. -/
inductive Operation.Fault : Operation → List Ty → ExecutionError → Prop
  | division {lhs rhs : TensorType} : lhs.dtype.isInteger = true →
      Fault (.binary .div) [.tensor lhs, .tensor rhs] (.fault .divisionByZero)
  | bool {op : BinaryOp} {lhs rhs : TensorType} : lhs.dtype = .bool →
      Fault (.binary op) [.tensor lhs, .tensor rhs]
        (.unimplemented "elementwise_binary" "bool operands are not supported")
  | length {op : BinaryOp} {type : TensorType} {lhs rhs : Nat} : .dynamic ∈ type.shape.dims →
      Fault (.binary op) [.tensor type, .tensor type] (.fault (.incompatibleLengths lhs rhs))
  | shape {op : BinaryOp} {type : TensorType} {cause : TensorError} :
      .dynamic ∈ type.shape.dims →
        Fault (.binary op) [.tensor type, .tensor type] (.fault (.malformedTensor cause))

/-- Without an open axis a shape admits one list of extents only. -/
theorem Shape.eq_of_admits {s : Shape} (hs : .dynamic ∉ s.dims) {xs ys : List Nat}
    (hxs : s.admits xs = true) (hys : s.admits ys = true) : xs = ys := by
  obtain ⟨dims⟩ := s
  simp only [admits, Bool.and_eq_true, beq_iff_eq] at hs hxs hys
  induction dims generalizing xs ys with
  | nil =>
    rw [List.length_eq_zero_iff.mp hxs.1.symm, List.length_eq_zero_iff.mp hys.1.symm]
  | cons d dims ih =>
    cases xs with
    | nil => simp at hxs
    | cons x xs =>
      cases ys with
      | nil => simp at hys
      | cons y ys =>
        cases d with
        | dynamic => simp at hs
        | fixed n =>
          simp only [List.length_cons, Nat.add_right_cancel_iff, List.zip_cons_cons, List.all_cons,
            Dimension.admits, Bool.and_eq_true, beq_iff_eq] at hxs hys
          have hrest := ih (by simpa using hs) ⟨hxs.1, hxs.2.2⟩ ⟨hys.1, hys.2.2⟩
          rw [← hxs.2.1, ← hys.2.1, hrest]

namespace Tensor

theorem capacity_nil : capacity [] = 1 := rfl

theorem checked_of_sized {shape : List Nat} {data : TensorData}
    (h : data.length = capacity shape) : checked shape data = .ok ⟨shape, data⟩ := by
  rw [checked, ofData, if_pos h]
  rfl

theorem sized_of_checked {shape : List Nat} {data : TensorData} {t : Tensor}
    (h : checked shape data = .ok t) : t.Sized := by
  unfold checked ofData at h
  split at h
  · rename_i hlen
    cases h
    exact hlen
  · cases h

theorem checked_error {shape : List Nat} {data : TensorData} {e : ExecutionError}
    (h : checked shape data = .error e) : ∃ cause, e = .fault (.malformedTensor cause) := by
  unfold checked ofData at h
  split at h
  · cases h
  · cases h
    exact ⟨_, rfl⟩

theorem shape_eq_nil {t : Tensor} {type : TensorType} (h : t.conformsTo type = true)
    (hrank : type.shape.rank = 0) : t.shape = [] :=
  List.isEmpty_iff.mp ((shape_isEmpty_iff h).mpr hrank)

/-- Operands of broadcast types have the same extents, or one of them is a scalar,
or they share a shape that leaves an axis open. -/
theorem shapes_of_broadcast {l r : Tensor} {lhs rhs type : TensorType}
    (hl : l.conformsTo lhs = true) (hr : r.conformsTo rhs = true)
    (h : Build.broadcastType? lhs rhs = some type) :
    (l.shape = r.shape ∨ l.shape = [] ∨ r.shape = []) ∨
      (lhs = rhs ∧ .dynamic ∈ lhs.shape.dims) := by
  unfold Build.broadcastType? at h
  split at h
  · cases h
  · rename_i hdtype
    split at h
    · rename_i hsame
      rcases hsame with hshape | hrank
      · by_cases hdynamic : .dynamic ∈ lhs.shape.dims
        · right
          refine ⟨?_, hdynamic⟩
          cases lhs
          cases rhs
          simp_all
        · left
          left
          have hladmits := ((conformsTo_iff l lhs).mp hl).2
          have hradmits := ((conformsTo_iff r rhs).mp hr).2
          rw [← hshape] at hradmits
          exact Shape.eq_of_admits hdynamic hladmits hradmits
      · exact .inl (.inr (.inr (shape_eq_nil hr hrank)))
    · split at h
      · rename_i hrank
        exact .inl (.inr (.inl (shape_eq_nil hl hrank)))
      · cases h

/-- Sized operands that agree in their extents, or of which one is a scalar, have as
many elements paired as the extents of the result ask for. -/
theorem pairedLength_of_shapes {l r : Tensor} (hl : l.Sized) (hr : r.Sized)
    (h : l.shape = r.shape ∨ l.shape = [] ∨ r.shape = []) :
    pairedLength l.data.length r.data.length =
        capacity (if l.shape.isEmpty then r.shape else l.shape) ∧
      ¬Unpaired l.data.length r.data.length := by
  unfold Sized at hl hr
  rw [hl, hr]
  unfold pairedLength Unpaired
  rcases h with h | h | h
  · rw [h]
    simp
  · rw [h, capacity_nil]
    simp
  · rw [h, capacity_nil]
    by_cases hempty : l.shape = []
    · simp [hempty, capacity_nil]
    · simpa [hempty] using Eq.symm

theorem dtype_of_broadcast {lhs rhs type : TensorType}
    (h : Build.broadcastType? lhs rhs = some type) : lhs.dtype = rhs.dtype := by
  unfold Build.broadcastType? at h
  split at h
  · cases h
  · rename_i hdtype
    exact Decidable.not_not.mp hdtype

/-- Arithmetic on sized operands of broadcast types. -/
theorem binary_outcome {op : BinaryOp} {l r : Tensor} {lhs rhs type : TensorType}
    (hl : l.conformsTo lhs = true) (hr : r.conformsTo rhs = true) (hlsized : l.Sized)
    (hrsized : r.Sized) (htype : Build.broadcastType? lhs rhs = some type) :
    (∃ t, l.binary op r = .ok t ∧ t.Sized) ∨
      ∃ e, l.binary op r = .error e ∧
        Operation.Fault (.binary op) [.tensor lhs, .tensor rhs] e := by
  have hldtype : l.data.dtype = lhs.dtype := ((conformsTo_iff l lhs).mp hl).1
  have hrdtype : r.data.dtype = rhs.dtype := ((conformsTo_iff r rhs).mp hr).1
  have hdtype : l.data.dtype = r.data.dtype := by
    rw [hldtype, hrdtype, dtype_of_broadcast htype]
  have hshapes := shapes_of_broadcast hl hr htype
  rw [binary]
  rcases TensorData.binary_outcome op hdtype with ⟨d, hd, hlen⟩ | ⟨e, he, hfault⟩
  · rw [hd, ok_bind]
    cases hchecked : checked (if l.shape.isEmpty then r.shape else l.shape) d with
    | ok t => exact .inl ⟨t, rfl, sized_of_checked hchecked⟩
    | error e =>
      right
      obtain ⟨cause, rfl⟩ := checked_error hchecked
      rcases hshapes with hshapes | ⟨rfl, hdynamic⟩
      · have hsized := hlen.trans (pairedLength_of_shapes hlsized hrsized hshapes).1
        rw [checked_of_sized hsized] at hchecked
        cases hchecked
      · exact ⟨_, rfl, .shape hdynamic⟩
  · rw [he, error_bind]
    refine .inr ⟨e, rfl, ?_⟩
    cases hfault with
    | division hop hinteger =>
      subst hop
      exact .division (hldtype ▸ hinteger)
    | bool hbool => exact .bool (hldtype ▸ hbool)
    | length hlen =>
      rcases hshapes with hshapes | ⟨rfl, hdynamic⟩
      · exact absurd hlen (pairedLength_of_shapes hlsized hrsized hshapes).2
      · exact .length hdynamic

theorem unary_of_sized (op : UnaryOp) {t : Tensor} (hdtype : t.dtype ≠ .bool) (h : t.Sized) :
    ∃ u, t.unary op = .ok u ∧ u.Sized := by
  obtain ⟨d, hd, hlen⟩ := TensorData.unary_outcome op hdtype
  have hsized : d.length = capacity t.shape := hlen.trans h
  exact ⟨⟨t.shape, d⟩, by rw [unary, hd, ok_bind, checked_of_sized hsized], hsized⟩

theorem cast_of_sized (dtype : DType) {t : Tensor} (h : t.Sized) :
    ∃ u, t.cast dtype = .ok u ∧ u.Sized := by
  unfold cast
  by_cases hsame : t.dtype = dtype
  · exact ⟨t, if_pos hsame, h⟩
  · have hsized : (t.data.cast dtype).length = capacity t.shape := by
      rw [TensorData.length_cast]
      exact h
    exact ⟨⟨t.shape, t.data.cast dtype⟩, by rw [if_neg hsame, checked_of_sized hsized], hsized⟩

end Tensor

end GraphFusion
