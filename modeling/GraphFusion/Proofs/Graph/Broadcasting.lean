import GraphFusion.Proofs.Graph.Kernels
import Mathlib.Data.List.Zip

/-!
Which operands an elementwise operation takes. Elements are paired by their numbers,
while the extents of the result are those of the left operand unless it is a scalar.
On operands of the same extents, or of which one is a scalar, both agree and the
operands may be swapped. A single element on the right is paired with any left
operand, whatever its rank, but not one on the left; there, and between operands of
as many elements in other extents, swapping makes a difference.
-/

namespace GraphFusion

section

variable {α : Type} {f : α → α → Except ExecutionError α} {lhs rhs : List α}

theorem pairwise_of_unpaired (h : Unpaired lhs.length rhs.length) :
    pairwise f lhs rhs = .error (.fault (.incompatibleLengths lhs.length rhs.length)) := by
  obtain ⟨hlen, hlhs, hrhs⟩ := h
  unfold pairwise
  rw [if_neg hlen]
  split
  · exact absurd rfl hrhs
  · exact absurd rfl hlhs
  · rfl

theorem pairwise_single_left (x : α) (h : rhs.length ≠ 1) :
    pairwise f [x] rhs = rhs.mapM (f x) := by
  match rhs, h with
  | [], _ => rfl
  | [y], h => exact absurd rfl h
  | _ :: _ :: _, _ => rfl

theorem pairwise_single_right (y : α) (h : lhs.length ≠ 1) :
    pairwise f lhs [y] = lhs.mapM fun x => f x y := by
  match lhs, h with
  | [], _ => rfl
  | [x], h => exact absurd rfl h
  | _ :: _ :: _, _ => rfl

/-- Elements can be paired when there are equally many on both sides or only one on a side. -/
theorem pairable_cases (h : ¬ Unpaired lhs.length rhs.length) :
    lhs.length = rhs.length ∨ (∃ x, lhs = [x] ∧ rhs.length ≠ 1) ∨
      ∃ y, rhs = [y] ∧ lhs.length ≠ 1 := by
  by_cases hlen : lhs.length = rhs.length
  · exact .inl hlen
  · have hone : lhs.length = 1 ∨ rhs.length = 1 := by
      unfold Unpaired at h
      omega
    rcases hone with hone | hone
    · obtain ⟨x, rfl⟩ := List.length_eq_one_iff.mp hone
      exact .inr (.inl ⟨x, rfl, Ne.symm hlen⟩)
    · obtain ⟨y, rfl⟩ := List.length_eq_one_iff.mp hone
      exact .inr (.inr ⟨y, rfl, hlen⟩)

/-- A commutative operation does not see which operand stands on which side. -/
theorem pairwise_comm (hf : ∀ x y, f x y = f y x) (h : ¬ Unpaired lhs.length rhs.length) :
    pairwise f lhs rhs = pairwise f rhs lhs := by
  rcases pairable_cases h with hlen | ⟨x, rfl, hrhs⟩ | ⟨y, rfl, hlhs⟩
  · unfold pairwise
    rw [if_pos hlen, if_pos hlen.symm, ← List.zip_swap lhs rhs, List.mapM_map]
    exact congrArg (fun g => (lhs.zip rhs).mapM g) (funext fun p => hf p.1 p.2)
  · rw [pairwise_single_left x hrhs, pairwise_single_right x hrhs, funext (hf x)]
  · rw [pairwise_single_left y hlhs, pairwise_single_right y hlhs, funext (hf y)]

end

namespace TensorData

theorem binary_of_unpaired {op : BinaryOp} {lhs rhs : TensorData} (hdtype : lhs.dtype = rhs.dtype)
    (hnumeric : lhs.dtype ≠ .bool) (h : Unpaired lhs.length rhs.length) :
    ∃ e, lhs.binary op rhs = .error e := by
  match lhs, rhs, hdtype with
  | .bool _, .bool _, _ => exact absurd rfl hnumeric
  | .int32 _, .int32 _, _ | .int64 _, .int64 _, _ | .float32 _, .float32 _, _
  | .float64 _, .float64 _, _ =>
    rw [binary, pairwise_of_unpaired h]
    exact ⟨_, rfl⟩

/-- Apart from division, numbers are paired as long as their lengths allow. -/
theorem exists_binary_iff {op : BinaryOp} (hop : op ≠ .div) {lhs rhs : TensorData}
    (hdtype : lhs.dtype = rhs.dtype) (hnumeric : lhs.dtype ≠ .bool) :
    (∃ d, lhs.binary op rhs = .ok d) ↔ ¬ Unpaired lhs.length rhs.length := by
  constructor
  · rintro ⟨d, hd⟩ h
    obtain ⟨e, he⟩ : ∃ e, lhs.binary op rhs = .error e := binary_of_unpaired hdtype hnumeric h
    rw [hd] at he
    cases he
  · intro h
    rcases binary_outcome op hdtype with ⟨d, hd, -⟩ | ⟨e, -, hfault⟩
    · exact ⟨d, hd⟩
    · cases hfault with
      | division hdiv => exact absurd hdiv hop
      | bool hbool => exact absurd hbool hnumeric
      | length hlen => exact absurd hlen h

theorem length_of_binary {op : BinaryOp} {lhs rhs d : TensorData} (hdtype : lhs.dtype = rhs.dtype)
    (h : lhs.binary op rhs = .ok d) : d.length = pairedLength lhs.length rhs.length := by
  rcases binary_outcome op hdtype with ⟨d', hd', hlen⟩ | ⟨e, he, -⟩
  · rw [h] at hd'
    cases hd'
    exact hlen
  · rw [h] at he
    cases he

theorem binary_comm {op : BinaryOp} (hop : op.Commutes) {lhs rhs : TensorData}
    (hdtype : lhs.dtype = rhs.dtype) (hinteger : lhs.dtype.isInteger = true)
    (h : ¬ Unpaired lhs.length rhs.length) : lhs.binary op rhs = rhs.binary op lhs := by
  match lhs, rhs, hdtype with
  | .bool _, .bool _, _ | .float32 _, .float32 _, _ | .float64 _, .float64 _, _ => cases hinteger
  | .int32 _, .int32 _, _ =>
    exact congrArg (Except.map int32) (pairwise_comm (Arithmetic.realizes_int32.apply_comm hop) h)
  | .int64 _, .int64 _, _ =>
    exact congrArg (Except.map int64) (pairwise_comm (Arithmetic.realizes_int64.apply_comm hop) h)

end TensorData

namespace Tensor

/-- The extents are the same, or one of the operands is a scalar. -/
def Broadcasts (l r : Tensor) : Prop := l.shape = r.shape ∨ l.shape = [] ∨ r.shape = []

/-- There are as many elements on both sides or a single one on the right, or the left
operand is a scalar. -/
def Pairs (l r : Tensor) : Prop :=
  l.elementCount = r.elementCount ∨ r.elementCount = 1 ∨ l.shape = []

/-- The extents of the result: those of the left operand, unless it is a scalar. -/
def pairedShape (l r : Tensor) : List Nat := if l.shape.isEmpty then r.shape else l.shape

section

variable {op : BinaryOp} {l r : Tensor}

theorem Broadcasts.symm (h : l.Broadcasts r) : r.Broadcasts l :=
  h.imp Eq.symm Or.symm

theorem Sized.elementCount (h : l.Sized) : l.elementCount = capacity l.shape := h

/-- Lengths can be paired and give as many elements as the extents of the result ask for. -/
theorem Pairs.iff_lengths (hl : l.Sized) (hr : r.Sized) :
    l.Pairs r ↔ ¬ Unpaired l.data.length r.data.length ∧
      pairedLength l.data.length r.data.length = capacity (pairedShape l r) := by
  have hcount : l.elementCount = l.data.length := rfl
  have hcount' : r.elementCount = r.data.length := rfl
  unfold Pairs pairedShape Unpaired pairedLength
  rw [hcount, hcount']
  cases hshape : l.shape with
  | nil =>
    have hone : l.data.length = 1 := by rw [hl, hshape, capacity_nil]
    have hsized : r.data.length = capacity r.shape := hr
    simpa [hone] using hsized
  | cons n ns =>
    have hlen : capacity (n :: ns) = l.data.length := by rw [← hshape, hl]
    simp only [List.isEmpty_cons, Bool.false_eq_true, if_false, reduceCtorEq, or_false, hlen]
    split <;> omega

theorem Broadcasts.pairs (hl : l.Sized) (hr : r.Sized) (h : l.Broadcasts r) : l.Pairs r := by
  unfold Pairs
  rw [hl.elementCount, hr.elementCount]
  rcases h with h | h | h
  · exact .inl (by rw [h])
  · exact .inr (.inr h)
  · exact .inr (.inl (by rw [h, capacity_nil]))

theorem Broadcasts.pairedShape_swap (h : l.Broadcasts r) : pairedShape l r = pairedShape r l := by
  unfold pairedShape
  rcases h with h | h | h
  · rw [h]
  · simp [h]
  · simp +contextual [h]

theorem pairedShape_eq_left (h : l.shape = r.shape ∨ r.shape = []) :
    pairedShape l r = l.shape := by
  unfold pairedShape
  rcases h with h | h
  · rw [h, ite_self]
  · rw [h]
    split
    · rename_i hempty
      exact (List.isEmpty_iff.mp hempty).symm
    · rfl

theorem shape_of_binary {t : Tensor} (h : l.binary op r = .ok t) : t.shape = pairedShape l r := by
  obtain ⟨d, -, hchecked⟩ := bind_eq_ok.mp h
  rw [eq_of_checked hchecked]
  rfl

theorem exists_tensor_of_binary_iff (hop : op ≠ .div) (hl : l.Sized) (hr : r.Sized)
    (hdtype : l.dtype = r.dtype) (hnumeric : l.dtype ≠ .bool) :
    (∃ t, l.binary op r = .ok t) ↔ l.Pairs r := by
  rw [Pairs.iff_lengths hl hr]
  constructor
  · rintro ⟨t, ht⟩
    obtain ⟨d, hd, hchecked⟩ := bind_eq_ok.mp ht
    have hlen := TensorData.length_of_binary hdtype hd
    refine ⟨(TensorData.exists_binary_iff hop hdtype hnumeric).mp ⟨d, hd⟩, ?_⟩
    have hsized := sized_of_checked hchecked
    rw [eq_of_checked hchecked] at hsized
    exact hlen.symm.trans hsized
  · rintro ⟨hpaired, hcapacity⟩
    obtain ⟨d, hd⟩ := (TensorData.exists_binary_iff hop hdtype hnumeric).mpr hpaired
    have hlen := TensorData.length_of_binary hdtype hd
    refine ⟨⟨pairedShape l r, d⟩, ?_⟩
    rw [binary, hd, ok_bind]
    exact checked_of_sized (hlen.trans hcapacity)

/-- Whether swapped operands give a result, and of which extents, is the same just where
the operands broadcast or cannot be paired either way. -/
theorem Pairs.swap_iff (hl : l.Sized) (hr : r.Sized) :
    ((l.Pairs r ↔ r.Pairs l) ∧ (l.Pairs r → pairedShape l r = pairedShape r l)) ↔
      l.Broadcasts r ∨ (¬ l.Pairs r ∧ ¬ r.Pairs l) := by
  constructor
  · rintro ⟨hiff, hshape⟩
    by_cases hpairs : l.Pairs r
    · refine .inl ?_
      have hsame := hshape hpairs
      unfold pairedShape at hsame
      unfold Broadcasts
      cases hlshape : l.shape with
      | nil => exact .inr (.inl rfl)
      | cons n ns =>
        cases hrshape : r.shape with
        | nil => exact .inr (.inr rfl)
        | cons m ms => simpa [hlshape, hrshape] using hsame
    · exact .inr ⟨hpairs, fun h => hpairs (hiff.mpr h)⟩
  · rintro (h | ⟨hpairs, hswapped⟩)
    · exact ⟨iff_of_true (h.pairs hl hr) (h.symm.pairs hr hl), fun _ => h.pairedShape_swap⟩
    · exact ⟨iff_of_false hpairs hswapped, fun h => absurd h hpairs⟩

/-- The extents of the result, where there is one. -/
theorem shape?_binary (hop : op ≠ .div) (hl : l.Sized) (hr : r.Sized)
    (hdtype : l.dtype = r.dtype) (hnumeric : l.dtype ≠ .bool) (extents : List Nat) :
    (l.binary op r).toOption.map shape = some extents ↔
      l.Pairs r ∧ pairedShape l r = extents := by
  rw [← exists_tensor_of_binary_iff hop hl hr hdtype hnumeric]
  cases hresult : l.binary op r with
  | error e => simp [Except.toOption]
  | ok t =>
    rw [← shape_of_binary hresult]
    simp [Except.toOption]

/-- What an elementwise operation does with two operands: when it gives a result and of
which extents, and what becomes of these when the operands are swapped. -/
structure Pairing (op : BinaryOp) (l r : Tensor) : Prop where
  succeeds_iff : (∃ t, l.binary op r = .ok t) ↔ l.Pairs r
  shape_eq : ∀ t, l.binary op r = .ok t → t.shape = pairedShape l r
  broadcasts : l.Broadcasts r → ∃ t, l.binary op r = .ok t ∧
    (l.shape = r.shape ∨ r.shape = [] → t.shape = l.shape) ∧ (l.shape = [] → t.shape = r.shape)
  swapped : (l.binary op r).toOption.map shape = (r.binary op l).toOption.map shape ↔
    l.Broadcasts r ∨ (¬ l.Pairs r ∧ ¬ r.Pairs l)
  commutes : op.Commutes → l.dtype.isInteger = true → l.Broadcasts r →
    l.binary op r = r.binary op l

/-- An operation other than division takes two operands of one numeric element type just
when they pair; those that broadcast do, either way round, with the same result where
the operation is commutative. -/
theorem binary_pairing (hop : op ≠ .div) (hl : l.Sized) (hr : r.Sized)
    (hdtype : l.dtype = r.dtype) (hnumeric : l.dtype ≠ .bool) : Pairing op l r where
  succeeds_iff := exists_tensor_of_binary_iff hop hl hr hdtype hnumeric
  shape_eq _ := shape_of_binary
  broadcasts h := by
    obtain ⟨t, ht⟩ :=
      (exists_tensor_of_binary_iff hop hl hr hdtype hnumeric).mpr (h.pairs hl hr)
    refine ⟨t, ht, fun hsame => ?_, fun hscalar => ?_⟩
    · rw [shape_of_binary ht]
      exact pairedShape_eq_left hsame
    · rw [shape_of_binary ht]
      simp [pairedShape, hscalar]
  swapped := by
    -- which extents come out says whether there is a result as well
    rw [← Pairs.swap_iff hl hr, Option.ext_iff]
    simp only [shape?_binary hop hl hr hdtype hnumeric,
      shape?_binary hop hr hl hdtype.symm (hdtype ▸ hnumeric)]
    constructor
    · intro h
      have hforth := fun hpairs => (h (pairedShape l r)).mp ⟨hpairs, rfl⟩
      have hback := fun hpairs => (h (pairedShape r l)).mpr ⟨hpairs, rfl⟩
      exact ⟨⟨fun hpairs => (hforth hpairs).1, fun hpairs => (hback hpairs).1⟩,
        fun hpairs => (hforth hpairs).2.symm⟩
    · rintro ⟨hiff, hshape⟩ extents
      rw [← hiff]
      exact and_congr_right fun hpairs => by rw [hshape hpairs]
  commutes hcomm hinteger h := by
    have hpaired := ((Pairs.iff_lengths hl hr).mp (h.pairs hl hr)).1
    have hshape : (if l.shape.isEmpty then r.shape else l.shape) =
        if r.shape.isEmpty then l.shape else r.shape := h.pairedShape_swap
    rw [binary, binary, hshape, TensorData.binary_comm hcomm hdtype hinteger hpaired]

/-- Three elements and a single one, which is no scalar. -/
theorem binary_pairing_singleton :
    (⟨[3], .int32 [1, 2, 3]⟩ : Tensor).Sized ∧ (⟨[1], .int32 [1]⟩ : Tensor).Sized ∧
      Pairing .add ⟨[3], .int32 [1, 2, 3]⟩ ⟨[1], .int32 [1]⟩ := by
  have hl : (⟨[3], .int32 [1, 2, 3]⟩ : Tensor).Sized := rfl
  have hr : (⟨[1], .int32 [1]⟩ : Tensor).Sized := rfl
  exact ⟨hl, hr, binary_pairing (by decide) hl hr rfl (by decide)⟩

/-- A single element on the right is added to each of three although it is no scalar, and
on the left it is not. -/
theorem not_only_broadcasts :
    (⟨[3], .int32 [1, 2, 3]⟩ : Tensor).binary .add ⟨[1], .int32 [1]⟩ =
        .ok ⟨[3], .int32 [2, 3, 4]⟩ ∧
      (∃ e, (⟨[1], .int32 [1]⟩ : Tensor).binary .add ⟨[3], .int32 [1, 2, 3]⟩ = .error e) ∧
      ¬ ∀ (op : BinaryOp) (l r : Tensor), op ≠ .div → l.Filled → r.Filled → l.dtype = r.dtype →
        l.dtype ≠ .bool → ((∃ t, l.binary op r = .ok t) ↔ l.Broadcasts r) := by
  have hsum : (⟨[3], .int32 [1, 2, 3]⟩ : Tensor).binary .add ⟨[1], .int32 [1]⟩ =
      .ok ⟨[3], .int32 [2, 3, 4]⟩ := by decide
  refine ⟨hsum, ⟨_, rfl⟩, fun h => ?_⟩
  have hbroadcasts := (h .add ⟨[3], .int32 [1, 2, 3]⟩ ⟨[1], .int32 [1]⟩ (by decide) rfl rfl rfl
    (by decide)).mp ⟨_, hsum⟩
  unfold Broadcasts at hbroadcasts
  simp at hbroadcasts

end

end Tensor

end GraphFusion
