import GraphFusion.Proofs.Graph.Broadcasting

/-!
Integer arithmetic on tensors, said of the integers that their elements stand for. The
elements that meet are put through the operation as integers of their width. Only division
can fail, where two elements meet that have no quotient of that width; it then fails in the
same way wherever they stand.
-/

namespace GraphFusion

section

variable {ε α β γ : Type} {f : α → Except ε β} {xs : List α}

theorem exists_mapM {value : β → γ} {g : α → γ}
    (h : ∀ x ∈ xs, ∃ y, f x = .ok y ∧ value y = g x) :
    ∃ ys, xs.mapM f = .ok ys ∧ ys.map value = xs.map g := by
  obtain ⟨ys, hys, hall⟩ := exists_mapM_eq_ok h
  exact ⟨ys, hys, (map_eq_map_of_forall₂ hall fun _ _ h => h.symm).symm⟩

/-- Where `f` fails in one way only, it fails on a list as soon as it fails on an element. -/
theorem mapM_eq_error {e : ε} (hf : ∀ x, (∃ y, f x = .ok y) ∨ f x = .error e) {x : α}
    (hx : x ∈ xs) (h : f x = .error e) : xs.mapM f = .error e := by
  induction xs with
  | nil => cases hx
  | cons x' xs ih =>
    rw [List.mapM_cons]
    -- What comes before `x` may fail too, but it fails alike.
    rcases hf x' with ⟨y, hy⟩ | he
    · have hrest : x ∈ xs := by
        rcases List.mem_cons.mp hx with rfl | hrest
        · rw [hy] at h
          cases h
        · exact hrest
      rw [hy, ok_bind, ih hrest]
      rfl
    · rw [he]
      rfl

end

section

variable {α β : Type}

/-- The elements of an operand as `n` elements: a single one stands for all of them. -/
def spread (n : Nat) : List α → List α
  | [x] => List.replicate n x
  | values => values

/-- The elements that meet when two operands are paired. -/
def paired (lhs rhs : List α) : List (α × α) :=
  (spread (pairedLength lhs.length rhs.length) lhs).zip
    (spread (pairedLength lhs.length rhs.length) rhs)

theorem spread_length (values : List α) : spread values.length values = values := by
  match values with
  | [] => rfl
  | [x] => rfl
  | _ :: _ :: _ => rfl

theorem spread_map (g : α → β) (n : Nat) (values : List α) :
    spread n (values.map g) = (spread n values).map g := by
  match values with
  | [] => rfl
  | [x] => exact List.map_replicate.symm
  | _ :: _ :: _ => rfl

theorem paired_map (g : α → β) (lhs rhs : List α) :
    paired (lhs.map g) (rhs.map g) = (paired lhs rhs).map (Prod.map g g) := by
  simp only [paired, List.length_map, spread_map, List.zip_map]

theorem paired_of_length_eq {lhs rhs : List α} (h : lhs.length = rhs.length) :
    paired lhs rhs = lhs.zip rhs := by
  have hlength : pairedLength lhs.length rhs.length = lhs.length := by
    rw [pairedLength, ← h, ite_self]
  rw [paired, hlength, spread_length, h, spread_length]

theorem paired_single_left (x : α) (rhs : List α) :
    paired [x] rhs = rhs.map fun y => (x, y) := by
  have hlength : pairedLength [x].length rhs.length = rhs.length := rfl
  rw [paired, hlength, spread_length, spread, ← List.map_const, ← List.map_prod_right_eq_zip]
  rfl

theorem paired_single_right (y : α) {lhs : List α} (h : lhs.length ≠ 1) :
    paired lhs [y] = lhs.map fun x => (x, y) := by
  have hlength : pairedLength lhs.length [y].length = lhs.length := if_neg h
  rw [paired, hlength, spread_length, spread, ← List.map_const, ← List.map_prod_left_eq_zip]
  rfl

theorem pairwise_eq_mapM {f : α → α → Except ExecutionError α} {lhs rhs : List α}
    (h : ¬ Unpaired lhs.length rhs.length) :
    pairwise f lhs rhs = (paired lhs rhs).mapM fun p => f p.1 p.2 := by
  rcases pairable_cases h with hlen | ⟨x, rfl, hrhs⟩ | ⟨y, rfl, hlhs⟩
  · unfold pairwise
    rw [if_pos hlen, paired_of_length_eq hlen]
  · rw [pairwise_single_left x hrhs, paired_single_left x rhs, List.mapM_map]
    rfl
  · rw [pairwise_single_right y hlhs, paired_single_right y hlhs, List.mapM_map]
    rfl

end

namespace DType

/-- Width of an element in bits. -/
def bits (d : DType) : Nat := 8 * d.sizeInBytes

end DType

namespace Arithmetic

section

variable {α : Type} {arithmetic : Arithmetic α} {bits : Nat} {value : α → Int} {op : BinaryOp}
  {lhs rhs : List α}

/-- Paired words that all have a result. -/
theorem Realizes.exists_pairwise (h : arithmetic.Realizes bits value)
    (hlen : ¬ Unpaired lhs.length rhs.length)
    (hdefined : ∀ p ∈ paired (lhs.map value) (rhs.map value), ¬ op.NoQuotient bits p.1 p.2) :
    ∃ values, pairwise (op.apply arithmetic) lhs rhs = .ok values ∧ values.map value =
      (paired (lhs.map value) (rhs.map value)).map fun p => op.onIntegers bits p.1 p.2 := by
  rw [paired_map] at hdefined ⊢
  rw [pairwise_eq_mapM hlen, List.map_map]
  exact exists_mapM fun p hp => h.defined op p.1 p.2 (hdefined _ (List.mem_map_of_mem hp))

/-- Paired words of which two have no quotient. -/
theorem Realizes.pairwise_eq_error (h : arithmetic.Realizes bits value)
    (hlen : ¬ Unpaired lhs.length rhs.length)
    (hundefined : ∃ p ∈ paired (lhs.map value) (rhs.map value), op.NoQuotient bits p.1 p.2) :
    pairwise (op.apply arithmetic) lhs rhs = .error (.fault .divisionByZero) := by
  rw [paired_map] at hundefined
  obtain ⟨_, hmem, hnone⟩ := hundefined
  obtain ⟨p, hp, rfl⟩ := List.mem_map.mp hmem
  rw [pairwise_eq_mapM hlen]
  refine mapM_eq_error (fun q => ?_) hp (h.undefined op p.1 p.2 hnone)
  by_cases hq : op.NoQuotient bits (value q.1) (value q.2)
  · exact .inr (h.undefined op q.1 q.2 hq)
  · obtain ⟨z, hz, -⟩ := h.defined op q.1 q.2 hq
    exact .inl ⟨z, hz⟩

end

end Arithmetic

namespace TensorData

/-- The integers that the elements stand for. -/
def integers : TensorData → List Int
  | int32 values => values.map Int32.toInt
  | int64 values => values.map Int64.toInt
  | bool _ | float32 _ | float64 _ => []

section

variable {op : BinaryOp} {lhs rhs : TensorData}

theorem exists_binary_of_integers (hdtype : lhs.dtype = rhs.dtype)
    (hinteger : lhs.dtype.isInteger = true) (h : ¬ Unpaired lhs.length rhs.length)
    (hdefined : ∀ p ∈ paired lhs.integers rhs.integers,
      ¬ op.NoQuotient lhs.dtype.bits p.1 p.2) :
    ∃ d, lhs.binary op rhs = .ok d ∧ d.dtype = lhs.dtype ∧ d.integers =
      (paired lhs.integers rhs.integers).map fun p => op.onIntegers lhs.dtype.bits p.1 p.2 := by
  match lhs, rhs, hdtype with
  | .bool _, .bool _, _ | .float32 _, .float32 _, _ | .float64 _, .float64 _, _ => cases hinteger
  | .int32 _, .int32 _, _ =>
    obtain ⟨values, hvalues, hintegers⟩ := Arithmetic.realizes_int32.exists_pairwise h hdefined
    exact ⟨int32 values, by rw [binary, hvalues]; rfl, rfl, hintegers⟩
  | .int64 _, .int64 _, _ =>
    obtain ⟨values, hvalues, hintegers⟩ := Arithmetic.realizes_int64.exists_pairwise h hdefined
    exact ⟨int64 values, by rw [binary, hvalues]; rfl, rfl, hintegers⟩

theorem binary_eq_error_of_integers (hdtype : lhs.dtype = rhs.dtype)
    (hinteger : lhs.dtype.isInteger = true) (h : ¬ Unpaired lhs.length rhs.length)
    (hundefined : ∃ p ∈ paired lhs.integers rhs.integers,
      op.NoQuotient lhs.dtype.bits p.1 p.2) :
    lhs.binary op rhs = .error (.fault .divisionByZero) := by
  match lhs, rhs, hdtype with
  | .bool _, .bool _, _ | .float32 _, .float32 _, _ | .float64 _, .float64 _, _ => cases hinteger
  | .int32 _, .int32 _, _ =>
    rw [binary, Arithmetic.realizes_int32.pairwise_eq_error h hundefined]
    rfl
  | .int64 _, .int64 _, _ =>
    rw [binary, Arithmetic.realizes_int64.pairwise_eq_error h hundefined]
    rfl

end

theorem map_value_map {α : Type} {value : α → Int} {f : α → α} {g : Int → Int}
    (h : ∀ x, value (f x) = g (value x)) (values : List α) :
    (values.map f).map value = (values.map value).map g := by
  rw [List.map_map, List.map_map]
  exact List.map_congr_left fun x _ => h x

theorem exists_unary_of_integers (op : UnaryOp) {data : TensorData}
    (hinteger : data.dtype.isInteger = true) :
    ∃ d, data.unary op = .ok d ∧ d.dtype = data.dtype ∧ d.length = data.length ∧
      d.integers = data.integers.map (op.onInteger data.dtype.bits) := by
  match data with
  | .bool _ | .float32 _ | .float64 _ => cases hinteger
  | .int32 values =>
    exact ⟨_, rfl, rfl, List.length_map _, map_value_map (Arithmetic.realizes_int32.unary op) values⟩
  | .int64 values =>
    exact ⟨_, rfl, rfl, List.length_map _, map_value_map (Arithmetic.realizes_int64.unary op) values⟩

end TensorData

namespace Tensor

/-- What the operations do to two integer tensors that pair: the words that meet, each read
as an integer, decide whether there is a result and what it is. -/
structure IntegerArithmetic (l r : Tensor) : Prop where
  succeeds_iff : ∀ op, (∃ t, l.binary op r = .ok t) ↔
    ∀ p ∈ paired l.data.integers r.data.integers, ¬ op.NoQuotient l.dtype.bits p.1 p.2
  result : ∀ op t, l.binary op r = .ok t → t.shape = pairedShape l r ∧ t.dtype = l.dtype ∧
    t.data.integers =
      (paired l.data.integers r.data.integers).map fun p => op.onIntegers l.dtype.bits p.1 p.2
  failure : ∀ op e, l.binary op r = .error e → op = .div ∧ e = .fault .divisionByZero
  unary : ∀ op, ∃ t, l.unary op = .ok t ∧ t.shape = l.shape ∧ t.dtype = l.dtype ∧
    t.data.integers = l.data.integers.map (op.onInteger l.dtype.bits)

section

variable {l r : Tensor}

theorem exists_binary_of_integers {op : BinaryOp} (hl : l.Sized) (hr : r.Sized)
    (hdtype : l.dtype = r.dtype) (hinteger : l.dtype.isInteger = true) (hpairs : l.Pairs r)
    (hdefined : ∀ p ∈ paired l.data.integers r.data.integers,
      ¬ op.NoQuotient l.dtype.bits p.1 p.2) :
    ∃ d, l.binary op r = .ok ⟨pairedShape l r, d⟩ ∧ d.dtype = l.dtype ∧ d.integers =
      (paired l.data.integers r.data.integers).map
        fun p => op.onIntegers l.dtype.bits p.1 p.2 := by
  obtain ⟨hpaired, hcapacity⟩ := (Pairs.iff_lengths hl hr).mp hpairs
  obtain ⟨d, hd, hd', hintegers⟩ :=
    TensorData.exists_binary_of_integers hdtype hinteger hpaired hdefined
  refine ⟨d, ?_, hd', hintegers⟩
  rw [binary, hd, ok_bind]
  exact checked_of_sized ((TensorData.length_of_binary hdtype hd).trans hcapacity)

theorem binary_eq_error_of_integers {op : BinaryOp} (hl : l.Sized) (hr : r.Sized)
    (hdtype : l.dtype = r.dtype) (hinteger : l.dtype.isInteger = true) (hpairs : l.Pairs r)
    (hundefined : ∃ p ∈ paired l.data.integers r.data.integers,
      op.NoQuotient l.dtype.bits p.1 p.2) :
    l.binary op r = .error (.fault .divisionByZero) := by
  have hpaired := ((Pairs.iff_lengths hl hr).mp hpairs).1
  rw [binary, TensorData.binary_eq_error_of_integers hdtype hinteger hpaired hundefined]
  rfl

/-- Arithmetic on integer tensors that pair is arithmetic on the integers of `bits` bits that
their elements stand for, wrapped around where the exact result does not fit. All operations
but division succeed; division fails just where some quotient does not exist in that width. -/
theorem integer_arithmetic (hl : l.Sized) (hr : r.Sized) (hdtype : l.dtype = r.dtype)
    (hinteger : l.dtype.isInteger = true) (hpairs : l.Pairs r) : IntegerArithmetic l r where
  succeeds_iff op := by
    constructor
    · rintro ⟨t, ht⟩ p hp hnone
      have herror := binary_eq_error_of_integers hl hr hdtype hinteger hpairs ⟨p, hp, hnone⟩
      rw [ht] at herror
      cases herror
    · intro hdefined
      obtain ⟨d, hd, -⟩ := exists_binary_of_integers hl hr hdtype hinteger hpairs hdefined
      exact ⟨_, hd⟩
  result op t ht := by
    by_cases hdefined : ∀ p ∈ paired l.data.integers r.data.integers,
        ¬ op.NoQuotient l.dtype.bits p.1 p.2
    · obtain ⟨d, hd, hd', hintegers⟩ :=
        exists_binary_of_integers hl hr hdtype hinteger hpairs hdefined
      rw [hd] at ht
      cases ht
      exact ⟨rfl, hd', hintegers⟩
    · push Not at hdefined
      rw [binary_eq_error_of_integers hl hr hdtype hinteger hpairs hdefined] at ht
      cases ht
  failure op e he := by
    by_cases hdefined : ∀ p ∈ paired l.data.integers r.data.integers,
        ¬ op.NoQuotient l.dtype.bits p.1 p.2
    · obtain ⟨d, hd, -⟩ := exists_binary_of_integers hl hr hdtype hinteger hpairs hdefined
      rw [hd] at he
      cases he
    · push Not at hdefined
      rw [binary_eq_error_of_integers hl hr hdtype hinteger hpairs hdefined] at he
      cases he
      obtain ⟨p, -, hop, -⟩ := hdefined
      exact ⟨hop, rfl⟩
  unary op := by
    obtain ⟨d, hd, hd', hlen, hintegers⟩ := TensorData.exists_unary_of_integers op hinteger
    refine ⟨⟨l.shape, d⟩, ?_, rfl, hd', hintegers⟩
    rw [unary, hd, ok_bind]
    exact checked_of_sized (hlen.trans hl)

end

/-- The least integer of each width, to which one is added and which has no quotient by minus
one. -/
theorem integer_arithmetic_least :
    let l : Tensor := ⟨[2], .int64 [Int64.minValue, 7]⟩
    let r : Tensor := ⟨[], .int64 [-1]⟩
    (l.Sized ∧ r.Sized ∧ l.dtype = r.dtype ∧ l.dtype.isInteger = true ∧ l.Pairs r) ∧
      (∃ t, l.binary .add r = .ok t ∧ t.data.integers = [2 ^ 63 - 1, 6]) ∧
      (∃ t, l.unary .abs = .ok t ∧ t.data.integers = [-2 ^ 63, 7]) ∧
      ¬ ∃ t, l.binary .div r = .ok t := by
  intro l r
  have hl : l.Sized := rfl
  have hr : r.Sized := rfl
  have hpairs : l.Pairs r := .inr (.inl rfl)
  have h : IntegerArithmetic l r := integer_arithmetic hl hr rfl rfl hpairs
  refine ⟨⟨hl, hr, rfl, rfl, hpairs⟩, ?_, ?_, ?_⟩
  · obtain ⟨t, ht⟩ := (h.succeeds_iff .add).mpr (by decide)
    exact ⟨t, ht, (h.result .add t ht).2.2.trans (by decide)⟩
  · obtain ⟨t, ht, -, -, hintegers⟩ := h.unary .abs
    exact ⟨t, ht, hintegers.trans (by decide)⟩
  · rw [h.succeeds_iff .div]
    decide

/-- A division by minus one may fail like one by zero, although the wrapped quotient would be
the least integer again, as its negation is. -/
theorem not_only_by_zero :
    let least : Tensor := ⟨[], .int32 [Int32.minValue]⟩
    let minusOne : Tensor := ⟨[], .int32 [-1]⟩
    least.binary .div minusOne = .error (.fault .divisionByZero) ∧
      BinaryOp.div.onIntegers 32 Int32.minValue.toInt (-1) = Int32.minValue.toInt ∧
      least.unary .neg = .ok least ∧
      ¬ ∀ l r : Tensor, l.Filled → r.Filled → l.dtype = r.dtype → l.dtype.isInteger = true →
        l.Broadcasts r → ((∃ e, l.binary .div r = .error e) ↔
          ∃ p ∈ paired l.data.integers r.data.integers, p.2 = 0) := by
  intro least minusOne
  have herror : least.binary .div minusOne = .error (.fault .divisionByZero) := by decide
  refine ⟨herror, by decide, by decide, fun h => ?_⟩
  obtain ⟨p, hp, hzero⟩ := (h least minusOne rfl rfl rfl rfl (.inl rfl)).mp ⟨_, herror⟩
  have hpair : paired least.data.integers minusOne.data.integers = [(-2 ^ 31, -1)] := by decide
  rw [hpair, List.mem_singleton] at hp
  rw [hp] at hzero
  cases hzero

end Tensor

end GraphFusion
