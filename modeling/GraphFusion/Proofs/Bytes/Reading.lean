import GraphFusion.Bytes.Reader
import Mathlib.Algebra.Group.Nat.Defs
import Mathlib.Tactic.Common

/-!
Readers against writers. A reader reads some bytes as a value when it takes
exactly these bytes, whatever follows them; that composes along a sequence of
reads. Each reader reads what its writer wrote, a number if it fits the width of
its word.
-/

namespace GraphFusion

namespace Bytes

@[simp] theorem length_word (width n : Nat) : (word width n).length = width := by
  induction width generalizing n with
  | zero => rfl
  | succ width ih => rw [word, List.length_cons, ih]

@[simp] theorem length_word32 (n : Nat) : (word32 n).length = 4 := length_word 4 n

@[simp] theorem length_word64 (n : Nat) : (word64 n).length = 8 := length_word 8 n

@[simp] theorem length_flag (b : Bool) : (flag b).length = 1 := rfl

@[simp] theorem length_utf8 (s : String) : (utf8 s).length = s.utf8ByteSize := rfl

@[simp] theorem length_text (s : String) : (text s).length = 8 + s.utf8ByteSize := by
  rw [text, List.length_append, length_word64, length_utf8]

/-- Items that are all written in the same number of bytes. -/
theorem length_flatMap_of_const {α : Type} {write : α → List UInt8} {width : Nat} {items : List α}
    (h : ∀ a ∈ items, (write a).length = width) :
    (items.flatMap write).length = width * items.length := by
  induction items with
  | nil => rfl
  | cons a items ih =>
    have ha : (write a).length = width := h a List.mem_cons_self
    have hitems := ih fun b hb => h b (List.mem_cons_of_mem _ hb)
    rw [List.flatMap_cons, List.length_append, ha, hitems, List.length_cons, Nat.mul_succ,
      Nat.add_comm]

end Bytes

namespace Reader

variable {α β : Type}

/-- In front of any bytes, the reader takes exactly `written` and gives `a`. -/
def Reads (read : Reader α) (written : List UInt8) (a : α) : Prop :=
  ∀ rest, read (written ++ rest) = some (a, rest)

theorem reads_pure (a : α) : Reads (pure a) [] a := fun _ => rfl

theorem Reads.bind {read : Reader α} {next : α → Reader β} {written written' : List UInt8}
    {a : α} {b : β} (hread : Reads read written a) (hnext : Reads (next a) written' b) :
    Reads (read >>= next) (written ++ written') b := by
  intro rest
  have h : read (written ++ (written' ++ rest)) = some (a, written' ++ rest) := hread _
  rw [List.append_assoc]
  change ((read (written ++ (written' ++ rest))).bind fun p => next p.1 p.2) = _
  rw [h]
  exact hnext rest

theorem Reads.map {read : Reader α} {written : List UInt8} {a : α} (h : Reads read written a)
    (f : α → β) : Reads (do return f (← read)) written (f a) := by
  have hreturn : Reads (do return f (← read)) (written ++ []) (f a) := h.bind (reads_pure (f a))
  rwa [List.append_nil] at hreturn

theorem Reads.front {read : Reader α} {written : List UInt8} {a : α} (h : Reads read written a)
    (rest : List UInt8) : front? read (written ++ rest) = some a := by
  rw [front?, h rest, Option.map_some]

theorem reads_byte (b : UInt8) : Reads byte [b] b := fun _ => rfl

/-- The low digit and the rest of a number make the number again. -/
theorem reads_word {width n : Nat} (h : n < 256 ^ width) :
    Reads (word width) (Bytes.word width n) n := by
  induction width generalizing n with
  | zero =>
    have hn : n = 0 := by simpa using h
    subst hn
    exact reads_pure 0
  | succ width ih =>
    have hhigh : n / 256 < 256 ^ width := by
      rw [Nat.div_lt_iff_lt_mul (by decide), ← Nat.pow_succ]
      exact h
    have hdigits : (UInt8.ofNat n).toNat + 256 * (n / 256) = n := by
      have hlow : (UInt8.ofNat n).toNat = n % 256 := UInt8.toNat_ofNat'
      rw [hlow, Nat.mod_add_div]
    have hread : Reads (word (width + 1)) (Bytes.word (width + 1) n)
        ((UInt8.ofNat n).toNat + 256 * (n / 256)) :=
      (reads_byte (UInt8.ofNat n)).bind ((ih hhigh).map fun high => _ + 256 * high)
    rw [hdigits] at hread
    exact hread

theorem reads_word32 {n : Nat} (h : n < UInt32.size) : Reads word32 (Bytes.word32 n) n :=
  reads_word h

theorem reads_word64 {n : Nat} (h : n < UInt64.size) : Reads word64 (Bytes.word64 n) n :=
  reads_word h

theorem reads_take (bytes : List UInt8) : Reads (take bytes.length) bytes bytes := by
  intro rest
  have hlong : ¬ (bytes ++ rest).length < bytes.length := by
    rw [List.length_append]
    omega
  rw [take, if_neg hlong, List.splitAt_eq, List.take_left, List.drop_left]

theorem ofUtf8?_utf8 (s : String) : ofUtf8? (Bytes.utf8 s) = some s := by
  have hbytes : (⟨(Bytes.utf8 s).toArray⟩ : ByteArray) = s.toByteArray := by
    rw [Bytes.utf8, Array.toArray_toList]
  rw [ofUtf8?, hbytes, String.fromUTF8?, dif_pos s.isValidUTF8]
  rfl

theorem reads_text {s : String} (h : s.utf8ByteSize < UInt64.size) :
    Reads text (Bytes.text s) s := by
  have htake := reads_take (Bytes.utf8 s)
  rw [Bytes.length_utf8] at htake
  refine (reads_word64 h).bind fun rest => ?_
  change ((take s.utf8ByteSize (Bytes.utf8 s ++ rest)).bind _) = _
  rw [htake rest, Option.bind_some]
  simp only [ofUtf8?_utf8]
  rfl

section

variable {read : Reader α} {write : β → List UInt8} {item : β → α} {items : List β}

theorem reads_repeated (h : ∀ b ∈ items, Reads read (write b) (item b)) :
    Reads (repeated read items.length) (items.flatMap write) (items.map item) := by
  induction items with
  | nil => exact reads_pure []
  | cons b items ih =>
    have hb : Reads read (write b) (item b) := h b List.mem_cons_self
    have hitems := ih fun c hc => h c (List.mem_cons_of_mem _ hc)
    exact hb.bind (hitems.map (item b :: ·))

theorem reads_list (h : ∀ b ∈ items, Reads read (write b) (item b))
    (hlength : items.length < UInt64.size) :
    Reads (list read) (Bytes.list write items) (items.map item) :=
  (reads_word64 hlength).bind (reads_repeated h)

end

end Reader

end GraphFusion
