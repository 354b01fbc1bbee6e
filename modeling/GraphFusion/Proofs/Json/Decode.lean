import GraphFusion.Json.Decode
import GraphFusion.Proofs.Json.Lexer
import GraphFusion.Proofs.Lists
import Mathlib.Data.List.Nodup

/-!
Decoding what was encoded. Truth values, texts and machine integers come back from the JSON
made of them, and so do lists and optional values of what comes back; of a record all fields
are given, and an alternative keeps its name and its content.
-/

namespace GraphFusion.Json

section

variable {α β : Type} {decode : Json → Option α} {encode : α → Json} {fits : α → Prop}
  {decode' : Json → Option β} {encode' : β → Json} {fits' : β → Prop}

/-- The encoded form of `a` is decimal and decoded as `a`. -/
structure Restored (decode : Json → Option α) (encode : α → Json) (a : α) : Prop where
  decimal : (encode a).Decimal
  decodes : decode (encode a) = some a

/-- Whatever satisfies `fits` is restored. -/
def Restores (decode : Json → Option α) (encode : α → Json) (fits : α → Prop) : Prop :=
  ∀ a, fits a → Restored decode encode a

theorem restores_bool : Restores bool? .bool fun _ => True := fun b _ => ⟨.bool b, rfl⟩

theorem restores_text : Restores text? ofString fun _ => True := fun s _ => ⟨.string (some s), rfl⟩

/-- A name that is found again stands for its alternative. -/
theorem restores_constant {ofName? : String → Option α} {name : α → String}
    (h : ∀ a, ofName? (name a) = some a) :
    Restores (constant? ofName?) (fun a => ofString (name a)) fun _ => True :=
  fun a _ => ⟨.string (some (name a)), h a⟩

theorem restores_nat {limit : Nat} (hlimit : limit ≤ UInt64.size) :
    Restores (nat? limit) ofNat (· < limit) := by
  intro n hn
  have hnatural : (Number.ofNat n).natural? = some n := by
    have hword : n < UInt64.size := Nat.lt_of_lt_of_le hn hlimit
    simp [Number.natural?, Number.ofNat, Number.isInteger, hword]
  refine ⟨.number nofun, ?_⟩
  rw [ofNat, nat?, hnatural, Option.filter_some, decide_eq_true hn, if_pos rfl]

theorem restores_word32 : Restores word32? ofNat (· < UInt32.size) := restores_nat (by decide)

theorem restores_word64 : Restores word64? ofNat (· < UInt64.size) := restores_nat (Nat.le_refl _)

/-- An integer of at most 64 bits is read back whether it has a sign or not. -/
theorem int?_ofInt {bits : Nat} (hbits : bits ≤ 64) {n : Int}
    (hlow : -(Nat.pow 2 (bits - 1) : Int) ≤ n) (hhigh : n < (Nat.pow 2 (bits - 1) : Int)) :
    (ofInt n).int? bits = some n := by
  have hsize : UInt64.size = 18446744073709551616 := rfl
  have hhalf : Nat.pow 2 (bits - 1) ≤ 9223372036854775808 :=
    Nat.pow_le_pow_right (by decide) (by omega : bits - 1 ≤ 63)
  have hinteger : (Number.ofInt n).integer? = some n := by
    -- Only what is negative is read by way of its magnitude.
    by_cases hsign : n < 0
    · have hnatural : (Number.ofInt n).natural? = none := by
        simp [Number.natural?, Number.ofInt, hsign]
      have hnegative : (Number.ofInt n).negative? = some n.natAbs := by
        have hpos : 0 < n.natAbs := by omega
        have hbound : n.natAbs ≤ UInt64.size / 2 := by omega
        simp only [Number.negative?, Number.ofInt, Number.isInteger, decide_eq_true hsign]
        simp [hpos, hbound]
      have hneg : -(n.natAbs : Int) = n := by omega
      rw [Number.integer?, hnatural, hnegative]
      exact congrArg some hneg
    · have hnatural : (Number.ofInt n).natural? = some n.natAbs := by
        have hbound : n.natAbs < UInt64.size := by omega
        simp [Number.natural?, Number.ofInt, Number.isInteger, hsign, hbound]
      have hpos : (n.natAbs : Int) = n := by omega
      rw [Number.integer?, hnatural]
      exact congrArg some hpos
  rw [ofInt, int?, hinteger]
  exact Option.filter_eq_some_iff.mpr ⟨rfl, decide_eq_true ⟨hlow, hhigh⟩⟩

theorem restores_int32 : Restores int32? (fun n => ofInt n.toInt) fun _ => True := by
  intro n _
  have hlow : -(Nat.pow 2 31 : Int) ≤ n.toInt := n.le_toInt
  have hhigh : n.toInt < (Nat.pow 2 31 : Int) := n.toInt_lt
  refine ⟨.number nofun, ?_⟩
  rw [int32?, int?_ofInt (by decide) hlow hhigh, Option.map_some, Int32.ofInt_toInt]

theorem restores_int64 : Restores int64? (fun n => ofInt n.toInt) fun _ => True := by
  intro n _
  have hlow : -(Nat.pow 2 63 : Int) ≤ n.toInt := n.le_toInt
  have hhigh : n.toInt < (Nat.pow 2 63 : Int) := n.toInt_lt
  refine ⟨.number nofun, ?_⟩
  rw [int64?, int?_ofInt (by decide) hlow hhigh, Option.map_some, Int64.ofInt_toInt]

theorem Restores.list (h : Restores decode encode fits) :
    Restores (list? decode) (ofList encode) fun items => ∀ a ∈ items, fits a := by
  intro items hitems
  constructor
  · refine .array fun j hj => ?_
    obtain ⟨a, ha, rfl⟩ := List.mem_map.mp hj
    exact (h a (hitems a ha)).decimal
  · rw [ofList, list?, mapM_eq_some_iff, List.forall₂_map_left_iff, List.forall₂_same]
    exact fun a ha => (h a (hitems a ha)).decodes

theorem Restores.option (h : Restores decode encode fits) (hnull : ∀ a, encode a ≠ .null) :
    Restores (option? decode) (ofOption encode) fun o => ∀ a ∈ o, fits a := by
  intro o ho
  cases o with
  | none => exact ⟨.null, rfl⟩
  | some a =>
    refine ⟨(h a (ho a rfl)).decimal, ?_⟩
    rw [ofOption, option?.eq_2 _ _ (hnull a), (h a (ho a rfl)).decodes]
    rfl

theorem Restores.pair (h : Restores decode encode fits) (h' : Restores decode' encode' fits') :
    Restores (pair? decode decode') (fun p => .array [encode p.1, encode' p.2]) fun p =>
      fits p.1 ∧ fits' p.2 := by
  intro p hp
  have hfirst := h p.1 hp.1
  have hsecond := h' p.2 hp.2
  constructor
  · refine .array (List.forall_mem_cons.mpr ⟨?_, List.forall_mem_singleton.mpr ?_⟩)
    · exact hfirst.decimal
    · exact hsecond.decimal
  · rw [pair?, hfirst.decodes, hsecond.decodes]
    rfl

end

section

variable {members : List (String × Json)}

theorem decimal_record (h : ∀ m ∈ members, m.2.Decimal) : (record members).Decimal := by
  refine .object fun m hm => ?_
  obtain ⟨m', hm', rfl⟩ := List.mem_map.mp hm
  exact h m' hm'

theorem decimal_tagged {name : String} {j : Json} (h : j.Decimal) : (tagged name j).Decimal :=
  decimal_record (List.forall_mem_singleton.mpr h)

theorem depth_lt_depth_array {items : List Json} {j : Json} (hj : j ∈ items) :
    j.depth < (array items).depth := by
  rw [depth, Nat.lt_succ_iff]
  induction items with
  | nil => cases hj
  | cons i items ih =>
    rw [depthOfItems]
    rcases List.mem_cons.mp hj with rfl | hj
    · exact Nat.le_max_left ..
    · exact Nat.le_trans (ih hj) (Nat.le_max_right ..)

theorem depth_lt_depth_record {m : String × Json} (hm : m ∈ members) :
    m.2.depth < (record members).depth := by
  rw [record, depth, Nat.lt_succ_iff]
  induction members with
  | nil => cases hm
  | cons m' members ih =>
    rw [List.map_cons, depthOfMembers]
    rcases List.mem_cons.mp hm with rfl | hm
    · exact Nat.le_max_left ..
    · exact Nat.le_trans (ih hm) (Nat.le_max_right ..)

theorem depth_lt_depth_tagged (name : String) (j : Json) : j.depth < (tagged name j).depth :=
  depth_lt_depth_record (List.mem_singleton_self (name, j))

theorem depth_pos (j : Json) : 0 < j.depth := by
  cases j <;> simp [depth]

theorem lookup_record (h : (members.map (·.1)).Nodup) : ∀ m ∈ members,
    (members.map fun m => (some m.1, m.2)).lookup (some m.1) = some m.2 := by
  induction members with
  | nil => simp
  | cons m members ih =>
    rw [List.map_cons, List.nodup_cons] at h
    intro m' hm'
    rw [List.map_cons, List.lookup_cons]
    rcases List.mem_cons.mp hm' with rfl | hm'
    · simp
    · have hne : m'.1 ≠ m.1 := fun heq => h.1 (heq ▸ List.mem_map_of_mem hm')
      have hkey : (some m'.1 == some m.1) = false := by simpa using hne
      rw [hkey]
      exact ih h.2 m' hm'

theorem fields?_object (names : List String) (members : List (Text × Json)) :
    (object members).fields? names =
      if members.any (·.1.isNone) then none
      else if names.any fun name => decide (1 < members.countP (·.1 == some name)) then none
      else some (names.map fun name => (members.lookup (some name)).elim .missing .given) := by
  rw [fields?]
  refine ite_congr rfl (fun _ => rfl) fun _ => ite_congr rfl (fun _ => rfl) fun _ => ?_
  refine congrArg some (List.map_congr_left fun name _ => ?_)
  cases members.lookup (some name) <;> rfl

/-- All fields of a record are found, each with its own value. -/
theorem fields?_record (h : (members.map (·.1)).Nodup) :
    (record members).fields? (members.map (·.1)) = some (members.map fun m => .given m.2) := by
  have hrecord : record members = .object (members.map fun m => (some m.1, m.2)) := rfl
  have hkeys : ¬ (members.map fun m => (some m.1, m.2)).any (·.1.isNone) = true := by simp
  have honce : ¬ (members.map (·.1)).any (fun name =>
      decide (1 < (members.map fun m => (some m.1, m.2)).countP (·.1 == some name))) = true := by
    rw [Bool.not_eq_true, List.any_eq_false]
    intro name _
    have hcount := List.nodup_iff_count_le_one.mp h name
    rw [List.count_eq_countP, List.countP_map] at hcount
    rw [List.countP_map, decide_eq_true_eq, not_lt]
    exact hcount
  rw [hrecord, fields?_object, if_neg hkeys, if_neg honce, List.map_map]
  refine congrArg some (List.map_congr_left fun m hm => ?_)
  rw [Function.comp_apply, lookup_record h m hm, Option.elim_some]

theorem alternative?_tagged (name : String) (j : Json) :
    (tagged name j).alternative? = some (name, some j) := rfl

end

section

variable {α β : Type} {decode : Json → Option α} {encode : α → Json} {decode' : Json → Option β}
  {encode' : β → Json} {make : α → β} {name : String} {a : α}

/-- An alternative with content is restored when its content is. -/
theorem Restored.tagged (h : Restored decode encode a)
    (hencode : encode' (make a) = tagged name (encode a))
    (hdecode : ∀ j, decode' (Json.tagged name j) = (decode j).map make) :
    Restored decode' encode' (make a) where
  decimal := hencode ▸ decimal_tagged h.decimal
  decodes := by rw [hencode, hdecode, h.decodes, Option.map_some]

end

end GraphFusion.Json
