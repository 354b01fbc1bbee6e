import GraphFusion.Proofs.Digits
import GraphFusion.Store.Config
import GraphFusion.Store.FileTree
import Mathlib.Data.List.Sort

/-!
Names of versions. A name stands for a version exactly when it is the stem and
the version's decimal digits, so different versions have different names, and the
name under which a version is prepared stands for none.
-/

namespace GraphFusion

/-- A name that an entry of a directory can have. -/
structure Admissible (name : String) : Prop where
  fits : Node.fits name = true
  nonnull : '\x00' ∉ name.toList

instance (name : String) : Decidable (Admissible name) :=
  decidable_of_iff (Node.fits name = true ∧ '\x00' ∉ name.toList)
    ⟨fun h => ⟨h.1, h.2⟩, fun h => ⟨h.fits, h.nonnull⟩⟩

theorem Admissible.contains_null {name : String} (h : Admissible name) :
    name.toList.contains '\x00' = false := by
  simpa using h.nonnull

theorem Admissible.of_append {a b : String} (h : Admissible (a ++ b)) : Admissible a := by
  obtain ⟨hfits, hnull⟩ := h
  simp only [Node.fits, decide_eq_true_eq, String.utf8ByteSize_append] at hfits
  rw [String.toList_append, List.mem_append, not_or] at hnull
  exact ⟨by simp only [Node.fits, decide_eq_true_eq]; omega, hnull.1⟩

namespace StoreConfig

theorem ofDigits?_toDigits (version : UInt64) :
    ofDigits? (Nat.toDigits 10 version.toNat) = some version := by
  have hdigits : (Nat.toDigits 10 version.toNat).any (fun c => !c.isDigit) = false := by
    rw [List.any_eq_false]
    intro c hc
    simpa using Nat.isDigit_of_mem_toDigits (by decide) (by decide) hc
  have hempty : (Nat.toDigits 10 version.toNat).isEmpty = false :=
    List.isEmpty_eq_false_iff.mpr Nat.toDigits_ne_nil
  have hzero : ¬ ((Nat.toDigits 10 version.toNat).head? = some '0' ∧
      Nat.toDigits 10 version.toNat ≠ ['0']) := by
    rintro ⟨hhead, hne⟩
    rcases Nat.eq_zero_or_pos version.toNat with h | h
    · rw [h, Nat.toDigits_zero] at hne
      exact hne rfl
    · exact head?_toDigits h hhead
  have hlt : version.toNat < UInt64.size := version.toNat_lt
  rw [ofDigits?, hdigits, hempty, if_neg (by simp), if_neg hzero, Nat.ofDigitChars_ten_toDigits]
  simp only [hlt, if_true, UInt64.ofNat_toNat]

theorem toDigits_of_ofDigits? {digits : List Char} {version : UInt64}
    (h : ofDigits? digits = some version) : Nat.toDigits 10 version.toNat = digits := by
  unfold ofDigits? at h
  split at h
  · cases h
  · rename_i hdigits
    simp only [Bool.or_eq_true, List.isEmpty_iff, List.any_eq_true, not_or, not_exists,
      not_and] at hdigits
    split at h
    · cases h
    · rename_i hzero
      dsimp only at h
      split at h
      · rename_i hlt
        cases h
        rw [UInt64.toNat_ofNat_of_lt' hlt]
        refine toDigits_ofDigitChars (fun c hc => ?_) hdigits.1 fun hhead => ?_
        · simpa using hdigits.2 c hc
        · by_contra hne
          exact hzero ⟨hhead, hne⟩
      · cases h

theorem toList_versionName (c : StoreConfig) (version : UInt64) :
    (c.versionName version).toList = c.stem.toList ++ Nat.toDigits 10 version.toNat := by
  rw [versionName, String.toList_append, Nat.toString_eq_ofList_toDigits, String.toList_ofList]

/-- A name stands for a version exactly when it is the name of that version. -/
theorem versionOf?_eq_some_iff {c : StoreConfig} {name : String} {version : UInt64} :
    c.versionOf? name = some version ↔ name = c.versionName version := by
  rw [versionOf?, ← String.toList_inj, toList_versionName]
  constructor
  · intro h
    obtain ⟨digits, hdigits, hversion⟩ := Option.bind_eq_some_iff.mp h
    rw [toDigits_of_ofDigits? hversion]
    exact (List.isPrefixOf?_eq_some_iff_append_eq.mp hdigits).symm
  · intro h
    rw [List.isPrefixOf?_eq_some_iff_append_eq.mpr h.symm]
    exact ofDigits?_toDigits version

@[simp] theorem versionName_inj {c : StoreConfig} {u v : UInt64} :
    c.versionName u = c.versionName v ↔ u = v := by
  constructor
  · intro h
    have hu := versionOf?_eq_some_iff.mpr (rfl : c.versionName u = c.versionName u)
    rw [h, versionOf?_eq_some_iff.mpr rfl] at hu
    exact (Option.some.inj hu).symm
  · rintro rfl
    rfl

/-- Different names are not read as one version. -/
theorem nodup_filterMap_versionOf? {c : StoreConfig} {names : List String} (h : names.Nodup) :
    (names.filterMap c.versionOf?).Nodup := by
  refine h.filterMap fun name name' u hu hu' => ?_
  rw [Option.mem_def, versionOf?_eq_some_iff] at hu hu'
  rw [hu, hu']

theorem mem_filterMap_versionOf? {c : StoreConfig} {names : List String} {v : UInt64} :
    v ∈ names.filterMap c.versionOf? ↔ c.versionName v ∈ names := by
  simp only [List.mem_filterMap, versionOf?_eq_some_iff, exists_eq_right]

@[simp] theorem stagingName_inj {c : StoreConfig} {u v : UInt64} :
    c.stagingName u = c.stagingName v ↔ u = v := by
  rw [stagingName, stagingName, String.append_left_inj, versionName_inj]

/-- The name under which a version is prepared ends in a letter and so stands for no version. -/
theorem versionOf?_stagingName (c : StoreConfig) (version : UInt64) :
    c.versionOf? (c.stagingName version) = none := by
  rw [Option.eq_none_iff_forall_ne_some]
  intro u hu
  have hname := congrArg String.toList (versionOf?_eq_some_iff.mp hu)
  rw [stagingName, String.toList_append, toList_versionName, toList_versionName,
    List.append_assoc, List.append_cancel_left_eq] at hname
  have hletter : 'p' ∈ Nat.toDigits 10 u.toNat := by
    rw [← hname]
    exact List.mem_append_right _ (by decide)
  exact absurd (Nat.isDigit_of_mem_toDigits (by decide) (by decide) hletter) (by decide)

@[simp] theorem versionName_ne_stagingName (c : StoreConfig) (u v : UInt64) :
    c.versionName u ≠ c.stagingName v := by
  intro h
  have hnone := versionOf?_stagingName c v
  rw [← h, versionOf?_eq_some_iff.mpr rfl] at hnone
  cases hnone

@[simp] theorem stagingName_ne_versionName (c : StoreConfig) (u v : UInt64) :
    c.stagingName u ≠ c.versionName v := (versionName_ne_stagingName c v u).symm

/-- A stem of 250 bytes leaves no room for the name of a staging directory. -/
theorem not_admissible_stagingName {c : StoreConfig} (h : 250 ≤ c.stem.utf8ByteSize) (v : UInt64) :
    ¬ Admissible (c.stagingName v) := by
  intro hname
  have hfits := hname.fits
  have hdigits : (toString v.toNat).utf8ByteSize ≠ 0 := by
    rw [ne_eq, String.utf8ByteSize_eq_zero_iff, ← String.toList_inj,
      Nat.toString_eq_ofList_toDigits, String.toList_ofList]
    exact Nat.toDigits_ne_nil
  have hsuffix : "_temp".utf8ByteSize = 5 := rfl
  simp only [Node.fits, stagingName, versionName, String.utf8ByteSize_append, hsuffix,
    decide_eq_true_eq] at hfits
  omega

/-- A stem of the given number of letters. -/
def letters : Nat → String
  | 0 => ""
  | n + 1 => (letters n).push 'p'

theorem notMem_letters (n : Nat) : '/' ∉ (letters n).toList := by
  induction n with
  | zero => simp [letters]
  | succ n ih => simpa [letters] using ih

theorem utf8ByteSize_letters (n : Nat) : (letters n).utf8ByteSize = n := by
  have hletter : 'p'.utf8Size = 1 := rfl
  induction n with
  | zero => rfl
  | succ n ih => rw [letters, String.utf8ByteSize_push, ih, hletter]

/-- Settings that a store accepts, with too long a stem for any staging directory. -/
theorem exists_longStemmed : ∃ c : StoreConfig, c.root ≠ "" ∧ '/' ∉ c.stem.toList ∧
    ∀ v, ¬ Admissible (c.stagingName v) := by
  have hletters : ∀ n, 250 ≤ n → ∃ c : StoreConfig, c.root ≠ "" ∧ '/' ∉ c.stem.toList ∧
      ∀ v, ¬ Admissible (c.stagingName v) := fun n hn =>
    ⟨⟨"states", letters n, 0, false⟩, (by simp), notMem_letters n,
      not_admissible_stagingName (hn.trans (utf8ByteSize_letters n).ge)⟩
  exact hletters 250 le_rfl

end StoreConfig

end GraphFusion
