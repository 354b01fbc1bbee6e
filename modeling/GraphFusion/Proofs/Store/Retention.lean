import GraphFusion.Store.Config
import Mathlib.Data.Finset.Max
import Mathlib.Data.Finset.Card

/-!
Which versions a store keeps: the highest ones, as many as it is told to, and with
them the lowest one if it is told so. A version kept among more versions is kept
among fewer; and versions let go among fewer are let go among more, if no version
kept among more is left out.
-/

namespace GraphFusion

theorem nodup_of_ascending {versions : List UInt64} (h : versions.Pairwise (· < ·)) :
    versions.Nodup := h.imp fun hlt heq => by simp [heq] at hlt

/-- In an ascending list, the elements before the last `n` are those below `n` others. -/
theorem mem_take_length_sub_iff {l : List UInt64} (h : l.Pairwise (· < ·)) (n : Nat) (v : UInt64) :
    v ∈ l.take (l.length - n) ↔ v ∈ l ∧ n ≤ (l.filter (v < ·)).length := by
  induction l with
  | nil => simp
  | cons a l ih =>
    obtain ⟨ha, hl⟩ := List.pairwise_cons.mp h
    by_cases hv : v = a
    · subst hv
      have hall : (v :: l).filter (v < ·) = l := by
        rw [List.filter_cons_of_neg (by simp), List.filter_eq_self]
        exact fun u hu => decide_eq_true (ha u hu)
      rw [hall]
      by_cases hn : n ≤ l.length
      · simp [hn, Nat.succ_sub hn]
      · simp [hn, Nat.sub_eq_zero_of_le (Nat.succ_le_of_lt (Nat.lt_of_not_le hn))]
    · have hmem : v ∈ a :: l ↔ v ∈ l := by simp [hv]
      have hfilter : v ∈ l → (a :: l).filter (v < ·) = l.filter (v < ·) := by
        intro hvl
        refine List.filter_cons_of_neg ?_
        have hav := ha v hvl
        rw [UInt64.lt_iff_toNat_lt] at hav
        simpa [UInt64.le_iff_toNat_le] using hav.le
      by_cases hn : n ≤ l.length
      · rw [List.length_cons, Nat.succ_sub hn, List.take_succ_cons, List.mem_cons]
        have htake := ih hl
        constructor
        · intro hin
          obtain ⟨hvl, hlen⟩ := htake.mp (hin.resolve_left hv)
          rw [hfilter hvl]
          exact ⟨hmem.mpr hvl, hlen⟩
        · rintro ⟨hin, hlen⟩
          have hvl := hmem.mp hin
          rw [hfilter hvl] at hlen
          exact .inr (htake.mpr ⟨hvl, hlen⟩)
      · rw [List.length_cons, Nat.sub_eq_zero_of_le (by omega), List.take_zero]
        refine ⟨fun hin => absurd hin List.not_mem_nil, fun ⟨hin, hlen⟩ => ?_⟩
        rw [hfilter (hmem.mp hin)] at hlen
        have hle := List.length_filter_le (v < ·) l
        omega

namespace StoreConfig

/-- Whether a version is kept among the given ones: all are, or it is the lowest and
the lowest is kept, or few enough are higher. -/
def Keeps (c : StoreConfig) (versions : Finset UInt64) (version : UInt64) : Prop :=
  c.keepTotal = 0 ∨ (c.keepFirst = true ∧ ∀ u ∈ versions, version ≤ u) ∨
    (versions.filter (version < ·)).card < c.keepTotal

instance (c : StoreConfig) (versions : Finset UInt64) (version : UInt64) :
    Decidable (c.Keeps versions version) :=
  have : Decidable (∀ u ∈ versions, version ≤ u) := Finset.decidableDforallFinset
  inferInstanceAs (Decidable (_ ∨ (_ ∧ ∀ u ∈ versions, version ≤ u) ∨ _))

variable {c : StoreConfig} {s t : Finset UInt64} {v : UInt64}

theorem keeps_of_keepTotal_eq_zero (h : c.keepTotal = 0) : c.Keeps s v := .inl h

/-- What is kept among more versions is kept among fewer. -/
theorem Keeps.anti (hsub : s ⊆ t) (h : c.Keeps t v) : c.Keeps s v := by
  rcases h with hall | ⟨hfirst, hlowest⟩ | hhigh
  · exact .inl hall
  · exact .inr (.inl ⟨hfirst, fun u hu => hlowest u (hsub hu)⟩)
  · exact .inr (.inr ((Finset.card_le_card (Finset.filter_subset_filter _ hsub)).trans_lt hhigh))

/-- Among versions with all that are kept among more, no others are kept. -/
theorem Keeps.mono (hsub : s ⊆ t) (hall : ∀ u ∈ t, c.Keeps t u → u ∈ s) (hv : v ∈ s)
    (h : c.Keeps s v) : c.Keeps t v := by
  rcases h with hzero | ⟨hfirst, hlowest⟩ | hhigh
  · exact .inl hzero
  · obtain ⟨m, hm, hmin⟩ := Finset.exists_min_image t UInt64.toNat ⟨v, hsub hv⟩
    have hkept : c.Keeps t m :=
      .inr (.inl ⟨hfirst, fun u hu => UInt64.le_iff_toNat_le.mpr (hmin u hu)⟩)
    have hle := hlowest m (hall m hm hkept)
    refine .inr (.inl ⟨hfirst, fun u hu => UInt64.le_iff_toNat_le.mpr ?_⟩)
    exact (UInt64.le_iff_toNat_le.mp hle).trans (hmin u hu)
  · -- the highest version above `v` that is missing from `s` would be kept
    refine .inr (.inr ?_)
    by_contra hmany
    have hmissing : ((t.filter (v < ·)) \ (s.filter (v < ·))).Nonempty := by
      refine Finset.sdiff_nonempty.mpr fun hle => hmany ?_
      exact (Finset.card_le_card hle).trans_lt hhigh
    obtain ⟨w, hw, hmax⟩ := Finset.exists_max_image _ UInt64.toNat hmissing
    simp only [Finset.mem_sdiff, Finset.mem_filter, not_and] at hw hmax
    obtain ⟨⟨hwt, hvw⟩, hws⟩ := hw
    have habove : t.filter (w < ·) ⊆ s.filter (v < ·) := by
      intro u hu
      obtain ⟨hut, hwu⟩ := Finset.mem_filter.mp hu
      rw [UInt64.lt_iff_toNat_lt] at hwu hvw
      have hvu : v < u := UInt64.lt_iff_toNat_lt.mpr (by omega)
      by_contra hus
      have hle := hmax u ⟨⟨hut, hvu⟩, fun h _ => hus (Finset.mem_filter.mpr ⟨h, hvu⟩)⟩
      omega
    have hkept : c.Keeps t w := .inr (.inr ((Finset.card_le_card habove).trans_lt hhigh))
    exact hws (hall w hwt hkept) hvw

/-- The versions let go are those that are not kept. -/
theorem mem_evicted_iff {versions : List UInt64} (h : versions.Pairwise (· < ·)) :
    v ∈ c.evicted versions ↔ v ∈ versions ∧ ¬ c.Keeps versions.toFinset v := by
  have hnodup := nodup_of_ascending h
  have hcard : (versions.toFinset.filter (v < ·)).card = (versions.filter (v < ·)).length := by
    have hset : versions.toFinset.filter (v < ·) = (versions.filter (v < ·)).toFinset := by
      ext u
      simp
    rw [hset, List.toFinset_card_of_nodup (hnodup.filter _)]
  by_cases hzero : c.keepTotal = 0
  · simp [evicted, Keeps, hzero]
  rw [Keeps, hcard, evicted, if_neg hzero]
  by_cases hfirst : c.keepFirst = true
  · rw [if_pos hfirst]
    cases versions with
    | nil => simp
    | cons a rest =>
      obtain ⟨ha, hrest⟩ := List.pairwise_cons.mp h
      rw [List.tail_cons, mem_take_length_sub_iff hrest]
      by_cases hv : v = a
      · -- the lowest version is kept
        subst hv
        have hout : v ∉ rest := (List.nodup_cons.mp hnodup).1
        have hlowest : ∀ u ∈ (v :: rest).toFinset, v ≤ u := by
          intro u hu
          rcases List.mem_cons.mp (List.mem_toFinset.mp hu) with rfl | hu
          · exact UInt64.le_refl u
          · exact UInt64.le_of_lt (ha u hu)
        refine ⟨fun hin => absurd hin.1 hout, fun hin => absurd ?_ hin.2⟩
        exact .inr (.inl ⟨hfirst, hlowest⟩)
      · have hmem : v ∈ a :: rest ↔ v ∈ rest := by simp [hv]
        rw [hmem]
        refine and_congr_right fun hin => ?_
        have hnotlowest : ¬ ∀ u ∈ (a :: rest).toFinset, v ≤ u := by
          intro hall
          exact UInt64.not_lt.mpr (hall a (by simp)) (ha v hin)
        rw [List.filter_cons_of_neg (by simpa using UInt64.le_of_lt (ha v hin))]
        simp only [hzero, hnotlowest, and_false, false_or, Nat.not_lt]
  · rw [if_neg hfirst, mem_take_length_sub_iff h]
    simp [hzero, hfirst]

end StoreConfig

end GraphFusion
