import GraphFusion.Proofs.Outcome
import Mathlib.Data.List.Forall2

/-!
Lists related entry by entry, where an entry of one list comes with an entry of the
other at the same place, as the results of an action on every element do with the
elements; and lists in ascending order.
-/

namespace GraphFusion

section

variable {α β : Type} {R : α → β → Prop} {xs : List α} {ys : List β}

theorem forall_of_forall₂ {Q : β → Prop} (h : List.Forall₂ R xs ys)
    (hQ : ∀ x y, x ∈ xs → R x y → Q y) : ∀ y ∈ ys, Q y := by
  induction h with
  | nil => simp
  | cons hR _ ih =>
    exact List.forall_mem_cons.mpr ⟨hQ _ _ List.mem_cons_self hR,
      ih fun x y hx hR => hQ x y (List.mem_cons_of_mem _ hx) hR⟩

theorem exists_left_of_forall₂ (h : List.Forall₂ R xs ys) {n : Nat} {y : β}
    (hy : ys[n]? = some y) : ∃ x, xs[n]? = some x ∧ R x y := by
  induction h generalizing n with
  | nil => cases hy
  | cons hR _ ih =>
    cases n with
    | zero =>
      cases hy
      exact ⟨_, rfl, hR⟩
    | succ n => exact ih hy

theorem exists_right_of_forall₂ (h : List.Forall₂ R xs ys) {n : Nat} {x : α}
    (hx : xs[n]? = some x) : ∃ y, ys[n]? = some y ∧ R x y := by
  have hflip : List.Forall₂ (fun y x => R x y) ys xs := h.flip
  exact exists_left_of_forall₂ hflip hx

theorem exists_mem_of_forall₂ (h : List.Forall₂ R xs ys) {y : β} (hy : y ∈ ys) :
    ∃ x ∈ xs, R x y := by
  obtain ⟨n, hn⟩ := List.mem_iff_getElem?.mp hy
  obtain ⟨x, hx, hR⟩ := exists_left_of_forall₂ h hn
  exact ⟨x, List.mem_of_getElem? hx, hR⟩

theorem exists_cons_of_forall₂_drop {n : Nat} {x : α}
    (h : List.Forall₂ R (x :: xs) (ys.drop n)) :
    ∃ y, ys[n]? = some y ∧ R x y ∧ List.Forall₂ R xs (ys.drop (n + 1)) := by
  obtain ⟨y, rest, hy, hrest, hdrop⟩ := List.forall₂_cons_left_iff.mp h
  have hhead : (ys.drop n)[0]? = some y := by
    rw [hdrop]
    rfl
  have htail : rest = ys.drop (n + 1) := by
    rw [← List.tail_drop, hdrop]
    rfl
  subst htail
  refine ⟨y, ?_, hy, hrest⟩
  rwa [List.getElem?_drop, Nat.add_zero] at hhead

theorem exists_concat_of_forall₂ {x : α} (h : List.Forall₂ R (xs ++ [x]) ys) :
    ∃ ys' y, ys = ys' ++ [y] ∧ List.Forall₂ R xs ys' ∧ R x y := by
  induction xs generalizing ys with
  | nil =>
    obtain ⟨y, _, hy, hnil, rfl⟩ := List.forall₂_cons_left_iff.mp h
    obtain rfl := List.forall₂_nil_left_iff.mp hnil
    exact ⟨[], y, rfl, .nil, hy⟩
  | cons z xs ih =>
    obtain ⟨w, ys, hw, hys, rfl⟩ := List.forall₂_cons_left_iff.mp h
    obtain ⟨ys', y, rfl, hall, hy⟩ := ih hys
    exact ⟨w :: ys', y, rfl, .cons hw hall, hy⟩

theorem map_eq_map_of_forall₂ {γ : Type} {f : α → γ} {g : β → γ} (h : List.Forall₂ R xs ys)
    (hfg : ∀ x y, R x y → f x = g y) : xs.map f = ys.map g := by
  induction h with
  | nil => rfl
  | cons hR _ ih => rw [List.map_cons, List.map_cons, hfg _ _ hR, ih]

theorem all_eq_all_of_forall₂ {f : α → Bool} {g : β → Bool} (h : List.Forall₂ R xs ys)
    (hfg : ∀ x y, R x y → f x = g y) : xs.all f = ys.all g := by
  induction h with
  | nil => rfl
  | cons hR _ ih => rw [List.all_cons, List.all_cons, hfg _ _ hR, ih]

end

section

variable {ε α β : Type} {xs : List α} {ys : List β}

theorem exists_forall₂ {R : α → β → Prop} (h : ∀ x ∈ xs, ∃ y, R x y) :
    ∃ ys, List.Forall₂ R xs ys := by
  induction xs with
  | nil => exact ⟨[], .nil⟩
  | cons x xs ih =>
    rw [List.forall_mem_cons] at h
    obtain ⟨y, hy⟩ := h.1
    obtain ⟨ys, hys⟩ := ih h.2
    exact ⟨y :: ys, .cons hy hys⟩

theorem mapM_eq_ok_iff {f : α → Except ε β} :
    xs.mapM f = .ok ys ↔ List.Forall₂ (fun x y => f x = .ok y) xs ys := by
  constructor
  · intro h
    induction xs generalizing ys with
    | nil =>
      cases h
      exact .nil
    | cons x xs ih =>
      rw [List.mapM_cons] at h
      obtain ⟨y, hy, h⟩ := bind_eq_ok.mp h
      obtain ⟨rest, hrest, h⟩ := bind_eq_ok.mp h
      cases h
      exact .cons hy (ih hrest)
  · intro h
    induction h with
    | nil => rfl
    | cons hy _ ih =>
      rw [List.mapM_cons, hy, ok_bind, ih]
      rfl

theorem mapM_eq_some_iff {f : α → Option β} :
    xs.mapM f = some ys ↔ List.Forall₂ (fun x y => f x = some y) xs ys := by
  constructor
  · intro h
    induction xs generalizing ys with
    | nil =>
      cases h
      exact .nil
    | cons x xs ih =>
      rw [List.mapM_cons] at h
      obtain ⟨y, hy, h⟩ := Option.bind_eq_some_iff.mp h
      obtain ⟨rest, hrest, h⟩ := Option.bind_eq_some_iff.mp h
      cases h
      exact .cons hy (ih hrest)
  · intro h
    induction h with
    | nil => rfl
    | cons hy _ ih =>
      rw [List.mapM_cons, hy, ih]
      rfl

/-- An action that succeeds on every element succeeds on all of them. -/
theorem exists_mapM_eq_ok {f : α → Except ε β} {R : α → β → Prop}
    (h : ∀ x ∈ xs, ∃ y, f x = .ok y ∧ R x y) :
    ∃ ys, xs.mapM f = .ok ys ∧ List.Forall₂ R xs ys := by
  obtain ⟨ys, hall⟩ := exists_forall₂ h
  exact ⟨ys, mapM_eq_ok_iff.mpr (hall.imp fun _ _ h => h.1), hall.imp fun _ _ h => h.2⟩

end

theorem map_fst_of_forall₂ {α β γ : Type} {R : α × β → α × γ → Prop} {es : List (α × β)}
    {fs : List (α × γ)} (h : List.Forall₂ (fun e f => e.1 = f.1 ∧ R e f) es fs) :
    es.map (·.1) = fs.map (·.1) :=
  map_eq_map_of_forall₂ h fun _ _ h => h.1

theorem nodup_eraseDups {α : Type} [BEq α] [LawfulBEq α] (xs : List α) : xs.eraseDups.Nodup := by
  match xs with
  | [] => exact List.nodup_nil
  | x :: xs =>
    rw [List.eraseDups_cons, List.nodup_cons]
    exact ⟨by simp, nodup_eraseDups (xs.filter fun y => !y == x)⟩
termination_by xs.length
decreasing_by exact Nat.lt_succ_of_le (List.length_filter_le _ _)

/-- Elements without repetition, put in order, ascend strictly. -/
theorem ascending_mergeSort {α : Type} [LE α] [LT α] [DecidableLE α] [Std.IsLinearOrder α]
    [Std.LawfulOrderLT α] {xs : List α} (h : xs.Nodup) :
    (xs.mergeSort fun a b => decide (a ≤ b)).Pairwise (· < ·) := by
  have hle : (xs.mergeSort fun a b => decide (a ≤ b)).Pairwise
      fun a b => decide (a ≤ b) = true := List.pairwise_mergeSort
    (fun a b c hab hbc => by
      rw [decide_eq_true_eq] at hab hbc ⊢
      exact Std.le_trans hab hbc)
    (fun a b => by simpa using Std.le_total) xs
  have hnodup := (List.mergeSort_perm xs fun a b => decide (a ≤ b)).nodup_iff.mpr h
  refine (hle.and hnodup).imp fun ⟨hab, hne⟩ => ?_
  exact Std.lt_of_le_of_ne (by simpa using hab) hne

end GraphFusion
