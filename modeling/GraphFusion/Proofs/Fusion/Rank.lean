import GraphFusion.Proofs.Fusion.Binding
import GraphFusion.Proofs.Fusion.NormalForm

/-!
Ranks. The rank of a type is its depth, so that what a function takes and gives, and
what a struct holds, has a smaller rank. A called lambda and a selection from a literal
struct have the rank of the function and of the struct; a block has the rank of the
called lambda it may have come from. Rewriting below a node makes nothing of a rank that
was not there, as long as what becomes of a part shows a new lambda or struct only at a
small rank.
-/

namespace GraphFusion

namespace Ty

mutual

/-- How deep a type is. -/
def rank : Ty → Nat
  | .tensor _ => 0
  | .struct es => rankElements es + 1
  | .function none r => rank r + 1
  | .function (some p) r => max (rank p) (rank r) + 1

def rankElements : List (Label × Ty) → Nat
  | [] => 0
  | (_, t) :: es => max (rank t) (rankElements es)

end

theorem rank_result_lt (p : Option Ty) (r : Ty) : r.rank < (Ty.function p r).rank := by
  cases p <;> simp only [rank] <;> omega

theorem rank_parameter_lt (p r : Ty) : p.rank < (Ty.function (some p) r).rank := by
  simp only [rank]
  omega

theorem rank_le_of_mem {e : Label × Ty} {es : List (Label × Ty)} (h : e ∈ es) :
    e.2.rank ≤ rankElements es := by
  induction es with
  | nil => cases h
  | cons e' es ih =>
    rw [rankElements]
    rcases List.mem_cons.mp h with rfl | h
    · exact Nat.le_max_left _ _
    · exact Nat.le_trans (ih h) (Nat.le_max_right _ _)

theorem rank_element_lt {t type : Ty} {index : Nat} (h : t.element? index = some type) :
    type.rank < t.rank := by
  obtain ⟨es, label, rfl, hget⟩ := element?_eq_some.mp h
  rw [rank]
  exact Nat.lt_succ_of_le (rank_le_of_mem (List.mem_of_getElem? hget))

end Ty

namespace Term

/-- What a node offers the node above: a lambda to call or a struct to select from. -/
inductive Face where
  | lambda
  | struct
  | other

def face : Term → Face
  | .lambda .. => .lambda
  | .struct _ => .struct
  | _ => .other

theorem isCalledLambda_call {f : Term} {a : Option Term} :
    (Term.call f a).IsCalledLambda ↔ f.face = .lambda := by
  cases f <;> simp [IsCalledLambda, face]

theorem isStructSelection_selection {source : Term} {index : Nat} :
    (Term.selection source index).IsStructSelection ↔ source.face = .struct := by
  cases source <;> simp [IsStructSelection, face]

theorem rank_pos_of_face {t : Term} (h : t.face ≠ .other) : 0 < t.type.rank := by
  cases t with
  | lambda x p r => exact Nat.zero_lt_of_lt (Ty.rank_result_lt p r.type)
  | struct es => exact Nat.succ_pos _
  | _ => exact absurd rfl h

/-- Called lambdas have at most rank `c`, selected structs at most rank `s`, and the
locals and the result of a block less than rank `b`. -/
def Ranked (c s b : Nat) : Term → Prop
  | .call f _ => f.face = .lambda → f.type.rank ≤ c
  | .selection t _ => t.face = .struct → t.type.rank ≤ s
  | .block ls r => (∀ l ∈ ls, l.2.type.rank < b) ∧ r.type.rank < b
  | _ => True

/-- Fits, and is ranked. -/
def Low (c s b : Nat) (t : Term) : Prop := t.Fits ∧ t.Ranked c s b

section

variable {c s b n : Nat} {t t' : Term}

theorem Ranked.mono {c' s' b' : Nat} (h : t.Ranked c s b) (hc : c ≤ c') (hs : s ≤ s')
    (hb : b ≤ b') : t.Ranked c' s' b' := by
  cases t with
  | call f a => exact fun hface => Nat.le_trans (h hface) hc
  | selection u index => exact fun hface => Nat.le_trans (h hface) hs
  | block ls r =>
    exact ⟨fun l hl => Nat.lt_of_lt_of_le (h.1 l hl) hb, Nat.lt_of_lt_of_le h.2 hb⟩
  | _ => trivial

theorem exists_bound {α : Type} {P : Nat → α → Prop} {l : List α}
    (hmono : ∀ m n a, m ≤ n → P m a → P n a) (h : ∀ a ∈ l, ∃ n, P n a) :
    ∃ n, ∀ a ∈ l, P n a := by
  induction l with
  | nil => exact ⟨0, List.forall_mem_nil _⟩
  | cons a l ih =>
    rw [List.forall_mem_cons] at h
    obtain ⟨m, hm⟩ := h.1
    obtain ⟨n, hn⟩ := ih h.2
    refine ⟨max m n, List.forall_mem_cons.mpr ⟨hmono _ _ a (Nat.le_max_left _ _) hm, ?_⟩⟩
    exact fun a' ha' => hmono _ _ a' (Nat.le_max_right _ _) (hn a' ha')

theorem exists_ranked (t : Term) : ∃ n, t.Ranked n n n := by
  cases t with
  | call f a => exact ⟨f.type.rank, fun _ => Nat.le_refl _⟩
  | selection u index => exact ⟨u.type.rank, fun _ => Nat.le_refl _⟩
  | block ls r =>
    obtain ⟨n, hn⟩ := exists_bound (P := fun n (l : String × Term) => l.2.type.rank < n)
      (fun _ _ _ hmn hlt => Nat.lt_of_lt_of_le hlt hmn) (l := ls) fun l _ => ⟨_, Nat.lt_succ_self _⟩
    refine ⟨max n (r.type.rank + 1), fun l hl => ?_, Nat.le_max_right _ _⟩
    exact Nat.lt_of_lt_of_le (hn l hl) (Nat.le_max_left _ _)
  | _ => exact ⟨0, trivial⟩

/-- A term is of some rank. -/
theorem exists_everywhere_low (ht : t.Constructed) : ∃ n, t.Everywhere (Low n n n) := by
  induction ht with
  | @node t hfits _ ih =>
    have hmono : ∀ m n (u : Term), m ≤ n → u.Everywhere (Low m m m) → u.Everywhere (Low n n n) :=
      fun m n u hmn hu => hu.mono fun v hv => ⟨hv.1, hv.2.mono hmn hmn hmn⟩
    obtain ⟨m, hm⟩ := exists_ranked t
    obtain ⟨n, hn⟩ := exists_bound hmono ih
    refine ⟨max m n, .node ⟨hfits, ?_⟩ fun c hc => ?_⟩
    · exact hm.mono (Nat.le_max_left _ _) (Nat.le_max_left _ _) (Nat.le_max_left _ _)
    · exact hmono _ _ c (Nat.le_max_right _ _) (hn c hc)

/-- Every redex has a rank. -/
theorem Low.reduced (h : t.Low 0 0 0) : t.Reduced True where
  unblocked := by
    refine ⟨h.1, fun hblock => ?_⟩
    cases t with
    | block ls r => exact Nat.not_lt_zero _ h.2.2
    | _ => exact hblock
  notCalledLambda _ hcalled := by
    cases t with
    | call f a =>
      have hface := isCalledLambda_call.mp hcalled
      exact absurd (rank_pos_of_face (by simp [hface])) (Nat.not_lt_of_le (h.2 hface))
    | _ => exact hcalled
  notStructSelection _ hselection := by
    cases t with
    | selection source index =>
      have hface := isStructSelection_selection.mp hselection
      exact absurd (rank_pos_of_face (by simp [hface])) (Nat.not_lt_of_le (h.2 hface))
    | _ => exact hselection

/-- Of the same type, and a lambda or a literal struct only where the old term was one
or at a rank of at most `n`. -/
structure Renewed (n : Nat) (t t' : Term) : Prop where
  type : t'.type = t.type
  face : t'.face = .other ∨ t'.face = t.face ∨ t'.type.rank ≤ n

theorem Renewed.rank_le {m : Nat} {k : Face} (h : Renewed n t t') (hface : t'.face = k)
    (hk : k ≠ .other) (ht : t.face = k → t.type.rank ≤ m) : t'.type.rank ≤ max m n := by
  rcases h.face with hother | hsame | hrank
  · exact absurd (hface.symm.trans hother) hk
  · rw [h.type]
    exact Nat.le_trans (ht (hsame.symm.trans hface)) (Nat.le_max_left _ _)
  · exact Nat.le_trans hrank (Nat.le_max_right _ _)

variable {Γ : Context}

theorem OverLocals.rank_lt {ls ls' : List (String × Term)}
    (h : OverLocals (fun _ => Renewed n) Γ ls ls') (hls : ∀ l ∈ ls, l.2.type.rank < b) :
    ∀ l ∈ ls', l.2.type.rank < b := by
  induction h with
  | nil => exact hls
  | cons ht _ ih =>
    rw [List.forall_mem_cons] at hls ⊢
    refine ⟨?_, ih hls.2⟩
    rw [ht.type]
    exact hls.1

theorem Over.ranked (h : Over (fun _ => Renewed n) Γ t t') (ht : t.Ranked c s b) :
    t'.Ranked (max c n) (max s n) b := by
  cases h with
  | thunkCall hf => exact fun hface => hf.rank_le hface (by nofun) ht
  | call hf _ => exact fun hface => hf.rank_le hface (by nofun) ht
  | selection hs => exact fun hface => hs.rank_le hface (by nofun) ht
  | block hls hr =>
    refine ⟨hls.rank_lt ht.1, ?_⟩
    rw [hr.type]
    exact ht.2
  | reference | lambda | struct | compiled | intrinsic => trivial

/-- A node over renewed children is renewed. -/
theorem Over.renewed (h : Over (fun _ => Renewed n) Γ t t') (m : Nat) : Renewed m t t' := by
  refine ⟨(h.mono fun _ _ _ h => h.type).type_eq, .inr (.inl ?_)⟩
  cases h <;> rfl

end

end Term

end GraphFusion
