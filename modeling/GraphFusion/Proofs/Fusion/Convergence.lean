import GraphFusion.Proofs.Fusion.Flags
import GraphFusion.Proofs.Fusion.Rank

/-!
Normalization converges. Inlining copies locals, and a copied lambda may be called where
it lands, so no size of a term goes down; but what is new is ever of a smaller rank. A
called lambda becomes a block whose local and result have a smaller rank than the
function; a local shows itself as a lambda or a struct at the rank of the local, and so
does an element at a rank below its struct's. After one round every redex is a called
lambda of a smaller rank than the greatest before, so after as many rounds as that rank
there is none, whatever the bound on the rounds.
-/

namespace GraphFusion

namespace Term

section

variable {C D : Carries} {c s b n : Nat} {t t' u v : Term}

/-- What a pass makes of a term: well bound as before, low, and renewed. -/
structure Lowered (n c s b : Nat) (t t' : Term) : Prop where
  renewed : Renewed n t t'
  wellBound : ∀ C, t.WellBound C → t'.WellBound C
  low : t'.Everywhere (Low c s b)

theorem Lowered.keepsBinding (h : Lowered n c s b t t') : KeepsBinding t t' :=
  ⟨h.renewed.type, h.wellBound⟩

/-- A rewriting lowers a term if it leaves alone only low nodes and puts a low term
without a new face of a great rank in place of the others. -/
theorem exists_lowered {rewrite : Term → Option Term} {c' s' b' : Nat}
    (hnone : ∀ u, u.Low (max c n) (max s n) b → rewrite u = none → u.Ranked c' s' b')
    (hsome : ∀ u v, u.Low (max c n) (max s n) b →
      (∀ d ∈ u.children, d.Everywhere (Low c' s' b')) → rewrite u = some v →
      KeepsBinding u v ∧ (v.face = .other ∨ v.type.rank ≤ n) ∧ v.Everywhere (Low c' s' b'))
    (ht : t.Everywhere (Low c s b)) :
    ∃ t' m, rewriteAll (fun u => .ok (rewrite u)) t = .ok (t', m) ∧ Lowered n c' s' b' t t' := by
  refine exists_rewriteAll (Γ := fun _ => none) (fun _ h => h.1) (fun _ _ h => h.renewed.type)
    (fun u u' hu hover hfits => ?_) ht
  have hrenewed : Over (fun _ => Renewed n) (fun _ => none) u u' :=
    hover.mono fun _ _ _ h => h.renewed
  have hkeeps : KeepsBinding u u' := (hover.mono fun _ _ _ h => h.keepsBinding).keepsBinding
  have hlow : u'.Low (max c n) (max s n) b := ⟨hfits, hrenewed.ranked hu.2⟩
  have hchildren : ∀ d ∈ u'.children, d.Everywhere (Low c' s' b') :=
    forall_of_forall₂ hover.forall₂_children fun _ _ _ h => h.low
  cases hr : rewrite u' with
  | none => exact ⟨hrenewed.renewed n, hkeeps.wellBound, .node ⟨hfits, hnone u' hlow hr⟩ hchildren⟩
  | some v =>
    obtain ⟨hkeeps', hface, hv⟩ := hsome u' v hlow hchildren hr
    have hboth := hkeeps.trans hkeeps'
    exact ⟨⟨hboth.type, hface.imp_right .inr⟩, hboth.wellBound, hv⟩

/-- A called lambda that fits takes its argument or nothing. -/
theorem calledLambdaToBlock?_eq_some (hu : u.Fits) (h : u.calledLambdaToBlock? = some v) :
    (∃ x r a, u = .call (.lambda x (some a.type) r) (some a) ∧ v = .block [(x, a)] r) ∨
      ∃ x r, u = .call (.lambda x none r) none ∧ v = .block [] r := by
  unfold calledLambdaToBlock? at h
  split at h
  · rename_i x p r a
    cases h
    obtain ⟨result, htype⟩ := fits_call.mp hu
    cases htype
    exact .inl ⟨x, r, a, rfl, rfl⟩
  · rename_i x p r a hnot
    cases h
    cases a with
    | none =>
      obtain ⟨result, htype⟩ := fits_thunkCall.mp hu
      cases htype
      exact .inr ⟨x, r, rfl, rfl⟩
    | some a =>
      obtain ⟨result, htype⟩ := fits_call.mp hu
      cases htype
      exact (hnot _ _ rfl rfl).elim
  · cases h

theorem keepsBinding_calledLambda {x : String} {r a : Term} :
    KeepsBinding (.call (.lambda x (some a.type) r) (some a)) (.block [(x, a)] r) := by
  refine ⟨by simp only [type, resultType], fun C h => ?_⟩
  cases h with
  | call hf ha =>
    cases hf with
    | lambda hr => exact .blockCons ha (.blockNil hr)

theorem keepsBinding_calledThunk {x : String} {r : Term} :
    KeepsBinding (.call (.lambda x none r) none) (.block [] r) := by
  refine ⟨by simp only [type, resultType], fun C h => ?_⟩
  cases h with
  | thunkCall hf _ =>
    cases hf with
    | lambda hr => exact .blockNil (hr.mono fun _ _ => Carries.of_bind_none)

/-- Called lambdas of rank `n` become blocks of rank `n`. -/
theorem exists_calledLambdasToBlocks (ht : t.Everywhere (Low n n n)) :
    ∃ t' m, t.calledLambdasToBlocks = .ok (t', m) ∧ Lowered 0 0 n n t t' := by
  refine exists_lowered (fun u hu hnone => ?_) (fun u v hu hchildren hsome => ?_) ht
  · rw [Nat.max_zero] at hu
    have hcalled := calledLambdaToBlock?_eq_none_iff.mp hnone
    cases u with
    | call f a => exact fun hface => absurd (isCalledLambda_call.mpr hface) hcalled
    | selection | block => exact hu.2
    | _ => trivial
  · rw [Nat.max_zero] at hu
    rcases calledLambdaToBlock?_eq_some hu.1 hsome with ⟨x, r, a, rfl, rfl⟩ | ⟨x, r, rfl, rfl⟩
    · have hrank : (Ty.function (some a.type) r.type).rank ≤ n := hu.2 rfl
      have hparameter := Ty.rank_parameter_lt a.type r.type
      have hresult := Ty.rank_result_lt (some a.type) r.type
      refine ⟨keepsBinding_calledLambda, .inl rfl, .node ⟨trivial, ?_, ?_⟩ ?_⟩
      · exact List.forall_mem_singleton.mpr (by simp only; omega)
      · omega
      · have hr : (Term.lambda x (some a.type) r).Everywhere (Low 0 n n) :=
          hchildren _ List.mem_cons_self
        refine List.forall_mem_cons.mpr ⟨hchildren a (by simp [children]), ?_⟩
        exact List.forall_mem_singleton.mpr (hr.child List.mem_cons_self)
    · have hrank : (Ty.function none r.type).rank ≤ n := hu.2 rfl
      have hresult := Ty.rank_result_lt none r.type
      refine ⟨keepsBinding_calledThunk, .inl rfl, .node ⟨trivial, List.forall_mem_nil _, ?_⟩ ?_⟩
      · omega
      · have hr : (Term.lambda x none r).Everywhere (Low 0 n n) := hchildren _ List.mem_cons_self
        exact List.forall_mem_singleton.mpr (hr.child List.mem_cons_self)

theorem element?_type {es : List (Label × Term)} {index : Nat} {e : Label × Term}
    (he : es[index]? = some e) : (Term.struct es).type.element? index = some e.2.type := by
  refine Ty.element?_eq_some.mpr ⟨elementTypes es, e.1, by rw [type], ?_⟩
  rw [elementTypes_eq_map, List.getElem?_map, he]
  rfl

theorem keepsBinding_element {es : List (Label × Term)} {index : Nat} {e : Label × Term}
    (he : es[index]? = some e) : KeepsBinding (.selection (.struct es) index) e.2 := by
  refine ⟨by rw [type, element?_type he, Option.getD_some], fun C h => ?_⟩
  cases h with
  | selection hs => exact wellBound_struct.mp hs e (List.mem_of_getElem? he)

/-- No selection from a struct stays, and the elements are of a rank below theirs. -/
theorem exists_selectionsFromStructs (ht : t.Everywhere (Low n (n + 1) 0)) :
    ∃ t' m, t.selectionsFromStructs = .ok (t', m) ∧ Lowered n n 0 0 t t' := by
  refine exists_lowered (fun u hu hnone => ?_) (fun u v hu hchildren hsome => ?_) ht
  · rw [Nat.max_self] at hu
    have hselection := not_isStructSelection hu.1 hnone
    cases u with
    | selection source index =>
      exact fun hface => absurd (isStructSelection_selection.mpr hface) hselection
    | call | block => exact hu.2
    | _ => trivial
  · unfold elementOfStruct? at hsome
    split at hsome
    · rename_i es index
      obtain ⟨e, he, rfl⟩ := Option.map_eq_some_iff.mp hsome
      have hrank : (Term.struct es).type.rank ≤ max (n + 1) n := hu.2 rfl
      have hlt := Ty.rank_element_lt (element?_type he)
      have hstruct : (Term.struct es).Everywhere (Low n 0 0) := hchildren _ List.mem_cons_self
      refine ⟨keepsBinding_element he, .inr (by omega), hstruct.child ?_⟩
      exact List.mem_map_of_mem (List.mem_of_getElem? he)
    · cases hsome

/-- What inlining makes of a term at rank `n`: a term over what the new names carry. -/
structure Expanded (D : Carries) (n : Nat) (t t' : Term) : Prop where
  renewed : Renewed n t t'
  wellBound : t'.WellBound D
  low : t'.Everywhere (Low n (n + 1) 0)

theorem expanded_reference {x z : String} {type : Ty} (h : D z type) :
    Expanded D n (.reference x type) (.reference z type) :=
  ⟨⟨rfl, .inl rfl⟩, .reference h, everywhere_reference ⟨trivial, trivial⟩⟩

theorem Expanded.under_binder (h : Expanded D n t t') {z : String} (hz : z ∉ t'.freeNames)
    (p : Option Ty) : Expanded (D.bind z p) n t t' :=
  ⟨h.renewed, h.wellBound.under_binder hz p, h.low⟩

namespace Substitution

/-- References become terms of their types, which are lambdas and structs at small ranks
only, over names that have been used or handed out. -/
structure Supplies (used : List String) (k : Nat) (C D : Carries) (n : Nat)
    (s : Substitution) : Prop where
  images : ∀ x type, C x type → Expanded D n (.reference x type) (s.image x type)
  named : ∀ y type, D y type → Named used k y

variable {used : List String} {s : Substitution}

theorem Supplies.mono {k k' : Nat} (h : s.Supplies used k C D n) (hk : k ≤ k') :
    s.Supplies used k' C D n :=
  ⟨h.images, fun y type hy => (h.named y type hy).mono hk⟩

theorem Supplies.enter {σ σ' : Inlining} {x z : String} {p : Option Ty} {inner : Substitution}
    (h : s.Supplies used σ.nextName C D n) (he : Entered used s σ x p z inner σ') :
    inner.Supplies used σ'.nextName (C.bind x p) (D.bind z p) n := by
  refine ⟨fun y type hy => ?_, fun y type hy => ?_⟩
  · by_cases hyx : y = x
    · subst hyx
      have hp := Carries.bind_self.mp hy
      rw [he.bound type hp]
      exact expanded_reference (Carries.bind_self.mpr hp)
    · rw [Carries.bind_of_ne hyx] at hy
      have himage := h.images y type hy
      rw [he.kept y type hyx]
      refine himage.under_binder (he.uncaptured y type hyx fun w hw => ?_) p
      obtain ⟨wtype, hwtype⟩ := himage.wellBound.exists_carried hw
      exact h.named w wtype hwtype
  · by_cases hyz : y = z
    · exact hyz ▸ he.named
    · rw [Carries.bind_of_ne hyz] at hy
      exact (h.named y type hy).mono he.before.nextName

/-- A local of a small rank may be a lambda or a struct. -/
theorem Supplies.extend {k : Nat} {x : String} (h : s.Supplies used k C D n)
    (ht : Expanded D n t t') (hrank : t.type.rank ≤ n) :
    (s.extend x t').Supplies used k (C.bind x (some t.type)) D n := by
  refine ⟨fun y type hy => ?_, h.named⟩
  by_cases hyx : y = x
  · subst hyx
    obtain rfl := Option.some.inj (Carries.bind_self.mp hy)
    rw [image_extend_self]
    refine ⟨⟨ht.renewed.type, .inr (.inr ?_)⟩, ht.wellBound, ht.low⟩
    rwa [ht.renewed.type]
  · rw [Carries.bind_of_ne hyx] at hy
    rw [image_extend_of_ne hyx]
    exact h.images y type hy

end Substitution

open Substitution

/-- Inlining a term without called lambdas succeeds, and expands it. -/
def Expands (used : List String) (n : Nat) (t : Term) : Prop :=
  ∀ (C D : Carries) (s : Substitution) (σ : Inlining), s.Supplies used σ.nextName C D n →
    t.WellBound C → t.names ⊆ used →
    ∃ t' σ', Yields (inline used s t) σ t' σ' ∧ σ.nextName ≤ σ'.nextName ∧ Expanded D n t t'

variable {used : List String}

theorem mapM_inline_expanded {ts : List Term} (hts : ∀ u ∈ ts, Expands used n u)
    {s : Substitution} {σ : Inlining} (hs : s.Supplies used σ.nextName C D n)
    (hC : ∀ u ∈ ts, u.WellBound C) (hused : ∀ u ∈ ts, u.names ⊆ used) :
    ∃ parts σ', Yields (ts.mapM (inline used s)) σ parts σ' ∧ σ.nextName ≤ σ'.nextName ∧
      List.Forall₂ (Expanded D n) ts parts := by
  induction ts generalizing σ with
  | nil =>
    rw [List.mapM_nil]
    exact ⟨[], σ, .pure _ _, Nat.le_refl _, .nil⟩
  | cons t ts ih =>
    rw [List.forall_mem_cons] at hts hC hused
    obtain ⟨t', σ₁, hrun, hle, ht'⟩ := hts.1 C D s σ hs hC.1 hused.1
    obtain ⟨parts, σ₂, hruns, hle', hparts⟩ := ih hts.2 (hs.mono hle) hC.2 hused.2
    refine ⟨t' :: parts, σ₂, ?_, Nat.le_trans hle hle', .cons ht' hparts⟩
    rw [List.mapM_cons]
    exact hrun.bind (hruns.bind (.pure _ _))

theorem Plain.ranked (ht : t.Plain) (h : t.Ranked c s b) (b' : Nat) : t.Ranked c s b' := by
  cases t with
  | call | selection | struct => exact h
  | _ => exact ht.elim

theorem expands_of_plain (ht : t.Plain) (hlow : t.Low 0 (n + 1) (n + 1))
    (h : ∀ d ∈ t.children, Expands used n d) : Expands used n t := by
  intro C D s σ hs hC hused
  obtain ⟨parts, σ', hrun, hle, hparts⟩ := mapM_inline_expanded h hs
    ((ht.wellBound_iff hlow.1).mp hC)
    fun d hd => List.Subset.trans (ht.names_subset hd) hused
  obtain ⟨t', hnew⟩ := exists_rebuilt hlow.1 (hparts.imp fun _ _ h => h.renewed.type)
  have hover : Over (fun _ => Expanded D n) (fun _ => none) t t' := over_of_withChildren hnew hparts
  have hrenewed : Over (fun _ => Renewed n) (fun _ => none) t t' :=
    hover.mono fun _ _ _ h => h.renewed
  have hfits := fits_of_withChildren hnew hparts
  have hplain := ht.over hover
  have hranked : t'.Ranked n (n + 1) 0 :=
    hplain.ranked ((hrenewed.ranked hlow.2).mono (by omega) (by omega) (Nat.le_refl _)) 0
  refine ⟨t', σ', ?_, hle, hrenewed.renewed n, ?_, .node ⟨hfits, hranked⟩ ?_⟩
  · rw [inline_of_plain ht]
    exact hrun.bind (yields_rebuild_iff.mpr ⟨hnew, rfl⟩)
  · exact (hplain.wellBound_iff hfits).mpr
      (forall_of_forall₂ hover.forall₂_children fun _ _ _ h => h.wellBound)
  · exact forall_of_forall₂ hover.forall₂_children fun _ _ _ h => h.low

theorem expands_lambda {x : String} {p : Option Ty} {r : Term} (hr : Expands used n r) :
    Expands used n (.lambda x p r) := by
  intro C D s σ hs hC hused
  cases hC with
  | lambda hC =>
    rw [names, List.cons_subset] at hused
    obtain ⟨z, inner, σ₁, henter, hentered⟩ := exists_entered used s σ hused.1 p
    obtain ⟨r', σ₂, hrun, hle, hr'⟩ := hr _ _ inner σ₁ (hs.enter hentered) hC hused.2
    refine ⟨.lambda z p r', σ₂, ?_, Nat.le_trans hentered.before.nextName hle, ?_⟩
    · rw [inline]
      exact henter.bind (hrun.bind (.pure _ _))
    · refine ⟨⟨by simp only [type, hr'.renewed.type], .inr (.inl rfl)⟩, .lambda hr'.wellBound, ?_⟩
      exact .node ⟨trivial, trivial⟩ (List.forall_mem_singleton.mpr hr'.low)

theorem expands_block_nil {r : Term} (hrank : r.type.rank ≤ n) (hr : Expands used n r) :
    Expands used n (.block [] r) := by
  intro C D s σ hs hC hused
  cases hC with
  | blockNil hC =>
    have hused' : r.names ⊆ used := by simpa [names, namesInLocals] using hused
    obtain ⟨r', σ', hrun, hle, hr'⟩ := hr C D s ⟨σ.nextName, σ.rewrites + 1⟩ hs hC hused'
    refine ⟨r', σ', ?_, hle, ⟨?_, .inr (.inr ?_)⟩, hr'.wellBound, hr'.low⟩
    · have hcount : Yields countRewrite σ () ⟨σ.nextName, σ.rewrites + 1⟩ := rfl
      rw [inline_block_nil]
      exact hcount.bind hrun
    · rw [type_block]
      exact hr'.renewed.type
    · rwa [hr'.renewed.type]

theorem expands_block_cons {x : String} {r : Term} {ls : List (String × Term)}
    (hrank : t.type.rank ≤ n) (ht : Expands used n t) (hr : Expands used n (.block ls r)) :
    Expands used n (.block ((x, t) :: ls) r) := by
  intro C D s σ hs hC hused
  cases hC with
  | blockCons hCt hC =>
    rw [names_block_cons, List.cons_subset, List.append_subset] at hused
    obtain ⟨t', σ₁, hrun, hle, ht'⟩ := ht C D s σ hs hCt hused.2.1
    obtain ⟨r', σ₂, hrun', hle', hr'⟩ :=
      hr _ D _ σ₁ ((hs.mono hle).extend ht' hrank) hC hused.2.2
    have htype := hr'.renewed.type
    rw [type_block] at htype
    refine ⟨r', σ₂, ?_, Nat.le_trans hle hle', ⟨?_, hr'.renewed.face⟩, hr'.wellBound, hr'.low⟩
    · rw [inline_block_cons]
      exact hrun.bind hrun'
    · rw [type_block, htype]

/-- A leaf that no substitution touches. -/
theorem expands_leaf (hface : t.face = .other) (hleaf : t.children = [])
    (hlow : t.Low n (n + 1) 0) (hbound : ∀ D, t.WellBound D)
    (hinline : ∀ s, inline used s t = pure t) : Expands used n t := by
  intro C D s σ _ _ _
  rw [hinline]
  refine ⟨t, σ, .pure _ _, Nat.le_refl _, ⟨rfl, .inl hface⟩, hbound D, .node hlow ?_⟩
  rw [hleaf]
  exact List.forall_mem_nil _

theorem expands (used : List String) (ht : t.Everywhere (Low 0 (n + 1) (n + 1))) :
    Expands used n t := by
  induction ht with
  | @node t hlow hchildren ih =>
    clear hchildren
    by_cases hplain : t.Plain
    · exact expands_of_plain hplain hlow ih
    cases t with
    | reference x type =>
      intro C D s σ hs hC _
      cases hC with
      | reference hC =>
        rw [inline]
        exact ⟨s.image x type, σ, .pure _ _, Nat.le_refl _, hs.images x type hC⟩
    | lambda x p r => exact expands_lambda (ih r List.mem_cons_self)
    | block ls r =>
      obtain ⟨-, hls, hr⟩ := hlow
      rw [children, List.forall_mem_append, List.forall_mem_map, List.forall_mem_singleton] at ih
      obtain ⟨ihls, ihr⟩ := ih
      clear hplain
      -- each local is inlined before the block of the later ones
      induction ls with
      | nil => exact expands_block_nil (Nat.le_of_lt_succ hr) ihr
      | cons l ls ihtail =>
        rw [List.forall_mem_cons] at hls ihls
        exact expands_block_cons (Nat.le_of_lt_succ hls.1) ihls.1 (ihtail hls.2 ihls.2)
    | compiled u =>
      exact expands_leaf rfl rfl ⟨trivial, trivial⟩ (fun _ => .compiled) fun s => by rw [inline]
    | intrinsic uri type =>
      exact expands_leaf rfl rfl ⟨trivial, trivial⟩ (fun _ => .intrinsic) fun s => by rw [inline]
    | call | selection | struct => exact absurd trivial hplain

/-- Inlining brings no block, and calls and selections from structs only at small ranks. -/
theorem exists_inlineBlocks (ht : t.Everywhere (Low 0 (n + 1) (n + 1))) (hC : t.WellBound C) :
    ∃ t' m, t.inlineBlocks = .ok (t', m) ∧ Expanded C n t t' := by
  have hfree : t.WellBound fun y type => y ∈ t.freeNames ∧ C y type :=
    hC.congr fun y hy type hyC => ⟨hy, hyC⟩
  have hs : Supplies t.names Inlining.start.nextName (fun y type => y ∈ t.freeNames ∧ C y type)
      (fun y type => y ∈ t.freeNames ∧ C y type) n [] :=
    ⟨fun x type hx => expanded_reference hx,
      fun y type hy => .inl (mem_names_of_mem_freeNames hy.1)⟩
  obtain ⟨t', σ, hrun, -, ht'⟩ := expands t.names ht _ _ [] .start hs hfree (List.Subset.refl _)
  refine ⟨t', σ.rewrites, inlineBlocks_eq_ok_iff.mpr ⟨σ, hrun, rfl⟩, ht'.renewed, ?_, ht'.low⟩
  exact ht'.wellBound.mono fun y type hy => hy.2

/-- A round brings down the rank. -/
theorem exists_round (ht : t.Everywhere (Low (n + 1) (n + 1) (n + 1))) (hC : t.WellBound C) :
    ∃ t₁ n₁ t₂ n₂ t' n₃, t.calledLambdasToBlocks = .ok (t₁, n₁) ∧ t₁.inlineBlocks = .ok (t₂, n₂) ∧
      t₂.selectionsFromStructs = .ok (t', n₃) ∧ t'.WellBound C ∧ t'.Everywhere (Low n n n) := by
  obtain ⟨t₁, n₁, h₁, hlowered₁⟩ := exists_calledLambdasToBlocks ht
  obtain ⟨t₂, n₂, h₂, hexpanded⟩ := exists_inlineBlocks hlowered₁.low (hlowered₁.wellBound C hC)
  obtain ⟨t', n₃, h₃, hlowered₃⟩ := exists_selectionsFromStructs hexpanded.low
  refine ⟨t₁, n₁, t₂, n₂, t', n₃, h₁, h₂, h₃, hlowered₃.wellBound C hexpanded.wellBound, ?_⟩
  exact hlowered₃.low.mono fun u hu =>
    ⟨hu.1, hu.2.mono (Nat.le_refl n) (Nat.zero_le n) (Nat.zero_le n)⟩

end

end Term

open Term

namespace Step

/-- Wherever `N` rounds or more are left, the rounds from `t` end with `t'`, and the last
one reports no change. -/
def Settles (N : Nat) (t t' : Term) (stats : RunStats) : Prop :=
  ∀ left ≥ N, ∀ (done : Nat) (counted : Bool) (log : CompileLog), ∃ events, ¬ Cut events ∧
    Yields (repeatRounds (runAll counted reductions) done left t) log (t', stats)
      (log ++ events ++ reports counted 0 0 0)

section

variable {N n : Nat} {t u t' : Term} {stats : RunStats}

theorem not_cut_nil : ¬ Cut [] := by simp [Cut]

theorem not_cut_reports (counted : Bool) (n₁ n₂ n₃ : Nat) : ¬ Cut (reports counted n₁ n₂ n₃) := by
  simp [Cut, reports]

theorem Settles.mono {N' : Nat} (h : Settles N t t' stats) (hN : N ≤ N') : Settles N' t t' stats :=
  fun left hleft => h left (Nat.le_trans hN hleft)

theorem settles_of_reduced (ht : t.Everywhere (Reduced True)) : Settles 1 t t .none := by
  intro left hleft done counted log
  obtain ⟨left, rfl⟩ := Nat.exists_eq_add_of_le' hleft
  refine ⟨[], not_cut_nil, ?_⟩
  rw [List.append_nil]
  exact rounds_of_reduced ht done left log

/-- One round more before the rounds that settle, unless it changes nothing. -/
theorem Settles.of_round {t₁ t₂ : Term} {n₁ n₂ n₃ : Nat} (h : Settles N u t' stats)
    (h₁ : t.calledLambdasToBlocks = .ok (t₁, n₁)) (h₂ : t₁.inlineBlocks = .ok (t₂, n₂))
    (h₃ : t₂.selectionsFromStructs = .ok (u, n₃)) : ∃ stats', Settles (N + 1) t t' stats' := by
  have hround : ∀ counted log, Yields (runAll counted reductions t) log
      (u, .ofRewrites (n₁ + (n₂ + n₃))) (log ++ reports counted n₁ n₂ n₃) := fun counted log =>
    yields_reductions.mpr ⟨t₁, n₁, t₂, n₂, n₃, h₁, h₂, h₃, rfl, rfl⟩
  cases hchanged : (RunStats.ofRewrites (n₁ + (n₂ + n₃))).changed with
  | false =>
    -- then the round ends with the term it began with, whose rounds settle already
    obtain ⟨rfl, -, -⟩ := runAll_truthful reductions (hround false []) hchanged
    exact ⟨stats, h.mono (Nat.le_succ N)⟩
  | true =>
    refine ⟨(RunStats.ofRewrites (n₁ + (n₂ + n₃))).merge stats, ?_⟩
    intro left hleft done counted log
    obtain ⟨left, rfl⟩ := Nat.exists_eq_add_of_le' (Nat.le_trans (Nat.le_add_left 1 N) hleft)
    obtain ⟨events, hcut, hrest⟩ := h left (Nat.le_of_succ_le_succ hleft) (done + 1) counted
      (log ++ reports counted n₁ n₂ n₃)
    refine ⟨reports counted n₁ n₂ n₃ ++ events, fun hboth => ?_, ?_⟩
    · exact (cut_append.mp hboth).elim (not_cut_reports counted n₁ n₂ n₃) hcut
    · rw [← List.append_assoc log]
      refine (hround counted log).bind ?_
      simp only [hchanged, if_true]
      exact hrest.bind (.pure _ _)

/-- As many rounds as the rank, and one to see that nothing changes. -/
theorem settles_of_low {C : Carries} (ht : t.Everywhere (Low n n n)) (hC : t.WellBound C) :
    ∃ t' stats, t'.Everywhere (Reduced True) ∧ Settles (n + 1) t t' stats := by
  -- on the rank, which a round lowers however much it may copy
  induction n generalizing t with
  | zero =>
    have hreduced := ht.mono fun u hu => hu.reduced
    exact ⟨t, .none, hreduced, settles_of_reduced hreduced⟩
  | succ n ih =>
    obtain ⟨t₁, n₁, t₂, n₂, u, n₃, h₁, h₂, h₃, hu, hlow⟩ := exists_round ht hC
    obtain ⟨t', stats, hreduced, hsettles⟩ := ih hlow hu
    obtain ⟨stats', hsettles'⟩ := hsettles.of_round h₁ h₂ h₃
    exact ⟨t', stats', hreduced, hsettles'⟩

/-- Normalization converges. For a term that is well bound and built by the checked
constructors there are a number of rounds and a reduced term such that under any greater
bound the rounds end because one of them reports no change, and with this term. -/
theorem reductions_converge {C : Carries} (ht : t.Constructed) (hC : t.WellBound C) :
    ∃ N t' stats, t'.Everywhere (Reduced True) ∧
      ∀ rounds ≥ N, ∀ (counted : Bool) (log : CompileLog), ∃ events, ¬ Cut events ∧
        Yields (run counted (.fixedPoint rounds reductions) t) log (t', stats)
          (log ++ events ++ reports counted 0 0 0) := by
  obtain ⟨n, hlow⟩ := exists_everywhere_low ht
  obtain ⟨t', stats, hreduced, hsettles⟩ := settles_of_low hlow hC
  refine ⟨n + 1, t', stats, hreduced, fun rounds hrounds counted log => ?_⟩
  rw [run_fixedPoint]
  exact hsettles _ (Nat.le_trans hrounds (Nat.le_max_left _ _)) 0 counted log

/-- `(f -> f(x))(y -> y)`, where the first round makes a called lambda of `f(x)`. -/
theorem reductions_converge_applied : ∃ t : Term,
    t = .call (.lambda "f" (some (.function (some (.struct [])) (.struct [])))
        (.call (.reference "f" (.function (some (.struct [])) (.struct [])))
          (some (.reference "x" (.struct [])))))
      (some (.lambda "y" (some (.struct [])) (.reference "y" (.struct [])))) ∧
    t.Constructed ∧ t.WellBound (fun x type => x = "x" ∧ type = .struct []) ∧
    ∃ N t' stats, t'.Everywhere (Reduced True) ∧
      ∀ rounds ≥ N, ∀ (counted : Bool) (log : CompileLog), ∃ events, ¬ Cut events ∧
        Yields (run counted (.fixedPoint rounds reductions) t) log (t', stats)
          (log ++ events ++ reports counted 0 0 0) := by
  have hbody : (Term.call (.reference "f" (.function (some (.struct [])) (.struct [])))
      (some (.reference "x" (.struct [])))).Constructed :=
    .node rfl (List.forall_mem_cons.mpr ⟨everywhere_reference trivial,
      List.forall_mem_singleton.mpr (everywhere_reference trivial)⟩)
  have hidentity :
      (Term.lambda "y" (some (.struct [])) (.reference "y" (.struct []))).Constructed :=
    .node trivial (List.forall_mem_singleton.mpr (everywhere_reference trivial))
  obtain ⟨t, heq⟩ : ∃ t : Term,
    t = .call (.lambda "f" (some (.function (some (.struct [])) (.struct [])))
        (.call (.reference "f" (.function (some (.struct [])) (.struct [])))
          (some (.reference "x" (.struct [])))))
      (some (.lambda "y" (some (.struct [])) (.reference "y" (.struct [])))) := ⟨_, rfl⟩
  have ht : t.Constructed := by
    subst heq
    have hlambda := List.forall_mem_singleton.mpr hbody
    exact .node rfl (List.forall_mem_cons.mpr
      ⟨.node trivial hlambda, List.forall_mem_singleton.mpr hidentity⟩)
  have hC : t.WellBound fun x type => x = "x" ∧ type = .struct [] := by
    subst heq
    refine .call (.lambda (.call (.reference (Carries.bind_self.mpr rfl)) (.reference ?_)))
      (.lambda (.reference (Carries.bind_self.mpr rfl)))
    rw [Carries.bind_of_ne (by decide)]
    exact ⟨rfl, rfl⟩
  exact ⟨t, heq, ht, hC, reductions_converge ht hC⟩

end

end Step

end GraphFusion
