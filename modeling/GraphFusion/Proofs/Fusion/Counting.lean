import GraphFusion.Proofs.Fusion.Traversal

/-!
Passes that count nothing. Where an action has left its count of rewrites as it was,
each of its parts has, so every node came back as it went in: a pass reports no
rewrite exactly on the terms that have nothing for it to rewrite, and these it
returns unchanged.
-/

namespace GraphFusion

section

variable {ε σ α β : Type} {count : σ → Nat} {P : α → Prop} {Q : β → Prop}

/-- The action never lowers the count, and where it leaves the count as it was, its
value satisfies `P`. -/
def Counted (count : σ → Nat) (action : ExceptT ε (StateM σ) α) (P : α → Prop) : Prop :=
  ∀ s a s', Yields action s a s' → count s ≤ count s' ∧ (count s' = count s → P a)

theorem counted_pure {a : α} (h : P a) :
    Counted count (pure a : ExceptT ε (StateM σ) α) P := by
  intro s b s' hrun
  obtain ⟨rfl, rfl⟩ := yields_pure.mp hrun
  exact ⟨Nat.le_refl _, fun _ => h⟩

theorem counted_mk_pure {r : Except ε α} (h : ∀ a, r = .ok a → P a) :
    Counted count (ExceptT.mk (pure r) : ExceptT ε (StateM σ) α) P := by
  intro s a s' hrun
  obtain ⟨hr, rfl⟩ := yields_mk_pure.mp hrun
  exact ⟨Nat.le_refl _, fun _ => h a hr⟩

theorem counted_modify {f : σ → σ} (h : ∀ s, count s < count (f s)) {P : PUnit → Prop} :
    Counted count (modify f : ExceptT ε (StateM σ) PUnit) P := by
  intro s a s' hrun
  cases hrun
  exact ⟨Nat.le_of_lt (h s), fun heq => absurd heq (Nat.ne_of_gt (h s))⟩

theorem Counted.mono {P' : α → Prop} {action : ExceptT ε (StateM σ) α}
    (h : Counted count action P) (hP : ∀ a, P a → P' a) : Counted count action P' :=
  fun s a s' hrun => (h s a s' hrun).imp_right fun hkept heq => hP a (hkept heq)

/-- The first part has left the count as it was where the whole has. -/
theorem Counted.bind {x : ExceptT ε (StateM σ) α} {f : α → ExceptT ε (StateM σ) β}
    (hx : Counted count x P) (hf : ∀ a, Counted count (f a) fun b => P a → Q b) :
    Counted count (x >>= f) Q := by
  intro s b s'' hrun
  obtain ⟨a, s', hrun, hrun'⟩ := yields_bind.mp hrun
  obtain ⟨hle, hkept⟩ := hx s a s' hrun
  obtain ⟨hle', hkept'⟩ := hf a s' b s'' hrun'
  refine ⟨Nat.le_trans hle hle', fun heq => hkept' (by omega) (hkept (by omega))⟩

theorem counted_mapM {R : α → β → Prop} {f : α → ExceptT ε (StateM σ) β} {l : List α}
    (h : ∀ a ∈ l, Counted count (f a) (R a)) :
    Counted count (l.mapM f) (List.Forall₂ R l) := by
  induction l with
  | nil =>
    rw [List.mapM_nil]
    exact counted_pure .nil
  | cons a l ih =>
    rw [List.forall_mem_cons] at h
    rw [List.mapM_cons]
    exact h.1.bind fun b => (ih h.2).bind fun bs => counted_pure fun hbs hb => .cons hb hbs

theorem yields_mapM {f : α → ExceptT ε (StateM σ) β} {g : α → β} {l : List α} {s : σ}
    (h : ∀ a ∈ l, Yields (f a) s (g a) s) : Yields (l.mapM f) s (l.map g) s := by
  induction l with
  | nil =>
    rw [List.mapM_nil]
    exact .pure _ _
  | cons a l ih =>
    rw [List.forall_mem_cons] at h
    rw [List.mapM_cons]
    exact h.1.bind ((ih h.2).bind (.pure _ _))

end

namespace Term

theorem Everywhere.and {P Q : Term → Prop} {t : Term} (hP : t.Everywhere P)
    (hQ : t.Everywhere Q) : t.Everywhere fun u => P u ∧ Q u := by
  induction hP with
  | node ht _ ih => exact .node ⟨ht, hQ.here⟩ fun c hc => ih c hc (hQ.child hc)

/-- A term fits if its node can be made from its children. -/
theorem withChildren_children {t : Term} (h : t.Fits) : t.withChildren t.children = .ok t := by
  cases t with
  | call f a => cases a <;> exact h
  | selection s index => exact h
  | struct es =>
    rw [children, withChildren_struct (by simp), List.zip_map', List.map_id'' fun _ => rfl]
  | block ls r =>
    rw [children, withChildren_block (by simp), List.zip_map', List.map_id'' fun _ => rfl]
  | _ => rfl

section

variable {rewrite : Term → Except CompileError (Option Term)}

theorem countingStep_counted (t : Term) :
    Counted id (countingStep rewrite t) fun p => p = (t, false) ∧ rewrite t = .ok none := by
  refine (counted_mk_pure (P := fun r => rewrite t = .ok r) fun _ h => h).bind fun r => ?_
  cases r with
  | none => exact counted_pure fun h => ⟨rfl, h⟩
  | some t' =>
    exact (counted_modify (P := fun _ => False) Nat.lt_succ_self).bind fun _ =>
      counted_pure fun h => h.elim

theorem settle_counted {step : NodeStep Nat} {S : Term → Prop}
    (hstep : ∀ t, Counted id (step t) fun p => p = (t, false) ∧ S t) (t : Term)
    (parts : List (Term × Bool)) :
    Counted id (settle step t parts)
      fun p => parts.any (·.2) = false → p = (t, false) ∧ S t := by
  cases hany : parts.any (·.2) with
  | false =>
    rw [settle_of_unchanged hany]
    exact (hstep t).mono fun _ hp _ => hp
  | true =>
    rw [settle_of_changed hany]
    refine (counted_mk_pure (P := fun _ => True) fun _ _ => trivial).bind fun t' => ?_
    exact ((hstep t').mono fun _ _ => trivial).bind fun p => counted_pure fun _ _ h => by cases h

/-- Without a rewrite the term stays, and no node of it can be rewritten. -/
theorem transform_counted (t : Term) : Counted id (transform (countingStep rewrite) t)
    fun p => p = (t, false) ∧ t.Everywhere (rewrite · = .ok none) := by
  induction t using inductChildren with
  | node t ih =>
    rw [transform_eq]
    refine (counted_mapM ih).bind fun parts => ?_
    refine (settle_counted countingStep_counted t parts).mono fun p hp hparts => ?_
    have hany : parts.any (·.2) = false := by
      rw [List.any_eq_false]
      exact forall_of_forall₂ hparts fun c q _ hq => by simp [hq.1]
    obtain ⟨rfl, hnone⟩ := hp hany
    refine ⟨rfl, .node hnone fun c hc => ?_⟩
    obtain ⟨n, hn⟩ := List.mem_iff_getElem?.mp hc
    obtain ⟨q, -, hq⟩ := exists_right_of_forall₂ hparts hn
    exact hq.2

/-- A step that leaves every node of a term alone leaves the term alone. -/
theorem transform_idle {σ : Type} {step : NodeStep σ} {s : σ} {t : Term}
    (h : t.Everywhere fun u => Yields (step u) s (u, false) s) :
    Yields (transform step t) s (t, false) s := by
  induction h with
  | @node t hstep _ ih =>
    have hany : (t.children.map fun c => (c, false)).any (·.2) = false := by simp
    rw [transform_eq]
    refine (yields_mapM (g := fun c => (c, false)) ih).bind ?_
    rwa [settle_of_unchanged hany]

theorem countingStep_idle {t : Term} (h : rewrite t = .ok none) (n : Nat) :
    Yields (countingStep rewrite t) n (t, false) n :=
  Yields.bind (yields_mk_pure.mpr ⟨h, rfl⟩) (.pure _ _)

/-- A rewriting that counts nothing had nowhere to rewrite. -/
theorem rewriteAll_eq_zero_iff {t t' : Term} : rewriteAll rewrite t = .ok (t', 0) ↔
    t' = t ∧ t.Everywhere (rewrite · = .ok none) := by
  rw [rewriteAll_eq_ok_iff]
  constructor
  · rintro ⟨changed, hrun⟩
    obtain ⟨heq, hnone⟩ := (transform_counted t 0 (t', changed) 0 hrun).2 rfl
    cases heq
    exact ⟨rfl, hnone⟩
  · rintro ⟨rfl, hnone⟩
    exact ⟨false, transform_idle (hnone.mono fun u hu => countingStep_idle hu 0)⟩

end

section

variable {used : List String} {s : Substitution}

/-- With nothing to substitute, the term stays unless a rewrite is counted. -/
def KeptByInlining (used : List String) (t : Term) : Prop :=
  ∀ s : Substitution, Counted Inlining.rewrites (inline used s t) fun t' => s = [] → t' = t

theorem keptByInlining_of_plain {t : Term} (ht : t.Plain)
    (h : ∀ c ∈ t.children, KeptByInlining used c) : KeptByInlining used t := by
  intro s
  rw [inline_of_plain ht]
  refine (counted_mapM fun c hc => h c hc s).bind fun parts => ?_
  refine counted_mk_pure fun t' hnew hparts hs => ?_
  rw [List.forall₂_iff_get] at hparts
  obtain rfl : parts = t.children :=
    List.ext_get hparts.1.symm fun n hn hn' => hparts.2 n hn' hn hs
  exact eq_of_withChildren_children (mapError_eq_ok.mp hnew)

theorem countRewrite_counted : Counted Inlining.rewrites countRewrite fun _ => False :=
  counted_modify fun σ => Nat.lt_succ_self σ.rewrites

theorem takeFresh_counted : Counted Inlining.rewrites (takeFresh used) fun _ => True := by
  intro σ a σ' hrun
  cases hrun
  exact ⟨Nat.le_refl _, fun _ => trivial⟩

theorem enterLambda_counted (s : Substitution) (x : String) (p : Option Ty) :
    Counted Inlining.rewrites (enterLambda used s x p) fun q => s = [] → q = (x, []) := by
  unfold enterLambda
  dsimp only
  split
  · refine takeFresh_counted.bind fun fresh => countRewrite_counted.bind fun _ => ?_
    exact counted_pure fun h => h.elim
  · refine counted_pure ?_
    rintro rfl
    rfl

theorem inlineLocals_counted {ls : List (String × Term)}
    (h : ∀ l ∈ ls, KeptByInlining used l.2) (s : Substitution) :
    Counted Inlining.rewrites (inlineLocals used s ls) fun _ => True := by
  induction ls generalizing s with
  | nil => exact counted_pure trivial
  | cons l ls ih =>
    rw [List.forall_mem_cons] at h
    refine (h.1 s).bind fun t' => ?_
    exact (ih h.2 (s.extend l.1 t')).mono fun _ _ _ => trivial

theorem keptByInlining (used : List String) (t : Term) : KeptByInlining used t := by
  induction t using induct with
  | reference x type =>
    intro s
    rw [inline]
    refine counted_pure ?_
    rintro rfl
    rfl
  | lambda x p r hr =>
    intro s
    rw [inline]
    refine (enterLambda_counted s x p).bind fun q => (hr q.2).bind fun r' => ?_
    refine counted_pure fun hr' hq hs => ?_
    obtain rfl := hq hs
    rw [hr' rfl]
  | thunkCall f hf => exact keptByInlining_of_plain trivial (by simpa [children] using hf)
  | call f a hf ha =>
    exact keptByInlining_of_plain trivial (by simpa [children] using ⟨hf, ha⟩)
  | selection u index hu =>
    exact keptByInlining_of_plain trivial (by simpa [children] using hu)
  | struct es hes => exact keptByInlining_of_plain trivial (List.forall_mem_map.mpr hes)
  | block ls r hls hr =>
    intro s
    rw [inline]
    refine (inlineLocals_counted hls s).bind fun inner => countRewrite_counted.bind fun _ => ?_
    exact (hr inner).mono fun _ _ h => h.elim
  | compiled u =>
    intro s
    rw [inline]
    exact counted_pure fun _ => rfl
  | intrinsic uri type =>
    intro s
    rw [inline]
    exact counted_pure fun _ => rfl

theorem inline_idle_of_plain {t : Term} (ht : t.Plain) (hfits : t.Fits) {σ : Inlining}
    (h : ∀ c ∈ t.children, Yields (inline used [] c) σ c σ) : Yields (inline used [] t) σ t σ := by
  have hparts : Yields (t.children.mapM (inline used [])) σ t.children σ := by
    simpa using yields_mapM (g := id) h
  rw [inline_of_plain ht]
  exact hparts.bind (yields_rebuild_iff.mpr ⟨withChildren_children hfits, rfl⟩)

theorem inline_idle {t : Term} (h : t.Everywhere Unblocked) (σ : Inlining) :
    Yields (inline used [] t) σ t σ := by
  induction h with
  | @node t ht _ ih =>
    by_cases hplain : t.Plain
    · exact inline_idle_of_plain hplain ht.1 ih
    cases t with
    | lambda x p r =>
      rw [inline]
      exact Yields.bind (.pure _ _) ((ih r List.mem_cons_self).bind (.pure _ _))
    | reference | compiled | intrinsic =>
      rw [inline]
      exact .pure _ _
    | call | selection | struct => exact absurd trivial hplain
    | block => exact absurd trivial ht.2

end

/-- Inlining that counts nothing met no block, and nothing that does not fit. -/
theorem inlineBlocks_eq_zero_iff {t t' : Term} :
    t.inlineBlocks = .ok (t', 0) ↔ t' = t ∧ t.Everywhere Unblocked := by
  constructor
  · intro h
    obtain ⟨σ, hrun, hcount⟩ := inlineBlocks_eq_ok_iff.mp h
    have heq : t' = t := (keptByInlining t.names t [] .start t' σ hrun).2 hcount rfl
    exact ⟨heq, heq ▸ inlineBlocks_unblocked h⟩
  · rintro ⟨rfl, h⟩
    exact inlineBlocks_eq_ok_iff.mpr ⟨.start, inline_idle h .start, rfl⟩

end Term

end GraphFusion
