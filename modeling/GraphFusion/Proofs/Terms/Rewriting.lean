import GraphFusion.Proofs.Terms.Typing
import GraphFusion.Terms.Postorder

/-!
What rewriting from the leaves up keeps. It rewrites the children of a node from
left to right and then settles the node. A relation between a term and what becomes
of it holds of a whole tree when it holds of every node whose children it holds of,
each in the context it stands in. Rebuilding a node over children of the same types
never fails.
-/

namespace GraphFusion

theorem ensures_mapM {ε σ α β : Type} {f : α → ExceptT ε (StateM σ) β} {R : α → β → Prop}
    {E : ε → Prop} {l : List α} (h : ∀ a ∈ l, Ensures (f a) (R a) E) :
    Ensures (l.mapM f) (List.Forall₂ R l) E := by
  induction l with
  | nil =>
    rw [List.mapM_nil]
    exact ensures_pure .nil
  | cons a l ih =>
    rw [List.forall_mem_cons] at h
    rw [List.mapM_cons]
    exact h.1.bind fun b hb => (ih h.2).bind fun bs hbs => ensures_pure (.cons hb hbs)

namespace Term

/-- Induction with a hypothesis for every child, whatever the node. -/
@[elab_as_elim]
theorem inductChildren {motive : Term → Prop}
    (node : ∀ t, (∀ c ∈ t.children, motive c) → motive t) (t : Term) : motive t := by
  induction t using induct with
  | reference x type => exact node _ (by simp [children])
  | lambda x p r hr => exact node _ (by simpa [children] using hr)
  | thunkCall f hf => exact node _ (by simpa [children] using hf)
  | call f a hf ha => exact node _ (by simpa [children] using ⟨hf, ha⟩)
  | selection s index hs => exact node _ (by simpa [children] using hs)
  | struct es hes => exact node _ (List.forall_mem_map.mpr hes)
  | block ls r hls hr =>
    refine node _ (List.forall_mem_append.mpr ⟨List.forall_mem_map.mpr hls, ?_⟩)
    simpa using hr
  | compiled u => exact node _ (by simp [children])
  | intrinsic uri type => exact node _ (by simp [children])

section

variable {σ : Type} (step : NodeStep σ)

theorem transformElements_eq_mapM (es : List (Label × Term)) :
    transformElements step es = (es.map (·.2)).mapM (transform step) := by
  induction es with
  | nil => rw [transformElements, List.map_nil, List.mapM_nil]
  | cons e es ih => rw [transformElements, List.map_cons, List.mapM_cons, ih]

theorem transformLocals_eq_mapM (ls : List (String × Term)) :
    transformLocals step ls = (ls.map (·.2)).mapM (transform step) := by
  induction ls with
  | nil => rw [transformLocals, List.map_nil, List.mapM_nil]
  | cons l ls ih => rw [transformLocals, List.map_cons, List.mapM_cons, ih]

/-- The children from left to right, then the node. -/
theorem transform_eq (t : Term) :
    transform step t = t.children.mapM (transform step) >>= settle step t := by
  cases t with
  | call f a => cases a <;> simp [transform, children]
  | struct es => rw [transform, children, transformElements_eq_mapM]
  | block ls r => simp [transform, children, transformLocals_eq_mapM]
  | _ => simp [transform, children]

end

section

variable {σ : Type} {step : NodeStep σ}

theorem settle_eq (t : Term) (parts : List (Term × Bool)) : settle step t parts =
    (if parts.any (·.2) then Compile.lift ((t.withChildren (parts.map (·.1))).mapError .type)
      else pure t) >>= fun rebuilt =>
      step rebuilt >>= fun p => pure (p.1, parts.any (·.2) || p.2) := by
  cases hany : parts.any (·.2) <;> simp only [settle, hany] <;> rfl

theorem settle_of_unchanged {t : Term} {parts : List (Term × Bool)}
    (hany : parts.any (·.2) = false) : settle step t parts = step t := by
  simp only [settle_eq, hany, Bool.false_eq_true, if_false, pure_bind, Bool.false_or]
  exact bind_pure (step t)

theorem settle_of_changed {t : Term} {parts : List (Term × Bool)}
    (hany : parts.any (·.2) = true) : settle step t parts =
      Compile.lift ((t.withChildren (parts.map (·.1))).mapError .type) >>= fun rebuilt =>
        step rebuilt >>= fun p => pure (p.1, true) := by
  simp only [settle_eq, hany, if_true, Bool.true_or]

end

section

variable (R : Context → Term → Term → Prop)

/-- Locals with related contents, each related in the context of the earlier ones. -/
inductive OverLocals : Context → List (String × Term) → List (String × Term) → Prop
  | nil {Γ : Context} : OverLocals Γ [] []
  | cons {Γ : Context} {x : String} {t t' : Term} {ls ls' : List (String × Term)} :
      R Γ t t' → OverLocals (Function.update Γ x (some t.type)) ls ls' →
        OverLocals Γ ((x, t) :: ls) ((x, t') :: ls')

/-- The same node over related children. -/
inductive Over (Γ : Context) : Term → Term → Prop
  | reference {x : String} {type : Ty} : Over Γ (.reference x type) (.reference x type)
  | lambda {x : String} {p : Option Ty} {r r' : Term} :
      R (Function.update Γ x p) r r' → Over Γ (.lambda x p r) (.lambda x p r')
  | thunkCall {f f' : Term} : R Γ f f' → Over Γ (.call f none) (.call f' none)
  | call {f f' a a' : Term} :
      R Γ f f' → R Γ a a' → Over Γ (.call f (some a)) (.call f' (some a'))
  | selection {s s' : Term} {index : Nat} :
      R Γ s s' → Over Γ (.selection s index) (.selection s' index)
  | struct {es es' : List (Label × Term)} :
      List.Forall₂ (fun e e' => e.1 = e'.1 ∧ R Γ e.2 e'.2) es es' →
        Over Γ (.struct es) (.struct es')
  | block {ls ls' : List (String × Term)} {r r' : Term} :
      OverLocals R Γ ls ls' → R (Γ.extend ls) r r' → Over Γ (.block ls r) (.block ls' r')
  | compiled {u : CompiledUnit} : Over Γ (.compiled u) (.compiled u)
  | intrinsic {uri : String} {type : Ty} : Over Γ (.intrinsic uri type) (.intrinsic uri type)

end

variable {R : Context → Term → Term → Prop} {Γ : Context} {σ : Type} {step : NodeStep σ}
  {E : CompileError → Prop}

theorem apply_some {f a : Term} {r : Ty} (h : f.type = .function (some a.type) r) :
    f.apply (some a) = .ok (.call f (some a)) := by
  simp [apply, h, Ty.checkEquivalent]

theorem apply_none {f : Term} {r : Ty} (h : f.type = .function none r) :
    f.apply none = .ok (.call f none) := by
  simp [apply, h]

theorem select_eq_ok {s : Term} {index : Nat} {type : Ty} (h : s.type.element? index = some type) :
    s.select index = .ok (.selection s index) := by
  obtain ⟨es, label, hs, hget⟩ := Ty.element?_eq_some.mp h
  have hlt := (List.getElem?_eq_some_iff.mp hget).1
  simp [select, elementsOf, hs, hlt]

theorem withChildren_struct {es : List (Label × Term)} {parts : List Term}
    (h : parts.length = es.length) :
    (Term.struct es).withChildren parts = .ok (.struct ((es.map (·.1)).zip parts)) := by
  cases es with
  | nil =>
    obtain rfl := List.length_eq_zero_iff.mp h
    rfl
  | cons e es => simp [withChildren, children, h]

theorem withChildren_block {ls : List (String × Term)} {r r' : Term} {parts : List Term}
    (h : parts.length = ls.length) :
    (Term.block ls r).withChildren (parts ++ [r']) =
      .ok (.block ((ls.map (·.1)).zip parts) r') := by
  have hzip : (ls.map (·.1)).zip (parts ++ [r']) = (ls.map (·.1)).zip parts := by
    have happend := @List.zip_append _ _ (ls.map (·.1)) [] parts [r'] (by simp [h])
    simpa using happend
  simp [withChildren, children, h, hzip]

theorem eq_call_of_apply {f c : Term} {a : Option Term} (h : f.apply a = .ok c) :
    c = .call f a := by
  unfold apply at h
  split at h
  · split at h
    · obtain ⟨-, -, h⟩ := bind_eq_ok.mp h
      exact (Except.ok.inj h).symm
    · exact (Except.ok.inj h).symm
    · cases h
    · cases h
  · cases h

theorem eq_selection_of_select {s c : Term} {index : Nat} (h : s.select index = .ok c) :
    c = .selection s index := by
  unfold select at h
  obtain ⟨es, -, h⟩ := bind_eq_ok.mp h
  split at h
  · exact (Except.ok.inj h).symm
  · cases h

theorem eq_of_withChildren_children {t t' : Term} (h : t.withChildren t.children = .ok t') :
    t' = t := by
  cases t with
  | call f a =>
    cases a with
    | none => exact eq_call_of_apply h
    | some a => exact eq_call_of_apply h
  | selection s index => exact eq_selection_of_select h
  | struct es =>
    rw [children, withChildren_struct (by simp), List.zip_map', List.map_id'' fun _ => rfl] at h
    exact (Except.ok.inj h).symm
  | block ls r =>
    rw [children, withChildren_block (by simp), List.zip_map', List.map_id'' fun _ => rfl] at h
    exact (Except.ok.inj h).symm
  | _ => exact (Except.ok.inj h).symm

theorem overLocals_of_forall₂ {ls : List (String × Term)} {parts : List Term}
    (hls : LocalsTyped Γ ls)
    (h : List.Forall₂ (fun c c' => ∀ Γ, c.Typed Γ → R Γ c c') (ls.map (·.2)) parts) :
    OverLocals R Γ ls ((ls.map (·.1)).zip parts) := by
  induction ls generalizing Γ parts with
  | nil => exact .nil
  | cons l ls ih =>
    obtain ⟨x, t⟩ := l
    cases h with
    | cons ht hls' =>
      rw [LocalsTyped] at hls
      exact .cons (ht Γ hls.1) (ih hls.2 hls')

theorem OverLocals.refl {ls : List (String × Term)} (hls : LocalsTyped Γ ls)
    (h : ∀ l ∈ ls, ∀ Γ, l.2.Typed Γ → R Γ l.2 l.2) : OverLocals R Γ ls ls := by
  induction ls generalizing Γ with
  | nil => exact .nil
  | cons l ls ih =>
    rw [LocalsTyped] at hls
    rw [List.forall_mem_cons] at h
    exact .cons (h.1 Γ hls.1) (ih hls.2 h.2)

theorem Over.refl {t : Term} (h : ∀ c ∈ t.children, ∀ Γ, c.Typed Γ → R Γ c c) (ht : t.Typed Γ) :
    Over R Γ t t := by
  cases t with
  | reference x type => exact .reference
  | lambda x p r =>
    simp only [Typed] at ht
    exact .lambda (h r List.mem_cons_self _ ht)
  | call f a =>
    cases a with
    | none =>
      simp only [Typed] at ht
      exact .thunkCall (h f List.mem_cons_self Γ ht.1)
    | some a =>
      simp only [Typed] at ht
      exact .call (h f List.mem_cons_self Γ ht.1)
        (h a (List.mem_cons_of_mem f List.mem_cons_self) Γ ht.2.1)
  | selection s index =>
    simp only [Typed] at ht
    exact .selection (h s List.mem_cons_self Γ ht.1)
  | struct es =>
    rw [typed_struct] at ht
    refine .struct (List.forall₂_same.mpr fun e he => ⟨rfl, ?_⟩)
    exact h e.2 (List.mem_map_of_mem he) Γ (ht e he)
  | block ls r =>
    simp only [Typed] at ht
    refine .block (.refl ht.1 fun l hl => ?_) (h r (by simp [children]) _ ht.2)
    exact h l.2 (List.mem_append_left _ (List.mem_map_of_mem hl))
  | compiled u => exact .compiled
  | intrinsic uri type => exact .intrinsic

/-- A typed node can be rebuilt over related children of the same types. -/
theorem exists_withChildren (htype : ∀ Γ t t', R Γ t t' → t'.type = t.type) {t : Term}
    (ht : t.Typed Γ) {parts : List Term}
    (h : List.Forall₂ (fun c c' => ∀ Γ, c.Typed Γ → R Γ c c') t.children parts) :
    ∃ t', t.withChildren parts = .ok t' ∧ Over R Γ t t' := by
  cases t with
  | reference x type =>
    cases h
    exact ⟨_, rfl, .reference⟩
  | lambda x p r =>
    obtain ⟨r', _, hr, hnil, rfl⟩ := List.forall₂_cons_left_iff.mp h
    obtain rfl := List.forall₂_nil_left_iff.mp hnil
    simp only [Typed] at ht
    exact ⟨_, rfl, .lambda (hr _ ht)⟩
  | call f a =>
    obtain ⟨f', rest, hf, hrest, rfl⟩ := List.forall₂_cons_left_iff.mp h
    cases a with
    | none =>
      obtain rfl := List.forall₂_nil_left_iff.mp hrest
      simp only [Typed] at ht
      obtain ⟨ht, r, hftype⟩ := ht
      exact ⟨_, apply_none ((htype _ _ _ (hf Γ ht)).trans hftype), .thunkCall (hf Γ ht)⟩
    | some a =>
      obtain ⟨a', _, ha, hnil, rfl⟩ := List.forall₂_cons_left_iff.mp hrest
      obtain rfl := List.forall₂_nil_left_iff.mp hnil
      simp only [Typed] at ht
      obtain ⟨htf, hta, r, hftype⟩ := ht
      refine ⟨_, apply_some (r := r) ?_, .call (hf Γ htf) (ha Γ hta)⟩
      rw [htype _ _ _ (hf Γ htf), htype _ _ _ (ha Γ hta), hftype]
  | selection s index =>
    obtain ⟨s', _, hs, hnil, rfl⟩ := List.forall₂_cons_left_iff.mp h
    obtain rfl := List.forall₂_nil_left_iff.mp hnil
    simp only [Typed] at ht
    obtain ⟨ht, type, hindex⟩ := ht
    have hselect : s'.type.element? index = some type := by
      rw [htype _ _ _ (hs Γ ht), hindex]
    exact ⟨_, select_eq_ok hselect, .selection (hs Γ ht)⟩
  | struct es =>
    have hlen : parts.length = es.length := by simpa [children] using h.length_eq.symm
    refine ⟨_, withChildren_struct hlen, .struct ?_⟩
    rw [typed_struct] at ht
    rw [children, List.forall₂_map_left_iff] at h
    clear hlen
    induction h with
    | nil => exact .nil
    | @cons e c es parts hc _ ih =>
      rw [List.forall_mem_cons] at ht
      exact .cons ⟨rfl, hc Γ ht.1⟩ (ih ht.2)
  | block ls r =>
    simp only [Typed] at ht
    obtain ⟨parts, r', rfl, hls, hr⟩ := exists_concat_of_forall₂ h
    have hlen : parts.length = ls.length := by simpa using hls.length_eq.symm
    exact ⟨_, withChildren_block hlen, .block (overLocals_of_forall₂ ht.1 hls) (hr _ ht.2)⟩
  | compiled u =>
    cases h
    exact ⟨_, rfl, .compiled⟩
  | intrinsic uri type =>
    cases h
    exact ⟨_, rfl, .intrinsic⟩

/-- A node rebuilt over new children, or left alone when none is new. -/
theorem settle_ensures {Q : Term × Bool → Prop} {node node' : Term} {parts : List (Term × Bool)}
    (hnew : node.withChildren (parts.map (·.1)) = .ok node')
    (hsame : parts.any (·.2) = false → node' = node)
    (hstep : Ensures (step node')
      (fun p => Q (p.1, parts.any (·.2) || p.2)) E) :
    Ensures (settle step node parts) Q E := by
  cases hany : parts.any (·.2) with
  | true =>
    rw [settle_of_changed hany, hnew]
    rw [hany] at hstep
    exact ensures_bind_ok rfl (hstep.bind fun p hp => ensures_pure hp)
  | false =>
    rw [settle_of_unchanged hany]
    rw [hany, hsame hany] at hstep
    exact hstep

/-- A step that keeps the relation at every node whose children it holds of, and
that returns the node itself when it reports no change. -/
def Keeps (R : Context → Term → Term → Prop) (step : NodeStep σ) (E : CompileError → Prop) : Prop :=
  ∀ Γ t t', t.Typed Γ → Over R Γ t t' →
    Ensures (step t') (fun p => R Γ t p.1 ∧ (p.2 = false → p.1 = t')) E

/-- What the step says of the rebuilt node holds of the outcome, which is the old
node when neither the children nor the node have changed. -/
theorem settle_keeps {Q : Term → Prop} {t t' : Term} {parts : List (Term × Bool)}
    (hnode : Ensures (step t') (fun p => Q p.1 ∧ (p.2 = false → p.1 = t')) E)
    (hnew : t.withChildren (parts.map (·.1)) = .ok t')
    (hsame : parts.any (·.2) = false → t' = t) :
    Ensures (settle step t parts) (fun p => Q p.1 ∧ (p.2 = false → p.1 = t)) E := by
  apply settle_ensures hnew hsame
  refine hnode.mono (fun p hp => ⟨hp.1, fun hfalse => ?_⟩) fun _ h => h
  simp only [Bool.or_eq_false_iff] at hfalse
  exact (hp.2 hfalse.2).trans (hsame hfalse.1)

/-- Where no child has changed, the new children are the old ones. -/
theorem map_fst_eq_of_forall₂ {ts : List Term} {parts : List (Term × Bool)}
    (h : List.Forall₂ (fun c p => p.2 = false → p.1 = c) ts parts)
    (hany : parts.any (·.2) = false) : parts.map (·.1) = ts := by
  induction h with
  | nil => rfl
  | cons hp _ ih =>
    rw [List.any_cons, Bool.or_eq_false_iff] at hany
    rw [List.map_cons, hp hany.1, ih hany.2]

/-- A relation that implies equal types and that the step keeps at every node holds
between a tree and what becomes of it. What the errors of a step say of its node must
hold of the nodes above as well. -/
theorem transform_keeps_or_fails {F : Term → CompileError → Prop}
    (hF : ∀ t, ∀ c ∈ t.children, ∀ e, F c e → F t e)
    (htype : ∀ Γ t t', R Γ t t' → t'.type = t.type)
    (hstep : ∀ Γ t t', t.Typed Γ → Over R Γ t t' →
      Ensures (step t') (fun p => R Γ t p.1 ∧ (p.2 = false → p.1 = t')) (F t))
    {t : Term} (ht : t.Typed Γ) :
    Ensures (transform step t) (fun p => R Γ t p.1 ∧ (p.2 = false → p.1 = t)) (F t) := by
  induction t using inductChildren generalizing Γ with
  | node t ih =>
    -- a child's context depends on where it stands, so it is kept in every one that types it
    have hchildren : ∀ c ∈ t.children, Ensures (transform step c)
        (fun p => (∀ Γ, c.Typed Γ → R Γ c p.1) ∧ (p.2 = false → p.1 = c)) (F t) := by
      intro c hc
      obtain ⟨Δ, hΔ⟩ := ht.exists_context c hc
      have hall : ∀ Γ : { Γ // c.Typed Γ }, Ensures (transform step c)
          (fun p => R Γ.1 c p.1 ∧ (p.2 = false → p.1 = c)) (F t) := fun Γ =>
        (ih c hc Γ.2).mono (fun _ h => h) (hF t c hc)
      exact (Ensures.of_forall ⟨Δ, hΔ⟩ hall).mono
        (fun p h => ⟨fun Γ hΓ => (h ⟨Γ, hΓ⟩).1, (h ⟨Δ, hΔ⟩).2⟩) fun _ h => h
    rw [transform_eq]
    refine (ensures_mapM hchildren).bind fun parts hparts => ?_
    have hterms : List.Forall₂ (fun c c' => ∀ Γ, c.Typed Γ → R Γ c c') t.children
        (parts.map (·.1)) := List.forall₂_map_right_iff.mpr (hparts.imp fun _ _ h => h.1)
    obtain ⟨t', hnew, hover⟩ := exists_withChildren htype ht hterms
    refine settle_keeps (hstep Γ t t' ht hover) hnew fun hany => ?_
    rw [map_fst_eq_of_forall₂ (hparts.imp fun _ _ h => h.2) hany] at hnew
    exact eq_of_withChildren_children hnew

theorem transform_keeps (htype : ∀ Γ t t', R Γ t t' → t'.type = t.type) (hstep : Keeps R step E)
    {t : Term} (ht : t.Typed Γ) :
    Ensures (transform step t) (fun p => R Γ t p.1 ∧ (p.2 = false → p.1 = t)) E :=
  transform_keeps_or_fails (F := fun _ => E) (fun _ _ _ _ h => h) htype hstep ht

/-- The step of `rewriteAll`, which counts the nodes it replaces. -/
def countingStep (rewrite : Term → Except CompileError (Option Term)) : NodeStep Nat :=
  fun node => do
    match ← Compile.lift (rewrite node) with
    | some replacement =>
      modify (· + 1)
      return (replacement, true)
    | none => return (node, false)

theorem rewriteAll_eq (rewrite : Term → Except CompileError (Option Term)) (t : Term) :
    rewriteAll rewrite t =
      match (transform (countingStep rewrite) t).run.run 0 with
      | (.ok (result, _), count) => .ok (result, count)
      | (.error e, _) => .error e := rfl

theorem rewriteAll_eq_ok_iff {rewrite : Term → Except CompileError (Option Term)} {t t' : Term}
    {n : Nat} : rewriteAll rewrite t = .ok (t', n) ↔
      ∃ changed, Yields (transform (countingStep rewrite) t) 0 (t', changed) n := by
  rw [rewriteAll_eq]
  unfold Yields
  rcases (transform (countingStep rewrite) t).run.run 0 with ⟨e | ⟨u, changed⟩, m⟩
  · exact ⟨nofun, nofun⟩
  · constructor
    · intro h
      cases h
      exact ⟨changed, rfl⟩
    · rintro ⟨changed, h⟩
      cases h
      rfl

/-- The counting step returns the replacement, or the node when it reports no change. -/
theorem countingStep_ensures {rewrite : Term → Except CompileError (Option Term)}
    {Q : Term → Prop} {t : Term} (hok : ∀ r, rewrite t = .ok r → Q (r.getD t))
    (herror : ∀ e, rewrite t = .error e → E e) :
    Ensures (countingStep rewrite t) (fun p => Q p.1 ∧ (p.2 = false → p.1 = t)) E := by
  refine (ensures_mk_pure hok herror).bind fun r hQ => ?_
  cases r with
  | none => exact ensures_pure ⟨hQ, fun _ => rfl⟩
  | some t' => exact ensures_modify.bind fun _ _ => ensures_pure ⟨hQ, nofun⟩

/-- A rewrite that never fails keeps a relation when what it returns at a node,
or the node it leaves alone, is related to the old node. -/
theorem rewriteAll_keeps {rewrite : Term → Except CompileError (Option Term)}
    (htype : ∀ Γ t t', R Γ t t' → t'.type = t.type)
    (hrewrite : ∀ Γ t t', t.Typed Γ → Over R Γ t t' →
      ∃ replacement, rewrite t' = .ok replacement ∧ R Γ t (replacement.getD t'))
    {t : Term} (ht : t.Typed Γ) :
    ∃ t' n, rewriteAll rewrite t = .ok (t', n) ∧ R Γ t t' := by
  have hstep : Keeps R (countingStep rewrite) (fun _ => False) := by
    intro Γ t t' ht hover
    obtain ⟨replacement, hok, hR⟩ := hrewrite Γ t t' ht hover
    refine countingStep_ensures (fun r hr => ?_) fun e he => ?_
    · cases hok.symm.trans hr
      exact hR
    · cases hok.symm.trans he
  obtain ⟨⟨t', changed⟩, n, hrun, hR, -⟩ := (transform_keeps htype hstep ht).exists_yields 0
  exact ⟨t', n, rewriteAll_eq_ok_iff.mpr ⟨changed, hrun⟩, hR⟩

/-- The new term is typed as the old one is. -/
def KeepsType (Γ : Context) (t t' : Term) : Prop := t'.Typed Γ ∧ t'.type = t.type

theorem KeepsType.trans {t t' t'' : Term} (h : KeepsType Γ t t') (h' : KeepsType Γ t' t'') :
    KeepsType Γ t t'' := ⟨h'.1, h'.2.trans h.2⟩

theorem OverLocals.mono {S : Context → Term → Term → Prop} {ls ls' : List (String × Term)}
    (h : OverLocals R Γ ls ls') (hRS : ∀ Γ t t', R Γ t t' → S Γ t t') :
    OverLocals S Γ ls ls' := by
  induction h with
  | nil => exact .nil
  | cons ht _ ih => exact .cons (hRS _ _ _ ht) ih

theorem OverLocals.exists_of_mem {ls ls' : List (String × Term)} (h : OverLocals R Γ ls ls')
    {l : String × Term} (hl : l ∈ ls) : ∃ Γ' c', R Γ' l.2 c' := by
  induction h with
  | nil => cases hl
  | @cons Γ _ _ c' _ _ ht _ ih =>
    rcases List.mem_cons.mp hl with rfl | hl
    · exact ⟨Γ, c', ht⟩
    · exact ih hl

/-- Every child is related to what stands in its place. -/
theorem Over.exists_of_mem_children {t t' c : Term} (h : Over R Γ t t') (hc : c ∈ t.children) :
    ∃ Γ' c', R Γ' c c' := by
  cases h with
  | reference | compiled | intrinsic => cases hc
  | lambda hr =>
    obtain rfl := List.mem_singleton.mp hc
    exact ⟨_, _, hr⟩
  | thunkCall hf =>
    obtain rfl := List.mem_singleton.mp hc
    exact ⟨_, _, hf⟩
  | call hf ha =>
    rcases List.mem_cons.mp hc with rfl | hc
    · exact ⟨_, _, hf⟩
    · obtain rfl := List.mem_singleton.mp hc
      exact ⟨_, _, ha⟩
  | selection hs =>
    obtain rfl := List.mem_singleton.mp hc
    exact ⟨_, _, hs⟩
  | struct hes =>
    obtain ⟨e, he, rfl⟩ := List.mem_map.mp hc
    obtain ⟨n, hn⟩ := List.mem_iff_getElem?.mp he
    obtain ⟨e', -, hee'⟩ := exists_right_of_forall₂ hes hn
    exact ⟨_, _, hee'.2⟩
  | block hls hr =>
    rcases List.mem_append.mp hc with hl | hc
    · obtain ⟨l, hmem, rfl⟩ := List.mem_map.mp hl
      exact hls.exists_of_mem hmem
    · obtain rfl := List.mem_singleton.mp hc
      exact ⟨_, _, hr⟩

theorem Over.mono {S : Context → Term → Term → Prop} {t t' : Term} (h : Over R Γ t t')
    (hRS : ∀ Γ t t', R Γ t t' → S Γ t t') : Over S Γ t t' := by
  cases h with
  | reference => exact .reference
  | lambda hr => exact .lambda (hRS _ _ _ hr)
  | thunkCall hf => exact .thunkCall (hRS _ _ _ hf)
  | call hf ha => exact .call (hRS _ _ _ hf) (hRS _ _ _ ha)
  | selection hs => exact .selection (hRS _ _ _ hs)
  | struct hes => exact .struct (hes.imp fun e e' h => ⟨h.1, hRS _ _ _ h.2⟩)
  | block hls hr => exact .block (hls.mono hRS) (hRS _ _ _ hr)
  | compiled => exact .compiled
  | intrinsic => exact .intrinsic

theorem OverLocals.keepsType {ls ls' : List (String × Term)} (h : OverLocals KeepsType Γ ls ls') :
    LocalsTyped Γ ls' ∧ Γ.extend ls' = Γ.extend ls := by
  induction h with
  | nil => exact ⟨trivial, rfl⟩
  | cons ht _ ih =>
    rw [LocalsTyped, Context.extend, Context.extend, ht.2]
    exact ⟨⟨ht.1, ih.1⟩, ih.2⟩

theorem elementTypes_of_keepsType {es es' : List (Label × Term)}
    (h : List.Forall₂ (fun e e' => e.1 = e'.1 ∧ KeepsType Γ e.2 e'.2) es es') :
    ElementsTyped Γ es' ∧ elementTypes es' = elementTypes es := by
  induction h with
  | nil => exact ⟨trivial, rfl⟩
  | @cons e e' es es' he _ ih =>
    obtain ⟨n, t⟩ := e
    obtain ⟨n', t'⟩ := e'
    obtain ⟨hn, htyped, htype⟩ := he
    simp only at hn htype htyped
    simp only [ElementsTyped, elementTypes, hn, htype, ih.2]
    exact ⟨⟨htyped, ih.1⟩, trivial⟩

/-- A node over children that are typed as the old ones is typed as the old node. -/
theorem Over.keepsType {t t' : Term} (ht : t.Typed Γ) (h : Over KeepsType Γ t t') :
    KeepsType Γ t t' := by
  cases h with
  | reference => exact ⟨ht, rfl⟩
  | lambda hr => exact ⟨by simpa only [Typed] using hr.1, by simp only [type, hr.2]⟩
  | thunkCall hf =>
    simp only [Typed] at ht
    refine ⟨?_, by simp only [type, hf.2]⟩
    simpa only [Typed, hf.2] using ⟨hf.1, ht.2⟩
  | call hf ha =>
    simp only [Typed] at ht
    refine ⟨?_, by simp only [type, hf.2]⟩
    simpa only [Typed, hf.2, ha.2] using ⟨hf.1, ha.1, ht.2.2⟩
  | selection hs =>
    simp only [Typed] at ht
    refine ⟨?_, by simp only [type, hs.2]⟩
    simpa only [Typed, hs.2] using ⟨hs.1, ht.2⟩
  | struct hes =>
    obtain ⟨htyped, htypes⟩ := elementTypes_of_keepsType hes
    exact ⟨by simpa only [Typed] using htyped, by simp only [type, htypes]⟩
  | block hls hr =>
    obtain ⟨htyped, hext⟩ := hls.keepsType
    refine ⟨?_, by simp only [type, hr.2]⟩
    simpa only [Typed, hext] using ⟨htyped, hr.1⟩
  | compiled => exact ⟨ht, rfl⟩
  | intrinsic => exact ⟨ht, rfl⟩

end Term

end GraphFusion
