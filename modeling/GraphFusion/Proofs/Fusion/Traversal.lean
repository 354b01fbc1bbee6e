import GraphFusion.Proofs.Fusion.Capturing
import GraphFusion.Proofs.Fusion.Glue
import GraphFusion.Proofs.Fusion.Pipeline
import GraphFusion.Proofs.Terms.Units

/-!
Rewriting from the leaves up on any term, whether or not it is typed. A node that
is rebuilt is the same node over the new children, or its rebuilding fails; so a
relation that every step keeps at the nodes whose children it holds of is kept by
a whole rewriting that succeeds.
-/

namespace GraphFusion

namespace Term

/-- Calls and selections are those that the checked constructors give. -/
def Fits : Term → Prop
  | .call f a => f.apply a = .ok (.call f a)
  | .selection s index => s.select index = .ok (.selection s index)
  | _ => True

theorem fits_of_apply {f t : Term} {a : Option Term} (h : f.apply a = .ok t) : t.Fits := by
  obtain rfl := eq_call_of_apply h
  exact h

theorem fits_of_select {s t : Term} {index : Nat} (h : s.select index = .ok t) : t.Fits := by
  obtain rfl := eq_selection_of_select h
  exact h

/-- The predicate holds of the term and of everything in it. -/
inductive Everywhere (P : Term → Prop) : Term → Prop
  | node {t : Term} : P t → (∀ c ∈ t.children, Everywhere P c) → Everywhere P t

/-- The terms that the constructors build. -/
abbrev Constructed : Term → Prop := Everywhere Fits

section

variable {P : Term → Prop} {t : Term}

theorem everywhere_iff : Everywhere P t ↔ P t ∧ ∀ c ∈ t.children, Everywhere P c := by
  constructor
  · rintro ⟨ht, hchildren⟩
    exact ⟨ht, hchildren⟩
  · rintro ⟨ht, hchildren⟩
    exact .node ht hchildren

theorem Everywhere.here (h : Everywhere P t) : P t := (everywhere_iff.mp h).1

theorem Everywhere.child (h : Everywhere P t) {c : Term} (hc : c ∈ t.children) :
    Everywhere P c := (everywhere_iff.mp h).2 c hc

theorem everywhere_of_forall (h : ∀ t, P t) (t : Term) : Everywhere P t := by
  induction t using inductChildren with
  | node t ih => exact .node (h t) ih

theorem Everywhere.mono {P' : Term → Prop} (h : Everywhere P t) (hP : ∀ t, P t → P' t) :
    Everywhere P' t := by
  induction h with
  | node ht _ ih => exact .node (hP _ ht) ih

end

section

variable {Q : Term → Term → Prop} {Γ : Context}

theorem forall₂_zip {es : List (Label × Term)} {parts : List Term}
    (h : List.Forall₂ Q (es.map (·.2)) parts) :
    List.Forall₂ (fun e e' => e.1 = e'.1 ∧ Q e.2 e'.2) es ((es.map (·.1)).zip parts) := by
  induction es generalizing parts with
  | nil => exact .nil
  | cons e es ih =>
    obtain ⟨p, rest, hp, hrest, rfl⟩ := List.forall₂_cons_left_iff.mp h
    exact .cons ⟨rfl, hp⟩ (ih hrest)

theorem overLocals_zip {ls : List (String × Term)} {parts : List Term}
    (h : List.Forall₂ Q (ls.map (·.2)) parts) :
    OverLocals (fun _ => Q) Γ ls ((ls.map (·.1)).zip parts) := by
  induction ls generalizing Γ parts with
  | nil => exact .nil
  | cons l ls ih =>
    obtain ⟨p, rest, hp, hrest, rfl⟩ := List.forall₂_cons_left_iff.mp h
    exact .cons hp (ih hrest)

/-- A node that has been rebuilt over related children. -/
theorem over_of_withChildren {t t' : Term} {parts : List Term}
    (h : t.withChildren parts = .ok t') (hparts : List.Forall₂ Q t.children parts) :
    Over (fun _ => Q) Γ t t' := by
  cases t with
  | reference x type =>
    cases hparts
    cases h
    exact .reference
  | lambda x p r =>
    obtain ⟨r', _, hr, hnil, rfl⟩ := List.forall₂_cons_left_iff.mp hparts
    obtain rfl := List.forall₂_nil_left_iff.mp hnil
    cases h
    exact .lambda hr
  | call f a =>
    obtain ⟨f', rest, hf, hrest, rfl⟩ := List.forall₂_cons_left_iff.mp hparts
    cases a with
    | none =>
      obtain rfl := List.forall₂_nil_left_iff.mp hrest
      obtain rfl := eq_call_of_apply h
      exact .thunkCall hf
    | some a =>
      obtain ⟨a', _, ha, hnil, rfl⟩ := List.forall₂_cons_left_iff.mp hrest
      obtain rfl := List.forall₂_nil_left_iff.mp hnil
      obtain rfl := eq_call_of_apply h
      exact .call hf ha
  | selection s index =>
    obtain ⟨s', _, hs, hnil, rfl⟩ := List.forall₂_cons_left_iff.mp hparts
    obtain rfl := List.forall₂_nil_left_iff.mp hnil
    obtain rfl := eq_selection_of_select h
    exact .selection hs
  | struct es =>
    rw [withChildren_struct (by simpa [children] using hparts.length_eq.symm)] at h
    cases h
    exact .struct (forall₂_zip hparts)
  | block ls r =>
    obtain ⟨init, r', rfl, hls, hr⟩ := exists_concat_of_forall₂ hparts
    rw [withChildren_block (by simpa using hls.length_eq.symm)] at h
    cases h
    exact .block (overLocals_zip hls) hr
  | compiled u =>
    cases hparts
    cases h
    exact .compiled
  | intrinsic uri type =>
    cases hparts
    cases h
    exact .intrinsic

theorem fits_of_withChildren {t t' : Term} {parts : List Term}
    (h : t.withChildren parts = .ok t') (hparts : List.Forall₂ Q t.children parts) : t'.Fits := by
  cases t with
  | call f a =>
    obtain ⟨f', rest, hf, hrest, rfl⟩ := List.forall₂_cons_left_iff.mp hparts
    cases a with
    | none =>
      obtain rfl := List.forall₂_nil_left_iff.mp hrest
      exact fits_of_apply h
    | some a =>
      obtain ⟨a', _, ha, hnil, rfl⟩ := List.forall₂_cons_left_iff.mp hrest
      obtain rfl := List.forall₂_nil_left_iff.mp hnil
      exact fits_of_apply h
  | selection s index =>
    obtain ⟨s', _, hs, hnil, rfl⟩ := List.forall₂_cons_left_iff.mp hparts
    obtain rfl := List.forall₂_nil_left_iff.mp hnil
    exact fits_of_select h
  | _ =>
    cases over_of_withChildren (Γ := fun _ => none) h hparts
    trivial

theorem over_refl {t : Term} (h : ∀ c ∈ t.children, Q c c) : Over (fun _ => Q) Γ t t := by
  cases t with
  | reference x type => exact .reference
  | lambda x p r => exact .lambda (h r List.mem_cons_self)
  | call f a =>
    cases a with
    | none => exact .thunkCall (h f List.mem_cons_self)
    | some a =>
      exact .call (h f List.mem_cons_self) (h a (List.mem_cons_of_mem f List.mem_cons_self))
  | selection s index => exact .selection (h s List.mem_cons_self)
  | struct es =>
    exact .struct (List.forall₂_same.mpr fun e he => ⟨rfl, h e.2 (List.mem_map_of_mem he)⟩)
  | block ls r =>
    have hls : OverLocals (fun _ => Q) Γ ls ((ls.map (·.1)).zip (ls.map (·.2))) :=
      overLocals_zip (List.forall₂_same.mpr fun c hc => h c (List.mem_append_left _ hc))
    rw [List.zip_map', List.map_id'' (fun _ => rfl)] at hls
    exact .block hls (h r (by simp [children]))
  | compiled u => exact .compiled
  | intrinsic uri type => exact .intrinsic

theorem OverLocals.forall₂ {ls ls' : List (String × Term)}
    (h : OverLocals (fun _ => Q) Γ ls ls') : List.Forall₂ Q (ls.map (·.2)) (ls'.map (·.2)) := by
  induction h with
  | nil => exact .nil
  | cons ht _ ih => exact .cons ht ih

/-- The children of a rebuilt node, in the places of the old ones. -/
theorem Over.forall₂_children {t t' : Term} (h : Over (fun _ => Q) Γ t t') :
    List.Forall₂ Q t.children t'.children := by
  cases h with
  | reference | compiled | intrinsic => exact .nil
  | lambda hr => exact .cons hr .nil
  | thunkCall hf => exact .cons hf .nil
  | call hf ha => exact .cons hf (.cons ha .nil)
  | selection hs => exact .cons hs .nil
  | struct hes =>
    rw [children, children, List.forall₂_map_left_iff, List.forall₂_map_right_iff]
    exact hes.imp fun e e' h => h.2
  | block hls hr =>
    rw [children, children]
    exact List.rel_append hls.forall₂ (.cons hr .nil)

theorem OverLocals.mono_of_mem {S : Term → Term → Prop} {ls ls' : List (String × Term)}
    (h : OverLocals (fun _ => Q) Γ ls ls')
    (hQS : ∀ l ∈ ls, ∀ t', Q l.2 t' → S l.2 t') : OverLocals (fun _ => S) Γ ls ls' := by
  induction h with
  | nil => exact .nil
  | cons ht _ ih =>
    rw [List.forall_mem_cons] at hQS
    exact .cons (hQS.1 _ ht) (ih hQS.2)

/-- What is known of the old children may be used to weaken the relation. -/
theorem Over.mono_of_mem {S : Term → Term → Prop} {t t' : Term} (h : Over (fun _ => Q) Γ t t')
    (hQS : ∀ c ∈ t.children, ∀ c', Q c c' → S c c') : Over (fun _ => S) Γ t t' := by
  cases h with
  | reference => exact .reference
  | lambda hr => exact .lambda (hQS _ List.mem_cons_self _ hr)
  | thunkCall hf => exact .thunkCall (hQS _ List.mem_cons_self _ hf)
  | call hf ha =>
    exact .call (hQS _ List.mem_cons_self _ hf)
      (hQS _ (List.mem_cons_of_mem _ List.mem_cons_self) _ ha)
  | selection hs => exact .selection (hQS _ List.mem_cons_self _ hs)
  | @struct es es' hes =>
    rw [children, List.forall_mem_map] at hQS
    have hboth := (List.forall₂_and_left es es').mpr ⟨hQS, hes⟩
    exact .struct (hboth.imp fun e e' h => ⟨h.2.1, h.1 _ h.2.2⟩)
  | block hls hr =>
    rw [children, List.forall_mem_append, List.forall_mem_map] at hQS
    exact .block (hls.mono_of_mem hQS.1) (hQS.2 _ List.mem_cons_self _ hr)
  | compiled => exact .compiled
  | intrinsic => exact .intrinsic

variable {σ : Type} {step : NodeStep σ} {E : CompileError → Prop}

/-- A relation that the step keeps at every node whose children it holds of holds
between a term and what becomes of it; what is known of every node of the term may be
used, and a node that cannot be rebuilt fails. -/
theorem transform_ensures_of_everywhere {P : Term → Prop}
    (hE : ∀ t parts e, P t → List.Forall₂ Q t.children parts → t.withChildren parts = .error e →
      E (.type e))
    (hstep : ∀ t t', P t → Over (fun _ => Q) Γ t t' → (t.Fits → t'.Fits) →
      Ensures (step t') (fun p => Q t p.1 ∧ (p.2 = false → p.1 = t')) E)
    {t : Term} (ht : t.Everywhere P) :
    Ensures (transform step t) (fun p => Q t p.1 ∧ (p.2 = false → p.1 = t)) E := by
  induction ht with
  | @node t hP _ ih =>
    rw [transform_eq]
    refine (ensures_mapM ih).bind fun parts hparts => ?_
    have hterms : List.Forall₂ Q t.children (parts.map (·.1)) := by
      rw [List.forall₂_map_right_iff]
      exact hparts.imp fun c p h => h.1
    cases hany : parts.any (·.2) with
    | false =>
      have hsame := map_fst_eq_of_forall₂ (hparts.imp fun c p h => h.2) hany
      rw [hsame, List.forall₂_same] at hterms
      rw [settle_of_unchanged hany]
      exact hstep t t hP (over_refl hterms) id
    | true =>
      rw [settle_of_changed hany]
      refine Ensures.bind (P := fun t' => Over (fun _ => Q) Γ t t' ∧ t'.Fits) ?_ fun t' ht' =>
        (hstep t t' hP ht'.1 fun _ => ht'.2).bind fun p hp =>
          ensures_pure ⟨hp.1, fun h => by cases h⟩
      cases hnew : t.withChildren (parts.map (·.1)) with
      | error e => exact fun _ => hE t _ e hP hterms hnew
      | ok t' =>
        exact fun _ => ⟨over_of_withChildren hnew hterms, fits_of_withChildren hnew hterms⟩

theorem transform_ensures (hE : ∀ e, E (.type e))
    (hstep : ∀ t t', Over (fun _ => Q) Γ t t' → (t.Fits → t'.Fits) →
      Ensures (step t') (fun p => Q t p.1 ∧ (p.2 = false → p.1 = t')) E) (t : Term) :
    Ensures (transform step t) (fun p => Q t p.1 ∧ (p.2 = false → p.1 = t)) E :=
  transform_ensures_of_everywhere (P := fun _ => True) (fun _ _ e _ _ _ => hE e)
    (fun t t' _ => hstep t t') (everywhere_of_forall (fun _ => trivial) t)

/-- What a rewrite keeps at every node whose children it holds of. -/
theorem rewriteAll_of_over {rewrite : Term → Except CompileError (Option Term)}
    (hrewrite : ∀ t t' r, Over (fun _ => Q) Γ t t' → (t.Fits → t'.Fits) → rewrite t' = .ok r →
      Q t (r.getD t'))
    {t u : Term} {n : Nat} (h : rewriteAll rewrite t = .ok (u, n)) : Q t u := by
  have hstep : ∀ t t', Over (fun _ => Q) Γ t t' → (t.Fits → t'.Fits) →
      Ensures (countingStep rewrite t') (fun p => Q t p.1 ∧ (p.2 = false → p.1 = t'))
        (fun _ => True) := fun t t' hover hfits =>
    countingStep_ensures (fun r => hrewrite t t' r hover hfits) fun _ _ => trivial
  obtain ⟨changed, hrun⟩ := rewriteAll_eq_ok_iff.mp h
  exact ((transform_ensures (fun _ => trivial) hstep t).of_yields hrun).1

end

theorem yields_rebuild_iff {σ σ' : Inlining} {node c : Term} {parts : List Term} :
    Yields (rebuild node parts) σ c σ' ↔ node.withChildren parts = .ok c ∧ σ' = σ := by
  rw [rebuild, Compile.lift, yields_mk_pure, mapError_eq_ok]

theorem exists_of_callGraph {g : Graph} {a : Option Term} {t : Term}
    (h : callGraph g a = .ok t) : ∃ u, t = .call (.compiled u) a ∧ t.Fits := by
  obtain ⟨f, hf, h⟩ := bind_eq_ok.mp h
  obtain ⟨u, -, rfl⟩ := ofGraph_eq_ok_iff.mp (mapError_eq_ok.mp hf)
  have happly := mapError_eq_ok.mp h
  exact ⟨u, eq_call_of_apply happly, fits_of_apply happly⟩

/-- What becomes of a child: a reference to data is passed through a unit. -/
def PassedOn (c c' : Term) : Prop :=
  (c.isDataReference = false ∧ c' = c) ∨
    (c.isDataReference = true ∧ ∃ u, c' = .call (.compiled u) (some c) ∧ c'.Fits)

theorem passedOn_of_wrapIfData {c c' : Term} (h : c.wrapIfData = .ok c') : PassedOn c c' := by
  unfold wrapIfData at h
  split at h
  · rename_i hdata
    obtain ⟨f, hf, h⟩ := bind_eq_ok.mp h
    obtain ⟨g, -, hg⟩ := bind_eq_ok.mp (mapError_eq_ok.mp hf)
    obtain ⟨u, -, rfl⟩ := ofGraph_eq_ok_iff.mp hg
    have happly := mapError_eq_ok.mp h
    exact .inr ⟨hdata, u, eq_call_of_apply happly, fits_of_apply happly⟩
  · rename_i hdata
    cases h
    exact .inl ⟨by simpa using hdata, rfl⟩

/-- A call of a unit is left alone, and so is a node without data references among its
children; any other node is rebuilt over the children, passed on. -/
theorem wrapChildren?_cases {Γ : Context} {t : Term} {r : Option Term}
    (h : t.wrapChildren? = .ok r) :
    (r = none ∧ ((∃ u a, t = .call (.compiled u) a) ∨
        ∀ c ∈ t.children, c.isDataReference = false)) ∨
      ∃ t', r = some t' ∧ t'.Fits ∧ Over (fun _ => PassedOn) Γ t t' := by
  unfold wrapChildren? at h
  dsimp only at h
  split at h
  · cases h
    exact .inl ⟨rfl, .inl ⟨_, _, rfl⟩⟩
  · split at h
    · obtain ⟨parts, hparts, h⟩ := bind_eq_ok.mp h
      obtain ⟨t', ht', h⟩ := bind_eq_ok.mp h
      cases h
      have hall : List.Forall₂ PassedOn t.children parts :=
        (mapM_eq_ok_iff.mp hparts).imp fun _ _ => passedOn_of_wrapIfData
      have hnew := mapError_eq_ok.mp ht'
      exact .inr ⟨t', rfl, fits_of_withChildren hnew hall, over_of_withChildren hnew hall⟩
    · rename_i hnone
      cases h
      exact .inl ⟨rfl, .inr (by simpa using hnone)⟩

/-- Not a block, and fits: what inlining leaves of a node. -/
def Unblocked (t : Term) : Prop := t.Fits ∧ ¬ t.IsBlock

/-- Nodes whose names are those of their children: they neither bind names nor are names. -/
def Plain : Term → Prop
  | .call .. | .selection .. | .struct _ => True
  | _ => False

theorem Plain.not_isBlock {t : Term} (ht : t.Plain) : ¬ t.IsBlock := by
  cases t with
  | block ls r => exact ht.elim
  | _ => exact id

/-- A substitution of terms without blocks. -/
def Substitution.Unblocked (s : Substitution) : Prop := ∀ e ∈ s, e.2.Everywhere Term.Unblocked

section

variable {used : List String} {s : Substitution}

theorem everywhere_reference {P : Term → Prop} {x : String} {type : Ty}
    (h : P (.reference x type)) : (Term.reference x type).Everywhere P :=
  .node h (by simp [children])

theorem inlineElements_eq_mapM (es : List (Label × Term)) :
    inlineElements used s es = (es.map (·.2)).mapM (inline used s) := by
  induction es with
  | nil => rw [inlineElements, List.map_nil, List.mapM_nil]
  | cons e es ih => rw [inlineElements, List.map_cons, List.mapM_cons, ih]

/-- Inlining rebuilds a plain node over its inlined children. -/
theorem inline_of_plain {t : Term} (ht : t.Plain) :
    inline used s t = t.children.mapM (inline used s) >>= rebuild t := by
  cases t with
  | call f a => cases a <;> simp [inline, children]
  | selection u index => simp [inline, children]
  | struct es => rw [inline, children, inlineElements_eq_mapM]
  | _ => exact ht.elim

theorem rebuild_unblocked {node : Term} {parts : List Term} (hnode : ¬ node.IsBlock)
    (hparts : List.Forall₂ (fun _ c => c.Everywhere Unblocked) node.children parts) :
    Ensures (rebuild node parts) (Everywhere Unblocked) (fun _ => True) := by
  refine rebuild_ensures fun t' h => ?_
  have hover : Over (fun _ _ c => c.Everywhere Unblocked) (fun _ => none) node t' :=
    over_of_withChildren h hparts
  refine .node ⟨fits_of_withChildren h hparts, fun hblock => hnode ?_⟩ fun c hc => ?_
  · cases hover <;> exact hblock
  · obtain ⟨_, -, hc⟩ := exists_mem_of_forall₂ hover.forall₂_children hc
    exact hc

theorem inline_unblocked_of_plain {t : Term} (ht : t.Plain) (h : ∀ c ∈ t.children,
      Ensures (inline used s c) (Everywhere Unblocked) (fun _ => True)) :
    Ensures (inline used s t) (Everywhere Unblocked) (fun _ => True) := by
  rw [inline_of_plain ht]
  exact (ensures_mapM h).bind fun parts hparts => rebuild_unblocked ht.not_isBlock hparts

/-- Inlining leaves no block, and every node fits. -/
theorem inline_unblocked (used : List String) (t : Term) {s : Substitution}
    (hs : s.Unblocked) :
    Ensures (inline used s t) (Everywhere Unblocked) (fun _ => True) := by
  induction t using induct generalizing s with
  | reference x type =>
    rw [inline]
    exact ensures_pure (Substitution.image_of_forall hs (everywhere_reference ⟨trivial, id⟩))
  | lambda x p r hr =>
    rw [inline]
    have hreference : ∀ z type, p = some type → Everywhere Unblocked (.reference z type) :=
      fun _ _ _ => everywhere_reference ⟨trivial, id⟩
    refine (enterLambda_ensures hs hreference).bind fun q hq => (hr hq).bind fun r' hr' => ?_
    exact ensures_pure (.node ⟨trivial, id⟩ (by simpa [children] using hr'))
  | thunkCall f hf => exact inline_unblocked_of_plain trivial (by simpa [children] using hf hs)
  | call f a hf ha =>
    exact inline_unblocked_of_plain trivial (by simpa [children] using ⟨hf hs, ha hs⟩)
  | selection u index hu =>
    exact inline_unblocked_of_plain trivial (by simpa [children] using hu hs)
  | struct es hes =>
    exact inline_unblocked_of_plain trivial (List.forall_mem_map.mpr fun e he => hes e he hs)
  | block ls r hls hr =>
    rw [inline]
    refine (inlineLocals_ensures (fun l hl s hs => hls l hl hs) hs).bind fun inner hinner => ?_
    exact ensures_modify.bind fun _ _ => hr hinner
  | compiled u =>
    rw [inline]
    exact ensures_pure (.node ⟨trivial, id⟩ (by simp [children]))
  | intrinsic uri type =>
    rw [inline]
    exact ensures_pure (.node ⟨trivial, id⟩ (by simp [children]))

end

theorem inlineBlocks_eq_ok_iff {t t' : Term} {n : Nat} :
    t.inlineBlocks = .ok (t', n) ↔ ∃ σ : Inlining, Yields (inline t.names [] t) .start t' σ ∧
      σ.rewrites = n := by
  unfold inlineBlocks Yields
  rcases (inline t.names [] t).run.run .start with ⟨e | u, σ⟩
  · exact ⟨nofun, nofun⟩
  · constructor
    · rintro ⟨⟩
      exact ⟨σ, rfl, rfl⟩
    · rintro ⟨_, ⟨⟩, rfl⟩
      rfl

theorem inlineBlocks_unblocked {t t' : Term} {n : Nat} (h : t.inlineBlocks = .ok (t', n)) :
    t'.Everywhere Unblocked := by
  obtain ⟨σ, hrun, -⟩ := inlineBlocks_eq_ok_iff.mp h
  exact (inline_unblocked t.names t (List.forall_mem_nil _)).of_yields hrun

end Term

end GraphFusion
