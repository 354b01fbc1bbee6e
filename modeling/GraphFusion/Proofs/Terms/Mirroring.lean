import GraphFusion.Proofs.Alongside
import GraphFusion.Proofs.Terms.Alpha
import GraphFusion.Proofs.Terms.Rewriting

/-!
Rewriting two alike trees side by side. Alike trees have the same kind of node at
their roots and alike children, each pair in the scope it stands in; over children
that are alike again the two nodes are rebuilt to alike ones, or fail alike. So a
step that treats alike nodes alike does the same to alike trees.
-/

namespace GraphFusion

namespace Term

section

variable {α β : Type}

/-- The entries of two lists, each pair related in a scope of its own. -/
inductive InScopes (R : Scope → α → β → Prop) : List Scope → List α → List β → Prop
  | nil : InScopes R [] [] []
  | cons {S : Scope} {scopes : List Scope} {a : α} {b : β} {as : List α} {bs : List β} :
      R S a b → InScopes R scopes as bs → InScopes R (S :: scopes) (a :: as) (b :: bs)

variable {R : Scope → α → β → Prop} {scopes : List Scope} {as : List α} {bs : List β}

theorem InScopes.exists_cons {S : Scope} (h : InScopes R (S :: scopes) as bs) :
    ∃ a as' b bs', as = a :: as' ∧ bs = b :: bs' ∧ R S a b ∧ InScopes R scopes as' bs' := by
  cases h with
  | cons hab h => exact ⟨_, _, _, _, rfl, rfl, hab, h⟩

theorem InScopes.exists_single {S : Scope} (h : InScopes R [S] as bs) :
    ∃ a b, as = [a] ∧ bs = [b] ∧ R S a b := by
  obtain ⟨a, as', b, bs', rfl, rfl, hab, h⟩ := h.exists_cons
  cases h
  exact ⟨a, b, rfl, rfl, hab⟩

theorem InScopes.length_left (h : InScopes R scopes as bs) : as.length = scopes.length := by
  induction h with
  | nil => rfl
  | cons _ _ ih => simp only [List.length_cons, ih]

theorem InScopes.length_right (h : InScopes R scopes as bs) : bs.length = scopes.length := by
  induction h with
  | nil => rfl
  | cons _ _ ih => simp only [List.length_cons, ih]

theorem InScopes.map {γ δ : Type} {Q : Scope → γ → δ → Prop} (h : InScopes R scopes as bs)
    {f : α → γ} {g : β → δ} (hfg : ∀ S a b, R S a b → Q S (f a) (g b)) :
    InScopes Q scopes (as.map f) (bs.map g) := by
  induction h with
  | nil => exact .nil
  | cons hab _ ih => exact .cons (hfg _ _ _ hab) ih

theorem InScopes.any_eq (h : InScopes R scopes as bs) {f : α → Bool} {g : β → Bool}
    (hfg : ∀ S a b, R S a b → f a = g b) : as.any f = bs.any g := by
  induction h with
  | nil => rfl
  | cons hab _ ih => rw [List.any_cons, List.any_cons, hfg _ _ _ hab, ih]

end

/-- The same kind of node on both sides, with the scopes of its children. -/
inductive SameNode : Scope → List Scope → Term → Term → Prop
  | reference {S : Scope} {x y : String} {type : Ty} :
      S.pairs x y type → SameNode S [] (.reference x type) (.reference y type)
  | lambda {S : Scope} {x y : String} {p : Option Ty} {r r' : Term} :
      SameNode S [S.bind x y p] (.lambda x p r) (.lambda y p r')
  | thunkCall {S : Scope} {f f' : Term} : SameNode S [S] (.call f none) (.call f' none)
  | call {S : Scope} {f f' a a' : Term} :
      SameNode S [S, S] (.call f (some a)) (.call f' (some a'))
  | selection {S : Scope} {s s' : Term} {index : Nat} :
      SameNode S [S] (.selection s index) (.selection s' index)
  | structNil {S : Scope} : SameNode S [] (.struct []) (.struct [])
  | structCons {S : Scope} {scopes : List Scope} {label : Label} {t t' : Term}
      {es es' : List (Label × Term)} : SameNode S scopes (.struct es) (.struct es') →
        SameNode S (S :: scopes) (.struct ((label, t) :: es)) (.struct ((label, t') :: es'))
  | blockNil {S : Scope} {r r' : Term} : SameNode S [S] (.block [] r) (.block [] r')
  | blockCons {S : Scope} {scopes : List Scope} {x y : String} {type : Ty} {t t' r r' : Term}
      {ls ls' : List (String × Term)} :
      SameNode (S.bind x y (some type)) scopes (.block ls r) (.block ls' r') →
        SameNode S (S :: scopes) (.block ((x, t) :: ls) r) (.block ((y, t') :: ls') r')
  | compiled {S : Scope} {u : CompiledUnit} : SameNode S [] (.compiled u) (.compiled u)
  | intrinsic {S : Scope} {uri : String} {type : Ty} :
      SameNode S [] (.intrinsic uri type) (.intrinsic uri type)

variable {S : Scope} {scopes : List Scope} {t u : Term}

theorem Alike.exists_sameNode (h : Alike S t u) :
    ∃ scopes, SameNode S scopes t u ∧ InScopes Alike scopes t.children u.children := by
  induction h with
  | reference hxy => exact ⟨_, .reference hxy, .nil⟩
  | lambda hr _ => exact ⟨_, .lambda, .cons hr .nil⟩
  | thunkCall hf _ _ => exact ⟨_, .thunkCall, .cons hf .nil⟩
  | call hf ha _ _ => exact ⟨_, .call, .cons hf (.cons ha .nil)⟩
  | selection hs _ => exact ⟨_, .selection, .cons hs .nil⟩
  | structNil => exact ⟨_, .structNil, .nil⟩
  | structCons ht _ _ ihs =>
    obtain ⟨scopes, hnode, hchildren⟩ := ihs
    exact ⟨_, .structCons hnode, .cons ht hchildren⟩
  | blockNil hr _ => exact ⟨_, .blockNil, .cons hr .nil⟩
  | blockCons ht _ _ ihs =>
    obtain ⟨scopes, hnode, hchildren⟩ := ihs
    exact ⟨_, .blockCons hnode, .cons ht hchildren⟩
  | compiled => exact ⟨_, .compiled, .nil⟩
  | intrinsic => exact ⟨_, .intrinsic, .nil⟩

theorem SameNode.length_children (h : SameNode S scopes t u) :
    t.children.length = scopes.length ∧ u.children.length = scopes.length := by
  induction h with
  | structCons _ ih => simpa [children] using ih
  | blockCons _ ih => simpa [children] using ih
  | _ => exact ⟨rfl, rfl⟩

namespace Alike

/-- Calls depend on the types alone. -/
theorem apply {f f' : Term} {a a' : Option Term} (hf : Alike S f f')
    (ha : Option.Rel (Alike S) a a') : SameOutcome (Alike S) (f.apply a) (f'.apply a') := by
  cases htype : f.type with
  | function parameter result =>
    have htype' : f'.type = .function parameter result := hf.type_eq.trans htype
    cases parameter with
    | none =>
      cases ha with
      | none => simpa only [Term.apply, htype, htype'] using .ok (.thunkCall hf htype)
      | some _ => simpa only [Term.apply, htype, htype'] using .error _
    | some expected =>
      cases ha with
      | none => simpa only [Term.apply, htype, htype'] using .error _
      | some ha =>
        simp only [Term.apply, htype, htype', ha.type_eq]
        exact .bind_eq _ fun _ => .ok (.call hf ha)
  | _ =>
    have htype' := hf.type_eq.trans htype
    simpa only [Term.apply, htype, htype'] using .error _

theorem select {s s' : Term} (hs : Alike S s s') (index : Nat) :
    SameOutcome (Alike S) (s.select index) (s'.select index) := by
  have helements : s'.elementsOf = s.elementsOf := by rw [elementsOf, elementsOf, hs.type_eq]
  rw [Term.select, Term.select, helements]
  refine .bind_eq _ fun elements => ?_
  split
  · exact .ok (.selection hs)
  · exact .error _

end Alike

theorem SameNode.struct {es es' : List (Label × Term)} {parts parts' : List Term}
    (h : SameNode S scopes (.struct es) (.struct es')) (hparts : InScopes Alike scopes parts parts') :
    Alike S (.struct ((es.map (·.1)).zip parts)) (.struct ((es'.map (·.1)).zip parts')) := by
  induction es generalizing scopes es' parts parts' with
  | nil =>
    cases h
    exact .structNil
  | cons e es ih =>
    cases h with
    | structCons h =>
      obtain ⟨t, parts, t', parts', rfl, rfl, ht, hparts⟩ := hparts.exists_cons
      exact .structCons ht (ih h hparts)

theorem SameNode.block {ls ls' : List (String × Term)} {r r' : Term} {parts parts' : List Term}
    (h : SameNode S scopes (.block ls r) (.block ls' r'))
    (hparts : InScopes Alike scopes parts parts') :
    ∃ init init' last last', parts = init ++ [last] ∧ parts' = init' ++ [last'] ∧
      init.length = ls.length ∧ init'.length = ls'.length ∧
      Alike S (.block ((ls.map (·.1)).zip init) last) (.block ((ls'.map (·.1)).zip init') last') := by
  induction ls generalizing S scopes ls' parts parts' with
  | nil =>
    cases h with
    | blockNil =>
      obtain ⟨last, last', rfl, rfl, hr⟩ := hparts.exists_single
      exact ⟨[], [], last, last', rfl, rfl, rfl, rfl, .blockNil hr⟩
  | cons l ls ih =>
    cases h with
    | blockCons h =>
      obtain ⟨t, _, t', _, rfl, rfl, ht, hparts⟩ := hparts.exists_cons
      obtain ⟨init, init', last, last', rfl, rfl, hlen, hlen', hblock⟩ := ih h hparts
      exact ⟨t :: init, t' :: init', last, last', rfl, rfl, congrArg (· + 1) hlen,
        congrArg (· + 1) hlen', .blockCons ht hblock⟩

/-- The same node over alike children. -/
theorem SameNode.withChildren {parts parts' : List Term} (h : SameNode S scopes t u)
    (hparts : InScopes Alike scopes parts parts') :
    SameOutcome (Alike S) (t.withChildren parts) (u.withChildren parts') := by
  cases h with
  | reference hxy =>
    cases hparts
    exact .ok (.reference hxy)
  | lambda =>
    obtain ⟨r, r', rfl, rfl, hr⟩ := hparts.exists_single
    exact .ok (.lambda hr)
  | thunkCall =>
    obtain ⟨f, f', rfl, rfl, hf⟩ := hparts.exists_single
    exact hf.apply .none
  | call =>
    obtain ⟨f, _, f', _, rfl, rfl, hf, hparts⟩ := hparts.exists_cons
    obtain ⟨a, a', rfl, rfl, ha⟩ := hparts.exists_single
    exact hf.apply (.some ha)
  | selection =>
    obtain ⟨s, s', rfl, rfl, hs⟩ := hparts.exists_single
    exact hs.select _
  | structNil =>
    cases hparts
    exact .ok .structNil
  | @structCons _ scopes label t t' es es' h =>
    have hnode : SameNode S (S :: scopes) (.struct ((label, t) :: es))
        (.struct ((label, t') :: es')) := .structCons h
    obtain ⟨hlen, hlen'⟩ := hnode.length_children
    rw [withChildren_struct, withChildren_struct]
    · exact .ok (hnode.struct hparts)
    · rw [hparts.length_right, ← hlen', children, List.length_map]
    · rw [hparts.length_left, ← hlen, children, List.length_map]
  | blockNil =>
    obtain ⟨r, r', rfl, rfl, hr⟩ := hparts.exists_single
    exact .ok (.blockNil hr)
  | blockCons h =>
    obtain ⟨init, init', last, last', rfl, rfl, hlen, hlen', hblock⟩ :=
      (SameNode.blockCons h).block hparts
    rw [withChildren_block hlen, withChildren_block hlen']
    exact .ok hblock
  | compiled =>
    cases hparts
    exact .ok .compiled
  | intrinsic =>
    cases hparts
    exact .ok .intrinsic

theorem InScopes.mapM_outcome {ε α β γ δ : Type} {R : Scope → α → β → Prop}
    {Q : Scope → γ → δ → Prop} {as : List α} {bs : List β} (h : InScopes R scopes as bs)
    {f : α → Except ε γ} {g : β → Except ε δ}
    (hfg : ∀ S a b, R S a b → SameOutcome (Q S) (f a) (g b)) :
    SameOutcome (InScopes Q scopes) (as.mapM f) (bs.mapM g) := by
  induction h with
  | nil =>
    rw [List.mapM_nil, List.mapM_nil]
    exact .ok .nil
  | cons hab _ ih =>
    rw [List.mapM_cons, List.mapM_cons]
    exact (hfg _ _ _ hab).bind fun _ _ hcd => ih.bind fun _ _ hall => .ok (.cons hcd hall)

section

variable {σ τ α β : Type} {State : σ → τ → Prop} {s : σ} {s' : τ}

/-- Visiting the entries from left to right. -/
theorem InScopes.mapM {R : Scope → Term → Term → Prop} {Q : Scope → α → β → Prop}
    {ts us : List Term} (h : InScopes R scopes ts us) {f : Term → Compile σ α}
    {g : Term → Compile τ β}
    (hfg : ∀ t ∈ ts, ∀ S u s s', R S t u → State s s' →
      SameRun (fun p q => Q S p.1 q.1 ∧ State p.2 q.2) (f t) s (g u) s')
    (hs : State s s') :
    SameRun (fun p q => InScopes Q scopes p.1 q.1 ∧ State p.2 q.2) (ts.mapM f) s
      (us.mapM g) s' := by
  induction h generalizing s s' with
  | nil =>
    rw [List.mapM_nil, List.mapM_nil]
    exact .pure ⟨.nil, hs⟩
  | cons htu _ ih =>
    rw [List.forall_mem_cons] at hfg
    rw [List.mapM_cons, List.mapM_cons]
    refine (hfg.1 _ _ _ _ htu hs).bind fun a s b s' hab => ?_
    exact (ih hfg.2 hab.2).bind fun as s bs s' habs => .pure ⟨.cons hab.1 habs.1, habs.2⟩

variable {step : NodeStep σ} {step' : NodeStep τ}

/-- Alike terms with the same flag. -/
def Flagged (S : Scope) (p q : Term × Bool) : Prop := Alike S p.1 q.1 ∧ p.2 = q.2

/-- Alike results with the same flag, and states that correspond. -/
def Matched (State : σ → τ → Prop) (S : Scope) (p : (Term × Bool) × σ) (q : (Term × Bool) × τ) :
    Prop :=
  Flagged S p.1 q.1 ∧ State p.2 q.2

/-- Steps that treat alike nodes alike. -/
def Mirrors (State : σ → τ → Prop) (step : NodeStep σ) (step' : NodeStep τ) : Prop :=
  ∀ S t u s s', Alike S t u → State s s' → SameRun (Matched State S) (step t) s (step' u) s'

theorem settle_matched (hstep : Mirrors State step step') (h : Alike S t u)
    (hnode : SameNode S scopes t u) {parts parts' : List (Term × Bool)}
    (hparts : InScopes Flagged scopes parts parts')
    (hs : State s s') :
    SameRun (Matched State S) (settle step t parts) s (settle step' u parts') s' := by
  have hany : parts'.any (·.2) = parts.any (·.2) := (hparts.any_eq fun _ _ _ h => h.2).symm
  have hterms : InScopes Alike scopes (parts.map (·.1)) (parts'.map (·.1)) :=
    hparts.map fun _ _ _ h => h.1
  have hfinish : ∀ t u s s', Alike S t u → State s s' → SameRun (Matched State S)
      (step t >>= fun p => pure (p.1, parts.any (·.2) || p.2)) s
      (step' u >>= fun p => pure (p.1, parts.any (·.2) || p.2)) s' := by
    intro t u s s' htu hs
    exact (hstep S t u s s' htu hs).bind fun p s q s' hpq =>
      .pure ⟨⟨hpq.1.1, congrArg (parts.any (·.2) || ·) hpq.1.2⟩, hpq.2⟩
  rw [settle_eq, settle_eq, hany]
  split
  · refine (SameRun.mk_pure ((hnode.withChildren hterms).mapError CompileError.type)).bind
      fun t s₁ u s₁' hnew => ?_
    obtain ⟨htu, rfl, rfl⟩ := hnew
    exact hfinish t u _ _ htu hs
  · exact hfinish t u s s' h hs

end

section

variable {σ τ : Type} {State : σ → τ → Prop} {step : NodeStep σ} {step' : NodeStep τ}

/-- Steps that treat alike nodes alike do the same to alike trees. -/
theorem transform_mirrors (hstep : Mirrors State step step') :
    Mirrors State (transform step) (transform step') := by
  intro S t
  induction t using inductChildren generalizing S with
  | node t ih =>
    intro u s s' h hs
    obtain ⟨scopes, hnode, hchildren⟩ := h.exists_sameNode
    rw [transform_eq, transform_eq step']
    have hvisit : SameRun (fun p q => InScopes Flagged scopes p.1 q.1 ∧ State p.2 q.2)
        (t.children.mapM (transform step)) s (u.children.mapM (transform step')) s' :=
      hchildren.mapM ih hs
    exact hvisit.bind fun parts s parts' s' hparts =>
      settle_matched hstep h hnode hparts.1 hparts.2

end

/-- Rewrites that treat alike nodes alike give alike terms, after as many rewrites. -/
theorem rewriteAll_mirrors {rewrite rewrite' : Term → Except CompileError (Option Term)}
    (hrewrite : ∀ S t u, Alike S t u →
      SameOutcome (Option.Rel (Alike S)) (rewrite t) (rewrite' u)) (h : Alike S t u) :
    SameOutcome (fun p q => Alike S p.1 q.1 ∧ p.2 = q.2) (rewriteAll rewrite t)
      (rewriteAll rewrite' u) := by
  have hstep : Mirrors (fun m n : Nat => m = n) (countingStep rewrite) (countingStep rewrite') := by
    intro S t u m n htu hmn
    refine (SameRun.mk_pure (hrewrite S t u htu)).bind fun r m' r' n' hr => ?_
    obtain ⟨hr, rfl, rfl⟩ := hr
    cases hr with
    | none => exact .pure ⟨⟨htu, rfl⟩, hmn⟩
    | some hr => exact .ok ⟨⟨hr, rfl⟩, congrArg (· + 1) hmn⟩
  have hend : ∀ (rewrite : Term → Except CompileError (Option Term)) (t : Term),
      rewriteAll rewrite t =
        (ending (transform (countingStep rewrite) t) 0).map fun p => (p.1.1, p.2) := by
    intro rewrite t
    rw [rewriteAll_eq, ending]
    rcases (transform (countingStep rewrite) t).run.run 0 with ⟨e | p, n⟩ <;> rfl
  rw [hend, hend]
  exact (transform_mirrors hstep S t u 0 0 h rfl).map fun p q hpq => ⟨hpq.1.1, hpq.2⟩

end Term

end GraphFusion
