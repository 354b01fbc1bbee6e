import GraphFusion.Proofs.Fusion.Outline
import GraphFusion.Proofs.Terms.Mirroring

/-!
Local rewrites of alike nodes. The rewrites in front of fusion look at the shape of
a node and at types. Two patterns compare names, the parameter of a lambda with the
argument of the graph in it and the elements of a struct with each other; names
stand for each other one to one, so the comparisons come out the same on both
sides. Every rewrite applies to both of two alike nodes or to neither, and gives
alike terms or the same error.
-/

namespace GraphFusion

namespace Term

variable {S : Scope} {t u : Term}

/-- `(p -> body)(arg)` on both sides. A body below a lambda without a parameter does
not mention its name, and a lambda called on nothing has none. -/
theorem calledLambdaToBlock?_alike (h : Alike S t u) :
    Option.Rel (Alike S) t.calledLambdaToBlock? u.calledLambdaToBlock? := by
  cases h with
  | thunkCall hf htype =>
    cases hf with
    | @lambda _ x y p r r' hr =>
      obtain rfl : p = none := by
        simp only [type, Ty.function.injEq] at htype
        exact htype.1
      exact .some (.blockNil hr.of_bind_none)
    | _ => exact .none
  | call hf ha =>
    cases hf with
    | @lambda _ x y p r r' hr =>
      cases p with
      | none => exact .some (.blockNil hr.of_bind_none)
      | some type => exact .some (.blockCons ha (.blockNil hr))
    | _ => exact .none
  | _ => exact .none

theorem calledLambdasToBlocks_alike (h : Alike S t u) :
    SameOutcome (fun p q => Alike S p.1 q.1 ∧ p.2 = q.2) t.calledLambdasToBlocks
      u.calledLambdasToBlocks :=
  rewriteAll_mirrors (fun _ _ _ h => .ok (calledLambdaToBlock?_alike h)) h

theorem elementOfStruct?_alike (h : Alike S t u) :
    Option.Rel (Alike S) t.elementOfStruct? u.elementOfStruct? := by
  cases h with
  | @selection _ s s' index hs =>
    cases s with
    | struct es =>
      obtain ⟨es', rfl, hall⟩ := Alike.struct_iff.mp hs
      simp only [elementOfStruct?]
      cases he : es[index]? with
      | none =>
        have he' : es'[index]? = none := by
          rw [List.getElem?_eq_none_iff] at he ⊢
          rwa [← hall.length_eq]
        rw [he']
        exact .none
      | some e =>
        obtain ⟨e', he', -, h⟩ := exists_right_of_forall₂ hall he
        rw [he']
        exact .some h
    | _ => cases hs <;> exact .none
  | _ => exact .none

theorem selectionsFromStructs_alike (h : Alike S t u) :
    SameOutcome (fun p q => Alike S p.1 q.1 ∧ p.2 = q.2) t.selectionsFromStructs
      u.selectionsFromStructs :=
  rewriteAll_mirrors (fun _ _ _ h => .ok (elementOfStruct?_alike h)) h

theorem ofGraph_alike (g : Graph) : SameOutcome (Alike S) (ofGraph g) (ofGraph g) :=
  .bind_eq _ fun _ => .ok .compiled

theorem identityCall_alike (h : Alike S t u) :
    SameOutcome (Alike S) t.identityCall u.identityCall := by
  rw [identityCall, identityCall, h.type_eq]
  have hidentity : SameOutcome (Alike S) (compiledIdentity t.type) (compiledIdentity t.type) :=
    .bind_eq _ ofGraph_alike
  exact (hidentity.mapError CompileError.graph).bind fun _ _ hf => (hf.apply (.some h)).mapError CompileError.type

theorem isDataReference_alike (h : Alike S t u) : u.isDataReference = t.isDataReference := by
  have hreference : u.isReference = t.isReference := by cases h <;> rfl
  rw [isDataReference, isDataReference, hreference, h.type_eq]

theorem wrapIfData_alike (h : Alike S t u) :
    SameOutcome (Alike S) (wrapIfData t) (wrapIfData u) := by
  rw [wrapIfData, wrapIfData, isDataReference_alike h]
  split
  · exact identityCall_alike h
  · exact .ok h

theorem wrapChildren?_alike (h : Alike S t u) :
    SameOutcome (Option.Rel (Alike S)) t.wrapChildren? u.wrapChildren? := by
  obtain ⟨scopes, hnode, hchildren⟩ := h.exists_sameNode
  have hany : u.children.any isDataReference = t.children.any isDataReference :=
    (hchildren.any_eq fun _ _ _ h => (isDataReference_alike h).symm).symm
  have hwrap : SameOutcome (Option.Rel (Alike S))
      (do
        if t.children.any isDataReference then
          let parts ← t.children.mapM wrapIfData
          return some (← (t.withChildren parts).mapError .type)
        else
          return none : Except CompileError (Option Term))
      (do
        if u.children.any isDataReference then
          let parts ← u.children.mapM wrapIfData
          return some (← (u.withChildren parts).mapError .type)
        else
          return none) := by
    rw [hany]
    split
    · refine (hchildren.mapM_outcome fun _ _ _ => wrapIfData_alike).bind fun parts parts' h => ?_
      exact ((hnode.withChildren h).mapError CompileError.type).bind fun _ _ h => .ok (.some h)
    · exact .ok .none
  cases h with
  | thunkCall hf _ =>
    cases hf with
    | compiled => exact .ok .none
    | _ => exact hwrap
  | call hf _ =>
    cases hf with
    | compiled => exact .ok .none
    | _ => exact hwrap
  | _ => exact hwrap

theorem identitiesAtLeaves_alike (h : Alike S t u) :
    SameOutcome (fun p q => Alike S p.1 q.1 ∧ p.2 = q.2) t.identitiesAtLeaves
      u.identitiesAtLeaves :=
  rewriteAll_mirrors (fun _ _ _ h => wrapChildren?_alike h) h

/-- Neither is a called graph, or both are the same unit on alike arguments. -/
theorem calledGraph?_alike (h : Alike S t u) :
    (t.calledGraph? = none ∧ u.calledGraph? = none) ∨
      ∃ v a a', t.calledGraph? = some (v, a) ∧ u.calledGraph? = some (v, a') ∧
        Option.Rel (Alike S) a a' := by
  cases h with
  | thunkCall hf _ =>
    cases hf with
    | compiled => exact .inr ⟨_, _, _, rfl, rfl, .none⟩
    | _ => exact .inl ⟨rfl, rfl⟩
  | call hf ha =>
    cases hf with
    | compiled =>
      cases ha with
      | reference hxy => exact .inr ⟨_, _, _, rfl, rfl, .some (.reference hxy)⟩
      | _ => exact .inl ⟨rfl, rfl⟩
    | _ => exact .inl ⟨rfl, rfl⟩
  | _ => exact .inl ⟨rfl, rfl⟩

theorem callGraph_alike (g : Graph) {a a' : Option Term} (h : Option.Rel (Alike S) a a') :
    SameOutcome (Alike S) (callGraph g a) (callGraph g a') :=
  ((ofGraph_alike g).mapError CompileError.graph).bind fun _ _ hf => (hf.apply h).mapError CompileError.type

/-- The same label and graph, with alike arguments. -/
def PartAlike (S : Scope) (p q : Label × Graph × Option Term) : Prop :=
  p.1 = q.1 ∧ p.2.1 = q.2.1 ∧ Option.Rel (Alike S) p.2.2 q.2.2

theorem calledElements_alike {es es' : List (Label × Term)}
    (h : List.Forall₂ (fun e e' => e.1 = e'.1 ∧ Alike S e.2 e'.2) es es') :
    SameOutcome (Option.Rel (List.Forall₂ (PartAlike S))) (calledElements es)
      (calledElements es') := by
  induction h with
  | nil => exact .ok (.some .nil)
  | @cons e e' es es' he _ ih =>
    obtain ⟨label, t⟩ := e
    obtain ⟨label', t'⟩ := e'
    obtain ⟨rfl, ht⟩ := he
    obtain ⟨hcalled, hcalled'⟩ | ⟨v, a, a', hcalled, hcalled', ha⟩ := calledGraph?_alike ht
    · simp only [calledElements, hcalled, hcalled']
      exact .ok .none
    · simp only [calledElements, hcalled, hcalled']
      refine .bind_eq _ fun g => ih.bind fun parts parts' hparts => ?_
      cases hparts with
      | none => exact .ok .none
      | some hparts => exact .ok (.some (.cons ⟨rfl, rfl, ha⟩ hparts))

theorem shareArgument_alike {shared shared' : Term} (hshared : Alike S shared shared')
    {p q : Label × Graph × Option Term} (h : PartAlike S p q) :
    SameOutcome (fun p q => p.1 = q.1 ∧ Alike S p.2 q.2) (shareArgument shared p)
      (shareArgument shared' q) := by
  obtain ⟨label, g, a⟩ := p
  obtain ⟨label', g', a'⟩ := q
  obtain ⟨rfl, rfl, ha⟩ := h
  dsimp only at ha
  cases ha with
  | none =>
    rw [shareArgument, shareArgument, hshared.type_eq]
    exact .bind_eq _ fun lifted => .ok ⟨rfl, hshared⟩
  | some ha => exact .ok ⟨rfl, ha⟩

theorem tuple_alike {ts us : List Term} (h : List.Forall₂ (Alike S) ts us) :
    Alike S (tuple ts) (tuple us) := by
  induction h with
  | nil => exact .structNil
  | cons htu _ ih => exact .structCons htu ih

theorem findSome?_alike {parts parts' : List (Label × Graph × Option Term)}
    (h : List.Forall₂ (PartAlike S) parts parts') :
    Option.Rel (Alike S) (parts.findSome? fun (_, _, argument) => argument)
      (parts'.findSome? fun (_, _, argument) => argument) := by
  induction h with
  | nil => exact .none
  | @cons p q _ _ hpq _ ih =>
    obtain ⟨label, g, a⟩ := p
    obtain ⟨label', g', a'⟩ := q
    obtain ⟨-, -, ha⟩ := hpq
    dsimp only at ha
    cases ha with
    | none => simpa only [List.findSome?_cons] using ih
    | some ha => exact .some ha

theorem fuseElements_alike {parts parts' : List (Label × Graph × Option Term)}
    (h : List.Forall₂ (PartAlike S) parts parts') :
    SameOutcome (Alike S) (fuseElements parts) (fuseElements parts') := by
  have hshared := findSome?_alike h
  rw [fuseElements, fuseElements]
  generalize (parts.findSome? fun (_, _, argument) => argument) = shared at hshared ⊢
  generalize (parts'.findSome? fun (_, _, argument) => argument) = shared' at hshared ⊢
  cases hshared with
  | none =>
    have hgraphs : (parts.map fun (label, g, _) => (label, g)) =
        parts'.map fun (label, g, _) => (label, g) :=
      map_eq_map_of_forall₂ h fun p q hpq => Prod.ext hpq.1 hpq.2.1
    dsimp only
    rw [hgraphs]
    exact .bind_eq _ fun fused => callGraph_alike fused .none
  | some hshared =>
    refine (SameOutcome.mapM h fun p q => shareArgument_alike hshared).bind
      fun lifted lifted' hlifted => ?_
    have hlabelled : lifted.map (·.1) = lifted'.map (·.1) :=
      map_eq_map_of_forall₂ hlifted fun _ _ h => h.1
    have harguments : List.Forall₂ (Alike S) (lifted.map (·.2)) (lifted'.map (·.2)) :=
      List.forall₂_map_left_iff.mpr (List.forall₂_map_right_iff.mpr (hlifted.imp fun _ _ h => h.2))
    rw [hlabelled]
    exact .bind_eq _ fun fused => callGraph_alike fused (.some (tuple_alike harguments))

theorem refers_alike {x x' : String} {type : Ty} (h : Alike S t u) (hx : S.pairs x x' type) :
    (t.outline == .reference x) = (u.outline == .reference x') := by
  rw [Bool.eq_iff_iff, beq_iff_eq, beq_iff_eq, outline_eq_reference, outline_eq_reference]
  cases h with
  | reference hy => simp [S.unique hy hx]
  | _ => simp

/-- All elements refer to one name, or they do not, on both sides. -/
theorem replicatedReference?_alike {es es' : List (Label × Term)}
    (h : List.Forall₂ (fun e e' => e.1 = e'.1 ∧ Alike S e.2 e'.2) es es') :
    Option.Rel (Alike S) (replicatedReference? es) (replicatedReference? es') := by
  cases h with
  | nil => exact .none
  | @cons e e' es es' he hes =>
    obtain ⟨label, t⟩ := e
    obtain ⟨label', t'⟩ := e'
    obtain ⟨rfl, ht⟩ := he
    dsimp only at ht
    cases ht with
    | @reference _ x x' type hx =>
      have hcons : List.Forall₂ (fun e e' => e.1 = e'.1 ∧ Alike S e.2 e'.2)
          ((label, .reference x type) :: es) ((label, .reference x' type) :: es') :=
        .cons ⟨rfl, .reference hx⟩ hes
      rw [replicatedReference?_cons, replicatedReference?_cons,
        all_eq_all_of_forall₂ hcons fun e e' he => refers_alike he.2 hx]
      split
      · exact .some (.reference hx)
      · exact .none
    | _ => exact .none

end Term

namespace Pattern

open Term

variable {S : Scope} {t u : Term}

theorem lambdaWrappingGraph_alike (h : Alike S t u) :
    SameOutcome (Option.Rel (Alike S)) (lambdaWrappingGraph.rewrite? t)
      (lambdaWrappingGraph.rewrite? u) := by
  cases h with
  | @lambda _ x x' p r r' hr =>
    cases p with
    | none => exact .ok .none
    | some type =>
      obtain ⟨hcalled, hcalled'⟩ | ⟨v, a, a', hcalled, hcalled', ha⟩ := calledGraph?_alike hr
      · simp only [rewrite?, hcalled, hcalled']
        exact .ok .none
      · simp only [rewrite?, hcalled, hcalled']
        cases ha with
        | none => exact .ok .none
        | some ha =>
          cases ha with
          | @reference _ y y' ytype hy =>
            -- the parameter stands for the parameter, and for no other name
            have hsame : x = y ↔ x' = y' := by
              rcases hy with ⟨rfl, rfl, -⟩ | ⟨hyx, hyx', -⟩
              · exact iff_of_true rfl rfl
              · exact iff_of_false hyx.symm hyx'.symm
            simp only [hsame]
            split
            · exact .ok (.some .compiled)
            · exact .ok .none
          | _ => exact .ok .none
  | _ => exact .ok .none

theorem structOfCalledGraphs_alike (h : Alike S t u) :
    SameOutcome (Option.Rel (Alike S)) (structOfCalledGraphs.rewrite? t)
      (structOfCalledGraphs.rewrite? u) := by
  cases h with
  | structNil =>
    exact .bind_eq _ fun empty => (callGraph_alike empty .none).bind fun _ _ h => .ok (.some h)
  | structCons ht hes =>
    obtain ⟨es', heq, hall⟩ := Alike.struct_iff.mp (.structCons ht hes)
    cases heq
    refine (calledElements_alike hall).bind fun parts parts' hparts => ?_
    cases hparts with
    | none => exact .ok .none
    | some hparts => exact (fuseElements_alike hparts).bind fun _ _ h => .ok (.some h)
  | _ => exact .ok .none

theorem selectionFromCalledGraph_alike (h : Alike S t u) :
    SameOutcome (Option.Rel (Alike S)) (selectionFromCalledGraph.rewrite? t)
      (selectionFromCalledGraph.rewrite? u) := by
  cases h with
  | selection hs =>
    obtain ⟨hcalled, hcalled'⟩ | ⟨v, a, a', hcalled, hcalled', ha⟩ := calledGraph?_alike hs
    · simp only [rewrite?, hcalled, hcalled']
      exact .ok .none
    · simp only [rewrite?, hcalled, hcalled']
      exact .bind_eq _ fun g => .bind_eq _ fun projected =>
        (callGraph_alike projected ha).bind fun _ _ h => .ok (.some h)
  | _ => exact .ok .none

theorem calledComposition_alike (h : Alike S t u) :
    SameOutcome (Option.Rel (Alike S)) (calledComposition.rewrite? t)
      (calledComposition.rewrite? u) := by
  cases h with
  | call hf ha =>
    cases hf with
    | compiled =>
      obtain ⟨hcalled, hcalled'⟩ | ⟨v, b, b', hcalled, hcalled', hb⟩ := calledGraph?_alike ha
      · simp only [rewrite?, hcalled, hcalled']
        exact .ok .none
      · simp only [rewrite?, hcalled, hcalled']
        exact .bind_eq _ fun outer => .bind_eq _ fun inner => .bind_eq _ fun composed =>
          (callGraph_alike composed hb).bind fun _ _ h => .ok (.some h)
    | _ => exact .ok .none
  | thunkCall hf _ => cases hf <;> exact .ok .none
  | _ => exact .ok .none

theorem calledGraphOnReplicatedArg_alike (h : Alike S t u) :
    SameOutcome (Option.Rel (Alike S)) (calledGraphOnReplicatedArg.rewrite? t)
      (calledGraphOnReplicatedArg.rewrite? u) := by
  cases h with
  | @call _ f f' a a' hf ha =>
    cases hf with
    | compiled =>
      cases a with
      | struct es =>
        obtain ⟨es', rfl, hall⟩ := Alike.struct_iff.mp ha
        have hshared := replicatedReference?_alike hall
        have hlabels : es.map (·.1) = es'.map (·.1) := map_fst_of_forall₂ hall
        simp only [rewrite?, hlabels]
        generalize replicatedReference? es = shared at hshared ⊢
        generalize replicatedReference? es' = shared' at hshared ⊢
        cases hshared with
        | none => exact .ok .none
        | some hshared =>
          dsimp only
          rw [hshared.type_eq]
          exact .bind_eq _ fun replicate => .bind_eq _ fun unit => .bind_eq _ fun composed =>
            (callGraph_alike composed (.some hshared)).bind fun _ _ h => .ok (.some h)
      | _ => cases ha <;> exact .ok .none
    | _ => exact .ok .none
  | thunkCall hf _ => cases hf <;> exact .ok .none
  | _ => exact .ok .none

theorem lambdaWrappingNoArgGraph_alike (h : Alike S t u) :
    SameOutcome (Option.Rel (Alike S)) (lambdaWrappingNoArgGraph.rewrite? t)
      (lambdaWrappingNoArgGraph.rewrite? u) := by
  cases h with
  | @lambda _ x x' p r r' hr =>
    obtain ⟨hcalled, hcalled'⟩ | ⟨v, a, a', hcalled, hcalled', ha⟩ := calledGraph?_alike hr
    · simp only [rewrite?, hcalled, hcalled']
      exact .ok .none
    · simp only [rewrite?, hcalled, hcalled']
      cases ha with
      | some _ => exact .ok .none
      | none =>
        cases p with
        | none => exact .ok (.some .compiled)
        | some type =>
          exact .bind_eq _ fun g => .bind_eq _ fun lifted =>
            ((ofGraph_alike lifted).mapError CompileError.graph).bind
              fun _ _ h => .ok (.some h)
  | _ => exact .ok .none

theorem rewrite?_alike (p : Pattern) (h : Alike S t u) :
    SameOutcome (Option.Rel (Alike S)) (p.rewrite? t) (p.rewrite? u) := by
  cases p with
  | lambdaWrappingGraph => exact lambdaWrappingGraph_alike h
  | structOfCalledGraphs => exact structOfCalledGraphs_alike h
  | selectionFromCalledGraph => exact selectionFromCalledGraph_alike h
  | calledComposition => exact calledComposition_alike h
  | calledGraphOnReplicatedArg => exact calledGraphOnReplicatedArg_alike h
  | lambdaWrappingNoArgGraph => exact lambdaWrappingNoArgGraph_alike h

/-- The same pattern, with alike replacements. -/
def MatchAlike (S : Scope) (p q : Pattern × Term) : Prop := p.1 = q.1 ∧ Alike S p.2 q.2

theorem firstMatch?_alike (h : Alike S t u) (ps : List Pattern) :
    SameOutcome (Option.Rel (MatchAlike S)) (firstMatch? t ps) (firstMatch? u ps) := by
  induction ps with
  | nil => exact .ok .none
  | cons p ps ih =>
    rw [firstMatch?, firstMatch?]
    refine (p.rewrite?_alike h).bind fun r r' hr => ?_
    cases hr with
    | none => exact ih
    | some hr => exact .ok (.some ⟨rfl, hr⟩)

end Pattern

namespace Term

variable {S : Scope} {t u : Term}

theorem fusionBound_alike (h : Alike S t u) : u.fusionBound = t.fusionBound := by
  cases h with
  | thunkCall hf _ => cases hf <;> rfl
  | call hf ha =>
    cases hf with
    | compiled => cases ha <;> rfl
    | _ => rfl
  | _ => rfl

theorem fuseWithin_alike (type : Ty) (bound : Nat) (h : Alike S t u) (changed : Bool)
    (log log' : CompileLog) :
    SameRun (Matched (fun _ _ => True) S) (fuseWithin type bound t changed) log
      (fuseWithin type bound u changed) log' := by
  induction bound generalizing t u changed log log' with
  | zero => exact .pure ⟨⟨h, rfl⟩, trivial⟩
  | succ bound ih =>
    refine (SameRun.mk_pure (Pattern.firstMatch?_alike h Pattern.all)).bind
      fun r log r' log' hr => ?_
    obtain ⟨hr, -, -⟩ := hr
    cases hr with
    | none => exact .pure ⟨⟨h, rfl⟩, trivial⟩
    | @some p q hpq =>
      obtain ⟨pattern, next⟩ := p
      obtain ⟨pattern', next'⟩ := q
      obtain ⟨rfl, hnext⟩ := hpq
      dsimp only at hnext
      simp only [hnext.type_eq]
      split
      · exact .error _
      · exact SameRun.modify.bind fun _ _ _ _ _ => ih hnext true _ _

theorem fuseNode_alike (h : Alike S t u) (log log' : CompileLog) :
    SameRun (Matched (fun _ _ => True) S) (fuseNode t) log (fuseNode u) log' := by
  rw [fuseNode, fuseNode, h.type_eq, fusionBound_alike h]
  exact fuseWithin_alike _ _ h false log log'

theorem ending_fusingStep (t : Term) (s : Fusing) :
    ending (fusingStep t) s = (ending (fuseNode t) s.log).map fun p =>
      (p.1, ⟨s.rewrites + p.1.2.toNat, p.2⟩) := by
  change ending (tally s ((fuseNode t).run.run s.log)) s = _
  rw [ending, ending]
  rcases (fuseNode t).run.run s.log with ⟨e | p, log⟩ <;> rfl

/-- Fusing a node counts it on both sides or on neither. -/
theorem fusingStep_mirrors :
    Mirrors (fun s s' : Fusing => s.rewrites = s'.rewrites) fusingStep fusingStep := by
  intro S t u s s' h hs
  unfold SameRun
  rw [ending_fusingStep, ending_fusingStep]
  refine (fuseNode_alike h s.log s'.log).map fun p q hpq => ⟨hpq.1, ?_⟩
  change s.rewrites + p.1.2.toNat = s'.rewrites + q.1.2.toNat
  rw [hs, hpq.1.2]

theorem ending_fuseAll (t : Term) (log : CompileLog) :
    ending (fuseAll t) log = (ending (transform fusingStep t) ⟨0, log⟩).map fun p =>
      ((p.1.1, p.2.rewrites), p.2.log) := by
  rw [ending, fuseAll_run, ending]
  rcases (transform fusingStep t).run.run ⟨0, log⟩ with ⟨e | p, s⟩ <;> rfl

/-- Fusing alike trees gives alike trees, with as many nodes changed. -/
theorem fuseAll_alike (h : Alike S t u) (log log' : CompileLog) :
    SameRun (fun p q => Alike S p.1.1 q.1.1 ∧ p.1.2 = q.1.2) (fuseAll t) log (fuseAll u) log' := by
  unfold SameRun
  rw [ending_fuseAll, ending_fuseAll]
  exact (transform_mirrors fusingStep_mirrors S t u ⟨0, log⟩ ⟨0, log'⟩ h rfl).map
    fun p q hpq => ⟨hpq.1.1, hpq.2⟩

end Term

end GraphFusion
