import GraphFusion.Fusion.Pipeline
import GraphFusion.Proofs.Fusion.Exactness
import GraphFusion.Proofs.Fusion.Normalization

/-!
Runs of passes. What every pass keeps is kept by any list of steps, in any order
and with fixed points nested to any depth and of any bounds. So types survive
every run: the passes in front of fusion never fail, fusion fails only where a
graph cannot be made, and what a run returns is typed over the free names it
started from.
-/

namespace GraphFusion

/-- A body that keeps a property of terms keeps it over any number of rounds. -/
theorem repeatRounds_ensures {P : Term → Prop} {E : CompileError → Prop} {body : TermRun}
    (hbody : ∀ t, P t → Ensures (body t) (fun p => P p.1) E) (left done : Nat) {t : Term}
    (ht : P t) : Ensures (repeatRounds body done left t) (fun p => P p.1) E := by
  induction left generalizing done t with
  | zero => exact ensures_modify.bind fun _ _ => ensures_pure ht
  | succ left ih =>
    refine (hbody t ht).bind fun p hp => ?_
    obtain ⟨t', stats⟩ := p
    dsimp only
    split
    · exact (ih (done + 1) hp).bind fun q hq => ensures_pure hq
    · exact ensures_pure hp

/-- What the first round brings about, the later ones keep. -/
theorem repeatRounds_succ_ensures {P : Term → Prop} {E : CompileError → Prop} {body : TermRun}
    {t : Term} (ht : Ensures (body t) (fun p => P p.1) E)
    (hbody : ∀ t, P t → Ensures (body t) (fun p => P p.1) E) (done left : Nat) :
    Ensures (repeatRounds body done (left + 1) t) (fun p => P p.1) E := by
  refine ht.bind fun p hp => ?_
  obtain ⟨t', stats⟩ := p
  dsimp only
  split
  · exact (repeatRounds_ensures hbody left (done + 1) hp).bind fun q hq => ensures_pure hq
  · exact ensures_pure hp

theorem Pass.runLogged_ensures {P : Term → Prop} {E : CompileError → Prop} {counted : Bool}
    {pass : Pass} {t : Term} (h : Ensures (pass.run t) (fun p => P p.1) E) :
    Ensures (pass.runLogged counted t) (fun p => P p.1) E :=
  h.bind fun _ hp => ensures_modify.bind fun _ _ => ensures_pure hp

namespace Step

mutual

/-- The passes that a step runs, those of nested fixed points among them. -/
def passes : Step → List Pass
  | .pass p => [p]
  | .repeated _ steps => passesOf steps

def passesOf : List Step → List Pass
  | [] => []
  | step :: rest => passes step ++ passesOf rest

end

@[simp] theorem passes_fixedPoint (rounds : Nat) (steps : List Step) :
    (fixedPoint rounds steps).passes = passesOf steps := by
  rw [fixedPoint, passes]

theorem run_pass (counted : Bool) (p : Pass) : run counted (.pass p) = p.runLogged counted := by
  funext t
  rw [run]

theorem run_repeated (counted : Bool) (rounds : Nat) (steps : List Step) :
    run counted (.repeated rounds steps) = repeatRounds (runAll counted steps) 0 rounds := by
  funext t
  rw [run]

theorem run_fixedPoint (counted : Bool) (rounds : Nat) (steps : List Step) :
    run counted (.fixedPoint rounds steps) =
      repeatRounds (runAll counted steps) 0 (max rounds 1) :=
  run_repeated counted _ steps

section

variable {P : Term → Prop} {E : CompileError → Prop} {counted : Bool}

mutual

theorem run_ensures : ∀ (step : Step)
    (_ : ∀ pass ∈ step.passes, ∀ t, P t → Ensures (pass.run t) (fun p => P p.1) E) {t : Term},
    P t → Ensures (step.run counted t) (fun p => P p.1) E
  | .pass p, hpass, t, ht => by
    rw [run_pass]
    exact Pass.runLogged_ensures (hpass p List.mem_cons_self t ht)
  | .repeated rounds steps, hpass, t, ht => by
    rw [run_repeated]
    exact repeatRounds_ensures (fun t ht => runAll_ensures_of_passes steps hpass ht) _ _ ht

/-- What the passes of steps keep is kept by the steps. -/
theorem runAll_ensures_of_passes : ∀ (steps : List Step)
    (_ : ∀ pass ∈ passesOf steps, ∀ t, P t → Ensures (pass.run t) (fun p => P p.1) E) {t : Term},
    P t → Ensures (runAll counted steps t) (fun p => P p.1) E
  | [], hpass, t, ht => by
    rw [runAll]
    exact ensures_pure ht
  | step :: rest, hpass, t, ht => by
    rw [runAll]
    have hstep := fun pass hmem => hpass pass (List.mem_append_left _ hmem)
    have hrest := fun pass hmem => hpass pass (List.mem_append_right _ hmem)
    exact (run_ensures step hstep ht).bind fun p hp =>
      (runAll_ensures_of_passes rest hrest hp).bind fun q hq => ensures_pure hq

end

/-- What every pass keeps is kept by any steps. -/
theorem runAll_ensures
    (hpass : ∀ (pass : Pass) (t : Term), P t → Ensures (pass.run t) (fun p => P p.1) E)
    (steps : List Step) {t : Term} (ht : P t) :
    Ensures (runAll counted steps t) (fun p => P p.1) E :=
  runAll_ensures_of_passes steps (fun pass _ => hpass pass) ht

end

end Step

/-- Every pass keeps the type of a term; fusion may fail to make a graph. -/
theorem Pass.run_keepsType {Γ : Context} {t : Term} (ht : t.Typed Γ) (pass : Pass) :
    Ensures (pass.run t) (fun p => t.KeepsType Γ p.1) (fun e => ∃ g, e = .graph g) := by
  by_cases hpass : pass = .fusion
  · subst hpass
    exact (Term.fuseAll_ensures ht).mono (fun p hp => hp.1) fun _ he => he
  · intro log
    obtain ⟨t', rewrites, hrun, hrefined⟩ := run_refined hpass ht log
    rw [hrun]
    exact hrefined.1

/-- The passes in front of fusion never fail on a typed term, and a run of any steps
gives a term of the same type, typed over the free names of the old one, or fails
because a graph cannot be made. -/
theorem Step.runAll_typed {Γ : Context} {t : Term} (ht : t.Typed Γ) :
    (∀ pass : Pass, pass ≠ .fusion → ∀ log, ∃ t' rewrites,
      Yields (pass.run t) log (t', rewrites) log) ∧
    ∀ (counted : Bool) (steps : List Step),
      Ensures (Step.runAll counted steps t)
        (fun p => p.1.Typed (Γ.restrict t) ∧ p.1.type = t.type) (fun e => ∃ g, e = .graph g) := by
  constructor
  · intro pass hpass log
    obtain ⟨t', rewrites, hrun, -⟩ := Pass.run_refined hpass ht log
    exact ⟨t', rewrites, hrun⟩
  · intro counted steps
    refine runAll_ensures (fun pass t' ht' => ?_) steps
      (P := Term.KeepsType (Γ.restrict t) t) ⟨ht.restrict, rfl⟩
    exact (Pass.run_keepsType ht'.1 pass).mono (fun _ hp => ht'.trans hp) fun _ he => he

/-- `(let y=x in <y>)`, inlined and fused in nested fixed points. -/
theorem Step.runAll_typed_block :
    Ensures (Step.runAll true [.fixedPoint 2 [.pass .inlineBlocks, .fixedPoint 0 [.pass .fusion]]]
        (.block [("y", .reference "x" (.struct []))]
          (.struct [(none, .reference "y" (.struct []))])))
      (fun p => p.1.Typed (Context.restrict (fun _ => some (.struct []))
          (.block [("y", .reference "x" (.struct []))]
            (.struct [(none, .reference "y" (.struct []))]))) ∧
        p.1.type = .struct [(none, .struct [])]) (fun e => ∃ g, e = .graph g) := by
  have ht : Term.Typed (fun _ => some (.struct [])) (.block [("y", .reference "x" (.struct []))]
      (.struct [(none, .reference "y" (.struct []))])) := by
    simp [Term.Typed, Term.LocalsTyped, Term.ElementsTyped, Context.extend, Term.type]
  have h := (runAll_typed ht).2 true
    [.fixedPoint 2 [.pass .inlineBlocks, .fixedPoint 0 [.pass .fusion]]]
  simpa [Term.type, Term.elementTypes] using h

end GraphFusion
