import GraphFusion.Proofs.Fusion.Exhaustion

/-!
Counts tell of changes. A pass leaves a term in which there is nothing for it to do, so
one that gives back the term it was given counts nothing when it is run again, and it
counts what it counted before: its count is zero exactly where nothing has changed. Then
a round of passes without a change would be followed by no other, and the flag of
lowering compares the fused term with the normalized one.
-/

namespace GraphFusion

namespace Term

section

variable {P : Term → Prop} {t t' : Term} {n : Nat}

/-- A rewriting leaves everywhere what holds of the nodes it leaves alone and within
what it puts in place of a node whose children satisfy it. -/
theorem everywhere_of_rewriteAll {rewrite : Term → Except CompileError (Option Term)}
    (hnone : ∀ u, rewrite u = .ok none → P u)
    (hsome : ∀ u u', (∀ c ∈ u.children, c.Everywhere P) → rewrite u = .ok (some u') →
      u'.Everywhere P)
    (h : rewriteAll rewrite t = .ok (t', n)) : t'.Everywhere P := by
  refine rewriteAll_of_over (Q := fun _ u => u.Everywhere P) (Γ := fun _ => none)
    (fun u u' r hover _ hr => ?_) h
  have hchildren : ∀ c ∈ u'.children, c.Everywhere P :=
    forall_of_forall₂ hover.forall₂_children fun _ _ _ h => h
  cases r with
  | none => exact .node (hnone u' hr) hchildren
  | some u'' => exact hsome u' u'' hchildren hr

theorem calledLambdaToBlock?_everywhere (hP : ∀ ls r, P (.block ls r))
    (ht : ∀ c ∈ t.children, c.Everywhere P) (h : t.calledLambdaToBlock? = some t') :
    t'.Everywhere P := by
  unfold calledLambdaToBlock? at h
  split at h
  · rename_i x p r a
    cases h
    have hlambda : (Term.lambda x (some p) r).Everywhere P := ht _ List.mem_cons_self
    refine .node (hP _ _) (List.forall_mem_cons.mpr ⟨ht a (by simp [children]), ?_⟩)
    exact List.forall_mem_singleton.mpr (hlambda.child List.mem_cons_self)
  · rename_i x p r a _
    cases h
    have hlambda : (Term.lambda x p r).Everywhere P := ht _ List.mem_cons_self
    exact .node (hP _ _) (List.forall_mem_singleton.mpr (hlambda.child List.mem_cons_self))
  · cases h

end

end Term

open Term

namespace Pass

/-- The nodes that a pass leaves alone. -/
def Spares : Pass → Term → Prop
  | calledLambdasToBlocks, t => t.calledLambdaToBlock? = none
  | inlineBlocks, t => t.Unblocked
  | selectionsFromStructs, t => t.elementOfStruct? = none
  | identitiesAtLeaves, t => t.wrapChildren? = .ok none
  | fusion, t => Pattern.Exhausted t

section

variable {pass : Pass} {counted : Bool} {t t' : Term} {n : Nat} {stats : RunStats}
  {log log' : CompileLog}

theorem yields_lift {r : Except CompileError (Term × Nat)} :
    Yields (Compile.lift r : Compile CompileLog (Term × Nat)) log (t', n) log' ↔
      r = .ok (t', n) ∧ log' = log := yields_mk_pure

theorem yields_lift_rewriteAll_zero_iff {rewrite : Term → Except CompileError (Option Term)} :
    Yields (Compile.lift (rewriteAll rewrite t) : Compile CompileLog (Term × Nat))
        log (t', 0) log' ↔
      t' = t ∧ log' = log ∧ t.Everywhere (rewrite · = .ok none) := by
  rw [yields_lift, rewriteAll_eq_zero_iff, and_right_comm, and_assoc]

/-- A pass leaves nothing that it would not spare. -/
theorem everywhere_spares (h : Yields (pass.run t) log (t', n) log') :
    t'.Everywhere pass.Spares := by
  cases pass with
  | calledLambdasToBlocks =>
    refine everywhere_of_rewriteAll (fun u hu => Except.ok.inj hu) (fun u u' hu hu' => ?_)
      (yields_lift.mp h).1
    exact calledLambdaToBlock?_everywhere (fun _ _ => rfl) hu (Except.ok.inj hu')
  | inlineBlocks => exact inlineBlocks_unblocked (yields_lift.mp h).1
  | selectionsFromStructs =>
    refine everywhere_of_rewriteAll (fun u hu => Except.ok.inj hu) (fun u u' hu hu' => ?_)
      (yields_lift.mp h).1
    exact elementOfStruct?_everywhere hu (Except.ok.inj hu')
  | identitiesAtLeaves =>
    have hwired := (identitiesAtLeaves_wired (yields_lift.mp h).1).2
    exact hwired.mono fun u hu => wrapChildren?_eq_none hu
  | fusion => exact everywhere_exhausted_of_fuseAll h

/-- A pass counts nothing exactly on the terms that it spares everywhere. -/
theorem yields_run_zero_iff : Yields (pass.run t) log (t', 0) log' ↔
    t' = t ∧ log' = log ∧ t.Everywhere pass.Spares := by
  cases pass with
  | calledLambdasToBlocks =>
    rw [run, Term.calledLambdasToBlocks, yields_lift_rewriteAll_zero_iff]
    simp only [Except.ok.injEq]
    rfl
  | inlineBlocks =>
    rw [run, yields_lift, inlineBlocks_eq_zero_iff, and_right_comm, and_assoc]
    rfl
  | selectionsFromStructs =>
    rw [run, Term.selectionsFromStructs, yields_lift_rewriteAll_zero_iff]
    simp only [Except.ok.injEq]
    rfl
  | identitiesAtLeaves => exact yields_lift_rewriteAll_zero_iff
  | fusion => exact yields_fuseAll_zero_iff

/-- A pass counts nothing exactly where it changes nothing. -/
theorem eq_zero_iff (h : Yields (pass.run t) log (t', n) log') : n = 0 ↔ t' = t := by
  constructor
  · rintro rfl
    exact (yields_run_zero_iff.mp h).1
  · rintro rfl
    -- the pass spares what it has left, so from there it counts nothing
    have hagain : Yields (pass.run t') log (t', 0) log :=
      yields_run_zero_iff.mpr ⟨rfl, rfl, everywhere_spares h⟩
    exact congrArg Prod.snd (h.unique hagain).1

end

end Pass

/-- Where the body reports no change there was none, and there would be none again. -/
def Truthful (body : TermRun) : Prop :=
  ∀ ⦃t t' : Term⦄ ⦃stats : RunStats⦄ ⦃log log' : CompileLog⦄,
    Yields (body t) log (t', stats) log' → stats.changed = false →
      t' = t ∧ stats = .none ∧ ∀ again, ∃ after, Yields (body t) again (t, .none) after

/-- So many rounds from a term and a log to others, each of which reported a change. -/
inductive ChangingRounds (body : TermRun) : Nat → Term → CompileLog → Term → CompileLog → Prop
  | nil (t : Term) (log : CompileLog) : ChangingRounds body 0 t log t log
  | cons {n : Nat} {t u t' : Term} {stats : RunStats} {log mid log' : CompileLog} :
    Yields (body t) log (u, stats) mid → stats.changed = true →
    ChangingRounds body n u mid t' log' → ChangingRounds body (n + 1) t log t' log'

section

variable {body : TermRun} {t t' : Term} {stats : RunStats} {log log' : CompileLog}

/-- Rounds are cut off after the last one, or the last one reports no change. -/
theorem changingRounds_of_repeatRounds (left done : Nat)
    (h : Yields (repeatRounds body done left t) log (t', stats) log') :
    (∃ mid, ChangingRounds body left t log t' mid ∧
      log' = mid ++ [.fixedPointStopped (done + left)]) ∨
    ∃ n u mid last, n < left ∧ ChangingRounds body n t log u mid ∧
      Yields (body u) mid (t', last) log' ∧ last.changed = false := by
  induction left generalizing t done log stats with
  | zero =>
    cases h
    exact .inl ⟨log, .nil t' log, rfl⟩
  | succ left ih =>
    rw [repeatRounds] at h
    obtain ⟨⟨u, first⟩, mid, hround, h⟩ := yields_bind.mp h
    dsimp only at h
    split at h
    · rename_i hchanged
      obtain ⟨⟨t₂, later⟩, _, hrest, h⟩ := yields_bind.mp h
      cases h
      rcases ih (done + 1) hrest with ⟨mid', hrounds, rfl⟩ | ⟨n, v, mid', last, hn, hrounds, hlast⟩
      · exact .inl ⟨mid', .cons hround hchanged hrounds, by rw [Nat.add_assoc, Nat.add_comm 1]⟩
      · exact .inr ⟨n + 1, v, mid', last, Nat.succ_lt_succ hn, .cons hround hchanged hrounds, hlast⟩
    · rename_i hchanged
      cases h
      exact .inr ⟨0, t, log, _, Nat.succ_pos left, .nil t log, hround, by simpa using hchanged⟩

theorem Truthful.repeatRounds (hbody : Truthful body) (done left : Nat) :
    Truthful (repeatRounds body done left) := by
  intro t t' stats log log' h hstats
  cases left with
  | zero =>
    cases h
    exact ⟨rfl, rfl, fun again => ⟨_, rfl⟩⟩
  | succ left =>
    rw [GraphFusion.repeatRounds] at h
    obtain ⟨⟨u, first⟩, mid, hround, h⟩ := yields_bind.mp h
    dsimp only at h
    split at h
    · rename_i hchanged
      obtain ⟨⟨t₂, later⟩, _, -, h⟩ := yields_bind.mp h
      cases h
      rw [RunStats.merge, hchanged] at hstats
      cases hstats
    · cases h
      obtain ⟨rfl, rfl, hagain⟩ := hbody hround hstats
      refine ⟨rfl, rfl, fun again => ?_⟩
      obtain ⟨after, hafter⟩ := hagain again
      exact ⟨after, hafter.bind rfl⟩

end

theorem Pass.runLogged_truthful (counted : Bool) (pass : Pass) :
    Truthful (pass.runLogged counted) := by
  intro t t' stats log log' h hstats
  obtain ⟨n, mid, hrun, rfl, rfl⟩ := yields_runLogged.mp h
  obtain rfl := RunStats.changed_ofRewrites_eq_false.mp hstats
  obtain ⟨rfl, rfl, hspares⟩ := yields_run_zero_iff.mp hrun
  exact ⟨rfl, rfl, fun again => ⟨_, yields_runLogged.mpr
    ⟨0, again, yields_run_zero_iff.mpr ⟨rfl, rfl, hspares⟩, rfl, rfl⟩⟩⟩

namespace Step

section

variable {counted : Bool}

mutual

theorem run_truthful : ∀ step : Step, Truthful (run counted step)
  | .pass p => by
    rw [run_pass]
    exact p.runLogged_truthful counted
  | .repeated rounds steps => by
    rw [run_repeated]
    exact (runAll_truthful steps).repeatRounds 0 rounds

/-- Steps that report no change, with fixed points nested to any depth, made none. -/
theorem runAll_truthful : ∀ steps : List Step, Truthful (runAll counted steps)
  | [] => by
    intro t t' stats log log' h _
    obtain ⟨rfl, rfl, rfl⟩ := yields_runAll_nil.mp h
    exact ⟨rfl, rfl, fun again => ⟨again, yields_runAll_nil.mpr ⟨rfl, rfl, rfl⟩⟩⟩
  | step :: rest => by
    intro t t' stats log log' h hstats
    obtain ⟨u, first, later, mid, hstep, hrest, rfl⟩ := yields_runAll_cons.mp h
    rw [RunStats.merge, Bool.or_eq_false_iff] at hstats
    obtain ⟨rfl, rfl, hstepAgain⟩ := run_truthful step hstep hstats.1
    obtain ⟨rfl, rfl, hrestAgain⟩ := runAll_truthful rest hrest hstats.2
    refine ⟨rfl, rfl, fun again => ?_⟩
    obtain ⟨mid', hstep'⟩ := hstepAgain again
    obtain ⟨after, hrest'⟩ := hrestAgain mid'
    exact ⟨after, yields_runAll_cons.mpr ⟨_, _, _, mid', hstep', hrest', rfl⟩⟩

end

end

end Step

theorem Term.lower_flag {s : Settings} {t t' : Term} {changed : Bool} {log log' : CompileLog}
    (h : Yields (Term.lower s (some t)) log (t', changed) log') :
    ∃ normalized stats mid,
      Yields ((Pipeline.normalization s).run t) log (normalized, stats) mid ∧
      (changed = true ↔ t' ≠ normalized) := by
  rw [Term.lower] at h
  obtain ⟨⟨normalized, stats⟩, mid, hnormal, h⟩ := yields_bind.mp h
  obtain ⟨⟨u, rewrites⟩, mid', hfused, h⟩ := yields_bind.mp h
  have hend : t' = u ∧ changed = decide (0 < rewrites) := by
    dsimp only at h
    split at h <;> cases h <;> exact ⟨rfl, rfl⟩
  obtain ⟨rfl, rfl⟩ := hend
  refine ⟨normalized, stats, mid, hnormal, ?_⟩
  rw [decide_eq_true_iff, Nat.pos_iff_ne_zero]
  have hrun : Yields (Pass.fusion.run normalized) mid (t', rewrites) mid' := hfused
  exact (Pass.eq_zero_iff hrun).not

/-- Flags are exact. A pass says that it changed a term exactly when it returns another
one, and counts no rewrite exactly when it says it did not; so a fixed point that was
not cut off after rounds that all changed something has come to a term that its steps
never change again, and lowering says that it fused exactly when it returns another term
than the normalized one. -/
theorem Pass.changed_exact :
    (∀ {pass : Pass} {counted : Bool} {t t' : Term} {stats : RunStats} {log log' : CompileLog},
      Yields (pass.runLogged counted t) log (t', stats) log' →
      (stats.changed = true ↔ t' ≠ t) ∧ (stats.rewrites = 0 ↔ stats.changed = false)) ∧
    (∀ {counted : Bool} {rounds : Nat} {steps : List Step} {t t' : Term} {stats : RunStats}
      {log log' : CompileLog},
      Yields (Step.run counted (.repeated rounds steps) t) log (t', stats) log' →
      (∃ mid, ChangingRounds (Step.runAll counted steps) rounds t log t' mid ∧
        log' = mid ++ [.fixedPointStopped rounds]) ∨
      ∀ again, ∃ after, Yields (Step.runAll counted steps t') again (t', .none) after) ∧
    ∀ {s : Settings} {t t' : Term} {changed : Bool} {log log' : CompileLog},
      Yields (Term.lower s (some t)) log (t', changed) log' →
      ∃ normalized stats mid,
        Yields ((Pipeline.normalization s).run t) log (normalized, stats) mid ∧
        (changed = true ↔ t' ≠ normalized) := by
  refine ⟨fun h => ?_, fun h => ?_, Term.lower_flag⟩
  · obtain ⟨n, mid, hrun, rfl, -⟩ := yields_runLogged.mp h
    have hsame := eq_zero_iff hrun
    refine ⟨?_, RunStats.changed_ofRewrites_eq_false.symm⟩
    rw [← Bool.not_eq_false, RunStats.changed_ofRewrites_eq_false, ne_eq, hsame]
  · rw [Step.run_repeated] at h
    rcases changingRounds_of_repeatRounds _ _ h with hcut | ⟨n, u, mid, last, -, -, hlast, hfalse⟩
    · rw [Nat.zero_add] at hcut
      exact .inl hcut
    · obtain ⟨rfl, rfl, hagain⟩ := Step.runAll_truthful _ hlast hfalse
      exact .inr hagain

/-- `(let y=x in y)` becomes `x`, which a second round keeps; and `<x>` is normalized to
`<id(x)>` and then fused. -/
theorem Pass.changed_exact_block :
    Term.reference "x" (.struct []) ≠
      .block [("y", .reference "x" (.struct []))] (.reference "y" (.struct [])) ∧
    (∀ again, ∃ after, Yields (Step.runAll true [.pass .inlineBlocks]
      (.reference "x" (.struct []))) again (.reference "x" (.struct []), .none) after) ∧
    ∃ t' log' normalized stats mid,
      Yields (Term.lower ⟨2, true⟩ (some (.struct [(none, .reference "x" (.struct []))]))) []
        (t', true) log' ∧
      Yields ((Pipeline.normalization ⟨2, true⟩).run
        (.struct [(none, .reference "x" (.struct []))])) [] (normalized, stats) mid ∧
      t' ≠ normalized := by
  have hpass : Yields (Pass.inlineBlocks.runLogged true
      (.block [("y", .reference "x" (.struct []))] (.reference "y" (.struct [])))) []
      (.reference "x" (.struct []), ⟨true, 1⟩) [.passRun .inlineBlocks 1 true] := rfl
  have hrounds : Yields (Step.run true (.fixedPoint 2 [.pass .inlineBlocks])
      (.block [("y", .reference "x" (.struct []))] (.reference "y" (.struct [])))) []
      (.reference "x" (.struct []), ⟨true, 1⟩)
      [.passRun .inlineBlocks 1 true, .passRun .inlineBlocks 0 true] := rfl
  have hlower : ∃ t' log', Yields (Term.lower ⟨2, true⟩
      (some (.struct [(none, .reference "x" (.struct []))]))) [] (t', true) log' := ⟨_, _, rfl⟩
  refine ⟨(changed_exact.1 hpass).1.mp rfl, ?_, ?_⟩
  · refine (changed_exact.2.1 hrounds).resolve_left ?_
    rintro ⟨mid, -, hcut⟩
    have hlast := congrArg List.getLast? hcut
    simp at hlast
  · obtain ⟨t', log', h⟩ := hlower
    obtain ⟨normalized, stats, mid, hnormal, hne⟩ := changed_exact.2.2 h
    exact ⟨t', log', normalized, stats, mid, h, hnormal, hne.mp rfl⟩

end GraphFusion
