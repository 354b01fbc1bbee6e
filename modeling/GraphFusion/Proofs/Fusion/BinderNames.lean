import GraphFusion.Proofs.Fusion.Capturing
import GraphFusion.Proofs.Fusion.Mirroring
import GraphFusion.Fusion.Pipeline

/-!
Lowering does not depend on the names of binders. Every pass takes alike trees to
alike trees, and rewrites both or neither; only the inliner may count differently
often. So two runs of the same steps take the same rounds and the same branches,
whatever they report, and lowering two alpha equivalent trees gives alpha equivalent
trees with the same units, or the same error.
-/

namespace GraphFusion

open Term

/-- Alike terms, both of them changed or neither. -/
def SameChange (p q : (Term × RunStats) × CompileLog) : Prop :=
  Alike .all p.1.1 q.1.1 ∧ p.1.2.changed = q.1.2.changed

variable {t u : Term} {counted counted' : Bool}

theorem Pass.run_alike (pass : Pass) (h : Alike .all t u) (log log' : CompileLog) :
    SameRun (fun p q => Alike .all p.1.1 q.1.1 ∧ (0 < p.1.2 ↔ 0 < q.1.2)) (pass.run t) log
      (pass.run u) log' := by
  cases pass with
  | calledLambdasToBlocks =>
    exact (SameRun.mk_pure (calledLambdasToBlocks_alike h)).mono fun p q hpq =>
      ⟨hpq.1.1, by rw [hpq.1.2]⟩
  | inlineBlocks =>
    exact (SameRun.mk_pure (inlineBlocks_alike h)).mono fun p q hpq => hpq.1
  | selectionsFromStructs =>
    exact (SameRun.mk_pure (selectionsFromStructs_alike h)).mono fun p q hpq =>
      ⟨hpq.1.1, by rw [hpq.1.2]⟩
  | identitiesAtLeaves =>
    exact (SameRun.mk_pure (identitiesAtLeaves_alike h)).mono fun p q hpq =>
      ⟨hpq.1.1, by rw [hpq.1.2]⟩
  | fusion =>
    exact (fuseAll_alike h log log').mono fun p q hpq => ⟨hpq.1, by rw [hpq.2]⟩

theorem Pass.runLogged_alike (pass : Pass) (h : Alike .all t u) (log log' : CompileLog) :
    SameRun SameChange (pass.runLogged counted t) log (pass.runLogged counted' u) log' := by
  refine (pass.run_alike h log log').bind fun p log q log' hpq => ?_
  exact SameRun.modify.bind fun _ _ _ _ _ => .pure ⟨hpq.1, decide_eq_decide.mpr hpq.2⟩

/-- Bodies that change alike terms alike do so over the same rounds. -/
theorem repeatRounds_alike {body body' : TermRun}
    (hbody : ∀ t u log log', Alike .all t u →
      SameRun SameChange (body t) log (body' u) log')
    (left done done' : Nat) (h : Alike .all t u) (log log' : CompileLog) :
    SameRun SameChange (repeatRounds body done left t) log (repeatRounds body' done' left u)
      log' := by
  induction left generalizing done done' t u log log' with
  | zero => exact SameRun.modify.bind fun _ _ _ _ _ => .pure ⟨h, rfl⟩
  | succ left ih =>
    refine (hbody t u log log' h).bind fun p log q log' hpq => ?_
    obtain ⟨t, stats⟩ := p
    obtain ⟨u, stats'⟩ := q
    obtain ⟨htu, hchanged⟩ := hpq
    dsimp only at htu hchanged ⊢
    rw [hchanged]
    split
    · refine (ih (done + 1) (done' + 1) htu log log').bind fun p log q log' hpq => .pure ?_
      exact ⟨hpq.1, congrArg₂ (· || ·) hchanged hpq.2⟩
    · exact .pure ⟨htu, hchanged⟩

namespace Step

mutual

theorem run_alike : ∀ (step : Step) {t u : Term} (_ : Alike .all t u) (log log' : CompileLog),
    SameRun SameChange (step.run counted t) log (step.run counted' u) log'
  | .pass p, t, u, h, log, log' => by
    rw [run, run]
    exact p.runLogged_alike h log log'
  | .repeated rounds steps, t, u, h, log, log' => by
    rw [run, run]
    exact repeatRounds_alike (fun t u log log' h => runAll_alike steps h log log') _ 0 0 h log log'

/-- Steps in any order, with fixed points nested to any depth. -/
theorem runAll_alike : ∀ (steps : List Step) {t u : Term} (_ : Alike .all t u)
    (log log' : CompileLog),
    SameRun SameChange (runAll counted steps t) log (runAll counted' steps u) log'
  | [], t, u, h, log, log' => by
    rw [runAll, runAll]
    exact .pure ⟨h, rfl⟩
  | step :: rest, t, u, h, log, log' => by
    rw [runAll, runAll]
    refine (run_alike step h log log').bind fun p log q log' hpq => ?_
    refine (runAll_alike rest hpq.1 log log').bind fun p' log q' log' hpq' => .pure ?_
    exact ⟨hpq'.1, congrArg₂ (· || ·) hpq.2 hpq'.2⟩

end

end Step

namespace Term

/-- The last report changes neither the result nor the flag. -/
theorem exists_yields_report (s : Settings) (t : Term) (rewrites : Nat) (log : CompileLog) :
    ∃ log', Yields (do
      if s.countRewrites then
        modify (· ++ [.passRun .fusion rewrites true])
      return (t, decide (0 < rewrites)) : Compile CompileLog (Term × Bool)) log
        (t, decide (0 < rewrites)) log' := by
  cases s.countRewrites with
  | false => exact ⟨_, rfl⟩
  | true => exact ⟨_, rfl⟩

theorem lower_alike (h : Alike .all t u) {s s' : Settings}
    (hrounds : s.normalizeRounds = s'.normalizeRounds) (log log' : CompileLog) :
    SameRun (fun p q => Alike .all p.1.1 q.1.1 ∧ p.1.2 = q.1.2) (lower s (some t)) log
      (lower s' (some u)) log' := by
  have hnormalized : SameRun SameChange ((Pipeline.normalization s).run t) log
      ((Pipeline.normalization s').run u) log' := by
    unfold Pipeline.normalization Pipeline.run
    rw [hrounds]
    exact Step.runAll_alike _ h log log'
  refine hnormalized.bind fun p log q log' hpq => ?_
  refine (fuseAll_alike hpq.1 log log').bind fun r log r' log' hr => ?_
  obtain ⟨hresult, hcount⟩ := hr
  dsimp only at hresult hcount ⊢
  obtain ⟨_, hrun⟩ := exists_yields_report s r.1 r.2 log
  obtain ⟨_, hrun'⟩ := exists_yields_report s' r'.1 r'.2 log'
  unfold SameRun
  rw [ending_of_yields hrun, ending_of_yields hrun']
  exact .ok ⟨hresult, by rw [hcount]⟩

/-- For well bound trees that are alpha equivalent and one bound on the rounds: lowering
fails on both, with the same error, or gives alpha equivalent trees with the same units
in the same places, and says of both or of neither that something was fused. What
else is set and what has been reported does not matter. -/
theorem lower_alphaEq (h : AlphaEq Eq t u) (ht : t.WellBound fun _ _ => True)
    (hu : u.WellBound fun _ _ => True) {s s' : Settings}
    (hrounds : s.normalizeRounds = s'.normalizeRounds) (log log' : CompileLog) :
    SameOutcome (fun p q => AlphaEq Eq p.1 q.1 ∧ p.1.units = q.1.units ∧ p.2 = q.2)
      ((lower s (some t)).run.run log).1 ((lower s' (some u)).run.run log').1 := by
  have halike : Alike .all t u := h.alike ht hu fun _ _ _ hab _ _ => hab
  rw [← map_fst_ending, ← map_fst_ending]
  refine (lower_alike halike hrounds log log').map fun p q hpq => ?_
  exact ⟨hpq.1.alphaEq fun _ _ _ hab => hab, hpq.1.units_eq.symm, hpq.2⟩

/-- `(let y=x in (p -> <p,y>))` for integers, with `parameter` as `p`. -/
def pairBelow (parameter : String) : Term :=
  .block [("y", .reference "x" (.scalar .int32))]
    (.lambda parameter (some (.scalar .int32))
      (tuple [.reference parameter (.scalar .int32), .reference "y" (.scalar .int32)]))

theorem wellBound_pairBelow {parameter : String} (h : parameter ≠ "y") :
    (pairBelow parameter).WellBound fun _ _ => True := by
  have ht : (pairBelow parameter).Typed fun _ => some (.scalar .int32) := by
    simp [pairBelow, tuple, Typed, LocalsTyped, ElementsTyped, Context.extend, type,
      Function.update_of_ne h.symm]
  exact ht.wellBound fun _ _ _ => trivial

theorem alphaEq_pairBelow {p q : String} (hp : p ≠ "y") (hq : q ≠ "y") :
    AlphaEq Eq (pairBelow p) (pairBelow q) := by
  refine .blockCons (.reference rfl) (.blockNil (.lambda (.structCons (.reference ?_)
    (.structCons (.reference ?_) .structNil))))
  · exact .inl ⟨rfl, rfl⟩
  · exact .inr ⟨hp.symm, hq.symm, .inl ⟨rfl, rfl⟩⟩

/-- The parameter `x` is renamed, as it would capture the local, and `z` is not. -/
theorem lower_alphaEq_captured :
    ∃ unit,
      ((lower ⟨1, true⟩ (some (pairBelow "x"))).run.run []).1 =
        .ok (.lambda "_var0" (some (.scalar .int32)) (.call (.compiled unit)
          (some (tuple [.reference "_var0" (.scalar .int32),
            .reference "x" (.scalar .int32)]))), true) ∧
      ((lower ⟨1, false⟩ (some (pairBelow "z"))).run.run []).1 =
        .ok (.lambda "z" (some (.scalar .int32)) (.call (.compiled unit)
          (some (tuple [.reference "z" (.scalar .int32),
            .reference "x" (.scalar .int32)]))), true) ∧
      SameOutcome (fun p q => AlphaEq Eq p.1 q.1 ∧ p.1.units = q.1.units ∧ p.2 = q.2)
        ((lower ⟨1, true⟩ (some (pairBelow "x"))).run.run []).1
        ((lower ⟨1, false⟩ (some (pairBelow "z"))).run.run []).1 := by
  refine ⟨_, rfl, rfl, ?_⟩
  have hx : "x" ≠ "y" := by decide
  have hz : "z" ≠ "y" := by decide
  exact lower_alphaEq (alphaEq_pairBelow hx hz) (wellBound_pairBelow hx) (wellBound_pairBelow hz)
    rfl [] []

end Term

end GraphFusion
