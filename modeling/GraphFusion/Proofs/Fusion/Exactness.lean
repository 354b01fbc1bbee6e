import GraphFusion.Fusion.Pass
import GraphFusion.Proofs.Fusion.Pattern

/-!
Fusion keeps meanings exactly. Repeating patterns at one node replaces it by a
term with the same meaning, and so does fusing every node of a tree from the
leaves up. Fusion fails only where a graph cannot be made, never because a
pattern would change a type.
-/

namespace GraphFusion

namespace Term

variable {Γ : Context}

theorem fuseWithin_ensures {t current : Term} (bound : Nat) (changed : Bool)
    (h : SameMeaning Γ t current) :
    Ensures (fuseWithin t.type bound current changed)
      (fun p => SameMeaning Γ t p.1 ∧ (changed = true → p.2 = true) ∧
        (p.2 = false → p.1 = current)) (fun e => ∃ g, e = .graph g) := by
  induction bound generalizing current changed with
  | zero => exact ensures_pure ⟨h, id, fun _ => rfl⟩
  | succ bound ih =>
    have hjust := Pattern.firstMatch?_justified h.1.1 Pattern.all
    refine Ensures.bind (P := fun found => ∀ p t', found = some (p, t') →
      SameMeaning Γ current t') (ensures_mk_pure ?_ ?_) ?_
    · intro found hfound p t' heq
      subst heq
      exact hjust.1 t' (by rw [hfound]; rfl)
    · intro e he
      exact hjust.2 e (by rw [he]; rfl)
    · intro found hfound
      cases found with
      | none => exact ensures_pure ⟨h, id, fun _ => rfl⟩
      | some found =>
        obtain ⟨p, next⟩ := found
        have hnext := h.trans (hfound p next rfl)
        have htype : ¬ t.type ≠ next.type := fun hne => hne hnext.1.2.symm
        simp only [htype, if_false]
        refine ensures_modify.bind fun _ _ => ?_
        refine (ih _ hnext).mono (fun q hq => ⟨hq.1, fun _ => hq.2.1 rfl, fun hfalse => ?_⟩)
          fun _ he => he
        rw [hq.2.1 rfl] at hfalse
        cases hfalse

theorem firstMatch?_skip {t : Term} (before after : List Pattern)
    (hbefore : ∀ q ∈ before, q.rewrite? t = .ok none) :
    Pattern.firstMatch? t (before ++ after) = Pattern.firstMatch? t after := by
  induction before with
  | nil => rfl
  | cons q before ih =>
    rw [List.forall_mem_cons] at hbefore
    rw [List.cons_append, Pattern.firstMatch?, hbefore.1]
    exact ih hbefore.2

theorem firstMatch?_append {t : Term} {p : Pattern} {next : Term} (before after : List Pattern)
    (hbefore : ∀ q ∈ before, q.rewrite? t = .ok none) (hp : p.rewrite? t = .ok (some next)) :
    Pattern.firstMatch? t (before ++ p :: after) = .ok (some (p, next)) := by
  rw [firstMatch?_skip before _ hbefore, Pattern.firstMatch?, hp]
  rfl

section

variable {t : Term} {type : Ty} {Q : Term × Bool → Prop} {E : CompileError → Prop} {bound : Nat}
  {changed : Bool}

theorem fuseWithin_match {p : Pattern} {next : Term}
    (hmatch : Pattern.firstMatch? t Pattern.all = .ok (some (p, next))) (htype : next.type = type)
    (hrest : Ensures (fuseWithin type bound next true) Q E) :
    Ensures (fuseWithin type (bound + 1) t changed) Q E := by
  have hsame : ¬ type ≠ next.type := fun hne => hne htype.symm
  refine ensures_bind_ok hmatch ?_
  simp only [hsame, if_false]
  exact ensures_modify.bind fun _ _ => hrest

theorem fuseWithin_stop (hmatch : Pattern.firstMatch? t Pattern.all = .ok none)
    (hQ : Q (t, changed)) : Ensures (fuseWithin type bound t changed) Q E := by
  cases bound with
  | zero => exact ensures_pure hQ
  | succ bound =>
    exact ensures_bind_ok hmatch (ensures_pure hQ)

end

/-- Takes over the reports of a node and counts it when it has changed. -/
def tally (s : Fusing) (r : Except CompileError (Term × Bool) × CompileLog) :
    Compile Fusing (Term × Bool) := do
  let changed := match r.1 with
    | .ok (_, changed) => changed
    | .error _ => false
  set (⟨s.rewrites + changed.toNat, r.2⟩ : Fusing)
  Compile.lift r.1

/-- The step of `fuseAll`. -/
def fusingStep : NodeStep Fusing := fun node => do
  let s ← get
  tally s ((fuseNode node).run.run s.log)

/-- What is left to do when every node has been fused. -/
def report (r : Except CompileError (Term × Bool) × Fusing) : Compile CompileLog (Term × Nat) := do
  set r.2.log
  let (result, _) ← Compile.lift r.1
  return (result, r.2.rewrites)

theorem fuseAll_run (t : Term) (log : CompileLog) :
    (fuseAll t).run.run log =
      (report ((transform fusingStep t).run.run ⟨0, log⟩)).run.run log := rfl

theorem fusingStep_run (t : Term) (s : Fusing) :
    ((fusingStep t).run.run s).1 = ((fuseNode t).run.run s.log).1 := by
  change ((tally s ((fuseNode t).run.run s.log)).run.run s).1 = _
  rcases (fuseNode t).run.run s.log with ⟨e | p, log⟩ <;> rfl

theorem fusingStep_ensures {t : Term} {Q : Term × Bool → Prop} {E : CompileError → Prop}
    (h : Ensures (fuseNode t) Q E) : Ensures (fusingStep t) Q E := by
  intro s
  rw [fusingStep_run]
  exact h s.log

theorem fusingStep_keeps :
    Keeps SameMeaning fusingStep (fun e => ∃ g, e = .graph g) := by
  intro Γ t t' ht hover s
  have hsame := hover.sameMeaning ht
  have hnode := fuseWithin_ensures t'.fusionBound false (SameMeaning.refl hsame.1.1)
  rw [fusingStep_run]
  exact hnode.mono (fun p hp => ⟨hsame.trans hp.1, hp.2.2⟩) (fun _ he => he) s.log

/-- What holds of the tree that the nodes are fused to holds of what fusing returns. -/
theorem fuseAll_of_transform {t : Term} {Q : Term → Prop} {E : CompileError → Prop}
    (h : Ensures (transform fusingStep t) (fun p => Q p.1) E) :
    Ensures (fuseAll t) (fun p => Q p.1) E := by
  intro log
  have hresult := h ⟨0, log⟩
  rw [fuseAll_run]
  generalize (transform fusingStep t).run.run ⟨0, log⟩ = outcome at hresult ⊢
  rcases outcome with ⟨e | ⟨t', changed⟩, s⟩
  · exact hresult
  · exact hresult

/-- Fusing keeps the meaning of a typed tree, or fails to make a graph. -/
theorem fuseAll_ensures {t : Term} (ht : t.Typed Γ) :
    Ensures (fuseAll t) (fun p => SameMeaning Γ t p.1) (fun e => ∃ g, e = .graph g) := by
  have hkeeps := transform_keeps (fun _ _ _ h => h.1.2) fusingStep_keeps ht
  exact fuseAll_of_transform (hkeeps.mono (fun _ hp => hp.1) fun _ he => he)

/-- Run with `owed` rewrites counted before, the action has counted one when the
flag of its result is set. -/
def Counts {α : Type} (owed : Nat) (x : Compile Fusing α) (flag : α → Bool) : Prop :=
  ∀ s a s', Yields x s a s' → s.rewrites + (flag a).toNat ≤ s'.rewrites + owed

section

variable {α β : Type} {owed : Nat} {flag : α → Bool}

theorem counts_pure {a : α} (h : (flag a).toNat ≤ owed) : Counts owed (pure a) flag := by
  intro s b s' hrun
  obtain ⟨rfl, rfl⟩ := yields_pure.mp hrun
  omega

theorem counts_lift (r : Except CompileError α) : Counts 0 (Compile.lift r) fun _ => false := by
  intro s a s' hrun
  obtain ⟨-, rfl⟩ := yields_mk_pure.mp hrun
  simp

theorem Counts.bind {x : Compile Fusing α} {f : α → Compile Fusing β} {g : β → Bool}
    (hx : Counts 0 x flag) (hf : ∀ a, Counts (owed + (flag a).toNat) (f a) g) :
    Counts owed (x >>= f) g := by
  intro s b s'' hrun
  obtain ⟨a, s', hx', hf'⟩ := yields_bind.mp hrun
  have h := hx s a s' hx'
  have h' := hf a s' b s'' hf'
  omega

theorem Counts.mono {x : Compile Fusing α} {owed' : Nat} (hx : Counts owed x flag)
    (h : owed ≤ owed') : Counts owed' x flag := by
  intro s a s' hrun
  have h' := hx s a s' hrun
  omega

end

theorem toNat_or_le (a b : Bool) : (a || b).toNat ≤ a.toNat + b.toNat := by
  cases a <;> cases b <;> simp

theorem fusingStep_counts (t : Term) : Counts 0 (fusingStep t) (·.2) := by
  intro s p s' hrun
  change Yields (tally s ((fuseNode t).run.run s.log)) s p s' at hrun
  generalize (fuseNode t).run.run s.log = outcome at hrun
  rcases outcome with ⟨e | ⟨t', changed⟩, log⟩
  · cases hrun
  · cases hrun
    exact Nat.le_refl _

theorem settle_counts (t : Term) (parts : List (Term × Bool)) :
    Counts (parts.any (·.2)).toNat (settle fusingStep t parts) (·.2) := by
  cases hany : parts.any (·.2) with
  | true =>
    rw [settle_of_changed hany]
    refine (counts_lift _).bind fun rebuilt => (fusingStep_counts rebuilt).bind fun p => ?_
    exact counts_pure (by simp)
  | false =>
    rw [settle_of_unchanged hany]
    exact fusingStep_counts t

theorem counts_mapM {ts : List Term}
    (h : ∀ t ∈ ts, Counts 0 (transform fusingStep t) (·.2)) :
    Counts 0 (ts.mapM (transform fusingStep)) fun parts => parts.any (·.2) := by
  induction ts with
  | nil =>
    rw [List.mapM_nil]
    exact counts_pure (by simp)
  | cons t ts ih =>
    rw [List.forall_mem_cons] at h
    rw [List.mapM_cons]
    refine h.1.bind fun p => (ih h.2).bind fun parts => counts_pure ?_
    have hor := toNat_or_le p.2 (parts.any (·.2))
    rw [List.any_cons]
    omega

theorem transform_counts (t : Term) : Counts 0 (transform fusingStep t) (·.2) := by
  induction t using inductChildren with
  | node t ih =>
    rw [transform_eq]
    exact (counts_mapM ih).bind fun parts => (settle_counts t parts).mono (by simp)

/-- A fusing pass that counts nothing has changed nothing. -/
theorem fuseAll_counts {t : Term} (ht : t.Typed Γ) :
    Ensures (fuseAll t) (fun p => p.2 = 0 → p.1 = t) (fun e => ∃ g, e = .graph g) := by
  intro log
  have hkeeps := transform_keeps (fun _ _ _ h => h.1.2) fusingStep_keeps ht ⟨0, log⟩
  have hcounts := transform_counts t ⟨0, log⟩
  rw [fuseAll_run]
  generalize hrun : (transform fusingStep t).run.run ⟨0, log⟩ = outcome at hkeeps ⊢
  rcases outcome with ⟨e | ⟨result, changed⟩, s⟩
  · exact hkeeps
  · intro hzero
    change s.rewrites = 0 at hzero
    have hle := hcounts (result, changed) s hrun
    refine hkeeps.2 ?_
    cases changed with
    | false => rfl
    | true =>
      simp only [Bool.toNat_true] at hle
      omega

end Term

namespace Pass

/-- When fusing succeeds, the new tree evaluates to what the old one evaluates to:
the same value, the same function or the same failure. -/
theorem eval_fusion {I : Interpretation} {Γ : Context} {t t' : Term} {env : Env}
    {log log' : CompileLog} {rewrites : Nat} (ht : t.Typed Γ) (henv : env.Gives Γ t)
    (h : Yields (fusion.run t) log (t', rewrites) log') : t'.eval I env = t.eval I env :=
  ((Term.fuseAll_ensures ht.restrict).of_yields h).2 I env henv.fits

/-- `<<<>>, x>` fuses in its first element alone. -/
theorem eval_fusion_nested :
    ∃ t' rewrites log',
      Yields (fusion.run (.struct [(none, .struct [(none, .struct [])]),
        (none, .reference "x" (.struct []))])) [] (t', rewrites) log' ∧
      t'.eval .failing (fun _ => some (.struct [])) =
        Term.eval .failing (fun _ => some (.struct [])) (.struct
          [(none, .struct [(none, .struct [])]), (none, .reference "x" (.struct []))]) := by
  have ht : Term.Typed (fun _ => some (.struct [])) (.struct [(none, .struct [(none, .struct [])]),
      (none, .reference "x" (.struct []))]) := by
    simp [Term.Typed, Term.ElementsTyped]
  have hrun : ∃ p log', Yields (fusion.run (.struct [(none, .struct [(none, .struct [])]),
      (none, .reference "x" (.struct []))])) [] p log' := ⟨_, _, rfl⟩
  obtain ⟨⟨t', rewrites⟩, log', h⟩ := hrun
  exact ⟨t', rewrites, log', h, eval_fusion ht (fun _ _ => ⟨.struct [], rfl, rfl⟩) h⟩

end Pass

end GraphFusion
