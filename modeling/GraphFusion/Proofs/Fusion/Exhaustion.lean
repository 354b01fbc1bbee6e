import GraphFusion.Proofs.Fusion.NormalForm
import GraphFusion.Proofs.Fusion.Scoping

/-!
One sweep of fusion is enough. A pattern puts a unit or a call of one in place of a
node, and of the calls only one on a new struct of references can match again: so a
node is rewritten twice at most, whatever patterns it meets, and the bound that the
model gives its loop never stops it. In what is put in place nothing is left to match,
neither at its root when the loop ends nor inside it, so a tree that has been fused
from the leaves up has no match anywhere and is fused to itself.
-/

namespace GraphFusion

namespace Pattern

/-- No pattern matches the node. -/
def Exhausted (t : Term) : Prop := ∀ p : Pattern, p.rewrite? t = .ok none

theorem firstMatch?_eq_none {t : Term} {ps : List Pattern} :
    firstMatch? t ps = .ok none ↔ ∀ p ∈ ps, p.rewrite? t = .ok none := by
  induction ps with
  | nil => simp [firstMatch?]
  | cons p ps ih =>
    rw [firstMatch?, List.forall_mem_cons, bind_eq_ok, ← ih]
    constructor
    · rintro ⟨found, hfound, h⟩
      cases found with
      | none => exact ⟨hfound, h⟩
      | some u => cases h
    · rintro ⟨hfound, h⟩
      exact ⟨none, hfound, h⟩

theorem mem_all (p : Pattern) : p ∈ all := by
  cases p <;> decide

theorem firstMatch?_all_eq_none {t : Term} : firstMatch? t all = .ok none ↔ Exhausted t := by
  rw [firstMatch?_eq_none]
  exact ⟨fun h p => h p p.mem_all, fun h p _ => h p⟩

theorem exhausted_reference (x : String) (type : Ty) : Exhausted (.reference x type) := by
  intro p
  cases p <;> rfl

theorem exhausted_compiled (u : CompiledUnit) : Exhausted (.compiled u) := by
  intro p
  cases p <;> rfl

/-- A node with no room for a match has none. -/
theorem exhausted_of_fusionBound {t : Term} (h : t.fusionBound = 0) : Exhausted t := by
  intro p
  cases t with
  | struct | selection | lambda => cases h
  | call f a =>
    cases f with
    | compiled u =>
      cases a with
      | none => cases p <;> rfl
      | some b =>
        cases b with
        | reference x type => cases p <;> rfl
        | _ => cases h
    | _ => cases h
  | reference | block | compiled | intrinsic => cases p <;> rfl

end Pattern

open Pattern

namespace Term

theorem fusionBound_le_two (t : Term) : t.fusionBound ≤ 2 := by
  unfold fusionBound
  split <;> omega

theorem everywhere_exhausted_reference (x : String) (type : Ty) :
    (Term.reference x type).Everywhere Exhausted :=
  everywhere_reference (exhausted_reference x type)

theorem everywhere_exhausted_compiled (u : CompiledUnit) :
    (Term.compiled u).Everywhere Exhausted :=
  .node (exhausted_compiled u) (by simp [children])

/-- References are no called graphs, so a struct of them is left alone unless it is empty. -/
theorem everywhere_exhausted_tuple {refs : List Term} (hne : refs ≠ [])
    (hrefs : ∀ b ∈ refs, ∃ x type, b = .reference x type) :
    (Term.tuple refs).Everywhere Exhausted := by
  refine .node (fun p => ?_) fun c hc => ?_
  · obtain ⟨b, rest, rfl⟩ := List.exists_cons_of_ne_nil hne
    obtain ⟨x, type, rfl⟩ := hrefs b List.mem_cons_self
    cases p <;> rfl
  · have hmem : c ∈ refs := by simpa [tuple, children] using hc
    obtain ⟨x, type, rfl⟩ := hrefs c hmem
    exact everywhere_exhausted_reference x type

/-- What patterns put in place of a node that had room for so many matches: a unit, a
called graph, or a unit called on a struct of references. -/
inductive FusedTo : Nat → Term → Prop
  | unit {n : Nat} (u : CompiledUnit) : FusedTo (n + 1) (.compiled u)
  | called {n : Nat} (u : CompiledUnit) {a : Option Term}
    (ha : ∀ b ∈ a, ∃ x type, b = .reference x type) : FusedTo (n + 1) (.call (.compiled u) a)
  | gathered (u : CompiledUnit) {refs : List Term} (hne : refs ≠ [])
    (hrefs : ∀ b ∈ refs, ∃ x type, b = .reference x type) :
    FusedTo 2 (.call (.compiled u) (some (.tuple refs)))

section

variable {n : Nat} {t u : Term}

theorem FusedTo.fusionBound_lt (h : FusedTo n u) : u.fusionBound < n := by
  cases h with
  | unit u => exact Nat.succ_pos _
  | @called n u a ha =>
    cases a with
    | none => exact Nat.succ_pos _
    | some b =>
      obtain ⟨x, type, rfl⟩ := ha b rfl
      exact Nat.succ_pos _
  | gathered u => exact Nat.lt_succ_self 1

/-- Nothing matches inside what is put in place of a node. -/
theorem FusedTo.everywhere_children (h : FusedTo n u) :
    ∀ c ∈ u.children, c.Everywhere Exhausted := by
  cases h with
  | unit u => simp [children]
  | @called n u a ha =>
    refine List.forall_mem_cons.mpr ⟨everywhere_exhausted_compiled u, fun b hb => ?_⟩
    obtain ⟨x, type, rfl⟩ := ha b (Option.mem_toList.mp hb)
    exact everywhere_exhausted_reference x type
  | gathered u hne hrefs =>
    refine List.forall_mem_cons.mpr ⟨everywhere_exhausted_compiled u, ?_⟩
    exact List.forall_mem_singleton.mpr (everywhere_exhausted_tuple hne hrefs)

end

end Term

open Term

/-- Where a pattern matches there is room for a match, and what it puts in place leaves
room for less. -/
theorem Pattern.rewrite?_fusedTo {p : Pattern} {t u : Term} (h : p.rewrite? t = .ok (some u)) :
    FusedTo t.fusionBound u := by
  obtain ⟨hroom, hreplacement⟩ := rewrite?_replacement h
  obtain ⟨n, hn⟩ := Nat.exists_eq_succ_of_ne_zero (Nat.ne_of_gt hroom)
  cases hreplacement with
  | unit v =>
    rw [hn]
    exact .unit v
  | called hcall hrefs =>
    obtain ⟨v, rfl, -⟩ := exists_of_callGraph hcall
    rw [hn]
    exact .called v fun b hb => (hrefs b hb).imp fun x h => h.imp fun type h => h.1
  | gathered hes hcall hne hrefs =>
    obtain ⟨v, rfl, -⟩ := exists_of_callGraph hcall
    subst hes
    exact .gathered v hne fun b hb => (hrefs b hb).imp fun x h => h.imp fun type h => h.1

namespace Term

/-- The first matching pattern, `n` times in a row, makes `u` of `t`. -/
inductive Fuses : Nat → Term → Term → Prop
  | refl (t : Term) : Fuses 0 t t
  | step {n : Nat} {p : Pattern} {t next u : Term} :
    firstMatch? t Pattern.all = .ok (some (p, next)) → Fuses n next u → Fuses (n + 1) t u

section

variable {n bound : Nat} {t u : Term} {type : Ty} {log log' : CompileLog}

theorem Fuses.add_fusionBound_le (h : Fuses n t u) : n + u.fusionBound ≤ t.fusionBound := by
  induction h with
  | refl t => omega
  | step hmatch _ ih =>
    have hlt := (rewrite?_fusedTo (rewrite?_of_firstMatch? hmatch)).fusionBound_lt
    omega

/-- Whatever patterns a node meets, the third one has nothing to match. -/
theorem Fuses.le_two (h : Fuses n t u) : n ≤ 2 := by
  have hle := h.add_fusionBound_le
  have htwo := t.fusionBound_le_two
  omega

/-- A node whose bound is reached has no match that would have come next. -/
theorem fuseWithin_of_bound_eq_zero (h : t.fusionBound = 0) (changed : Bool) :
    fuseWithin type bound t changed = pure (t, changed) := by
  cases bound with
  | zero => rfl
  | succ bound =>
    rw [fuseWithin, firstMatch?_all_eq_none.mpr (exhausted_of_fusionBound h)]
    rfl

/-- Any bound with room for the matches of a node gives the loop without a bound. -/
theorem fuseWithin_eq_of_le {bound' : Nat} (h : t.fusionBound ≤ bound)
    (h' : t.fusionBound ≤ bound') (changed : Bool) :
    fuseWithin type bound t changed = fuseWithin type bound' t changed := by
  induction bound generalizing bound' t changed with
  | zero =>
    have hzero := Nat.le_zero.mp h
    rw [fuseWithin_of_bound_eq_zero hzero, fuseWithin_of_bound_eq_zero hzero]
  | succ bound ih =>
    cases bound' with
    | zero =>
      have hzero := Nat.le_zero.mp h'
      rw [fuseWithin_of_bound_eq_zero hzero, fuseWithin_of_bound_eq_zero hzero]
    | succ bound' =>
      rw [fuseWithin, fuseWithin]
      rcases hmatch : firstMatch? t Pattern.all with e | _ | ⟨p, next⟩
      · rfl
      · rfl
      · have hlt := (rewrite?_fusedTo (rewrite?_of_firstMatch? hmatch)).fusionBound_lt
        have hrest : fuseWithin type bound next true = fuseWithin type bound' next true :=
          ih (by omega) (by omega) true
        change (if type ≠ next.type then _ else _) = (if type ≠ next.type then _ else _)
        rw [hrest]

/-- The loop at a node stops where nothing matches, with one report for each match. -/
theorem fuseWithin_fuses {changed flag : Bool} (hbound : t.fusionBound ≤ bound)
    (h : Yields (fuseWithin type bound t changed) log (u, flag) log') :
    ∃ n events, Fuses n t u ∧ Exhausted u ∧ flag = (changed || decide (0 < n)) ∧
      log' = log ++ events ∧ events.length = n := by
  induction bound generalizing t changed log with
  | zero =>
    obtain ⟨heq, rfl⟩ := yields_pure.mp h
    cases heq
    exact ⟨0, [], .refl _, exhausted_of_fusionBound (Nat.le_zero.mp hbound), by simp, by simp, rfl⟩
  | succ bound ih =>
    rw [fuseWithin] at h
    obtain ⟨found, mid, hlookup, h⟩ := yields_bind.mp h
    obtain ⟨hfound, rfl⟩ := yields_mk_pure.mp hlookup
    cases found with
    | none =>
      obtain ⟨heq, rfl⟩ := yields_pure.mp h
      cases heq
      exact ⟨0, [], .refl _, firstMatch?_all_eq_none.mp hfound, by simp, by simp, rfl⟩
    | some found =>
      obtain ⟨p, next⟩ := found
      have hlt := (rewrite?_fusedTo (rewrite?_of_firstMatch? hfound)).fusionBound_lt
      dsimp only at h
      split at h
      · cases h
      · obtain ⟨_, _, hreport, h⟩ := yields_bind.mp h
        cases hreport
        obtain ⟨n, events, hfuses, hend, rfl, rfl, rfl⟩ := ih (by omega) h
        exact ⟨_, .patternApplied p t next :: events, .step hfound hfuses, hend, by simp, by simp,
          rfl⟩

/-- Nothing matches inside a node that has been fused if nothing matched inside it before. -/
theorem Fuses.everywhere_children (h : Fuses n t u)
    (ht : ∀ c ∈ t.children, c.Everywhere Exhausted) : ∀ c ∈ u.children, c.Everywhere Exhausted := by
  induction h with
  | refl t => exact ht
  | step hmatch _ ih =>
    exact ih (rewrite?_fusedTo (rewrite?_of_firstMatch? hmatch)).everywhere_children

theorem Fuses.eq_of_zero (h : Fuses 0 t u) : u = t := by
  cases h
  rfl

theorem fuseNode_idle (h : Exhausted t) (log : CompileLog) :
    Yields (fuseNode t) log (t, false) log := by
  rw [fuseNode, fuseWithin_eq_of_le (Nat.le_refl _) (Nat.le_succ _), fuseWithin,
    firstMatch?_all_eq_none.mpr h]
  rfl

theorem fusingStep_idle (h : Exhausted t) (s : Fusing) : Yields (fusingStep t) s (t, false) s := by
  have hnode := fuseNode_idle h s.log
  unfold Yields at hnode
  change Yields (tally s ((fuseNode t).run.run s.log)) s (t, false) s
  rw [hnode]
  rfl

/-- From exhausted children on, fusing a node leaves it exhausted everywhere, and as it
was unless it says that it changed it. -/
theorem fusingStep_exhausts (ht : ∀ c ∈ t.children, c.Everywhere Exhausted) :
    Ensures (fusingStep t) (fun p => p.1.Everywhere Exhausted ∧ (p.2 = false → p.1 = t))
      (fun _ => True) := by
  refine fusingStep_ensures fun log => ?_
  rcases hrun : (fuseNode t).run.run log with ⟨e | ⟨u, flag⟩, log'⟩
  · trivial
  · obtain ⟨n, events, hfuses, hend, rfl, -⟩ := fuseWithin_fuses (Nat.le_refl _) hrun
    refine ⟨.node hend (hfuses.everywhere_children ht), fun hflag => ?_⟩
    obtain rfl : n = 0 := by simpa using hflag
    exact hfuses.eq_of_zero

theorem yields_fuseAll : Yields (fuseAll t) log (u, n) log' ↔
    ∃ flag, Yields (transform fusingStep t) ⟨0, log⟩ (u, flag) ⟨n, log'⟩ := by
  unfold Yields
  rw [fuseAll_run]
  rcases (transform fusingStep t).run.run ⟨0, log⟩ with ⟨e | ⟨u', flag⟩, s⟩
  · constructor
    · intro h
      cases h
    · rintro ⟨flag, h⟩
      cases h
  · constructor
    · intro h
      cases h
      exact ⟨flag, rfl⟩
    · rintro ⟨flag, h⟩
      cases h
      rfl

theorem transform_exhausts (t : Term) : Ensures (transform fusingStep t)
    (fun p => p.1.Everywhere Exhausted ∧ (p.2 = false → p.1 = t)) (fun _ => True) := by
  refine transform_ensures (Q := fun _ u => u.Everywhere Exhausted) (Γ := fun _ => none)
    (fun _ => trivial) (fun t t' hover _ => fusingStep_exhausts ?_) t
  exact forall_of_forall₂ hover.forall₂_children fun _ _ _ h => h

/-- A sweep leaves nothing to match. -/
theorem everywhere_exhausted_of_fuseAll (h : Yields (fuseAll t) log (u, n) log') :
    u.Everywhere Exhausted := by
  obtain ⟨flag, h⟩ := yields_fuseAll.mp h
  exact ((transform_exhausts t).of_yields h).1

/-- A sweep that counts nothing found nothing to match. -/
theorem yields_fuseAll_zero_iff : Yields (fuseAll t) log (u, 0) log' ↔
    u = t ∧ log' = log ∧ t.Everywhere Exhausted := by
  constructor
  · intro h
    have hend := everywhere_exhausted_of_fuseAll h
    obtain ⟨flag, hrun⟩ := yields_fuseAll.mp h
    have hcount := transform_counts t ⟨0, log⟩ (u, flag) ⟨0, log'⟩ hrun
    have hflag : flag = false := by
      cases flag with
      | false => rfl
      | true => exact absurd hcount (by simp)
    obtain rfl := ((transform_exhausts t).of_yields hrun).2 hflag
    obtain ⟨-, hlog⟩ := hrun.unique (transform_idle (hend.mono fun v hv => fusingStep_idle hv _))
    cases hlog
    exact ⟨rfl, rfl, hend⟩
  · rintro ⟨rfl, rfl, hend⟩
    exact yields_fuseAll.mpr
      ⟨false, transform_idle (hend.mono fun v hv => fusingStep_idle hv _)⟩

end

end Term

namespace Pass

variable {pass : Pass} {counted : Bool} {t t' : Term} {stats : RunStats} {log log' : CompileLog}

theorem yields_runLogged : Yields (pass.runLogged counted t) log (t', stats) log' ↔
    ∃ n mid, Yields (pass.run t) log (t', n) mid ∧ stats = .ofRewrites n ∧
      log' = mid ++ [.passRun pass n counted] := by
  unfold runLogged
  constructor
  · intro h
    obtain ⟨⟨u, n⟩, mid, hrun, h⟩ := yields_bind.mp h
    cases h
    exact ⟨n, mid, hrun, rfl, rfl⟩
  · rintro ⟨n, mid, hrun, rfl, rfl⟩
    exact hrun.bind rfl

/-- One sweep of fusion is enough: after it no pattern matches at any node, so a second
one changes nothing and counts nothing. At one node, the loop over the patterns makes at
most two rewrites however it may go, is never cut off, and ends where nothing matches. -/
theorem fusion_exhausts :
    (∀ {counted : Bool} {t t' : Term} {stats : RunStats} {log log' : CompileLog},
      Yields (fusion.runLogged counted t) log (t', stats) log' →
      t'.Everywhere Exhausted ∧ ∀ (counted : Bool) (again : CompileLog),
        Yields (fusion.runLogged counted t') again (t', .none)
          (again ++ [.passRun .fusion 0 counted])) ∧
    ∀ t : Term,
      (∀ n u, Fuses n t u → n ≤ 2) ∧
      (∀ bound ≥ 2, fuseWithin t.type bound t false = fuseNode t) ∧
      ∀ {u : Term} {changed : Bool} {log log' : CompileLog},
        Yields (fuseNode t) log (u, changed) log' → ∃ n events, Fuses n t u ∧ Exhausted u ∧
          changed = decide (0 < n) ∧ log' = log ++ events ∧ events.length = n := by
  refine ⟨fun h => ?_, fun t => ⟨fun n u h => h.le_two, fun bound hbound => ?_, fun h => ?_⟩⟩
  · obtain ⟨n, mid, hrun, -, -⟩ := yields_runLogged.mp h
    have hend := everywhere_exhausted_of_fuseAll hrun
    refine ⟨hend, fun counted again => yields_runLogged.mpr ⟨0, again, ?_, rfl, rfl⟩⟩
    exact yields_fuseAll_zero_iff.mpr ⟨rfl, rfl, hend⟩
  · exact fuseWithin_eq_of_le (Nat.le_trans t.fusionBound_le_two hbound) (Nat.le_refl _) false
  · obtain ⟨n, events, hfuses, hend, rfl, rest⟩ := fuseWithin_fuses (Nat.le_refl _) h
    exact ⟨n, events, hfuses, hend, by simp, rest⟩

/-- `<id(x)>` is matched twice, as a struct and then as a call on a struct of `x`; it is
one node that changed, and a second sweep leaves it alone. -/
theorem fusion_exhausts_twice : ∃ c t' log',
    (Term.reference "x" (.struct [])).identityCall = .ok c ∧
    Fuses 2 (.struct [(none, c)]) t' ∧ 2 ≤ 2 ∧
    Yields (fusion.runLogged true (.struct [(none, c)])) [] (t', ⟨true, 1⟩) log' ∧
    t'.Everywhere Exhausted ∧
    Yields (fusion.runLogged false t') [] (t', .none) [.passRun .fusion 0 false] := by
  obtain ⟨c, t', log', hc, hfuses, hrun⟩ : ∃ c t' log',
      (Term.reference "x" (.struct [])).identityCall = .ok c ∧
      Fuses 2 (.struct [(none, c)]) t' ∧
      Yields (fusion.runLogged true (.struct [(none, c)])) [] (t', ⟨true, 1⟩) log' :=
    ⟨_, _, _, rfl, .step rfl (.step rfl (.refl _)), rfl⟩
  obtain ⟨hend, hagain⟩ := fusion_exhausts.1 hrun
  exact ⟨c, t', log', hc, hfuses, (fusion_exhausts.2 _).1 2 t' hfuses, hrun, hend, hagain _ _⟩

end Pass

end GraphFusion
