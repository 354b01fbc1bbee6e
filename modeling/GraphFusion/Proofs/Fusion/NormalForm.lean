import GraphFusion.Proofs.Fusion.Counting

/-!
What normalization ends with. No round brings a block back that inlining removed. A
round that changes nothing proves the term reduced, with no called lambda and no
selection from a literal struct; inserting identities keeps a reduced term reduced,
for it puts calls of units in place of references, and so to normalize once more
changes nothing.
-/

namespace GraphFusion

namespace Term

/-- A lambda, called. -/
def IsCalledLambda : Term → Prop
  | .call (.lambda ..) _ => True
  | _ => False

/-- A selection from a literal struct. -/
def IsStructSelection : Term → Prop
  | .selection (.struct _) _ => True
  | _ => False

theorem calledLambdaToBlock?_eq_none_iff {t : Term} :
    t.calledLambdaToBlock? = none ↔ ¬ t.IsCalledLambda := by
  constructor
  · rintro h hcalled
    obtain ⟨x, p, r, a, rfl⟩ : ∃ x p r a, t = .call (.lambda x p r) a := by
      unfold IsCalledLambda at hcalled
      split at hcalled
      · exact ⟨_, _, _, _, rfl⟩
      · exact hcalled.elim
    cases p <;> cases a <;> cases h
  · intro h
    unfold calledLambdaToBlock?
    split
    · exact absurd trivial h
    · exact absurd trivial h
    · rfl

theorem not_isStructSelection {t : Term} (ht : t.Fits) (h : t.elementOfStruct? = none) :
    ¬ t.IsStructSelection := by
  unfold IsStructSelection
  split
  · rename_i es index
    -- a selection that fits selects an element, which the rewrite would have found
    unfold Fits select at ht
    obtain ⟨types, htypes, ht⟩ := bind_eq_ok.mp ht
    obtain rfl : types = elementTypes es := (Except.ok.inj htypes).symm
    rw [elementTypes_eq_map, List.length_map] at ht
    rw [elementOfStruct?, Option.map_eq_none_iff, List.getElem?_eq_none_iff] at h
    rw [if_neg (Nat.not_lt.mpr h)] at ht
    cases ht
  · exact id

theorem elementOfStruct?_eq_none {t : Term} (h : ¬ t.IsStructSelection) :
    t.elementOfStruct? = none := by
  unfold elementOfStruct?
  split
  · exact absurd trivial h
  · rfl

/-- Unblocked and, once `settled`, nothing that the other two rewrites remove. -/
structure Reduced (settled : Prop) (t : Term) : Prop where
  unblocked : t.Unblocked
  notCalledLambda : settled → ¬ t.IsCalledLambda
  notStructSelection : settled → ¬ t.IsStructSelection

section

variable {settled : Prop} {Γ : Context} {t t' : Term}

theorem Reduced.mono {settled' : Prop} (h : t.Reduced settled) (hsettled : settled' → settled) :
    t.Reduced settled' :=
  ⟨h.unblocked, fun hs => h.notCalledLambda (hsettled hs),
    fun hs => h.notStructSelection (hsettled hs)⟩

theorem Unblocked.reduced (h : t.Unblocked) : t.Reduced False := ⟨h, False.elim, False.elim⟩

theorem Over.isBlock_iff {Q : Term → Term → Prop} (h : Over (fun _ => Q) Γ t t') :
    t'.IsBlock ↔ t.IsBlock := by
  cases h <;> rfl

theorem elementOfStruct?_everywhere {P : Term → Prop} (ht : ∀ c ∈ t.children, c.Everywhere P)
    (h : t.elementOfStruct? = some t') : t'.Everywhere P := by
  unfold elementOfStruct? at h
  split at h
  · rename_i es index
    obtain ⟨e, he, rfl⟩ := Option.map_eq_some_iff.mp h
    have hstruct : (Term.struct es).Everywhere P := ht _ List.mem_cons_self
    exact hstruct.child (List.mem_map_of_mem (List.mem_of_getElem? he))
  · cases h

/-- An element was no block inside its struct either. -/
theorem selectionsFromStructs_unblocked {n : Nat} (ht : t.Everywhere Unblocked)
    (h : t.selectionsFromStructs = .ok (t', n)) : t'.Everywhere Unblocked := by
  refine rewriteAll_of_over (Q := fun t t' => t.Everywhere Unblocked → t'.Everywhere Unblocked)
    (Γ := fun _ => none) (fun u u' r hover hfits hr hu => ?_) h ht
  have hu' : u'.Everywhere Unblocked := by
    refine .node ⟨hfits hu.here.1, fun hblock => hu.here.2 (hover.isBlock_iff.mp hblock)⟩ ?_
    exact forall_of_forall₂ hover.forall₂_children fun c c' hc hcc' => hcc' (hu.child hc)
  cases r with
  | none => exact hu'
  | some u'' => exact elementOfStruct?_everywhere (fun c => hu'.child) (Except.ok.inj hr)

/-- The new term is a lambda or a literal struct only if the old one was, so it offers
the node above nothing new to rewrite. -/
def SameFace (t t' : Term) : Prop :=
  (∀ x p r', t' = .lambda x p r' → ∃ r, t = .lambda x p r) ∧
    ∀ es', t' = .struct es' → ∃ es, t = .struct es

theorem Over.sameFace {Q : Term → Term → Prop} (h : Over (fun _ => Q) Γ t t') :
    SameFace t t' := by
  constructor
  · rintro x p r' rfl
    cases h
    exact ⟨_, rfl⟩
  · rintro es' rfl
    cases h
    exact ⟨_, rfl⟩

theorem SameFace.trans {t'' : Term} (h : SameFace t t') (h' : SameFace t' t'') :
    SameFace t t'' := by
  constructor
  · intro x p r'' heq
    obtain ⟨r', heq'⟩ := h'.1 x p r'' heq
    exact h.1 x p r' heq'
  · intro es'' heq
    obtain ⟨es', heq'⟩ := h'.2 es'' heq
    exact h.2 es' heq'

theorem Over.reduced (hover : Over (fun _ => SameFace) Γ t t') (ht : t.Reduced settled)
    (hfits : t'.Fits) : t'.Reduced settled where
  unblocked := ⟨hfits, fun hblock => ht.unblocked.2 (hover.isBlock_iff.mp hblock)⟩
  notCalledLambda hs hcalled := by
    refine ht.notCalledLambda hs ?_
    unfold IsCalledLambda at hcalled
    split at hcalled
    · cases hover with
      | thunkCall hf =>
        obtain ⟨r, rfl⟩ := hf.1 _ _ _ rfl
        trivial
      | call hf =>
        obtain ⟨r, rfl⟩ := hf.1 _ _ _ rfl
        trivial
    · exact hcalled.elim
  notStructSelection hs hselection := by
    refine ht.notStructSelection hs ?_
    unfold IsStructSelection at hselection
    split at hselection
    · cases hover with
      | selection hsource =>
        obtain ⟨es, rfl⟩ := hsource.2 _ rfl
        trivial
    · exact hselection.elim

/-- What was reduced stays reduced, under any node. -/
structure StaysReduced (t t' : Term) : Prop where
  reduced : ∀ settled, t.Everywhere (Reduced settled) → t'.Everywhere (Reduced settled)
  sameFace : SameFace t t'

theorem StaysReduced.trans {t'' : Term} (h : StaysReduced t t') (h' : StaysReduced t' t'') :
    StaysReduced t t'' :=
  ⟨fun settled ht => h'.reduced settled (h.reduced settled ht), h.sameFace.trans h'.sameFace⟩

theorem Over.staysReduced (hover : Over (fun _ => StaysReduced) Γ t t')
    (hfits : t.Fits → t'.Fits) : StaysReduced t t' where
  reduced settled ht := by
    have hface := hover.mono_of_mem (S := SameFace) fun _ _ _ h => h.sameFace
    refine .node (hface.reduced ht.here (hfits ht.here.unblocked.1)) ?_
    exact forall_of_forall₂ hover.forall₂_children
      fun c c' hc h => h.reduced settled (ht.child hc)
  sameFace := hover.sameFace

/-- A child that refers to data is the argument of a compiled unit. -/
def Consumes (t : Term) : Prop :=
  ∀ c ∈ t.children, c.isDataReference = true → ∃ u, t = .call (.compiled u) (some c)

theorem consumes_unitCall (u : CompiledUnit) (a : Option Term) :
    (Term.call (.compiled u) a).Consumes := by
  intro c hc hdata
  rw [children, List.mem_cons, Option.mem_toList] at hc
  rcases hc with rfl | ha
  · cases hdata
  · exact ⟨u, by rw [Option.mem_def.mp ha]⟩

theorem consumes_of_children (h : ∀ c ∈ t.children, c.isDataReference = false) :
    t.Consumes := by
  intro c hc hdata
  rw [h c hc] at hdata
  cases hdata

theorem everywhere_unitCall {P : Term → Prop} {u : CompiledUnit} {a : Term}
    (h : P (.call (.compiled u) (some a))) (hu : P (.compiled u)) (ha : a.Everywhere P) :
    (Term.call (.compiled u) (some a)).Everywhere P := by
  refine .node h (List.forall_mem_cons.mpr ⟨.node hu (by simp [children]), ?_⟩)
  exact List.forall_mem_singleton.mpr ha

theorem PassedOn.staysReduced (h : PassedOn t t') : StaysReduced t t' := by
  rcases h with ⟨-, rfl⟩ | ⟨-, u, rfl, hfits⟩
  · exact ⟨fun _ ht => ht, fun x p r heq => ⟨r, heq⟩, fun es heq => ⟨es, heq⟩⟩
  · refine ⟨fun settled ht => ?_, nofun, nofun⟩
    exact everywhere_unitCall ⟨⟨hfits, id⟩, fun _ => id, fun _ => id⟩
      ⟨⟨trivial, id⟩, fun _ => id, fun _ => id⟩ ht

theorem PassedOn.everywhere_consumes (h : PassedOn t t') (ht : t.Everywhere Consumes) :
    t'.Everywhere Consumes := by
  rcases h with ⟨-, rfl⟩ | ⟨-, u, rfl, -⟩
  · exact ht
  · exact everywhere_unitCall (consumes_unitCall u _)
      (consumes_of_children (by simp [children])) ht

theorem PassedOn.isDataReference_eq_false (h : PassedOn t t') : t'.isDataReference = false := by
  rcases h with ⟨hdata, rfl⟩ | ⟨-, u, rfl, -⟩
  · exact hdata
  · rfl

/-- What inserting identities makes of a term. -/
def Wired (t t' : Term) : Prop := StaysReduced t t' ∧ t'.Everywhere Consumes

theorem wrapChildren?_wired {r : Option Term} (hover : Over (fun _ => Wired) Γ t t')
    (hfits : t.Fits → t'.Fits) (hr : t'.wrapChildren? = .ok r) : Wired t (r.getD t') := by
  have hstays : StaysReduced t t' :=
    (hover.mono_of_mem (S := StaysReduced) fun _ _ _ h => h.1).staysReduced hfits
  have hconsumes : ∀ c' ∈ t'.children, c'.Everywhere Consumes :=
    forall_of_forall₂ hover.forall₂_children fun _ _ _ h => h.2
  rcases wrapChildren?_cases (Γ := Γ) hr with ⟨rfl, hnode⟩ | ⟨t'', rfl, hfits', hpassed⟩
  · refine ⟨hstays, .node ?_ hconsumes⟩
    rcases hnode with ⟨u, a, hcall⟩ | hchildren
    · simpa only [hcall, Option.getD_none] using consumes_unitCall u a
    · exact consumes_of_children hchildren
  · have hstays' : StaysReduced t' t'' :=
      (hpassed.mono_of_mem (S := StaysReduced) fun _ _ _ h => h.staysReduced).staysReduced
        fun _ => hfits'
    refine ⟨hstays.trans hstays', .node (consumes_of_children ?_) ?_⟩
    · exact forall_of_forall₂ hpassed.forall₂_children
        fun _ _ _ h => h.isDataReference_eq_false
    · exact forall_of_forall₂ hpassed.forall₂_children
        fun c' _ hc' h => h.everywhere_consumes (hconsumes c' hc')

theorem identitiesAtLeaves_wired {n : Nat} (h : t.identitiesAtLeaves = .ok (t', n)) :
    Wired t t' :=
  rewriteAll_of_over (Γ := fun _ => none) (fun _ _ _ => wrapChildren?_wired) h

theorem wrapChildren?_eq_none (h : t.Consumes) : t.wrapChildren? = .ok none := by
  cases hany : t.children.any isDataReference with
  | true =>
    obtain ⟨c, hc, hdata⟩ := List.any_eq_true.mp hany
    obtain ⟨u, rfl⟩ := h c hc hdata
    rfl
  | false =>
    unfold wrapChildren?
    dsimp only
    rw [hany]
    split <;> rfl

end

end Term

open Term

namespace RunStats

theorem merge_ofRewrites (m n : Nat) :
    (ofRewrites m).merge (ofRewrites n) = ofRewrites (m + n) := by
  have hpos : decide (0 < m + n) = (decide (0 < m) || decide (0 < n)) := by
    rw [← Bool.decide_or, decide_eq_decide]
    omega
  rw [merge, ofRewrites, ofRewrites, ofRewrites, hpos]

theorem none_eq : none = ofRewrites 0 := rfl

theorem changed_ofRewrites_eq_false {n : Nat} : (ofRewrites n).changed = false ↔ n = 0 := by
  simp [ofRewrites]

end RunStats

section

variable {counted : Bool} {t t' : Term} {stats : RunStats} {log log' : CompileLog}

namespace Step

theorem yields_runAll_nil : Yields (runAll counted [] t) log (t', stats) log' ↔
    t' = t ∧ stats = .none ∧ log' = log := by
  rw [runAll, yields_pure, Prod.mk.injEq, and_assoc]
  simp only [eq_comm]

theorem yields_runAll_cons {step : Step} {rest : List Step} :
    Yields (runAll counted (step :: rest) t) log (t', stats) log' ↔
      ∃ u first later mid, Yields (run counted step t) log (u, first) mid ∧
        Yields (runAll counted rest u) mid (t', later) log' ∧ stats = first.merge later := by
  rw [runAll]
  constructor
  · intro h
    obtain ⟨⟨u, first⟩, mid, hstep, h⟩ := yields_bind.mp h
    obtain ⟨⟨t'', later⟩, _, hrest, h⟩ := yields_bind.mp h
    cases h
    exact ⟨u, first, later, mid, hstep, hrest, rfl⟩
  · rintro ⟨u, first, later, mid, hstep, hrest, rfl⟩
    exact hstep.bind (hrest.bind (.pure _ _))

theorem yields_runAll_pass {pass : Pass} {rest : List Step}
    {outcome : Except CompileError (Term × Nat)} (hpass : pass.run t = Compile.lift outcome) :
    Yields (runAll counted (.pass pass :: rest) t) log (t', stats) log' ↔
      ∃ u n later, outcome = .ok (u, n) ∧
        Yields (runAll counted rest u) (log ++ [.passRun pass n counted]) (t', later) log' ∧
        stats = (RunStats.ofRewrites n).merge later := by
  rw [yields_runAll_cons]
  simp only [run, Pass.runLogged, hpass]
  constructor
  · rintro ⟨u, first, later, mid, hstep, hrest, rfl⟩
    obtain ⟨⟨u', n⟩, _, hrun, hstep⟩ := yields_bind.mp hstep
    obtain ⟨rfl, rfl⟩ := yields_mk_pure.mp hrun
    cases hstep
    exact ⟨_, n, later, rfl, hrest, rfl⟩
  · rintro ⟨u, n, later, rfl, hrest, rfl⟩
    exact ⟨u, .ofRewrites n, later, _, Yields.bind (yields_mk_pure.mpr ⟨rfl, rfl⟩) rfl, hrest, rfl⟩

/-- The steps of a round of normalization. -/
abbrev reductions : List Step :=
  [.pass .calledLambdasToBlocks, .pass .inlineBlocks, .pass .selectionsFromStructs]

/-- What a round reports that makes so many rewrites. -/
def reports (counted : Bool) (n₁ n₂ n₃ : Nat) : CompileLog :=
  [.passRun .calledLambdasToBlocks n₁ counted, .passRun .inlineBlocks n₂ counted,
    .passRun .selectionsFromStructs n₃ counted]

theorem yields_reductions : Yields (runAll counted reductions t) log (t', stats) log' ↔
    ∃ t₁ n₁ t₂ n₂ n₃, t.calledLambdasToBlocks = .ok (t₁, n₁) ∧
      t₁.inlineBlocks = .ok (t₂, n₂) ∧ t₂.selectionsFromStructs = .ok (t', n₃) ∧
      stats = .ofRewrites (n₁ + (n₂ + n₃)) ∧ log' = log ++ reports counted n₁ n₂ n₃ := by
  have hmerge : ∀ n₁ n₂ n₃, (RunStats.ofRewrites n₁).merge ((RunStats.ofRewrites n₂).merge
      ((RunStats.ofRewrites n₃).merge .none)) = .ofRewrites (n₁ + (n₂ + n₃)) := by
    intro n₁ n₂ n₃
    simp only [RunStats.none_eq, RunStats.merge_ofRewrites, Nat.add_zero]
  constructor
  · intro h
    obtain ⟨t₁, n₁, _, h₁, hrest₁, rfl⟩ := (yields_runAll_pass rfl).mp h
    obtain ⟨t₂, n₂, _, h₂, hrest₂, rfl⟩ := (yields_runAll_pass rfl).mp hrest₁
    obtain ⟨t₃, n₃, _, h₃, hrest₃, rfl⟩ := (yields_runAll_pass rfl).mp hrest₂
    obtain ⟨rfl, rfl, rfl⟩ := yields_runAll_nil.mp hrest₃
    exact ⟨t₁, n₁, t₂, n₂, n₃, h₁, h₂, h₃, hmerge n₁ n₂ n₃, by simp [reports]⟩
  · rintro ⟨t₁, n₁, t₂, n₂, n₃, h₁, h₂, h₃, rfl, rfl⟩
    refine (yields_runAll_pass rfl).mpr ⟨t₁, n₁, _, h₁, ?_, (hmerge n₁ n₂ n₃).symm⟩
    refine (yields_runAll_pass rfl).mpr ⟨t₂, n₂, _, h₂, ?_, rfl⟩
    refine (yields_runAll_pass rfl).mpr ⟨t', n₃, _, h₃, ?_, rfl⟩
    exact yields_runAll_nil.mpr ⟨rfl, rfl, by simp [reports]⟩

/-- After a round there is no block, and after one that changes nothing there is
nothing left for any of the three rewrites. -/
theorem reduced_of_reductions (h : Yields (runAll counted reductions t) log (t', stats) log') :
    t'.Everywhere (Reduced (stats.changed = false)) := by
  obtain ⟨t₁, n₁, t₂, n₂, n₃, h₁, h₂, h₃, rfl, -⟩ := yields_reductions.mp h
  have hunblocked := selectionsFromStructs_unblocked (inlineBlocks_unblocked h₂) h₃
  rw [RunStats.changed_ofRewrites_eq_false]
  by_cases hzero : n₁ + (n₂ + n₃) = 0
  · obtain ⟨rfl, rfl, rfl⟩ : n₁ = 0 ∧ n₂ = 0 ∧ n₃ = 0 := by omega
    obtain ⟨rfl, hcalled⟩ := rewriteAll_eq_zero_iff.mp h₁
    obtain ⟨rfl, -⟩ := inlineBlocks_eq_zero_iff.mp h₂
    obtain ⟨rfl, helement⟩ := rewriteAll_eq_zero_iff.mp h₃
    refine ((hunblocked.and hcalled).and helement).mono fun u hu =>
      ⟨hu.1.1, fun _ => ?_, fun _ => ?_⟩
    · exact calledLambdaToBlock?_eq_none_iff.mp (Except.ok.inj hu.1.2)
    · exact not_isStructSelection hu.1.1.1 (Except.ok.inj hu.2)
  · exact hunblocked.mono fun u hu => hu.reduced.mono fun h => hzero h

theorem reductions_of_reduced (ht : t.Everywhere (Reduced True)) (log : CompileLog) :
    Yields (runAll counted reductions t) log (t, .none) (log ++ reports counted 0 0 0) := by
  refine yields_reductions.mpr ⟨t, 0, t, 0, 0, ?_, ?_, ?_, rfl, rfl⟩
  · refine rewriteAll_eq_zero_iff.mpr ⟨rfl, ht.mono fun u hu => congrArg Except.ok ?_⟩
    exact calledLambdaToBlock?_eq_none_iff.mpr (hu.notCalledLambda trivial)
  · exact inlineBlocks_eq_zero_iff.mpr ⟨rfl, ht.mono fun u hu => hu.unblocked⟩
  · refine rewriteAll_eq_zero_iff.mpr ⟨rfl, ht.mono fun u hu => congrArg Except.ok ?_⟩
    exact elementOfStruct?_eq_none (hu.notStructSelection trivial)

/-- The reports tell of a fixed point that was cut off at its bound. -/
def Cut (events : CompileLog) : Prop := ∃ n, .fixedPointStopped n ∈ events

theorem cut_append {events later : CompileLog} :
    Cut (events ++ later) ↔ Cut events ∨ Cut later := by
  simp [Cut, exists_or]

/-- Rounds leave a term without blocks, and a reduced one unless they were cut off. -/
theorem reduced_of_rounds (left done : Nat)
    (ht : t.Everywhere (Reduced False) ∨ left ≠ 0)
    (h : Yields (repeatRounds (runAll counted reductions) done left t) log (t', stats) log') :
    ∃ events, log' = log ++ events ∧ t'.Everywhere (Reduced (¬ Cut events)) := by
  induction left generalizing t done log stats with
  | zero =>
    cases h
    refine ⟨[.fixedPointStopped done], rfl, ?_⟩
    refine (ht.resolve_right (not_not.mpr rfl)).mono fun u hu => hu.mono fun hcut => hcut ?_
    exact ⟨done, List.mem_cons_self⟩
  | succ left ih =>
    rw [repeatRounds] at h
    obtain ⟨⟨t₁, first⟩, mid, hround, h⟩ := yields_bind.mp h
    obtain ⟨_, n₁, _, n₂, n₃, -, -, -, -, rfl⟩ := yields_reductions.mp hround
    have hreduced := reduced_of_reductions hround
    dsimp only at h
    split at h
    · obtain ⟨⟨t₂, later⟩, _, hrest, h⟩ := yields_bind.mp h
      cases h
      obtain ⟨events, rfl, ht'⟩ :=
        ih (done + 1) (.inl (hreduced.mono fun u hu => hu.mono False.elim)) hrest
      refine ⟨reports counted n₁ n₂ n₃ ++ events, List.append_assoc .., ?_⟩
      refine ht'.mono fun u hu => hu.mono fun hcut hlater => hcut ?_
      exact cut_append.mpr (.inr hlater)
    · rename_i hchanged
      cases h
      exact ⟨_, rfl, hreduced.mono fun u hu => hu.mono fun _ => by simpa using hchanged⟩

theorem rounds_of_reduced (ht : t.Everywhere (Reduced True)) (done left : Nat)
    (log : CompileLog) :
    Yields (repeatRounds (runAll counted reductions) done (left + 1) t) log (t, .none)
      (log ++ reports counted 0 0 0) :=
  (reductions_of_reduced ht log).bind (.pure _ _)

end Step

/-- A reduced term whose data references are arguments is normalized as it is. -/
theorem Pipeline.normalization_of_reduced (ht : t.Everywhere (Reduced True))
    (hconsumes : t.Everywhere Consumes) (s : Settings) (log : CompileLog) :
    Yields ((Pipeline.normalization s).run t) log (t, .none)
      (log ++ Step.reports s.countRewrites 0 0 0 ++
        [.passRun .identitiesAtLeaves 0 s.countRewrites]) := by
  obtain ⟨left, hleft⟩ : ∃ left, max s.normalizeRounds 1 = left + 1 :=
    ⟨max s.normalizeRounds 1 - 1, by omega⟩
  have hrounds : Yields (Step.run s.countRewrites (.fixedPoint s.normalizeRounds Step.reductions) t)
      log (t, .none) (log ++ Step.reports s.countRewrites 0 0 0) := by
    rw [Step.run_fixedPoint, hleft]
    exact Step.rounds_of_reduced ht 0 left log
  have hidentities : t.identitiesAtLeaves = .ok (t, 0) :=
    rewriteAll_eq_zero_iff.mpr ⟨rfl, hconsumes.mono fun u hu => wrapChildren?_eq_none hu⟩
  refine Step.yields_runAll_cons.mpr ⟨t, .none, .none, _, hrounds, ?_, rfl⟩
  exact (Step.yields_runAll_pass rfl).mpr
    ⟨t, 0, .none, hidentities, Step.yields_runAll_nil.mpr ⟨rfl, rfl, rfl⟩, rfl⟩

/-- Normalization leaves no block, and every reference to data except a bare root is
the argument of a compiled unit. Unless the rounds were cut off at their bound, no
lambda is called and nothing selected from a literal struct either, and to normalize
once more changes nothing. -/
theorem Pipeline.normalization_normalForm {s : Settings}
    (h : Yields ((Pipeline.normalization s).run t) log (t', stats) log') :
    t'.Everywhere (fun u => ¬ u.IsBlock) ∧ t'.Everywhere Consumes ∧
      ∃ events, log' = log ++ events ∧ (¬ Step.Cut events →
        t'.Everywhere (fun u => ¬ u.IsCalledLambda ∧ ¬ u.IsStructSelection) ∧
          ∀ (s' : Settings) (again : CompileLog), ∃ after,
            Yields ((Pipeline.normalization s').run t') again (t', .none) after) := by
  obtain ⟨t₁, first, _, mid, hrounds, hlast, -⟩ := Step.yields_runAll_cons.mp h
  rw [Step.run_fixedPoint] at hrounds
  obtain ⟨events, rfl, hreduced⟩ := Step.reduced_of_rounds (max s.normalizeRounds 1) 0
    (.inr (by omega)) hrounds
  obtain ⟨t₂, n, _, hidentities, hend, -⟩ := (Step.yields_runAll_pass rfl).mp hlast
  obtain ⟨rfl, -, rfl⟩ := Step.yields_runAll_nil.mp hend
  obtain ⟨hstays, hconsumes⟩ := identitiesAtLeaves_wired hidentities
  have hreduced' := hstays.reduced _ hreduced
  refine ⟨hreduced'.mono fun u hu => hu.unblocked.2, hconsumes,
    events ++ [.passRun .identitiesAtLeaves n s.countRewrites], List.append_assoc .., ?_⟩
  intro hcut
  have hevents : ¬ Step.Cut events := fun hevents => hcut (Step.cut_append.mpr (.inl hevents))
  refine ⟨hreduced'.mono fun u hu =>
    ⟨hu.notCalledLambda hevents, hu.notStructSelection hevents⟩, fun s' again => ?_⟩
  have hsettled : t'.Everywhere (Reduced True) :=
    hreduced'.mono fun u hu => hu.mono fun _ => hevents
  exact ⟨_, normalization_of_reduced hsettled hconsumes s' again⟩

/-- `<(s -> s[0])(<x>)>` takes a round that makes all three rewrites and one that makes
none; then `x` is passed through an identity. -/
theorem Pipeline.normalization_normalForm_selection : ∃ t' stats,
    Yields ((Pipeline.normalization ⟨3, true⟩).run (.struct [(none,
        .call (.lambda "s" (some (.struct [(none, .struct [])]))
            (.selection (.reference "s" (.struct [(none, .struct [])])) 0))
          (some (.struct [(none, .reference "x" (.struct []))])))])) [] (t', stats)
      (Step.reports true 1 1 1 ++ Step.reports true 0 0 0 ++
        [.passRun .identitiesAtLeaves 1 true]) ∧
    t'.Everywhere (fun u => ¬ u.IsBlock) ∧ t'.Everywhere Consumes ∧
    t'.Everywhere (fun u => ¬ u.IsCalledLambda ∧ ¬ u.IsStructSelection) ∧
    ∃ after, Yields ((Pipeline.normalization ⟨1, false⟩).run t') [] (t', .none) after := by
  refine Exists.imp (fun t' => Exists.imp fun stats hrun => ⟨hrun, ?_⟩) ⟨_, _, rfl⟩
  obtain ⟨hblocks, hconsumes, events, hevents, hsettled⟩ :=
    Pipeline.normalization_normalForm hrun
  have hcut : ¬ Step.Cut events := by
    rw [List.nil_append] at hevents
    rw [← hevents]
    simp [Step.Cut, Step.reports]
  exact ⟨hblocks, hconsumes, (hsettled hcut).1, (hsettled hcut).2 _ _⟩

end

end GraphFusion
