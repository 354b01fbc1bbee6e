import GraphFusion.Proofs.Fusion.Outline
import GraphFusion.Proofs.Fusion.Pipeline

/-!
When lowering succeeds. What a tree fuses to has an outline that can be read off
the tree, so the trees that fusion refuses can be told beforehand. They have a
lambda over a type that is not data, around a body that fuses to a unit called on
nothing: the unit cannot be made to ignore an argument of that type.
-/

namespace GraphFusion

namespace Term

/-- Somewhere in the tree a lambda over the type, which is not data, has a body that
fuses to a unit called on nothing. -/
inductive BlockedBy (type : Ty) : Term → Prop
  | lambda {x : String} {r : Term} : type.isData = false → r.fusedOutline = .called none →
      BlockedBy type (.lambda x (some type) r)
  | child {t c : Term} : c ∈ t.children → BlockedBy type c → BlockedBy type t

theorem not_blockedBy_of_children {type : Ty} {t : Term} (hlambda : ∀ x p r, t ≠ .lambda x p r)
    (hchildren : ∀ c ∈ t.children, ¬ c.BlockedBy type) : ¬ t.BlockedBy type := by
  intro h
  cases h with
  | lambda => exact hlambda _ _ _ rfl
  | child hmem hchild => exact hchildren _ hmem hchild

@[simp] theorem not_blockedBy_reference (type : Ty) (x : String) (xtype : Ty) :
    ¬ (Term.reference x xtype).BlockedBy type :=
  not_blockedBy_of_children (by simp) (by simp [children])

@[simp] theorem not_blockedBy_compiled (type : Ty) (u : CompiledUnit) :
    ¬ (Term.compiled u).BlockedBy type :=
  not_blockedBy_of_children (by simp) (by simp [children])

variable {Γ : Context}

/-- The second term is what the first one fuses to. -/
structure FusesInto (Γ : Context) (t t' : Term) : Prop where
  sameMeaning : SameMeaning Γ t t'
  outline_eq : t'.outline = t.fusedOutline
  unblocked : ∀ type, ¬ t.BlockedBy type

/-- A node over fused children announces what the tree announces. -/
theorem Over.nodeOutline_eq {t t' : Term} (h : Over FusesInto Γ t t') :
    t'.nodeOutline = t.fusedOutline := by
  cases h with
  | reference | compiled | intrinsic => rfl
  | lambda hr => rw [nodeOutline, fusedOutline, hr.outline_eq]
  | thunkCall hf => rw [nodeOutline, fusedOutline, hf.outline_eq, Option.map_none]
  | call hf ha => rw [nodeOutline, fusedOutline, hf.outline_eq, Option.map_some, ha.outline_eq]
  | selection hs => rw [nodeOutline, fusedOutline, hs.outline_eq]
  | @struct es es' hes =>
    have houtlines : (es'.map fun e => e.2.outline) = es.map fun e => e.2.fusedOutline := by
      induction hes with
      | nil => rfl
      | cons he _ ih => rw [List.map_cons, List.map_cons, ih, he.2.outline_eq]
    rw [nodeOutline, fusedOutline, elementOutlines_eq_map, houtlines]
  | block => rfl

/-- Over fused children, which are not blocked, a tree is blocked at its root or not
at all. -/
theorem Over.stuckOn_iff {t t' : Term} (h : Over FusesInto Γ t t') (type : Ty) :
    t'.StuckOn type ↔ t.BlockedBy type := by
  constructor
  · intro hstuck
    cases h with
    | lambda hr =>
      obtain ⟨rfl, hdata, hcalled⟩ := hstuck
      exact .lambda hdata (hr.outline_eq.symm.trans hcalled)
    | reference | thunkCall | call | selection | struct | block | compiled | intrinsic =>
      exact hstuck.elim
  · intro hblocked
    cases hblocked with
    | lambda hdata hcalled =>
      cases h with
      | lambda hr => exact ⟨rfl, hdata, hr.outline_eq.trans hcalled⟩
    | child hmem hchild =>
      obtain ⟨Γ', c', hc⟩ := h.exists_of_mem_children hmem
      exact absurd hchild (hc.unblocked type)

/-- The errors of fusing a tree: they name a type that the tree is blocked by. -/
def FusionError (t : Term) (e : CompileError) : Prop :=
  ∃ type, t.BlockedBy type ∧ e = .graph (.invalid (.parameterNotData type))

theorem FusionError.of_child {t c : Term} {e : CompileError} (hc : c ∈ t.children)
    (h : c.FusionError e) : t.FusionError e := by
  obtain ⟨type, hblocked, herror⟩ := h
  exact ⟨type, .child hc hblocked, herror⟩

/-- Over fused children, fusing the node fuses the tree, or fails as the tree is blocked. -/
theorem fusingStep_fusesInto {t t' : Term} (ht : t.Typed Γ) (hover : Over FusesInto Γ t t') :
    Ensures (fusingStep t') (fun p => FusesInto Γ t p.1 ∧ (p.2 = false → p.1 = t'))
      t.FusionError := by
  have hsame : Over SameMeaning Γ t t' := hover.mono fun _ _ _ h => h.sameMeaning
  have hresolves := fusingStep_ensures (resolves (hsame.sameMeaning ht).1.1)
  refine ((fusingStep_keeps Γ t t' ht hsame).and hresolves).mono (fun p hp => ?_) fun e he => ?_
  · obtain ⟨⟨hmeaning, hunchanged⟩, houtline, hstuck⟩ := hp
    refine ⟨⟨hmeaning, houtline.trans hover.nodeOutline_eq, fun type hblocked => ?_⟩, hunchanged⟩
    exact hstuck type ((hover.stuckOn_iff type).mpr hblocked)
  · obtain ⟨-, type, hstuck, herror⟩ := he
    exact ⟨type, (hover.stuckOn_iff type).mp hstuck, herror⟩

/-- Fusing fails on a typed tree exactly when it is blocked. -/
theorem fuseAll_fusesInto {t : Term} (ht : t.Typed Γ) :
    Ensures (fuseAll t) (fun p => FusesInto Γ t p.1) t.FusionError := by
  have htransform := transform_keeps_or_fails (R := FusesInto) (F := FusionError)
    (fun _ _ hc _ => .of_child hc) (fun _ _ _ h => h.sameMeaning.1.2)
    (fun _ _ _ => fusingStep_fusesInto) ht
  exact fuseAll_of_transform (htransform.mono (fun _ hp => hp.1) fun _ he => he)

/-- Normalizing a typed term never fails: fusion is not among its passes. -/
theorem normalization_keepsType (s : Settings) {t : Term} (ht : t.Typed Γ) :
    Ensures ((Pipeline.normalization s).run t) (fun p => KeepsType Γ t p.1) fun _ => False := by
  refine Step.runAll_ensures_of_passes (P := KeepsType Γ t) _ (fun pass hmem t' ht' log => ?_)
    ⟨ht, rfl⟩
  have hne : pass ≠ .fusion := by
    rintro rfl
    simp [Pipeline.normalization, Pipeline.normalizationSteps, Step.passesOf, Step.passes] at hmem
  obtain ⟨t'', rewrites, hrun, hrefined⟩ := Pass.run_refined hne ht'.1 log
  rw [hrun]
  exact ht'.trans hrefined.1

/-- Lowering of a typed term, whatever the bound on the rounds: normalization gives a
term of the same type, and lowering gives one as well unless a lambda over a type that
is not data blocks the normalized term. It then fails to make a graph that ignores a
parameter of that type. -/
theorem lower_outcome {t : Term} (ht : t.Typed Γ) (s : Settings) (log : CompileLog) :
    ∃ n stats log', Yields ((Pipeline.normalization s).run t) log (n, stats) log' ∧
      KeepsType Γ t n ∧
        (((∀ type, ¬ n.BlockedBy type) ∧ ∃ result changed log'',
            Yields (lower s (some t)) log (result, changed) log'' ∧ KeepsType Γ t result) ∨
          ∃ type, n.BlockedBy type ∧ ((lower s (some t)).run.run log).1 =
            .error (.graph (.invalid (.parameterNotData type)))) := by
  obtain ⟨⟨n, stats⟩, log', hrun, hkeeps⟩ := (normalization_keepsType s ht).exists_yields log
  refine ⟨n, stats, log', hrun, hkeeps, ?_⟩
  have hfuse := fuseAll_fusesInto hkeeps.1 log'
  rcases hfused : n.fuseAll.run.run log' with ⟨e | ⟨result, rewrites⟩, log''⟩
  · rw [hfused] at hfuse
    obtain ⟨type, hblocked, rfl⟩ := hfuse
    refine .inr ⟨type, hblocked, ?_⟩
    rw [lower, run_bind, hrun]
    dsimp only
    rw [run_bind, hfused]
  · rw [hfused] at hfuse
    have hresult : KeepsType Γ t result := hkeeps.trans hfuse.sameMeaning.1
    refine .inl ⟨hfuse.unblocked, result, decide (0 < rewrites), ?_⟩
    cases hcount : s.countRewrites with
    | true =>
      refine ⟨log'' ++ [.passRun .fusion rewrites true], ?_, hresult⟩
      refine hrun.bind (Yields.bind hfused ?_)
      rw [hcount]
      rfl
    | false =>
      refine ⟨log'', ?_, hresult⟩
      refine hrun.bind (Yields.bind hfused ?_)
      rw [hcount]
      rfl

section

variable {u : CompiledUnit}

theorem builtAs_of_emptyStruct (hu : (Graph.emptyStruct >>= CompiledUnit.ofGraph) = .ok u) :
    u.graph.BuiltAs none (.struct []) := by
  obtain ⟨g, hg, hbuilt, -⟩ := Graph.emptyStruct_spec
  obtain ⟨u', hu', rfl⟩ := CompiledUnit.exists_ofGraph hbuilt.built
  rw [hg, ok_bind, hu'] at hu
  cases hu
  exact hbuilt

/-- A function of integers, which is not data. -/
def scalarFunction : Ty := .function (some (.scalar .int32)) (.scalar .int32)

/-- The term under a lambda over a function. -/
def underFunction (r : Term) : Term := .lambda "f" (some scalarFunction) r

theorem typed_underFunction (hu : (Graph.emptyStruct >>= CompiledUnit.ofGraph) = .ok u) :
    (underFunction (.compiled u)).Typed (fun _ => none) ∧
      (underFunction (.call (.compiled u) none)).Typed fun _ => none := by
  have hbuilt := builtAs_of_emptyStruct hu
  constructor
  · simpa only [underFunction, Typed] using hbuilt.built
  · rw [underFunction, Typed, typed_callCompiled]
    exact ⟨hbuilt.built, trivial, hbuilt.parameter_eq⟩

theorem blockedBy_underFunction_iff {r : Term} (hr : ∀ type, ¬ r.BlockedBy type) (type : Ty) :
    (underFunction r).BlockedBy type ↔ type = scalarFunction ∧ r.fusedOutline = .called none := by
  constructor
  · intro h
    cases h with
    | lambda _ hcalled => exact ⟨rfl, hcalled⟩
    | child hmem hchild =>
      obtain rfl := List.mem_singleton.mp hmem
      exact absurd hchild (hr type)
  · rintro ⟨rfl, hcalled⟩
    exact .lambda rfl hcalled

end

/-- Under a parameter that is a function, a unit passes through lowering, and a unit
called on nothing makes it fail. -/
theorem lower_outcome_underFunction :
    ∃ u, (Graph.emptyStruct >>= CompiledUnit.ofGraph) = .ok u ∧
      (∃ result changed log', Yields (lower ⟨1, true⟩ (some (underFunction (.compiled u)))) []
        (result, changed) log') ∧
      ((lower ⟨1, true⟩ (some (underFunction (.call (.compiled u) none)))).run.run []).1 =
        .error (.graph (.invalid (.parameterNotData scalarFunction))) := by
  have hrun : ∃ u, (Graph.emptyStruct >>= CompiledUnit.ofGraph) = .ok u ∧
      (∃ stats log', Yields ((Pipeline.normalization ⟨1, true⟩).run (underFunction (.compiled u)))
        [] (underFunction (.compiled u), stats) log') ∧
      ∃ stats log', Yields ((Pipeline.normalization ⟨1, true⟩).run
        (underFunction (.call (.compiled u) none)))
        [] (underFunction (.call (.compiled u) none), stats) log' :=
    ⟨_, rfl, ⟨_, _, rfl⟩, _, _, rfl⟩
  obtain ⟨u, hu, ⟨_, _, hunit⟩, _, _, hcall⟩ := hrun
  obtain ⟨htunit, htcall⟩ := typed_underFunction hu
  refine ⟨u, hu, ?_, ?_⟩
  · have hfree : ∀ type, ¬ (Term.compiled u).BlockedBy type := by simp
    obtain ⟨n, stats, log, hn, -, hlower⟩ := lower_outcome htunit ⟨1, true⟩ []
    obtain ⟨⟩ := (hn.unique hunit).1
    rcases hlower with ⟨-, result, changed, log', hlower, -⟩ | ⟨type, hblocked, -⟩
    · exact ⟨result, changed, log', hlower⟩
    · obtain ⟨-, hcalled⟩ := (blockedBy_underFunction_iff hfree type).mp hblocked
      cases hcalled
  · have hfree : ∀ type, ¬ (Term.call (.compiled u) none).BlockedBy type := fun type =>
      not_blockedBy_of_children (by simp) (by simp [children])
    obtain ⟨n, stats, log, hn, -, hlower⟩ := lower_outcome htcall ⟨1, true⟩ []
    obtain ⟨⟩ := (hn.unique hcall).1
    rcases hlower with ⟨hnone, -⟩ | ⟨type, hblocked, herror⟩
    · exact absurd (.lambda rfl rfl) (hnone scalarFunction)
    · obtain ⟨rfl, -⟩ := (blockedBy_underFunction_iff hfree type).mp hblocked
      exact herror

/-- Lowering of a typed term may fail. -/
theorem lower_not_total : ¬ ∀ (t : Term), t.Typed (fun _ => none) → ∀ (s : Settings)
    (log : CompileLog), ∃ result log', Yields (lower s (some t)) log result log' := by
  intro h
  have hrun : ∃ u, (Graph.emptyStruct >>= CompiledUnit.ofGraph) = .ok u ∧
      ((lower ⟨1, true⟩ (some (underFunction (.call (.compiled u) none)))).run.run []).1 =
        .error (.graph (.invalid (.parameterNotData scalarFunction))) := ⟨_, rfl, rfl⟩
  obtain ⟨u, hu, herror⟩ := hrun
  obtain ⟨result, log', hlower⟩ := h _ (typed_underFunction hu).2 ⟨1, true⟩ []
  rw [hlower] at herror
  cases herror

end Term

end GraphFusion
