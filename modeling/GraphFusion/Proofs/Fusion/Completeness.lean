import GraphFusion.Proofs.Fusion.Glue
import GraphFusion.Proofs.Fusion.Totality

/-!
Lowering is complete on glue. Normalized, a lambda over glue has a wrapped body;
fused from the leaves up, every node of that body becomes one unit called on the
parameter or on nothing, and the lambda becomes the unit itself. Executed on a
value, it gives what evaluating the body gives.
-/

namespace GraphFusion

namespace Term

variable {x : String} {type : Ty} {Γ : Context} {t : Term}

/-- The outline of a unit called on the name `x` or on nothing. -/
def CalledOn (x : String) (o : Outline) : Prop := ∃ a, o = .called a ∧ ∀ y ∈ a, y = x

theorem calledOn_share {names : List String} (h : ∀ y ∈ names, y = x) :
    CalledOn x (.share names) := by
  cases names with
  | nil => exact ⟨none, rfl, by simp⟩
  | cons y names =>
    obtain rfl := h y List.mem_cons_self
    have hall : (y :: names).all (· == y) = true := by simpa using h
    exact ⟨some y, by rw [Outline.share, List.head?_cons]; exact if_pos hall, by simp⟩

theorem calledOn_pack {elements : List Outline} (h : ∀ o ∈ elements, CalledOn x o) :
    CalledOn x (.pack elements) := by
  have hcalled : elements.all Outline.isCalled = true := by
    rw [List.all_eq_true]
    intro o ho
    obtain ⟨a, rfl, -⟩ := h o ho
    rfl
  rw [Outline.pack, if_pos hcalled]
  refine calledOn_share fun y hy => ?_
  obtain ⟨o, ho, hname⟩ := List.mem_filterMap.mp hy
  obtain ⟨a, rfl, ha⟩ := h o ho
  exact ha y hname

/-- Wrapped glue over one name fuses to a unit called on the name or on nothing. -/
theorem Wrapped.calledOn (hx : ∀ y ytype, Γ y = some ytype → y = x) (ht : t.Typed Γ)
    (h : Wrapped t) : CalledOn x t.fusedOutline := by
  induction h with
  | thunkCall => exact ⟨none, rfl, by simp⟩
  | @referenceCall u y ytype =>
    simp only [Typed] at ht
    exact ⟨some y, rfl, by simpa using hx y ytype ht.2.1⟩
  | @unitCall u a _ ih =>
    simp only [Typed] at ht
    obtain ⟨b, hb, hbx⟩ := ih ht.2.1
    exact ⟨b, by rw [fusedOutline, fusedOutline, hb]; rfl, hbx⟩
  | @selection s index _ ih =>
    simp only [Typed] at ht
    obtain ⟨b, hb, hbx⟩ := ih ht.1
    exact ⟨b, by rw [fusedOutline, hb]; rfl, hbx⟩
  | @struct es _ ih =>
    rw [fusedOutline, elementOutlines_eq_map]
    refine calledOn_pack fun o ho => ?_
    obtain ⟨e, he, rfl⟩ := List.mem_map.mp ho
    exact ih e he (typed_struct.mp ht e he)

/-- There is no lambda in wrapped glue. -/
theorem Wrapped.not_blockedBy (h : Wrapped t) (type : Ty) : ¬ t.BlockedBy type := by
  induction h with
  | thunkCall => exact not_blockedBy_of_children (by simp) (by simp [children])
  | referenceCall => exact not_blockedBy_of_children (by simp) (by simp [children])
  | unitCall _ ih => exact not_blockedBy_of_children (by simp) (by simpa [children] using ih)
  | selection _ ih => exact not_blockedBy_of_children (by simp) (by simpa [children] using ih)
  | struct _ ih =>
    refine not_blockedBy_of_children (by simp) fun c hc => ?_
    obtain ⟨e, he, rfl⟩ := List.mem_map.mp hc
    exact ih e he

theorem eq_of_update_none {y : String} {ytype : Ty}
    (h : Function.update (fun _ => none) x (some type) y = some ytype) : y = x := by
  by_contra hne
  rw [Function.update_of_ne hne] at h
  cases h

section

variable {r : Term}

/-- A closed lambda over wrapped glue fuses to a unit. -/
theorem Wrapped.lambda_fusedOutline (ht : (Term.lambda x (some type) r).Typed fun _ => none)
    (hr : Wrapped r) : (Term.lambda x (some type) r).fusedOutline = .unit := by
  simp only [Typed] at ht
  obtain ⟨a, ha, hax⟩ := hr.calledOn (fun _ _ h => eq_of_update_none h) ht
  rw [fusedOutline, ha]
  cases a with
  | none => rfl
  | some y =>
    obtain rfl := hax y rfl
    exact if_pos ⟨rfl, rfl⟩

theorem Wrapped.lambda_not_blockedBy (hdata : type.isData = true) (hr : Wrapped r) (type' : Ty) :
    ¬ (Term.lambda x (some type) r).BlockedBy type' := by
  intro h
  cases h with
  | lambda hfalse =>
    rw [hdata] at hfalse
    cases hfalse
  | child hmem hchild =>
    obtain rfl := List.mem_singleton.mp hmem
    exact hr.not_blockedBy type' hchild

/-- What fusing makes of a lambda over wrapped glue. -/
def FusesToUnit (Γ : Context) (t t' : Term) : Prop :=
  ∃ u, t' = .compiled u ∧ SameMeaning Γ t (.compiled u)

/-- A closed lambda over wrapped glue becomes one unit, and is counted. -/
theorem fuseAll_lambda (ht : (Term.lambda x (some type) r).Typed fun _ => none)
    (hdata : type.isData = true) (hr : Wrapped r) :
    Ensures (fuseAll (.lambda x (some type) r)) (fun p => 0 < p.2 ∧
      FusesToUnit (fun _ => none) (.lambda x (some type) r) p.1) fun _ => False := by
  refine ((fuseAll_fusesInto ht).and (fuseAll_counts ht)).mono (fun p hp => ?_) fun e he => ?_
  · obtain ⟨⟨hsame, houtline, -⟩, hzero⟩ := hp
    obtain ⟨u, hu⟩ := outline_eq_unit.mp (houtline.trans (hr.lambda_fusedOutline ht))
    refine ⟨Nat.pos_of_ne_zero fun h => ?_, u, hu, hu ▸ hsame⟩
    have heq := hzero h
    rw [hu] at heq
    cases heq
  · obtain ⟨⟨type', hblocked, -⟩, -⟩ := he
    exact hr.lambda_not_blockedBy hdata type' hblocked

end

/-- Called on data, the second term gives what the first one gives. -/
def Follows (t t' : Term) : Prop :=
  KeepsType (fun _ => none) t t' ∧
    ∀ (I : Interpretation), I.Monotone → ∀ (env : Env) (a r : Meaning), a.type.isData = true →
      r.type.isData = true → (eval I env t >>= fun f => f.apply (some a)) = .ok r →
        (eval I env t' >>= fun f => f.apply (some a)) = .ok r

theorem Follows.trans {t t' t'' : Term} (h : Follows t t') (h' : Follows t' t'') :
    Follows t t'' :=
  ⟨h.1.trans h'.1, fun I hI env a r ha hr hcall =>
    h'.2 I hI env a r ha hr (h.2 I hI env a r ha hr hcall)⟩

theorem Refined.follows {t t' : Term} (h : Refined (fun _ => none) t t') : Follows t t' := by
  refine ⟨h.1, fun I hI env a r ha hr hcall => ?_⟩
  have hcalls : OutcomeRefines (eval I env t >>= fun f => f.apply (some a))
      (eval I env t' >>= fun f => f.apply (some a)) := by
    refine (h.2 I hI env env fun _ _ hx => by cases hx).bind fun f f' _ _ hff' => ?_
    exact hff'.apply (.some (Meaning.refines_self ha))
  obtain ⟨r', hr', hrr'⟩ := hcalls r hcall
  rw [hr', hrr'.eq_of_isData hr]

theorem SameMeaning.follows {t t' : Term} (h : SameMeaning (fun _ => none) t t') :
    Follows t t' := by
  refine ⟨h.1, fun I _ env a r _ _ hcall => ?_⟩
  rw [h.2 I env env.fits_none, hcall]

/-- A pass in front of fusion, with what is known of the shape of its results. -/
theorem runLogged_follows {pass : Pass} (hpass : pass ≠ .fusion) {counted : Bool}
    {r : Except CompileError (Term × Nat)} (hr : pass.run t = Compile.lift r)
    (ht : t.Typed fun _ => none) {Q : Term → Prop} (hQ : ∀ t' n, r = .ok (t', n) → Q t') :
    Ensures (pass.runLogged counted t) (fun p => Follows t p.1 ∧ Q p.1) fun _ => False := by
  refine Pass.runLogged_ensures (P := fun t' => Follows t t' ∧ Q t') fun log => ?_
  obtain ⟨t', n, hrun, hrefined⟩ := Pass.run_refined hpass ht log
  rw [hrun]
  rw [hr] at hrun
  exact ⟨hrefined.follows, hQ t' n (yields_mk_pure.mp hrun).1⟩

/-- The steps of a round. -/
def roundSteps : List Step :=
  [.pass .calledLambdasToBlocks, .pass .inlineBlocks, .pass .selectionsFromStructs]

/-- One round leaves neither called lambdas nor blocks. -/
theorem round_ensures (counted : Bool) (ht : t.Typed fun _ => none)
    (h : Glue true true .lambda t) :
    Ensures (Step.runAll counted roundSteps t)
      (fun p => Follows t p.1 ∧ Glue false false .lambda p.1) fun _ => False := by
  simp only [roundSteps, Step.runAll, Step.run]
  have hlambdas : ∀ t' n, t.calledLambdasToBlocks = .ok (t', n) → Glue false true .lambda t' :=
    fun t' n hok => (of_exists_ok (calledLambdasToBlocks_reshapes ht) hok).2 _ h
  refine (runLogged_follows (by decide) rfl ht hlambdas).bind fun p hp => ?_
  have hblocks : ∀ t' n, p.1.inlineBlocks = .ok (t', n) → Glue false false .lambda t' :=
    fun t' n hok => inlineBlocks_flat hp.2 hok
  refine Ensures.bind ((runLogged_follows (by decide) rfl hp.1.1.1 hblocks).bind fun q hq => ?_)
    fun q hq => ensures_pure hq
  have hselections : ∀ t' n, q.1.selectionsFromStructs = .ok (t', n) →
      Glue false false .lambda t' :=
    fun t' n hok => (of_exists_ok (selectionsFromStructs_reshapes hq.1.1.1) hok).2 _ hq.2
  refine Ensures.bind ((runLogged_follows (by decide) rfl hq.1.1.1 hselections).bind fun w hw => ?_)
    fun w hw => ensures_pure hw
  exact ensures_pure ⟨(hp.1.trans hq.1).trans hw.1, hw.2⟩

/-- Normalized, a lambda over glue is a lambda over wrapped glue. -/
theorem normalization_ensures (s : Settings) (ht : t.Typed fun _ => none)
    (h : Glue true true .lambda t) :
    Ensures ((Pipeline.normalization s).run t) (fun p => Follows t p.1 ∧
      ∃ x type r, p.1 = .lambda x (some type) r ∧ type.isData = true ∧ Wrapped r)
      fun _ => False := by
  simp only [Pipeline.run, Pipeline.normalization, Pipeline.normalizationSteps, Step.runAll,
    Step.run_fixedPoint, Step.run_pass]
  obtain ⟨left, hleft⟩ : ∃ left, max s.normalizeRounds 1 = left + 1 :=
    ⟨max s.normalizeRounds 1 - 1, by omega⟩
  rw [hleft]
  -- the first round reaches the shape, and the later ones keep it
  have hround := round_ensures s.countRewrites ht h
  have hrounds : ∀ t', Follows t t' ∧ Glue false false .lambda t' →
      Ensures (Step.runAll s.countRewrites roundSteps t')
        (fun p => Follows t p.1 ∧ Glue false false .lambda p.1) fun _ => False := by
    intro t' ht'
    have hglue : Glue true true .lambda t' := ht'.2.mono (by simp) (by simp)
    exact (round_ensures _ ht'.1.1.1 hglue).mono (fun p hp => ⟨ht'.1.trans hp.1, hp.2⟩)
      fun _ he => he
  refine (repeatRounds_succ_ensures hround hrounds 0 left).bind fun p hp => ?_
  have hwrapped : ∀ t' n, p.1.identitiesAtLeaves = .ok (t', n) →
      ∃ x type r, t' = .lambda x (some type) r ∧ type.isData = true ∧ Wrapped r :=
    fun t' n hok => (of_exists_ok (identitiesAtLeaves_wrapping hp.1.1.1) hok).lambda hp.2
  refine Ensures.bind (P := fun q => Follows t q.1 ∧
    ∃ x type r, q.1 = .lambda x (some type) r ∧ type.isData = true ∧ Wrapped r)
    ((runLogged_follows (by decide) rfl hp.1.1.1 hwrapped).bind fun q hq => ?_)
    fun q hq => ensures_pure hq
  exact ensures_pure ⟨hp.1.trans hq.1, hq.2⟩

/-- Lowering a closed lambda over glue gives one unit. -/
theorem lower_ensures (s : Settings) (ht : t.Typed fun _ => none) (h : Glue true true .lambda t) :
    Ensures (lower s (some t)) (fun p => p.2 = true ∧
      ∃ u, p.1 = .compiled u ∧ Follows t (.compiled u)) fun _ => False := by
  refine (normalization_ensures s ht h).bind fun p hp => ?_
  obtain ⟨n, stats⟩ := p
  obtain ⟨hfollows, x, type, r, rfl, hdata, hr⟩ := hp
  refine (fuseAll_lambda hfollows.1.1 hdata hr).bind fun q hq => ?_
  obtain ⟨result, rewrites⟩ := q
  obtain ⟨hpos, u, rfl, hsame⟩ := hq
  have hreturn : Ensures
      (pure (.compiled u, decide (0 < rewrites)) : Compile CompileLog (Term × Bool))
      (fun p => p.2 = true ∧ ∃ u, p.1 = .compiled u ∧ Follows t (.compiled u)) fun _ => False :=
    ensures_pure ⟨decide_eq_true hpos, u, rfl, hfollows.trans hsame.follows⟩
  dsimp only
  split
  · exact ensures_modify.bind fun _ _ => hreturn
  · exact hreturn

section

variable {I J : Interpretation}

theorem evalElements_interpretation {es : List (Label × Term)} {env : Env}
    (h : ∀ e ∈ es, eval I env e.2 = eval J env e.2) :
    evalElements I env es = evalElements J env es := by
  induction es with
  | nil => rfl
  | cons e es ih =>
    rw [List.forall_mem_cons] at h
    simp only [evalElements, h.1, ih h.2]

theorem evalLocals_interpretation {ls : List (String × Term)} {env : Env}
    (h : ∀ l ∈ ls, ∀ env, eval I env l.2 = eval J env l.2) :
    evalLocals I env ls = evalLocals J env ls := by
  induction ls generalizing env with
  | nil => rfl
  | cons l ls ih =>
    rw [List.forall_mem_cons] at h
    simp only [evalLocals, h.1, ih h.2]

/-- Glue has no intrinsics, so what they stand for does not matter. -/
theorem Glue.eval_interpretation {l b : Bool} {k : GlueKind} (h : Glue l b k t) (env : Env) :
    eval I env t = eval J env t := by
  induction h generalizing env with
  | reference => simp only [eval]
  | selection _ ih => simp only [eval, ih]
  | struct _ ih => simp only [eval, evalElements_interpretation fun e he => ih e he env]
  | unit => simp only [eval]
  | thunkCall _ ih => simp only [eval, ih]
  | unitCall _ _ ihf iha => simp only [eval, ihf, iha]
  | lambda _ _ ih => simp only [eval, ih]
  | lambdaCall _ _ _ ihf iha => simp only [eval, ihf, iha]
  | block _ _ _ ihls ihr => simp only [eval, evalLocals_interpretation ihls, ihr]

end

/-- What the lambda gives on the meaning of a value, executing the unit that follows
it gives on the value. -/
theorem Follows.execute {g : Term} {u : CompiledUnit} (hdata : type.isData = true)
    (ht : (Term.lambda x (some type) g).Typed fun _ => none)
    (h : Follows (.lambda x (some type) g) (.compiled u)) {I : Interpretation} (hI : I.Monotone)
    {v : Value} (hv : v.conformsTo type = true) {m r : Meaning} (hmtype : m.type = type)
    (hmvalue : m.value? = some (v.withNamesOf type))
    (heval : eval I (Function.update (fun _ => none) x (some m)) g = .ok r) :
    ∃ w, r.value? = some w ∧ u.graph.execute (some v) = .ok w := by
  have hbuilt := typed_compiled.mp h.1.1
  have htype := h.1.2
  rw [type_compiled, Term.type, Ty.function.injEq] at htype
  obtain ⟨hp, hresult⟩ := htype
  have hbody : ∀ w, eval I (Function.update (fun _ => none) x (some m)) g = .ok w →
      w.type = g.type := by
    intro w hw
    simp only [Typed] at ht
    exact type_of_eval ht ((Env.fits_none _).bind hmtype x) hw
  have hcall : (eval I (fun _ => none) (.lambda x (some type) g) >>= fun f => f.apply (some m)) =
      .ok r := by
    simp only [eval, ok_bind]
    rw [Meaning.apply_function (p := some type) (a := some m) (congrArg some hmtype) hbody, heval]
  have hmdata : m.type.isData = true := by rw [hmtype, hdata]
  have hrdata : r.type.isData = true := by
    rw [hbody r heval, ← hresult]
    exact hbuilt.sound.result_isData
  have hunit := h.2 I hI (fun _ => none) m r hmdata hrdata hcall
  have hfits : Graph.ArgumentFits u.graph.parameter (some (v.withNamesOf type)) := by
    rw [hp]
    exact .some (Value.hasType_withNamesOf hv)
  have hexecute : u.graph.execute (some v) = u.graph.resultOn (some (v.withNamesOf type)) := by
    rw [hbuilt.sound.execute_eq]
    simp [Graph.bindArgument, hp, hv]
  simp only [eval, ok_bind] at hunit
  rw [Meaning.apply_ofGraph hbuilt.sound (v := some (v.withNamesOf type))
    (by rw [hp, Option.map_some, hmtype]) (by rw [Meaning.argument?, hmvalue, Option.map_some])]
    at hunit
  rcases Meaning.returned_resultOn hbuilt.sound hfits with
    ⟨e, -, herror⟩ | ⟨w, m', hw, -, hok, -, hvalue⟩
  · rw [herror] at hunit
    cases hunit
  · rw [hok] at hunit
    cases hunit
    exact ⟨w, hvalue, hexecute.trans hw⟩

/-- Lowering turns a closed lambda over glue into one unit of its type, whatever the
bound on the rounds, and says that it fused. Wherever the body evaluates on an
argument, executing the unit gives its value. -/
theorem lower_glue {g : Term} (hdata : type.isData = true) (hg : Glue true true .data g)
    (ht : (Term.lambda x (some type) g).Typed fun _ => none) (s : Settings) (log : CompileLog) :
    ∃ u log', Yields (lower s (some (.lambda x (some type) g))) log (.compiled u, true) log' ∧
      u.type = (Term.lambda x (some type) g).type ∧
      ∀ v : Value, v.conformsTo type = true →
        ∃ m, Meaning.ofValue? type (v.withNamesOf type) = some m ∧
          ∀ I r, eval I (Function.update (fun _ => none) x (some m)) g = .ok r →
            ∃ w, r.value? = some w ∧ u.graph.execute (some v) = .ok w := by
  obtain ⟨⟨t', changed⟩, log', hrun, rfl, u, rfl, hfollows⟩ :=
    (lower_ensures s ht (.lambda hdata hg)).exists_yields log
  have htype := hfollows.1.2
  rw [Term.type] at htype
  refine ⟨u, log', hrun, htype, fun v hv => ?_⟩
  obtain ⟨m, hm, hmtype, hmvalue⟩ := Meaning.exists_ofValue? (Value.hasType_withNamesOf hv)
  refine ⟨m, hm, fun I r heval => ?_⟩
  rw [hg.eval_interpretation (J := .failing)] at heval
  exact hfollows.execute hdata ht Interpretation.failing_monotone hv hmtype hmvalue heval

/-- `(let y=x in (x -> <x, y>)(y))[0]`. -/
def shadowedPair : Term :=
  .selection (.block [("y", .reference "x" (.struct []))]
    (.call (.lambda "x" (some (.struct [])) (.struct
      [(none, .reference "x" (.struct [])), (none, .reference "y" (.struct []))]))
      (some (.reference "y" (.struct []))))) 0

theorem lower_glue_shadowedPair :
    ∃ u log', Yields (lower ⟨1, true⟩ (some (.lambda "x" (some (.struct [])) shadowedPair))) []
        (.compiled u, true) log' ∧
      u.graph.execute (some (.struct [])) = .ok (.struct []) := by
  have hg : Glue true true .data shadowedPair := by
    refine .selection (.block rfl ?_ (.lambdaCall rfl (.lambda rfl (.struct ?_)) (.reference rfl)))
    · simpa using Glue.reference rfl
    · simpa using ⟨Glue.reference rfl, Glue.reference rfl⟩
  have ht : Term.Typed (fun _ => none) (.lambda "x" (some (.struct [])) shadowedPair) := by
    simp [shadowedPair, Term.Typed, Term.LocalsTyped, Term.ElementsTyped, Context.extend,
      Term.type, Term.elementTypes, Function.update, resultType, Ty.element?, Ty.elements?]
  obtain ⟨u, log', hrun, -, hvalues⟩ := lower_glue rfl hg ht ⟨1, true⟩ []
  obtain ⟨m, hm, hexecute⟩ := hvalues (.struct []) rfl
  cases hm
  obtain ⟨w, hw, hok⟩ := hexecute .failing (.struct []) rfl
  cases hw
  exact ⟨u, log', hrun, hok⟩

end Term

end GraphFusion
