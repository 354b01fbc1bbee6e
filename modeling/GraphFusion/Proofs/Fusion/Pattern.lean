import GraphFusion.Proofs.Terms.Equivalence

/-!
Each pattern replaces a typed node by a term with the same meaning. Apart from a
lambda over a type that is not data, which cannot be made to ignore its
parameter, a node of a pattern's shape is always replaced.
-/

namespace GraphFusion

namespace Pattern

open Term

variable {I : Interpretation} {Γ : Context}

theorem typed_called {t : Term} {u : CompiledUnit} {a : Option Term}
    (ht : t.Typed Γ) (h : t.calledGraph? = some (u, a)) :
    u.graph.Built ∧ ArgumentTyped Γ a ∧ u.graph.parameter = a.map type := by
  obtain ⟨rfl, -⟩ := calledGraph?_eq_some h
  exact typed_callCompiled.mp ht

/-- A lambda around a built graph is the graph, when calling it does what the
graph does. -/
theorem sameMeaning_lambda {x : String} {p : Option Ty} {r : Term} {u : CompiledUnit}
    (hu : u.graph.Built) (hp : u.graph.parameter = p) (hr : u.graph.result = r.type)
    (h : ∀ (I : Interpretation) (env : Env) a v, a.map (·.type) = p → Meaning.argument? a = some v →
      Graph.ArgumentFits u.graph.parameter v →
        eval I (Function.update env x a) r =
          Meaning.returned u.graph.result (u.graph.resultOn v)) :
    SameMeaning Γ (.lambda x p r) (.compiled u) := by
  refine ⟨⟨typed_compiled.mpr hu, ?_⟩, fun I env henv => ?_⟩
  · rw [type_compiled, hp, hr, type]
  · simp only [eval, Meaning.ofGraph, hp, ← hr]
    refine congrArg Except.ok (Meaning.function_congr fun a ha => ?_)
    obtain ⟨v, hv, hfits⟩ := Meaning.exists_argument hu.sound (ha.trans hp.symm)
    simp only [hv, hu.sound.execute_of_fits hfits, h I env a v ha hv hfits]

/-- `(p -> C(p))` is `C`. -/
theorem lambdaWrappingGraph_same {x : String} {p type : Ty} {r : Term} {u : CompiledUnit}
    (ht : (Term.lambda x (some p) r).Typed Γ)
    (hr : r.calledGraph? = some (u, some (.reference x type))) :
    SameMeaning Γ (.lambda x (some p) r) (.compiled u) := by
  rw [Typed] at ht
  obtain ⟨hu, hx, hp⟩ := typed_called ht hr
  obtain ⟨rfl, -⟩ := calledGraph?_eq_some hr
  simp only [ArgumentTyped, Typed, Function.update_self, Option.some.injEq] at hx
  subst hx
  rw [Option.map_some, Term.type] at hp
  refine sameMeaning_lambda hu hp (type_callCompiled u _).symm fun I env a v ha hv _ => ?_
  obtain ⟨m, rfl, hm⟩ := Option.map_eq_some_iff.mp ha
  rw [eval_callCompiled, evalArgument, eval_reference (Function.update_self x (some m) env)]
  exact Meaning.apply_ofGraph hu.sound (ha.trans hp.symm) hv

/-- `( -> C())` is `C`. -/
theorem lambdaWrappingNoArgGraph_same_none {x : String} {r : Term} {u : CompiledUnit}
    (ht : (Term.lambda x none r).Typed Γ) (hr : r.calledGraph? = some (u, none)) :
    SameMeaning Γ (.lambda x none r) (.compiled u) := by
  rw [Typed] at ht
  obtain ⟨hu, -, hp⟩ := typed_called ht hr
  obtain ⟨rfl, -⟩ := calledGraph?_eq_some hr
  refine sameMeaning_lambda hu hp (type_callCompiled u _).symm fun I env a v ha hv _ => ?_
  obtain rfl := Option.map_eq_none_iff.mp ha
  rw [eval_callCompiled, evalArgument]
  exact Meaning.apply_ofGraph hu.sound hp.symm hv

attribute [local simp] rewrite?

/-- `(p -> C())` is `C` made to ignore its argument. -/
theorem lambdaWrappingNoArgGraph_same_some {x : String} {p : Ty} {r : Term} {u : CompiledUnit}
    (ht : (Term.lambda x (some p) r).Typed Γ) (hr : r.calledGraph? = some (u, none))
    (hdata : p.isData = true) :
    ∃ u', lambdaWrappingNoArgGraph.rewrite? (.lambda x (some p) r) = .ok (some (.compiled u')) ∧
      SameMeaning Γ (.lambda x (some p) r) (.compiled u') := by
  rw [Typed] at ht
  obtain ⟨hu, -, hp⟩ := typed_called ht hr
  obtain ⟨g, hg, hbuilt, hrun⟩ := Graph.ignoreParameter_spec hu hp hdata
  obtain ⟨u', hu', rfl⟩ := CompiledUnit.exists_ofGraph hbuilt.built
  refine ⟨u', ?_, ?_⟩
  · simp only [rewrite?, hr, loadUnit_eq hu, ok_bind, hg, Except.mapError, Term.ofGraph, hu',
      pure_eq_ok]
  · obtain ⟨rfl, -⟩ := calledGraph?_eq_some hr
    have hresult := hbuilt.result_eq.trans (type_callCompiled u none).symm
    refine sameMeaning_lambda hbuilt.built hbuilt.parameter_eq hresult ?_
    intro I env a v ha _ hfits
    rw [hbuilt.parameter_eq] at hfits
    cases hfits with
    | @some _ w hw =>
      rw [hrun w hw, hbuilt.result_eq, eval_callCompiled, evalArgument]
      exact Meaning.apply_ofGraph hu.sound hp.symm rfl

/-- `(p -> C())` over a type that is not data cannot become a unit. -/
theorem lambdaWrappingNoArgGraph_error {x : String} {p : Ty} {r : Term} {u : CompiledUnit}
    (ht : (Term.lambda x (some p) r).Typed Γ) (hr : r.calledGraph? = some (u, none))
    (hdata : p.isData = false) :
    lambdaWrappingNoArgGraph.rewrite? (.lambda x (some p) r) =
      .error (.graph (.invalid (.parameterNotData p))) := by
  rw [Typed] at ht
  obtain ⟨hu, -, hp⟩ := typed_called ht hr
  simp only [rewrite?, hr, loadUnit_eq hu, ok_bind, Graph.ignoreParameter_error hu hp hdata,
    Except.mapError, error_bind]

/-- `C(r)[i]` is the projection of `C`, called on `r`. -/
theorem selectionFromCalledGraph_same {s : Term} {u : CompiledUnit} {a : Option Term}
    {index : Nat} (ht : (Term.selection s index).Typed Γ) (hs : s.calledGraph? = some (u, a)) :
    ∃ u', selectionFromCalledGraph.rewrite? (.selection s index) =
        .ok (some (.call (.compiled u') a)) ∧
      SameMeaning Γ (.selection s index) (.call (.compiled u') a) := by
  obtain ⟨rfl, -⟩ := calledGraph?_eq_some hs
  simp only [Typed] at ht
  obtain ⟨hcall, etype, hindex⟩ := ht
  obtain ⟨hu, ha, hp⟩ := typed_callCompiled.mp hcall
  have hindex' := hindex
  rw [type_callCompiled] at hindex
  obtain ⟨es, label, hstruct, hget⟩ := Ty.element?_eq_some.mp hindex
  obtain ⟨g, hg, hbuilt, hrun⟩ := Graph.project_spec hu hstruct hget
  obtain ⟨u', hu', rfl⟩ := callGraph_spec hbuilt hp.symm
  refine ⟨u', ?_, ⟨?_, ?_⟩, fun I env henv => ?_⟩
  · simp only [rewrite?, hs, loadUnit_eq hu, ok_bind, hg, Except.mapError, hu', pure_eq_ok]
  · exact typed_callCompiled.mpr ⟨hbuilt.built, ha, hbuilt.parameter_eq.trans hp⟩
  · rw [type_callCompiled, hbuilt.result_eq, type, hindex', Option.getD_some]
  · rw [eval_callCompiled_congr hu ha hp hbuilt.built (hbuilt.parameter_eq.trans hp) henv
      (k := (·.select index))]
    · simp only [eval]
    · intro v hv
      rw [hrun v hv, hbuilt.result_eq]
      rcases Meaning.returned_resultOn hu.sound hv with
        ⟨e, he, hreturned⟩ | ⟨w, m, hw, -, hreturned, hm, hvalue⟩
      · rw [hreturned, he]
        rfl
      · rw [hreturned, hw, ok_bind, ok_bind]
        rw [hstruct] at hm
        obtain ⟨e, he, hetype⟩ := Meaning.exists_select hm hget
        obtain ⟨w', hw', hvalue'⟩ := Meaning.value?_select hvalue he
        rw [he, ← hetype, ← Meaning.returned_ok hvalue']
        simp [Operation.apply, soleInput, hw']

/-- `D(C(r))` is the composition of `D` and `C`, called on `r`. -/
theorem calledComposition_same {b : Term} {outer inner : CompiledUnit} {a : Option Term}
    (ht : (Term.call (.compiled outer) (some b)).Typed Γ) (hb : b.calledGraph? = some (inner, a)) :
    ∃ u, calledComposition.rewrite? (.call (.compiled outer) (some b)) =
        .ok (some (.call (.compiled u) a)) ∧
      SameMeaning Γ (.call (.compiled outer) (some b)) (.call (.compiled u) a) := by
  obtain ⟨rfl, -⟩ := calledGraph?_eq_some hb
  obtain ⟨houter, hcall, hparameter⟩ := typed_callCompiled.mp ht
  obtain ⟨hinner, ha, hp⟩ := typed_callCompiled.mp hcall
  rw [Option.map_some, type_callCompiled] at hparameter
  obtain ⟨g, hg, hbuilt, hrun⟩ := Graph.compose_spec houter hinner hparameter
  obtain ⟨u, hu, rfl⟩ := callGraph_spec hbuilt hp.symm
  refine ⟨u, ?_, ⟨?_, ?_⟩, fun I env henv => ?_⟩
  · simp only [rewrite?, hb, loadUnit_eq houter, loadUnit_eq hinner, ok_bind, hg, Except.mapError,
      hu, pure_eq_ok]
  · exact typed_callCompiled.mpr ⟨hbuilt.built, ha, hbuilt.parameter_eq.trans hp⟩
  · rw [type_callCompiled, type_callCompiled, hbuilt.result_eq]
  · rw [eval_callCompiled_congr hinner ha hp hbuilt.built (hbuilt.parameter_eq.trans hp) henv
      (k := fun m => (Meaning.ofGraph outer.graph).apply (some m))]
    · rw [eval_callCompiled I env outer, evalArgument]
      cases eval I env (.call (.compiled inner) a) <;> rfl
    · intro v hv
      rw [hrun v hv, hbuilt.result_eq]
      rcases Meaning.returned_resultOn hinner.sound hv with
        ⟨e, he, hreturned⟩ | ⟨w, m, hw, -, hreturned, hm, hvalue⟩
      · rw [hreturned, he]
        rfl
      · rw [hreturned, hw, ok_bind, ok_bind]
        refine (Meaning.apply_ofGraph houter.sound ?_ ?_).symm
        · rw [Option.map_some, hm, hparameter]
        · rw [Meaning.argument?, hvalue]
          rfl

theorem replicatedReference?_eq_some {es : List (Label × Term)} {b : Term}
    (h : replicatedReference? es = some b) :
    ∃ x type, b = .reference x type ∧ (∃ label es', es = (label, .reference x type) :: es') ∧
      ∀ e ∈ es, ∃ type', e.2 = .reference x type' := by
  unfold replicatedReference? at h
  split at h
  · rename_i label x type es
    dsimp only at h
    split at h
    · rename_i hall
      cases h
      refine ⟨x, type, rfl, ⟨label, es, rfl⟩, fun e he => ?_⟩
      have hsame := List.all_eq_true.mp hall e he
      split at hsame
      · rename_i y type' hy
        rw [beq_iff_eq] at hsame
        exact ⟨type', by rw [hy, hsame]⟩
      · cases hsame
    · cases h
  · cases h

/-- Elements that all refer to one name have its type. -/
theorem elementTypes_of_references {x : String} {type : Ty} (hx : Γ x = some type)
    {es : List (Label × Term)} (ht : (Term.struct es).Typed Γ)
    (hes : ∀ e ∈ es, ∃ type', e.2 = .reference x type') :
    elementTypes es = es.map fun e => (e.1, type) := by
  rw [elementTypes_eq_map]
  refine List.map_congr_left fun e he => ?_
  obtain ⟨type', heq⟩ := hes e he
  have hte := typed_struct.mp ht e he
  rw [heq, Typed, hx, Option.some.injEq] at hte
  rw [heq, Term.type, hte]

theorem evalElements_of_references {x : String} {env : Env} {m : Meaning} (hx : env x = some m)
    {es : List (Label × Term)} (hes : ∀ e ∈ es, ∃ type', e.2 = .reference x type') :
    evalElements I env es = .ok (es.map fun e => (e.1, m)) := by
  induction es with
  | nil => rfl
  | cons e es ih =>
    obtain ⟨n, t⟩ := e
    obtain ⟨⟨type', ht'⟩, hrest⟩ := List.forall_mem_cons.mp hes
    simp only at ht'
    subst ht'
    rw [evalElements, eval_reference hx, ih hrest]
    rfl

/-- A struct of references to one name stands for copies of what the name stands for. -/
theorem eval_references {x : String} {env : Env} {m : Meaning} {v : Value} (hx : env x = some m)
    (hv : m.value? = some v) {es : List (Label × Term)}
    (hes : ∀ e ∈ es, ∃ type', e.2 = .reference x type') :
    ∃ s, (∀ I, eval I env (.struct es) = .ok s) ∧
      s.type = .struct (es.map fun e => (e.1, m.type)) ∧
      s.value? = some (.struct (es.map fun e => (e.1, v))) := by
  refine ⟨.struct (es.map fun e => (e.1, m)), fun I => ?_, ?_, ?_⟩
  · simp only [eval, evalElements_of_references hx hes, ok_bind, pure_eq_ok]
  · rw [Meaning.struct_type, List.map_map]
    rfl
  · refine Meaning.value?_struct.mpr ⟨_, rfl, ?_⟩
    rw [List.forall₂_map_left_iff, List.forall₂_map_right_iff, List.forall₂_same]
    exact fun e _ => ⟨rfl, hv⟩

/-- `C(<n_0=x, n_1=x, ...>)` is `C` after copies of its argument, called on `x`. -/
theorem calledGraphOnReplicatedArg_same {u : CompiledUnit} {es : List (Label × Term)} {b : Term}
    (ht : (Term.call (.compiled u) (some (.struct es))).Typed Γ)
    (hb : replicatedReference? es = some b) :
    ∃ u', calledGraphOnReplicatedArg.rewrite? (.call (.compiled u) (some (.struct es))) =
        .ok (some (.call (.compiled u') (some b))) ∧
      SameMeaning Γ (.call (.compiled u) (some (.struct es))) (.call (.compiled u') (some b)) := by
  obtain ⟨x, type, rfl, ⟨label, es', hhead⟩, hes⟩ := replicatedReference?_eq_some hb
  obtain ⟨hu, hstruct, hp⟩ := typed_callCompiled.mp ht
  rw [ArgumentTyped] at hstruct
  have hx : Γ x = some type := by
    have h := typed_struct.mp hstruct (label, .reference x type) (by simp [hhead])
    rwa [Typed] at h
  have htypes := elementTypes_of_references hx hstruct hes
  rw [Option.map_some, Term.type, htypes] at hp
  have hdata : type.isData = true := by
    have h := (Ty.isData_struct _).mp (hu.sound.parameter_isData hp) (label, type)
    exact h (by simp [hhead])
  obtain ⟨copies, hcopies, hcbuilt, hcrun⟩ := Graph.replicate_spec hdata (es.map (·.1))
  have hfit : u.graph.parameter = some copies.result := by
    rw [hp, hcbuilt.result_eq, List.map_map]
    rfl
  obtain ⟨g, hg, hbuilt, hrun⟩ := Graph.compose_spec hu hcbuilt.built hfit
  rw [hcbuilt.parameter_eq] at hbuilt hrun
  obtain ⟨u', hu', rfl⟩ := callGraph_spec (a := some (.reference x type)) hbuilt
    (by rw [Option.map_some, Term.type])
  have ha : ArgumentTyped Γ (some (.reference x type)) := by
    rw [ArgumentTyped, Typed, hx]
  have hp' : u'.graph.parameter = (some (Term.reference x type)).map Term.type := by
    rw [hbuilt.parameter_eq, Option.map_some, Term.type]
  refine ⟨u', ?_, ⟨typed_callCompiled.mpr ⟨hbuilt.built, ha, hp'⟩, ?_⟩, fun I env henv => ?_⟩
  · have hshared : (Term.reference x type).type = type := by rw [Term.type]
    simp only [rewrite?, hb, hshared, hcopies, loadUnit_eq hu, ok_bind, hg, Except.mapError, hu',
      pure_eq_ok]
  · rw [type_callCompiled, type_callCompiled, hbuilt.result_eq]
  · obtain ⟨m, hm, hmtype⟩ := henv x type hx
    obtain ⟨v, hv⟩ := m.exists_value? (by rw [hmtype]; exact hdata)
    have hvtype : v.HasType type := hmtype ▸ Meaning.hasType_of_value? hv
    obtain ⟨copied, heval, hctype, hcvalue⟩ := eval_references hm hv hes
    rw [hmtype] at hctype
    rw [eval_callCompiled, eval_callCompiled, evalArgument, evalArgument, eval_reference hm,
      heval I, ok_map, ok_bind, ok_map, ok_bind,
      Meaning.apply_ofGraph hbuilt.built.sound (by rw [hp', Option.map_some, hmtype]; rfl)
        (v := some v) (by rw [Meaning.argument?, hv]; rfl),
      Meaning.apply_ofGraph hu.sound (by rw [hp, Option.map_some, hctype])
        (v := some (.struct (es.map fun e => (e.1, v))))
        (by rw [Meaning.argument?, hcvalue]; rfl),
      hrun (some v) (.some hvtype), hcrun v hvtype, hbuilt.result_eq, ok_bind, List.map_map]
    rfl

/-- What a reference to data stands for, as a host value. -/
def referenceValue (env : Env) : Term → Value
  | .reference x _ => ((env x).bind Meaning.value?).getD default
  | _ => default

theorem exists_referenceValue {b : Term} {env : Env} (hb : ∃ x type, b = .reference x type)
    (ht : b.Typed Γ) (hdata : b.type.isData = true) (henv : env.Fits Γ) :
    ∃ m, (∀ I, eval I env b = .ok m) ∧ m.type = b.type ∧
      m.value? = some (referenceValue env b) := by
  obtain ⟨x, type, rfl⟩ := hb
  rw [Typed] at ht
  rw [Term.type] at hdata ⊢
  obtain ⟨m, hm, rfl⟩ := henv x type ht
  obtain ⟨v, hv⟩ := m.exists_value? hdata
  refine ⟨m, fun I => eval_reference hm, rfl, ?_⟩
  rw [referenceValue, hm, Option.bind_some, hv]
  rfl

/-- A labelled graph with an argument that it can be called on. -/
structure Callable (Γ : Context) (part : Label × Graph × Option Term) : Prop where
  built : part.2.1.Built
  typed : ArgumentTyped Γ part.2.2
  parameter : part.2.1.parameter = part.2.2.map type
  reference : ∀ b ∈ part.2.2, ∃ x type, b = .reference x type

theorem Callable.argument_isData {label : Label} {g : Graph} {b : Term}
    (h : Callable Γ (label, g, some b)) : b.type.isData = true :=
  h.built.sound.parameter_isData h.parameter

theorem Callable.hasType {label : Label} {g : Graph} {b : Term} {env : Env}
    (h : Callable Γ (label, g, some b)) (henv : env.Fits Γ) :
    (referenceValue env b).HasType b.type := by
  obtain ⟨m, -, hm, hv⟩ :=
    exists_referenceValue (h.reference b rfl) h.typed h.argument_isData henv
  exact hm ▸ Meaning.hasType_of_value? hv

/-- The values that the arguments of called graphs stand for. -/
def argumentValues (env : Env) (parts : List (Label × Graph × Option Term)) :
    List (Option Value) :=
  parts.map fun part => part.2.2.map (referenceValue env)

theorem Callable.fits {part : Label × Graph × Option Term} {env : Env} (h : Callable Γ part)
    (henv : env.Fits Γ) :
    ∃ m, (∀ I, evalArgument I env part.2.2 = .ok m) ∧ m.map (·.type) = part.2.1.parameter ∧
      Meaning.argument? m = some (part.2.2.map (referenceValue env)) ∧
        Graph.ArgumentFits part.2.1.parameter (part.2.2.map (referenceValue env)) := by
  obtain ⟨label, g, a⟩ := part
  have hp := h.parameter
  simp only at hp ⊢
  rw [hp]
  cases a with
  | none => exact ⟨none, fun _ => rfl, rfl, rfl, .none⟩
  | some b =>
    obtain ⟨m, hm, htype, hvalue⟩ :=
      exists_referenceValue (h.reference b rfl) h.typed h.argument_isData henv
    refine ⟨some m, fun I => ?_, congrArg some htype, ?_, .some (h.hasType henv)⟩
    · rw [evalArgument, hm I]
      rfl
    · rw [Meaning.argument?, hvalue]
      rfl

/-- Elements of a struct that are called graphs, taken apart. -/
def Parted (es : List (Label × Term)) (parts : List (Label × Graph × Option Term)) : Prop :=
  List.Forall₂ (fun e part => ∃ u, e.2.calledGraph? = some (u, part.2.2) ∧ part.1 = e.1 ∧
    part.2.1 = u.graph) es parts

theorem calledElements_spec {es : List (Label × Term)} (ht : ElementsTyped Γ es) :
    (calledElements es = .ok none ∧ ∃ e ∈ es, e.2.calledGraph? = none) ∨
      ∃ parts, calledElements es = .ok (some parts) ∧ Parted es parts := by
  induction es with
  | nil => exact .inr ⟨[], rfl, .nil⟩
  | cons e es ih =>
    obtain ⟨n, t⟩ := e
    rw [ElementsTyped] at ht
    rw [calledElements]
    cases hcalled : t.calledGraph? with
    | none => exact .inl ⟨rfl, (n, t), List.mem_cons_self, hcalled⟩
    | some called =>
      obtain ⟨u, a⟩ := called
      simp only [loadUnit_eq (typed_called ht.1 hcalled).1, ok_bind]
      rcases ih ht.2 with ⟨hnone, e, he, hecalled⟩ | ⟨parts, hparts, hparted⟩
      · exact .inl ⟨by rw [hnone]; rfl, e, List.mem_cons_of_mem _ he, hecalled⟩
      · exact .inr ⟨_, by rw [hparts]; rfl, .cons ⟨u, hcalled, rfl, rfl⟩ hparted⟩

theorem Parted.callable {es : List (Label × Term)} {parts : List (Label × Graph × Option Term)}
    (h : Parted es parts) (ht : ElementsTyped Γ es) : ∀ part ∈ parts, Callable Γ part := by
  induction h with
  | nil => simp
  | @cons e part es parts hpart _ ih =>
    obtain ⟨n, t⟩ := e
    obtain ⟨label, g, a⟩ := part
    obtain ⟨u, hcalled, -, hg⟩ := hpart
    simp only at hcalled hg
    subst hg
    rw [ElementsTyped] at ht
    obtain ⟨hu, ha, hp⟩ := typed_called ht.1 hcalled
    exact List.forall_mem_cons.mpr
      ⟨⟨hu, ha, hp, (calledGraph?_eq_some hcalled).2⟩, ih ht.2⟩

/-- The graphs of called graphs. -/
def partGraphs (parts : List (Label × Graph × Option Term)) : List (Label × Graph) :=
  parts.map fun part => (part.1, part.2.1)

theorem forall₂_argumentValues {parts : List (Label × Graph × Option Term)} {env : Env}
    (h : ∀ part ∈ parts, Callable Γ part) (henv : env.Fits Γ) :
    List.Forall₂ (fun part a => part.2.Sound ∧ Graph.ArgumentFits part.2.parameter a)
      (partGraphs parts) (argumentValues env parts) := by
  rw [partGraphs, argumentValues, List.forall₂_map_left_iff, List.forall₂_map_right_iff,
    List.forall₂_same]
  intro part hmem
  obtain ⟨m, -, -, -, hfits⟩ := (h part hmem).fits henv
  exact ⟨(h part hmem).built.sound, hfits⟩

/-- A struct of called graphs gives the labelled results of the graphs. -/
theorem eval_parted {es : List (Label × Term)} {parts : List (Label × Graph × Option Term)}
    {env : Env} (h : Parted es parts) (ht : ElementsTyped Γ es) (henv : env.Fits Γ) :
    eval I env (.struct es) = Meaning.returned (.struct (Graph.resultTypes (partGraphs parts)))
      ((fun vs => .struct (((partGraphs parts).map (·.1)).zip vs)) <$>
        Graph.runEach (partGraphs parts) (argumentValues env parts)) := by
  induction h with
  | nil =>
    rw [eval_struct_nil]
    exact (Meaning.returned_ok (Meaning.value?_struct.mpr ⟨[], rfl, .nil⟩)).symm
  | @cons e part es parts hpart hrest ih =>
    have hcallable := Parted.callable (.cons hpart hrest) ht
    obtain ⟨hhead, htail⟩ := List.forall_mem_cons.mp hcallable
    obtain ⟨n, t⟩ := e
    obtain ⟨label, g, a⟩ := part
    obtain ⟨u, hcalled, hlabel, hg⟩ := hpart
    simp only at hcalled hlabel hg
    subst hlabel hg
    rw [ElementsTyped] at ht
    obtain ⟨m, hm, htype, hvalue, hfits⟩ := hhead.fits henv
    obtain ⟨rfl, -⟩ := calledGraph?_eq_some hcalled
    have heval : eval I env (.call (.compiled u) a) =
        Meaning.returned u.graph.result (u.graph.resultOn (a.map (referenceValue env))) := by
      rw [eval_callCompiled, hm I, ok_bind]
      exact Meaning.apply_ofGraph hhead.built.sound htype hvalue
    rw [eval_struct_cons, heval, ih ht.2]
    refine (Meaning.returned_cons ?_ ?_).symm
    · intro v hv
      exact hhead.built.sound.resultOn_hasType hfits hv
    · intro vs hvs
      exact Graph.hasType_of_runEach (forall₂_argumentValues htail henv) hvs

/-- The argument of the call that replaces a struct of called graphs. -/
def sharedArgument (parts : List (Label × Graph × Option Term)) : Option Term :=
  (parts.findSome? fun part => part.2.2).map fun shared =>
    .tuple (parts.map fun part => part.2.2.getD shared)

theorem fuseElements_eq (parts : List (Label × Graph × Option Term)) :
    fuseElements parts =
      (match parts.findSome? fun part => part.2.2 with
      | none => do
        let fused ← (Graph.concatenate (partGraphs parts)).mapError .graph
        callGraph fused none
      | some shared => do
        let lifted ← parts.mapM (shareArgument shared)
        let fused ← (Graph.concatenate (lifted.map (·.1))).mapError .graph
        callGraph fused (some (.tuple (lifted.map (·.2))))) := rfl

theorem fuseElements_closed {parts : List (Label × Graph × Option Term)} (hne : parts ≠ [])
    (hparts : ∀ part ∈ parts, Callable Γ part)
    (hnone : (parts.findSome? fun part => part.2.2) = none) :
    ∃ u, fuseElements parts = .ok (.call (.compiled u) none) ∧
      u.graph.BuiltAs none (.struct (Graph.resultTypes (partGraphs parts))) ∧
        ∀ (I : Interpretation) (env : Env), eval I env (.call (.compiled u) none) =
          Meaning.returned (.struct (Graph.resultTypes (partGraphs parts)))
            ((fun vs => .struct (((partGraphs parts).map (·.1)).zip vs)) <$>
              Graph.runEach (partGraphs parts) (argumentValues env parts)) := by
  have hnone' := List.findSome?_eq_none_iff.mp hnone
  have hgraphs : ∀ part ∈ partGraphs parts, part.2.Built ∧ part.2.parameter = none := by
    intro part hmem
    obtain ⟨p, hp, rfl⟩ := List.mem_map.mp hmem
    refine ⟨(hparts p hp).built, ?_⟩
    rw [(hparts p hp).parameter, hnone' p hp, Option.map_none]
  obtain ⟨g, hg, hbuilt, hrun⟩ := Graph.concatenate_spec_none
    (by simpa [partGraphs] using hne) hgraphs
  obtain ⟨u, hu, rfl⟩ := callGraph_spec (a := none) hbuilt rfl
  refine ⟨u, ?_, hbuilt, fun I env => ?_⟩
  · rw [fuseElements_eq, hnone]
    simp only [hg, Except.mapError, ok_bind, hu]
  · have hvalues : argumentValues env parts = (partGraphs parts).map fun _ => none := by
      rw [argumentValues, partGraphs, List.map_map]
      refine List.map_congr_left fun part hmem => ?_
      rw [hnone' part hmem]
      rfl
    rw [eval_callCompiled, evalArgument, ok_bind,
      Meaning.apply_ofGraph (a := none) hbuilt.built.sound hbuilt.parameter_eq.symm rfl, hrun,
      hvalues, hbuilt.result_eq]

/-- A part made to take an argument, with the argument it takes. -/
structure Lifted (Γ : Context) (shared : Term) (part : Label × Graph × Option Term)
    (lifted : (Label × Graph) × Term) : Prop where
  label : lifted.1.1 = part.1
  built : lifted.1.2.BuiltAs (some lifted.2.type) part.2.1.result
  typed : lifted.2.Typed Γ
  argument : lifted.2 = part.2.2.getD shared
  resultOn : ∀ v, v.HasType lifted.2.type →
    lifted.1.2.resultOn (some v) = part.2.1.resultOn (part.2.2.map fun _ => v)

theorem shareArgument_spec {shared : Term} {part : Label × Graph × Option Term}
    (hpart : Callable Γ part) (ht : shared.Typed Γ) (hdata : shared.type.isData = true) :
    ∃ lifted, shareArgument shared part = .ok lifted ∧ Lifted Γ shared part lifted := by
  obtain ⟨label, g, a⟩ := part
  cases a with
  | none =>
    obtain ⟨g', hg', hbuilt, hrun⟩ := Graph.ignoreParameter_spec hpart.built hpart.parameter hdata
    refine ⟨((label, g'), shared), ?_, rfl, hbuilt, ht, rfl, hrun⟩
    simp only [shareArgument, hg', Except.mapError, ok_bind, pure_eq_ok]
  | some b =>
    exact ⟨((label, g), b), rfl, rfl, ⟨hpart.built, hpart.parameter, rfl⟩, hpart.typed, rfl,
      fun _ _ => rfl⟩

theorem type_tuple (ts : List Term) : (Term.tuple ts).type = .tuple (ts.map Term.type) := by
  rw [Term.tuple, Term.type, Ty.tuple, elementTypes_eq_map, List.map_map, List.map_map]
  rfl

theorem evalElements_tuple {ts : List Term} {env : Env} (ht : ∀ t ∈ ts, t.Typed Γ)
    (hrefs : ∀ t ∈ ts, ∃ x type, t = .reference x type)
    (hdata : ∀ t ∈ ts, t.type.isData = true) (henv : env.Fits Γ) :
    ∃ ms, (∀ I, evalElements I env (ts.map fun t => (none, t)) = .ok ms) ∧
      Meaning.elementTypes ms = (ts.map Term.type).map (fun type => (none, type)) ∧
        List.Forall₂ (fun e f => e.1 = f.1 ∧ e.2.value? = some f.2) ms
          ((ts.map (referenceValue env)).map fun v => (none, v)) := by
  induction ts with
  | nil => exact ⟨[], fun _ => rfl, rfl, .nil⟩
  | cons t ts ih =>
    have ht' := List.forall_mem_cons.mp ht
    have hrefs' := List.forall_mem_cons.mp hrefs
    have hdata' := List.forall_mem_cons.mp hdata
    obtain ⟨m, hm, htype, hvalue⟩ := exists_referenceValue hrefs'.1 ht'.1 hdata'.1 henv
    obtain ⟨ms, hms, htypes, hvalues⟩ := ih ht'.2 hrefs'.2 hdata'.2
    refine ⟨(none, m) :: ms, fun I => ?_, ?_, .cons ⟨rfl, hvalue⟩ hvalues⟩
    · simp only [List.map_cons, evalElements, hm I, hms I, ok_bind, pure_eq_ok]
    · simp only [List.map_cons, Meaning.elementTypes, htype, htypes]

theorem eval_tuple {ts : List Term} {env : Env} (ht : ∀ t ∈ ts, t.Typed Γ)
    (hrefs : ∀ t ∈ ts, ∃ x type, t = .reference x type)
    (hdata : ∀ t ∈ ts, t.type.isData = true) (henv : env.Fits Γ) :
    ∃ s, (∀ I, eval I env (.tuple ts) = .ok s) ∧ s.type = (Term.tuple ts).type ∧
      s.value? = some (.struct ((ts.map (referenceValue env)).map fun v => (none, v))) := by
  obtain ⟨ms, hms, htypes, hvalues⟩ := evalElements_tuple ht hrefs hdata henv
  refine ⟨.struct ms, fun I => ?_, ?_, Meaning.value?_struct.mpr ⟨_, rfl, hvalues⟩⟩
  · rw [Term.tuple]
    simp only [eval, hms I, ok_bind, pure_eq_ok]
  · rw [type_tuple, Ty.tuple, ← htypes]
    rfl

theorem lifted_graphs {shared : Term} {parts : List (Label × Graph × Option Term)}
    {lifted : List ((Label × Graph) × Term)} (h : List.Forall₂ (Lifted Γ shared) parts lifted) :
    (lifted.map (·.1)).map (·.1) = (partGraphs parts).map (·.1) ∧
      Graph.resultTypes (lifted.map (·.1)) = Graph.resultTypes (partGraphs parts) ∧
      lifted.map (·.2) = parts.map fun part => part.2.2.getD shared := by
  induction h with
  | nil => exact ⟨rfl, rfl, rfl⟩
  | @cons part l parts lifted hlift _ ih =>
    obtain ⟨hlabels, htypes, harguments⟩ := ih
    rw [Graph.resultTypes, Graph.resultTypes, partGraphs] at htypes
    rw [partGraphs] at hlabels
    simp only [Graph.resultTypes, partGraphs, List.map_cons, hlabels, htypes, harguments,
      hlift.label, hlift.built.result_eq, hlift.argument, and_self]

theorem runEach_lifted {shared : Term} {parts : List (Label × Graph × Option Term)}
    {lifted : List ((Label × Graph) × Term)} {env : Env}
    (h : List.Forall₂ (Lifted Γ shared) parts lifted)
    (hvalues : ∀ l ∈ lifted, (referenceValue env l.2).HasType l.2.type) :
    Graph.runEach (lifted.map (·.1)) (((lifted.map (·.2)).map (referenceValue env)).map some) =
      Graph.runEach (partGraphs parts) (argumentValues env parts) := by
  induction h with
  | nil => rfl
  | @cons part l parts lifted hlift _ ih =>
    have hl := List.forall_mem_cons.mp hvalues
    have hargument : (part.2.2.map fun _ => referenceValue env l.2) =
        part.2.2.map (referenceValue env) := by
      cases hp : part.2.2 with
      | none => rfl
      | some b =>
        have heq := hlift.argument
        rw [hp, Option.getD_some] at heq
        rw [heq]
        rfl
    rw [partGraphs, argumentValues] at ih ⊢
    simp only [List.map_cons, Graph.runEach, hlift.resultOn _ hl.1, hargument, ih hl.2]

theorem Lifted.callable {shared : Term} {part : Label × Graph × Option Term}
    {l : (Label × Graph) × Term} (h : Lifted Γ shared part l) (hpart : Callable Γ part)
    (hshared : ∃ x type, shared = .reference x type) : Callable Γ (l.1.1, l.1.2, some l.2) where
  built := h.built.built
  typed := h.typed
  parameter := h.built.parameter_eq
  reference b hb := by
    cases hb
    rw [h.argument]
    cases hp : part.2.2 with
    | none => exact hshared
    | some c => exact hpart.reference c hp

/-- Graphs that can each be called, concatenated and called on the tuple of their
arguments, give the labelled results of the graphs. -/
theorem concatenate_called {calls : List ((Label × Graph) × Term)} (hne : calls ≠ [])
    (hcalls : ∀ l ∈ calls, Callable Γ (l.1.1, l.1.2, some l.2)) :
    ∃ u, Graph.concatenate (calls.map (·.1)) = .ok u.graph ∧
      callGraph u.graph (some (.tuple (calls.map (·.2)))) =
        .ok (.call (.compiled u) (some (.tuple (calls.map (·.2))))) ∧
      u.graph.BuiltAs (some (Term.tuple (calls.map (·.2))).type)
        (.struct (Graph.resultTypes (calls.map (·.1)))) ∧
      (Term.tuple (calls.map (·.2))).Typed Γ ∧
      ∀ (I : Interpretation) (env : Env), env.Fits Γ →
        eval I env (.call (.compiled u) (some (.tuple (calls.map (·.2))))) =
          Meaning.returned (.struct (Graph.resultTypes (calls.map (·.1))))
            ((fun vs => .struct (((calls.map (·.1)).map (·.1)).zip vs)) <$>
              Graph.runEach (calls.map (·.1))
                (((calls.map (·.2)).map (referenceValue env)).map some)) := by
  have harguments : ∀ {Q : Term → Prop}, (∀ l ∈ calls, Q l.2) → ∀ t ∈ calls.map (·.2), Q t := by
    intro Q h t ht
    obtain ⟨l, hl, rfl⟩ := List.mem_map.mp ht
    exact h l hl
  have htyped : ∀ t ∈ calls.map (·.2), t.Typed Γ := harguments fun l hl => (hcalls l hl).typed
  have hconcat : List.Forall₂ (fun part p => part.2.Built ∧ part.2.parameter = some p)
      (calls.map (·.1)) ((calls.map (·.2)).map Term.type) := by
    rw [List.map_map, List.forall₂_map_left_iff, List.forall₂_map_right_iff, List.forall₂_same]
    exact fun l hl => ⟨(hcalls l hl).built, (hcalls l hl).parameter⟩
  obtain ⟨g, hg, hbuilt, hrun⟩ := Graph.concatenate_spec_some (by simpa using hne) hconcat
  rw [← type_tuple] at hbuilt
  obtain ⟨u, hu, rfl⟩ := callGraph_spec (a := some (.tuple (calls.map (·.2)))) hbuilt rfl
  refine ⟨u, hg, hu, hbuilt, typed_struct.mpr fun e he => ?_, fun I env henv => ?_⟩
  · obtain ⟨t, ht, rfl⟩ := List.mem_map.mp he
    exact htyped t ht
  · obtain ⟨s, heval, htype, hvalue⟩ := eval_tuple htyped
      (harguments fun l hl => (hcalls l hl).reference l.2 rfl)
      (harguments fun l hl => (hcalls l hl).argument_isData) henv
    have hfits : List.Forall₂ Value.HasType ((calls.map (·.2)).map (referenceValue env))
        ((calls.map (·.2)).map Term.type) := by
      rw [List.forall₂_map_left_iff, List.forall₂_map_right_iff, List.forall₂_same]
      exact harguments fun l hl => (hcalls l hl).hasType henv
    rw [eval_callCompiled, evalArgument, heval I, ok_map, ok_bind,
      Meaning.apply_ofGraph (a := some s) hbuilt.built.sound
        (by rw [hbuilt.parameter_eq, Option.map_some, htype])
        (by rw [Meaning.argument?, hvalue]; rfl),
      hrun _ hfits, hbuilt.result_eq]

theorem fuseElements_open {parts : List (Label × Graph × Option Term)} {shared : Term}
    (hparts : ∀ part ∈ parts, Callable Γ part)
    (hshared : (parts.findSome? fun part => part.2.2) = some shared) :
    ∃ u, fuseElements parts = .ok (.call (.compiled u)
        (some (.tuple (parts.map fun part => part.2.2.getD shared)))) ∧
      u.graph.BuiltAs (some (Term.tuple (parts.map fun part => part.2.2.getD shared)).type)
        (.struct (Graph.resultTypes (partGraphs parts))) ∧
      (Term.tuple (parts.map fun part => part.2.2.getD shared)).Typed Γ ∧
      ∀ (I : Interpretation) (env : Env), env.Fits Γ → eval I env (.call (.compiled u)
          (some (.tuple (parts.map fun part => part.2.2.getD shared)))) =
        Meaning.returned (.struct (Graph.resultTypes (partGraphs parts)))
          ((fun vs => .struct (((partGraphs parts).map (·.1)).zip vs)) <$>
            Graph.runEach (partGraphs parts) (argumentValues env parts)) := by
  obtain ⟨⟨label, g, a⟩, hfirst, ha⟩ := List.exists_of_findSome?_eq_some hshared
  simp only at ha
  subst ha
  have hcallable := hparts _ hfirst
  obtain ⟨lifted, hlifted, hall⟩ := exists_mapM_eq_ok fun part hpart =>
    shareArgument_spec (hparts part hpart) hcallable.typed hcallable.argument_isData
  obtain ⟨hlabels, htypes, harguments⟩ := lifted_graphs hall
  have hcalls : ∀ l ∈ lifted, Callable Γ (l.1.1, l.1.2, some l.2) :=
    forall_of_forall₂ hall fun part l hmem hl =>
      hl.callable (hparts part hmem) (hcallable.reference shared rfl)
  have hne : lifted ≠ [] := by
    rintro rfl
    rw [List.forall₂_nil_right_iff] at hall
    rw [hall] at hfirst
    cases hfirst
  obtain ⟨u, hg, hu, hbuilt, htyped, heval⟩ := concatenate_called hne hcalls
  rw [htypes] at hbuilt
  rw [← harguments]
  refine ⟨u, ?_, hbuilt, htyped, fun I env henv => ?_⟩
  · rw [fuseElements_eq, hshared]
    simp only [hlifted, ok_bind, hg, Except.mapError, hu]
  · rw [heval I env henv, runEach_lifted hall fun l hl => (hcalls l hl).hasType henv, hlabels,
      htypes]

/-- `fuseElements` gives one call with the type and the outcomes of the struct. -/
theorem fuseElements_spec {parts : List (Label × Graph × Option Term)} (hne : parts ≠ [])
    (hparts : ∀ part ∈ parts, Callable Γ part) :
    ∃ u, fuseElements parts = .ok (.call (.compiled u) (sharedArgument parts)) ∧
      u.graph.BuiltAs ((sharedArgument parts).map Term.type)
        (.struct (Graph.resultTypes (partGraphs parts))) ∧
      ArgumentTyped Γ (sharedArgument parts) ∧
      ∀ (I : Interpretation) (env : Env), env.Fits Γ →
        eval I env (.call (.compiled u) (sharedArgument parts)) =
          Meaning.returned (.struct (Graph.resultTypes (partGraphs parts)))
            ((fun vs => .struct (((partGraphs parts).map (·.1)).zip vs)) <$>
              Graph.runEach (partGraphs parts) (argumentValues env parts)) := by
  rw [sharedArgument]
  cases hfind : parts.findSome? fun part => part.2.2 with
  | none =>
    obtain ⟨u, hu, hbuilt, heval⟩ := fuseElements_closed hne hparts hfind
    exact ⟨u, hu, hbuilt, trivial, fun I env _ => heval I env⟩
  | some shared =>
    obtain ⟨u, hu, hbuilt, htyped, heval⟩ := fuseElements_open hparts hfind
    exact ⟨u, hu, hbuilt, htyped, heval⟩

theorem Parted.resultTypes_eq {es : List (Label × Term)}
    {parts : List (Label × Graph × Option Term)} (h : Parted es parts) :
    Graph.resultTypes (partGraphs parts) = elementTypes es := by
  induction h with
  | nil => rfl
  | @cons e part es parts hpart _ ih =>
    obtain ⟨n, t⟩ := e
    obtain ⟨label, g, a⟩ := part
    obtain ⟨u, hcalled, hlabel, hg⟩ := hpart
    simp only at hcalled hlabel hg
    obtain ⟨rfl, -⟩ := calledGraph?_eq_some hcalled
    rw [Graph.resultTypes, partGraphs] at ih
    simp only [Graph.resultTypes, partGraphs, List.map_cons, ih, elementTypes, type_callCompiled,
      hlabel, hg]

/-- `<n_0=C_0(r_0), ...>` is the concatenation of the graphs, called on the struct
of their arguments. -/
theorem structOfCalledGraphs_same {es : List (Label × Term)} (ht : (Term.struct es).Typed Γ) :
    (structOfCalledGraphs.rewrite? (.struct es) = .ok none ∧
      ∃ e ∈ es, e.2.calledGraph? = none) ∨
    ∃ parts u, Parted es parts ∧ structOfCalledGraphs.rewrite? (.struct es) =
        .ok (some (.call (.compiled u) (sharedArgument parts))) ∧
      SameMeaning Γ (.struct es) (.call (.compiled u) (sharedArgument parts)) := by
  cases es with
  | nil =>
    obtain ⟨g, hg, hbuilt, hrun⟩ := Graph.emptyStruct_spec
    obtain ⟨u, hu, rfl⟩ := callGraph_spec (a := none) hbuilt rfl
    refine .inr ⟨[], u, .nil, ?_, ⟨?_, ?_⟩, fun I env _ => ?_⟩
    · simp only [rewrite?, hg, Except.mapError, ok_bind, hu, pure_eq_ok]
      rfl
    · exact typed_callCompiled.mpr ⟨hbuilt.built, trivial, hbuilt.parameter_eq⟩
    · rw [type_callCompiled, hbuilt.result_eq, Term.type, elementTypes]
    · rw [eval_struct_nil, eval_callCompiled]
      change (Meaning.ofGraph u.graph).apply none = _
      rw [Meaning.apply_ofGraph (a := none) hbuilt.built.sound hbuilt.parameter_eq.symm rfl, hrun,
        hbuilt.result_eq]
      exact Meaning.returned_ok (Meaning.value?_struct.mpr ⟨[], rfl, .nil⟩)
  | cons e es =>
    have helements : ElementsTyped Γ (e :: es) := by rwa [Typed] at ht
    rcases calledElements_spec helements with ⟨hnone, hex⟩ | ⟨parts, hparts, hparted⟩
    · refine .inl ⟨?_, hex⟩
      simp only [rewrite?, hnone, ok_bind, pure_eq_ok]
    · have hne : parts ≠ [] := by
        rintro rfl
        cases hparted
      obtain ⟨u, hu, hbuilt, htyped, heval⟩ :=
        fuseElements_spec hne (hparted.callable helements)
      refine .inr ⟨parts, u, hparted, ?_, ⟨?_, ?_⟩, fun I env henv => ?_⟩
      · simp only [rewrite?, hparts, ok_bind, hu, pure_eq_ok]
      · exact typed_callCompiled.mpr ⟨hbuilt.built, htyped, hbuilt.parameter_eq⟩
      · rw [type_callCompiled, hbuilt.result_eq, Term.type, hparted.resultTypes_eq]
      · rw [heval I env henv, eval_parted hparted helements henv]

/-- What a pattern may answer at a typed node: a term with the same meaning, no
match, or an error of the graph it would have made. -/
def Justified (Γ : Context) (t : Term)
    (answer : Except CompileError (Option Term)) : Prop :=
  (∀ t', answer = .ok (some t') → SameMeaning Γ t t') ∧
    ∀ e, answer = .error e → ∃ g, e = .graph g

theorem justified_none {t : Term} : Justified Γ t (.ok none) := by
  constructor
  · intro t' h
    cases h
  · intro e h
    cases h

theorem justified_some {t t' : Term} (h : SameMeaning Γ t t') :
    Justified Γ t (.ok (some t')) := by
  constructor
  · intro t'' heq
    cases heq
    exact h
  · intro e heq
    cases heq

theorem justified_error {t : Term} {e : CompileError} (h : ∃ g, e = .graph g) :
    Justified Γ t (.error e) := by
  constructor
  · intro t' heq
    cases heq
  · intro e' heq
    cases heq
    exact h

theorem lambdaWrappingGraph_justified {t : Term} (ht : t.Typed Γ) :
    Justified Γ t (lambdaWrappingGraph.rewrite? t) := by
  cases t with
  | lambda x p r =>
    cases p with
    | none => exact justified_none
    | some p =>
      simp only [rewrite?]
      split
      · rename_i u y type hr
        split
        · rename_i hxy
          subst hxy
          exact justified_some (lambdaWrappingGraph_same ht hr)
        · exact justified_none
      · exact justified_none
  | _ => exact justified_none

theorem structOfCalledGraphs_justified {t : Term} (ht : t.Typed Γ) :
    Justified Γ t (structOfCalledGraphs.rewrite? t) := by
  cases t with
  | struct es =>
    rcases structOfCalledGraphs_same ht with ⟨hnone, -⟩ | ⟨parts, u, -, hsome, hsame⟩
    · rw [hnone]
      exact justified_none
    · rw [hsome]
      exact justified_some hsame
  | _ => exact justified_none

theorem selectionFromCalledGraph_justified {t : Term} (ht : t.Typed Γ) :
    Justified Γ t (selectionFromCalledGraph.rewrite? t) := by
  cases t with
  | selection s index =>
    cases hs : s.calledGraph? with
    | none =>
      simp only [rewrite?, hs]
      exact justified_none
    | some called =>
      obtain ⟨u, a⟩ := called
      obtain ⟨u', hsome, hsame⟩ := selectionFromCalledGraph_same ht hs
      rw [hsome]
      exact justified_some hsame
  | _ => exact justified_none

theorem calledComposition_justified {t : Term} (ht : t.Typed Γ) :
    Justified Γ t (calledComposition.rewrite? t) := by
  cases t with
  | call f a =>
    cases a with
    | none => cases f <;> exact justified_none
    | some b =>
      cases f with
      | compiled outer =>
        cases hb : b.calledGraph? with
        | none =>
          simp only [rewrite?, hb]
          exact justified_none
        | some called =>
          obtain ⟨inner, a⟩ := called
          obtain ⟨u, hsome, hsame⟩ := calledComposition_same ht hb
          rw [hsome]
          exact justified_some hsame
      | _ => exact justified_none
  | _ => exact justified_none

theorem calledGraphOnReplicatedArg_justified {t : Term} (ht : t.Typed Γ) :
    Justified Γ t (calledGraphOnReplicatedArg.rewrite? t) := by
  cases t with
  | call f a =>
    cases a with
    | none => cases f <;> exact justified_none
    | some b =>
      cases f with
      | compiled u =>
        cases b with
        | struct es =>
          cases hb : replicatedReference? es with
          | none =>
            simp only [rewrite?, hb]
            exact justified_none
          | some shared =>
            obtain ⟨u', hsome, hsame⟩ := calledGraphOnReplicatedArg_same ht hb
            rw [hsome]
            exact justified_some hsame
        | _ => exact justified_none
      | _ => cases b <;> exact justified_none
  | _ => exact justified_none

theorem lambdaWrappingNoArgGraph_justified {t : Term} (ht : t.Typed Γ) :
    Justified Γ t (lambdaWrappingNoArgGraph.rewrite? t) := by
  cases t with
  | lambda x p r =>
    cases hr : r.calledGraph? with
    | none =>
      simp only [rewrite?, hr]
      exact justified_none
    | some called =>
      obtain ⟨u, a⟩ := called
      cases a with
      | some b =>
        simp only [rewrite?, hr]
        exact justified_none
      | none =>
        cases p with
        | none =>
          simp only [rewrite?, hr]
          exact justified_some (lambdaWrappingNoArgGraph_same_none ht hr)
        | some p =>
          cases hdata : p.isData with
          | true =>
            obtain ⟨u', hsome, hsame⟩ := lambdaWrappingNoArgGraph_same_some ht hr hdata
            rw [hsome]
            exact justified_some hsame
          | false =>
            rw [lambdaWrappingNoArgGraph_error ht hr hdata]
            exact justified_error ⟨_, rfl⟩
  | _ => exact justified_none

theorem rewrite?_justified (p : Pattern) {t : Term} (ht : t.Typed Γ) :
    Justified Γ t (p.rewrite? t) := by
  cases p with
  | lambdaWrappingGraph => exact lambdaWrappingGraph_justified ht
  | structOfCalledGraphs => exact structOfCalledGraphs_justified ht
  | selectionFromCalledGraph => exact selectionFromCalledGraph_justified ht
  | calledComposition => exact calledComposition_justified ht
  | calledGraphOnReplicatedArg => exact calledGraphOnReplicatedArg_justified ht
  | lambdaWrappingNoArgGraph => exact lambdaWrappingNoArgGraph_justified ht

theorem firstMatch?_justified {t : Term} (ht : t.Typed Γ) (ps : List Pattern) :
    Justified Γ t ((fun found => found.map Prod.snd) <$> firstMatch? t ps) := by
  induction ps with
  | nil => exact justified_none
  | cons p ps ih =>
    have hp := rewrite?_justified p ht
    rw [firstMatch?]
    cases hanswer : p.rewrite? t with
    | error e =>
      rw [hanswer] at hp
      exact justified_error (hp.2 e rfl)
    | ok found =>
      rw [hanswer] at hp
      cases found with
      | none => exact ih
      | some t' => exact hp

end Pattern

end GraphFusion
