import GraphFusion.Proofs.Graph.Compose

/-!
Composed graphs as functions of the argument they are executed on, which need
not fit. A graph that fits its argument as another does, and computes the rest
from what that one returns, executes to the same: so composing is composition,
and every other operation on graphs has a reference function on values.
-/

namespace GraphFusion

/-- A scalar integer. -/
def Value.int32 (n : Int32) : Value := .tensor ⟨[], .int32 [n]⟩

namespace Graph

theorem bindArgument_congr {g h : Graph} (hp : h.parameter = g.parameter) (a : Option Value) :
    h.bindArgument a = g.bindArgument a := by
  simp only [bindArgument, hp]

/-- Graphs with one parameter that agree up to a continuation on arguments that
fit agree so on all: neither looks at an argument before it is bound. -/
theorem execute_bind {g h : Graph} (hg : g.Sound) (hh : h.Sound) (hp : h.parameter = g.parameter)
    {next : Value → Except ExecutionError Value}
    (hrun : ∀ a, ArgumentFits g.parameter a → h.resultOn a = g.resultOn a >>= next)
    (a : Option Value) : h.execute a = g.execute a >>= next := by
  rw [hh.execute_eq, hg.execute_eq, bindArgument_congr hp]
  cases hbind : g.bindArgument a with
  | error e => rfl
  | ok bound =>
    rw [ok_bind, ok_bind]
    exact hrun bound (argumentFits_of_bindArgument hbind)

/-- Executing a composed graph on any argument, or on none, is executing the inner
graph and then the outer one on its result, failures included. -/
theorem execute_compose {outer inner : Graph} (houter : outer.Built) (hinner : inner.Built)
    (h : outer.parameter = some inner.result) :
    ∃ g, outer.compose inner = .ok g ∧ g.Built ∧
      ∀ a, g.execute a = inner.execute a >>= fun v => outer.execute (some v) := by
  obtain ⟨g, hg, hbuilt, hrun⟩ := compose_spec houter hinner h
  refine ⟨g, hg, hbuilt.built, ?_⟩
  refine execute_bind hinner.sound hbuilt.built.sound hbuilt.parameter_eq fun a ha => ?_
  rw [hrun a ha]
  cases hv : inner.resultOn a with
  | error e => rfl
  | ok v =>
    -- the second execution checks and relabels a value that already has its names
    have hfits : ArgumentFits outer.parameter (some v) := by
      rw [h]
      exact .some (hinner.sound.resultOn_hasType ha hv)
    rw [ok_bind, ok_bind, houter.sound.execute_of_fits hfits]

/-- The inner graph divides the elements of a pair, drops the quotient and returns the
first; the outer one negates it. By zero the composition fails as the inner graph does. -/
theorem execute_compose_unusedQuotient :
    ∃ outer inner g : Graph,
      ofSteps (some (.struct [(some "first", .scalar .int32)]))
        [.select 0 0, .unary .neg 1] 2 = .ok outer ∧
      ofSteps (some (.struct [(some "x", .scalar .int32), (some "y", .scalar .int32)]))
        [.select 0 0, .select 0 1, .binary .div 1 2, .pack [(some "first", 1)]] 4 = .ok inner ∧
      outer.compose inner = .ok g ∧
      g.execute (some (.struct [(none, .int32 6), (none, .int32 0)])) =
        .error (.fault .divisionByZero) ∧
      g.execute (some (.struct [(none, .int32 6), (none, .int32 2)])) = .ok (.int32 (-6)) := by
  have houter : ∃ g, ofSteps (some (.struct [(some "first", .scalar .int32)]))
      [.select 0 0, .unary .neg 1] 2 = .ok g ∧
      g.parameter = some (.struct [(some "first", .scalar .int32)]) ∧
      g.execute (some (.struct [(some "first", .int32 6)])) = .ok (.int32 (-6)) :=
    ⟨_, rfl, rfl, rfl⟩
  have hinner : ∃ g, ofSteps
      (some (.struct [(some "x", .scalar .int32), (some "y", .scalar .int32)]))
      [.select 0 0, .select 0 1, .binary .div 1 2, .pack [(some "first", 1)]] 4 = .ok g ∧
      g.result = .struct [(some "first", .scalar .int32)] ∧
      g.execute (some (.struct [(none, .int32 6), (none, .int32 0)])) =
        .error (.fault .divisionByZero) ∧
      g.execute (some (.struct [(none, .int32 6), (none, .int32 2)])) =
        .ok (.struct [(some "first", .int32 6)]) := ⟨_, rfl, rfl, rfl, rfl⟩
  obtain ⟨outer, hosteps, hparameter, hneg⟩ := houter
  obtain ⟨inner, histeps, hresult, hzero, htwo⟩ := hinner
  obtain ⟨g, hg, -, hrun⟩ := execute_compose (.ofSteps (by simp) hosteps)
    (.ofSteps (by simp) histeps) (by rw [hparameter, hresult])
  refine ⟨outer, inner, g, hosteps, histeps, hg, ?_, ?_⟩
  · rw [hrun, hzero, error_bind]
  · rw [hrun, htwo, ok_bind, hneg]

/-- Executes graphs from left to right, each on an argument of its own, up to the first
that fails. -/
def executeEach : List (Label × Graph) → List (Option Value) →
    Except ExecutionError (List (Label × Value))
  | (label, g) :: graphs, a :: arguments => do
    let v ← g.execute a
    return (label, v) :: (← executeEach graphs arguments)
  | _, _ => .ok []

/-- One more graph in front, executed on an argument that is bound to `b`. -/
theorem executeEach_cons {label : Label} {g : Graph} {graphs : List (Label × Graph)}
    {a b : Option Value} {arguments bound : List (Option Value)} (hg : g.execute a = g.resultOn b)
    (h : executeEach graphs arguments =
      (fun vs => (graphs.map (·.1)).zip vs) <$> runEach graphs bound) :
    executeEach ((label, g) :: graphs) (a :: arguments) =
      (fun vs => (((label, g) :: graphs).map (·.1)).zip vs) <$>
        runEach ((label, g) :: graphs) (b :: bound) := by
  rw [executeEach, runEach, h, hg]
  cases g.resultOn b with
  | error e => rfl
  | ok v =>
    simp only [ok_bind, pure_eq_ok]
    cases runEach graphs bound <;> rfl

theorem executeEach_none {graphs : List (Label × Graph)}
    (h : ∀ part ∈ graphs, part.2.Built ∧ part.2.parameter = none) :
    executeEach graphs (graphs.map fun _ => none) =
      (fun vs => (graphs.map (·.1)).zip vs) <$> runEach graphs (graphs.map fun _ => none) := by
  induction graphs with
  | nil => rfl
  | cons part graphs ih =>
    obtain ⟨hbuilt, hp⟩ := h part List.mem_cons_self
    exact executeEach_cons (hbuilt.sound.execute_none hp)
      (ih fun part hmem => h part (List.mem_cons_of_mem _ hmem))

theorem executeEach_some {graphs : List (Label × Graph)} {parameters : List Ty} {vs : List Value}
    (hgraphs : List.Forall₂ (fun part p => part.2.Built ∧ part.2.parameter = some p) graphs
      parameters)
    (hvs : List.Forall₂ (fun v p => v.conformsTo p = true) vs parameters) :
    executeEach graphs (vs.map some) = (fun ws => (graphs.map (·.1)).zip ws) <$>
      runEach graphs ((List.zipWith Value.withNamesOf vs parameters).map some) := by
  induction hgraphs generalizing vs with
  | nil => cases hvs; rfl
  | cons hpart _ ih =>
    cases hvs with
    | cons hv hrest =>
      exact executeEach_cons (hpart.1.sound.execute_of_conforms hpart.2 hv) (ih hrest)

theorem conformsTo_tuple {types : List Ty} {vs : List Value}
    (h : List.Forall₂ (fun v type => v.conformsTo type = true) vs types) :
    (Value.struct (vs.map fun v => (none, v))).conformsTo (.tuple types) = true := by
  rw [Ty.tuple, Value.conformsTo]
  induction h with
  | nil => rfl
  | cons hv _ ih => simp [Value.elementsConform, Value.labelFits, hv, ih]

/-- Relabelling a tuple relabels its elements. -/
theorem withNamesOf_tuple {types : List Ty} {vs : List Value} (h : vs.length = types.length) :
    (Value.struct (vs.map fun v => (none, v))).withNamesOf (.tuple types) =
      .struct ((List.zipWith Value.withNamesOf vs types).map fun v => (none, v)) := by
  have hlen : (vs.map fun v => ((none : Label), v)).length =
      (types.map fun type => ((none : Label), type)).length := by simpa using h
  rw [Ty.tuple, Value.withNamesOf, if_pos hlen]
  clear hlen
  induction vs generalizing types with
  | nil => simp [Value.relabelElements]
  | cons v vs ih =>
    cases types with
    | nil => simp at h
    | cons type types =>
      have hrest := @ih types (by simpa using h)
      simp only [Value.struct.injEq] at hrest
      simp [Value.relabelElements, hrest]

theorem hasTypes_withNamesOf {types : List Ty} {vs : List Value}
    (h : List.Forall₂ (fun v type => v.conformsTo type = true) vs types) :
    List.Forall₂ Value.HasType (List.zipWith Value.withNamesOf vs types) types := by
  induction h with
  | nil => exact .nil
  | cons hv _ ih => exact .cons (Value.hasType_withNamesOf hv) ih

theorem execute_concatenate_some {graphs : List (Label × Graph)} {parameters : List Ty}
    (hne : graphs ≠ [])
    (hgraphs : List.Forall₂ (fun part p => part.2.Built ∧ part.2.parameter = some p) graphs
      parameters) :
    ∃ g, concatenate graphs = .ok g ∧
      ∀ arguments, List.Forall₂ (fun a p => a.conformsTo p = true) arguments parameters →
        g.execute (some (.struct (arguments.map fun a => (none, a)))) =
          .struct <$> executeEach graphs (arguments.map some) := by
  obtain ⟨g, hg, hbuilt, hrun⟩ := concatenate_spec_some hne hgraphs
  refine ⟨g, hg, fun arguments harguments => ?_⟩
  have hbound := hasTypes_withNamesOf harguments
  rw [hbuilt.built.sound.execute_of_conforms hbuilt.parameter_eq (conformsTo_tuple harguments),
    withNamesOf_tuple harguments.length_eq, hrun _ hbound, executeEach_some hgraphs harguments]
  cases runEach graphs _ <;> rfl

theorem execute_concatenate_none {graphs : List (Label × Graph)} (hne : graphs ≠ [])
    (hgraphs : ∀ part ∈ graphs, part.2.Built ∧ part.2.parameter = none) :
    ∃ g, concatenate graphs = .ok g ∧
      g.execute none = .struct <$> executeEach graphs (graphs.map fun _ => none) := by
  obtain ⟨g, hg, hbuilt, hrun⟩ := concatenate_spec_none hne hgraphs
  refine ⟨g, hg, ?_⟩
  rw [hbuilt.built.sound.execute_none hbuilt.parameter_eq, hrun, executeEach_none hgraphs]
  cases runEach graphs _ <;> rfl

/-- Whatever the argument, projecting fails as the graph does or gives an element of
what it returns. -/
theorem execute_project {g : Graph} (hg : g.Built) {elements : List (Label × Ty)} {index : Nat}
    (hresult : g.result = .struct elements) (hindex : index < elements.length) :
    ∃ p, g.project index = .ok p ∧ ∀ a,
      (∀ e, g.execute a = .error e → p.execute a = .error e) ∧
      ∀ v, g.execute a = .ok v → ∃ w, v.element? index = some w ∧ p.execute a = .ok w := by
  obtain ⟨p, hp, hbuilt, hrun⟩ := project_spec hg hresult (List.getElem?_eq_getElem hindex)
  have hbind := execute_bind hg.sound hbuilt.built.sound hbuilt.parameter_eq hrun
  refine ⟨p, hp, fun a => ⟨fun e he => ?_, fun v hv => ?_⟩⟩
  · rw [hbind, he, error_bind]
  · have hstruct := hg.sound.execute_hasType hv
    rw [hresult] at hstruct
    obtain ⟨w, hw, -⟩ :=
      Value.exists_element_of_hasType hstruct (List.getElem?_eq_getElem hindex)
    refine ⟨w, hw, ?_⟩
    rw [hbind, hv, ok_bind, Operation.apply, soleInput, ok_bind, hw]

theorem execute_replicate {type : Ty} (h : type.isData = true) (labels : List Label) :
    ∃ g, replicate type labels = .ok g ∧ ∀ v, v.conformsTo type = true →
      g.execute (some v) = .ok (.struct (labels.map fun label => (label, v.withNamesOf type))) := by
  obtain ⟨g, hg, hbuilt, hrun⟩ := replicate_spec h labels
  refine ⟨g, hg, fun v hv => ?_⟩
  rw [hbuilt.built.sound.execute_of_conforms hbuilt.parameter_eq hv,
    hrun _ (Value.hasType_withNamesOf hv)]

theorem execute_ignoreParameter {g : Graph} (hg : g.Built) (hp : g.parameter = none) {type : Ty}
    (h : type.isData = true) :
    ∃ g', g.ignoreParameter type = .ok g' ∧ ∀ v, v.conformsTo type = true →
      g'.execute (some v) = g.execute none := by
  obtain ⟨g', hg', hbuilt, hrun⟩ := ignoreParameter_spec hg hp h
  refine ⟨g', hg', fun v hv => ?_⟩
  rw [hbuilt.built.sound.execute_of_conforms hbuilt.parameter_eq hv,
    hrun _ (Value.hasType_withNamesOf hv), hg.sound.execute_none hp]

/-- The other operations on built graphs compute their reference functions:
concatenation executes each graph on its element of the argument, or on nothing,
from left to right; projection takes an element of the result; replication copies
the argument, named as its type says; a parameter to ignore is ignored. -/
theorem execute_combinators :
    (∀ (graphs : List (Label × Graph)) (parameters : List Ty), graphs ≠ [] →
      List.Forall₂ (fun part p => part.2.Built ∧ part.2.parameter = some p) graphs parameters →
        ∃ c, concatenate graphs = .ok c ∧
          ∀ arguments, List.Forall₂ (fun a p => a.conformsTo p = true) arguments parameters →
            c.execute (some (.struct (arguments.map fun a => (none, a)))) =
              .struct <$> executeEach graphs (arguments.map some)) ∧
    (∀ graphs : List (Label × Graph), graphs ≠ [] →
      (∀ part ∈ graphs, part.2.Built ∧ part.2.parameter = none) →
        ∃ c, concatenate graphs = .ok c ∧
          c.execute none = .struct <$> executeEach graphs (graphs.map fun _ => none)) ∧
    (∀ (g : Graph) (elements : List (Label × Ty)) (index : Nat), g.Built →
      g.result = .struct elements → index < elements.length →
        ∃ p, g.project index = .ok p ∧ ∀ a,
          (∀ e, g.execute a = .error e → p.execute a = .error e) ∧
          ∀ v, g.execute a = .ok v → ∃ w, v.element? index = some w ∧ p.execute a = .ok w) ∧
    (∀ (type : Ty) (labels : List Label), type.isData = true →
      ∃ c, replicate type labels = .ok c ∧ ∀ v, v.conformsTo type = true →
        c.execute (some v) =
          .ok (.struct (labels.map fun label => (label, v.withNamesOf type)))) ∧
    (∀ (g : Graph) (type : Ty), g.Built → g.parameter = none → type.isData = true →
      ∃ c, g.ignoreParameter type = .ok c ∧ ∀ v, v.conformsTo type = true →
        c.execute (some v) = g.execute none) := by
  refine ⟨?_, ?_, ?_, ?_, ?_⟩
  · intro graphs parameters hne hgraphs
    exact execute_concatenate_some hne hgraphs
  · intro graphs hne hgraphs
    exact execute_concatenate_none hne hgraphs
  · intro g elements index hg hresult hindex
    exact execute_project hg hresult hindex
  · intro type labels h
    exact execute_replicate h labels
  · intro g type hg hp h
    exact execute_ignoreParameter hg hp h

/-- Negation twice side by side, a graph that returns `<x=3>` on nothing, alone and in
front of an ignored argument, and two copies of a pair. -/
theorem execute_combinators_scalars :
    ∃ negation three c n p r i : Graph,
      ofSteps (some (.scalar .int32)) [.unary .neg 0] 1 = .ok negation ∧
      ofSteps none [.constant ⟨[], .int32 [3]⟩, .pack [(some "x", 0)]] 1 = .ok three ∧
      concatenate [(some "a", negation), (none, negation)] = .ok c ∧
      c.execute (some (.struct [(none, .int32 3), (none, .int32 4)])) =
        .ok (.struct [(some "a", .int32 (-3)), (none, .int32 (-4))]) ∧
      concatenate [(none, three)] = .ok n ∧
      n.execute none = .ok (.struct [(none, .struct [(some "x", .int32 3)])]) ∧
      three.project 0 = .ok p ∧ p.execute none = .ok (.int32 3) ∧
      replicate (.scalar .int32) [some "n", none] = .ok r ∧
      r.execute (some (.int32 4)) = .ok (.struct [(some "n", .int32 4), (none, .int32 4)]) ∧
      three.ignoreParameter (.scalar .int32) = .ok i ∧
      i.execute (some (.int32 4)) = .ok (.struct [(some "x", .int32 3)]) := by
  have hnegation : ∃ g, ofSteps (some (.scalar .int32)) [.unary .neg 0] 1 = .ok g ∧
      g.parameter = some (.scalar .int32) ∧ g.execute (some (.int32 3)) = .ok (.int32 (-3)) ∧
      g.execute (some (.int32 4)) = .ok (.int32 (-4)) := ⟨_, rfl, rfl, rfl, rfl⟩
  have hthree : ∃ g, ofSteps none [.constant ⟨[], .int32 [3]⟩, .pack [(some "x", 0)]] 1 = .ok g ∧
      g.parameter = none ∧ g.result = .struct [(some "x", .scalar .int32)] ∧
      g.execute none = .ok (.struct [(some "x", .int32 3)]) := ⟨_, rfl, rfl, rfl, rfl⟩
  obtain ⟨negation, hnsteps, hnp, hn3, hn4⟩ := hnegation
  obtain ⟨three, htsteps, htp, htr, ht⟩ := hthree
  have hnbuilt : negation.Built := .ofSteps (by simp) hnsteps
  have htbuilt : three.Built := .ofSteps (by simp) htsteps
  obtain ⟨c, hc, hcrun⟩ := execute_combinators.1 [(some "a", negation), (none, negation)]
    [.scalar .int32, .scalar .int32] (by simp)
    (.cons ⟨hnbuilt, hnp⟩ (.cons ⟨hnbuilt, hnp⟩ .nil))
  obtain ⟨n, hn, hnrun⟩ := execute_combinators.2.1 [(none, three)] (by simp)
    (by simp [htbuilt, htp])
  obtain ⟨p, hp, hprun⟩ := execute_combinators.2.2.1 three _ 0 htbuilt htr (by simp)
  obtain ⟨r, hr, hrrun⟩ := execute_combinators.2.2.2.1 (.scalar .int32) [some "n", none] rfl
  obtain ⟨i, hi, hirun⟩ := execute_combinators.2.2.2.2 three (.scalar .int32) htbuilt htp rfl
  refine ⟨negation, three, c, n, p, r, i, hnsteps, htsteps, hc, ?_, hn, ?_, hp, ?_, hr, ?_, hi, ?_⟩
  · have hrun := hcrun [.int32 3, .int32 4] (.cons rfl (.cons rfl .nil))
    simp only [List.map_cons, List.map_nil, executeEach, hn3, hn4, ok_bind, pure_eq_ok,
      ok_map] at hrun
    exact hrun
  · simpa [executeEach, ht] using hnrun
  · obtain ⟨w, hw, hrun⟩ := (hprun none).2 _ ht
    cases hw
    exact hrun
  · exact hrrun (.int32 4) rfl
  · rw [hirun _ rfl, ht]

/-- Replication does not return the argument as it was passed when that leaves out a
name, and nothing cannot be concatenated. -/
theorem replicate_unnamed :
    ∃ c, replicate (.struct [(some "x", .scalar .int32)]) [some "n"] = .ok c ∧
      (Value.struct [(none, .int32 5)]).conformsTo (.struct [(some "x", .scalar .int32)]) ∧
      c.execute (some (.struct [(none, .int32 5)])) ≠
        .ok (.struct [(some "n", .struct [(none, .int32 5)])]) ∧
      concatenate [] = .error (.invalid .concatenateNothing) := by
  refine ⟨_, rfl, rfl, ?_, rfl⟩
  intro h
  have hrun : Except.ok (Value.struct [(some "n", .struct [(some "x", .int32 5)])]) = _ := h
  simp at hrun

end Graph

end GraphFusion
