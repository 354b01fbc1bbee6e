import GraphFusion.Proofs.Graph.Built
import GraphFusion.Proofs.Graph.Kernels
import GraphFusion.Proofs.Values.Leaves

/-!
Type soundness of built graphs. On operands of its types with as many elements as
their extents ask for, every operation gives a value of this kind or fails in one
of the ways that `Operation.Fault` lists, and so does a whole run. A graph built
from such constants, run on such an argument that conforms, therefore returns a
value of its result type with the names of that type, or the fault of one of its
own instructions. Of the argument this has to be asked: whether a value conforms
is decided by its extents, without a look at the number of its elements.
-/

namespace GraphFusion

namespace Value

/-- Every tensor inside has as many elements as its extents ask for. -/
def Sized (v : Value) : Prop := ∀ t ∈ v.leaves, t.Sized

theorem sized_tensor (t : Tensor) : (Value.tensor t).Sized ↔ t.Sized := by
  simp [Sized, leaves]

theorem mem_elementLeaves {t : Tensor} {es : List (Label × Value)} :
    t ∈ elementLeaves es ↔ ∃ e ∈ es, t ∈ e.2.leaves := by
  induction es with
  | nil => simp [elementLeaves]
  | cons e es ih => simp [elementLeaves, ih]

theorem sized_struct (es : List (Label × Value)) :
    (Value.struct es).Sized ↔ ∀ e ∈ es, e.2.Sized := by
  unfold Sized
  simp only [leaves, mem_elementLeaves]
  constructor
  · intro h e he t ht
    exact h t ⟨e, he, ht⟩
  · rintro h t ⟨e, he, ht⟩
    exact h e he t ht

/-- A vector of integers. -/
def vector (elements : List Int32) : Value := .tensor ⟨[elements.length], .int32 elements⟩

theorem sized_vector {elements : List Int32} (h : elements.length < UInt64.size) :
    (vector elements).Sized := by
  rw [vector, sized_tensor, Tensor.Sized, Tensor.capacity, TensorData.length]
  simp [Tensor.volume, Nat.mod_eq_of_lt h]

theorem Sized.element {v w : Value} {index : Nat} (hv : v.Sized)
    (h : v.element? index = some w) : w.Sized := by
  cases v with
  | tensor t => cases h
  | struct es =>
    rw [element?_struct] at h
    obtain ⟨e, he, rfl⟩ := Option.map_eq_some_iff.mp h
    exact (sized_struct es).mp hv e (List.mem_of_getElem? he)

theorem Sized.withNamesOf {v : Value} (h : v.Sized) (type : Ty) :
    (v.withNamesOf type).Sized := by
  unfold Sized
  rw [leaves_withNamesOf]
  exact h

end Value

namespace Operation

/-- A tensor that the operation returns whatever happens has as many elements as its extents
ask for. -/
def ConstantSized (op : Operation) : Prop := ∀ tensor, op = .constant tensor → tensor.Sized

theorem apply_outcome {op : Operation} {types : List Ty} {output : Ty} {inputs : List Value}
    (a : Option Value) (hop : op.HasType types output) (hconstant : op.ConstantSized)
    (hinputs : List.Forall₂ Value.HasType inputs types) (hsized : ∀ v ∈ inputs, v.Sized) :
    (∃ v, op.apply a inputs = .ok v ∧ v.Sized) ∨
      ∃ e, op.apply a inputs = .error e ∧ op.Fault types e := by
  cases hop with
  | constant tensor =>
    exact .inl ⟨_, rfl, (Value.sized_tensor tensor).mpr (hconstant tensor rfl)⟩
  | @select types index label type hindex =>
    obtain _ | ⟨hsource, hnil⟩ := hinputs
    obtain _ | _ := hnil
    obtain ⟨w, hw, -⟩ := Value.exists_element_of_hasType hsource hindex
    refine .inl ⟨w, ?_, (hsized _ List.mem_cons_self).element hw⟩
    simp only [apply, soleInput, ok_bind, hw]
  | @pack labels types hlen =>
    have hlen' : labels.length = inputs.length := hlen.trans hinputs.length_eq.symm
    refine .inl ⟨.struct (labels.zip inputs), by simp [apply, hlen'], ?_⟩
    refine (Value.sized_struct _).mpr fun e he => ?_
    exact hsized e.2 (List.of_mem_zip he).2
  | @binary op lhs rhs type htype =>
    obtain ⟨l, r, rfl, hl, hr⟩ := Value.exists_tensorPair_of_hasTypes hinputs
    have hlsized := (Value.sized_tensor l).mp (hsized _ (by simp))
    have hrsized := (Value.sized_tensor r).mp (hsized _ (by simp))
    simp only [apply, tensorInput, ok_bind]
    rcases Tensor.binary_outcome hl hr hlsized hrsized htype with ⟨t, ht, htf⟩ | ⟨e, he, hfault⟩
    · exact .inl ⟨.tensor t, by rw [ht]; rfl, (Value.sized_tensor t).mpr htf⟩
    · exact .inr ⟨e, by rw [he]; rfl, hfault⟩
  | @unary op type hdtype =>
    obtain ⟨t, rfl, ht⟩ := Value.exists_tensor_of_hasTypes hinputs
    have hdtype' : t.dtype ≠ .bool := by
      rw [((Tensor.conformsTo_iff t type).mp ht).1]
      exact hdtype
    obtain ⟨u, hu, huf⟩ := Tensor.unary_of_sized op hdtype'
      ((Value.sized_tensor t).mp (hsized _ (by simp)))
    refine .inl ⟨.tensor u, ?_, (Value.sized_tensor u).mpr huf⟩
    simp only [apply, soleInput, tensorInput, ok_bind, hu, pure_eq_ok]
  | @cast dtype type =>
    obtain ⟨t, rfl, -⟩ := Value.exists_tensor_of_hasTypes hinputs
    obtain ⟨u, hu, huf⟩ := Tensor.cast_of_sized dtype
      ((Value.sized_tensor t).mp (hsized _ (by simp)))
    refine .inl ⟨.tensor u, ?_, (Value.sized_tensor u).mpr huf⟩
    simp only [apply, soleInput, tensorInput, ok_bind, hu, pure_eq_ok]

end Operation

/-- How an instruction of a graph that defines values of the given types may fail. -/
def Instruction.Fault (types : List Ty) (i : Instruction) (e : ExecutionError) : Prop :=
  ∃ operands, List.Forall₂ (fun id type => types[id]? = some type) i.operands operands ∧
    i.op.Fault operands e

theorem mem_of_gather {values inputs : List Value} {ids : List ValueId}
    (h : gather values ids = .ok inputs) : ∀ v ∈ inputs, v ∈ values := by
  induction ids generalizing inputs with
  | nil =>
    cases h
    simp
  | cons id ids ih =>
    rw [gather] at h
    cases hv : values[id]? with
    | none =>
      rw [hv] at h
      cases h
    | some v =>
      rw [hv] at h
      cases hrest : gather values ids with
      | error e =>
        rw [hrest] at h
        cases h
      | ok rest =>
        rw [hrest] at h
        cases h
        intro w hw
        rcases List.mem_cons.mp hw with rfl | hw
        · exact List.mem_of_getElem? hv
        · exact ih hrest w hw

/-- Sized values of the announced types, or the fault of an instruction. -/
theorem evalCode_outcome {a : Option Value} {before : List Ty} {code : List Instruction}
    {values : List Value} (hcode : CodeTyped before code)
    (hconstants : ∀ i ∈ code, i.op.ConstantSized)
    (hvalues : List.Forall₂ Value.HasType values before) (hsized : ∀ v ∈ values, v.Sized) :
    (∃ result, evalCode a values code = .ok result ∧ ∀ v ∈ result, v.Sized) ∨
      ∃ e, evalCode a values code = .error e ∧
        ∃ i ∈ code, i.Fault (before ++ code.map (·.output)) e := by
  induction code generalizing before values with
  | nil => exact .inl ⟨values, rfl, hsized⟩
  | cons i code ih =>
    obtain ⟨⟨-, types, hops, hop⟩, hrest⟩ := hcode
    obtain ⟨inputs, hgather, hinputs⟩ := gather_of_typed hvalues hops
    have hinputsSized : ∀ v ∈ inputs, v.Sized := fun v hv =>
      hsized v (mem_of_gather hgather v hv)
    simp only [evalCode, hgather, ok_bind]
    rcases Operation.apply_outcome a hop (hconstants i (by simp)) hinputs hinputsSized with
      ⟨v, hv, hvsized⟩ | ⟨e, he, hfault⟩
    · have hnext : List.Forall₂ Value.HasType (values ++ [v]) (before ++ [i.output]) :=
        List.rel_append hvalues (.cons (Operation.hasType_of_apply hop hinputs hv) .nil)
      have hnextSized : ∀ w ∈ values ++ [v], w.Sized := by
        simpa [or_imp, forall_and] using ⟨hsized, hvsized⟩
      rw [hv, ok_bind]
      rcases ih hrest (fun j hj => hconstants j (by simp [hj])) hnext hnextSized with
        hok | ⟨e, he, j, hj, hfault⟩
      · exact .inl hok
      · refine .inr ⟨e, he, j, by simp [hj], ?_⟩
        simpa using hfault
    · rw [he, error_bind]
      refine .inr ⟨e, rfl, i, by simp, types, hops.imp fun id type hid => ?_, hfault⟩
      rw [List.getElem?_append_left (List.getElem?_eq_some_iff.mp hid).1, hid]

/-- Graphs that a script builds from sized constants, inlining such graphs only. -/
inductive Graph.WellBuilt : Graph → Prop
  | ofSteps {p : Option Ty} {steps : List BuildStep} {id : ValueId} {g : Graph} :
      (∀ tensor, .constant tensor ∈ steps → tensor.Sized) →
        (∀ h argument, .inline h argument ∈ steps → WellBuilt h) →
          Graph.ofSteps p steps id = .ok g → WellBuilt g

theorem Graph.WellBuilt.built {g : Graph} (h : g.WellBuilt) : g.Built := by
  induction h with
  | ofSteps _ _ hrun ih => exact .ofSteps ih hrun

namespace Builder

/-- Every constant emitted so far has as many elements as its extents ask for. -/
def ConstantsSized (b : Builder) : Prop := ∀ i ∈ b.body, i.op.ConstantSized

theorem constantsSized_start (p : Option Ty) : (start p).ConstantsSized := by
  intro i hi tensor htensor
  cases p with
  | none => cases hi
  | some type =>
    rw [List.mem_singleton.mp hi] at htensor
    cases htensor

theorem ConstantsSized.append {b : Builder} (hb : b.ConstantsSized) {code : List Instruction}
    (hcode : ∀ i ∈ code, i.op.ConstantSized) : (b.append code).ConstantsSized := by
  intro i hi
  rcases List.mem_append.mp hi with hold | hnew
  · exact hb i hold
  · exact hcode i hnew

end Builder

theorem BuildStep.constantsSized_run {step : BuildStep} {b b' : Builder} {id : ValueId}
    (hb : b.ConstantsSized) (hinline : ∀ g argument, step = .inline g argument → g.Sound)
    (hsupplies : ∀ tensor, step.Supplies tensor → tensor.Sized) (h : Yields step.run b id b') :
    b'.ConstantsSized := by
  obtain ⟨code, rfl, -, hcode⟩ := appends_of_run hinline h
  exact hb.append fun i hi tensor htensor => hsupplies tensor (hcode i hi tensor htensor)

theorem BuildStep.constantsSized_runAll {steps : List BuildStep} {b b' : Builder} {u : Unit}
    (hb : b.ConstantsSized) (hinline : ∀ g argument, .inline g argument ∈ steps → g.Sound)
    (hsupplies : ∀ step ∈ steps, ∀ tensor, step.Supplies tensor → tensor.Sized)
    (h : Yields (runAll steps) b u b') : b'.ConstantsSized := by
  induction steps generalizing b with
  | nil =>
    obtain ⟨-, rfl⟩ := yields_pure.mp h
    exact hb
  | cons step steps ih =>
    obtain ⟨id, s, hstep, hrest⟩ := yields_bind.mp h
    have hs := constantsSized_run hb (fun g argument heq => hinline g argument (by simp [heq]))
      (hsupplies step (by simp)) hstep
    exact ih hs (fun g argument hmem => hinline g argument (by simp [hmem]))
      (fun step hmem => hsupplies step (by simp [hmem])) hrest

namespace Graph

theorem WellBuilt.constantSized {g : Graph} (h : g.WellBuilt) :
    ∀ i ∈ g.body, i.op.ConstantSized := by
  induction h with
  | @ofSteps p steps id g htensors hgraphs hrun ih =>
    obtain ⟨r, b, type, haction, -, -, rfl⟩ := build_eq_ok.mp hrun
    obtain ⟨u, s, hsteps, hreturn⟩ := yields_bind.mp haction
    obtain ⟨rfl, rfl⟩ := yields_pure.mp hreturn
    refine BuildStep.constantsSized_runAll (Builder.constantsSized_start p) ?_ ?_ hsteps
    · exact fun h argument hmem => (hgraphs h argument hmem).built.sound
    · rintro step hmem tensor (rfl | ⟨h, argument, rfl, i, hi, htensor⟩)
      · exact htensors tensor hmem
      · exact ih h argument hmem i (List.mem_of_mem_drop hi) tensor htensor

/-- What a graph may be executed on: nothing when it takes nothing, else a conforming
value. -/
inductive ArgumentConforms : Option Ty → Option Value → Prop
  | none : ArgumentConforms none none
  | some {type : Ty} {v : Value} :
      v.conformsTo type = true → ArgumentConforms (some type) (some v)

theorem ArgumentConforms.exists_bound {g : Graph} {a : Option Value}
    (h : ArgumentConforms g.parameter a) (hsized : ∀ v ∈ a, v.Sized) :
    ∃ bound, g.bindArgument a = .ok bound ∧ ArgumentFits g.parameter bound ∧
      ∀ v ∈ bound.toList, v.Sized := by
  generalize hp : g.parameter = p at h
  cases h with
  | none => exact ⟨Option.none, by simp only [bindArgument, hp], .none, by simp⟩
  | @some type v hv =>
    refine ⟨_, bindArgument_of_conforms hp hv, .some (Value.hasType_withNamesOf hv), ?_⟩
    simpa using (hsized v rfl).withNamesOf type

/-- A graph built from sized constants, executed on an argument that conforms and is sized,
returns a value of its result type, with the names that the type gives, or fails in one of
its own instructions: by an integer division, on truth values, or, where the type of the
operands leaves an axis open, because their extents do not match. -/
theorem WellBuilt.execute_outcome {g : Graph} (hg : g.WellBuilt) {a : Option Value}
    (ha : ArgumentConforms g.parameter a) (hsized : ∀ v ∈ a, v.Sized) :
    (∃ v, g.execute a = .ok v ∧ v.HasType g.result ∧ v.Sized) ∨
      ∃ e, g.execute a = .error e ∧ ∃ i ∈ g.body, i.Fault g.types e := by
  have hsound := hg.built.sound
  obtain ⟨bound, hbind, hfits, hbound⟩ := ha.exists_bound hsized
  have hconstants : ∀ i ∈ g.code, i.op.ConstantSized := fun i hi =>
    hg.constantSized i (List.mem_of_mem_drop hi)
  rw [hsound.execute_eq, hbind, ok_bind]
  rcases evalCode_outcome hsound.typed hconstants hfits.forall₂ hbound with
    ⟨values, hvalues, hall⟩ | ⟨e, he, i, hi, hfault⟩
  · obtain ⟨v, hv, hvtype⟩ := hsound.exists_result hfits hvalues
    exact .inl ⟨v, resultOn_eq_ok hvalues hv, hvtype, hall v (List.mem_of_getElem? hv)⟩
  · rw [← hsound.types_eq] at hfault
    refine .inr ⟨e, ?_, i, List.mem_of_mem_drop hi, hfault⟩
    rw [resultOn, valuesOn, he, error_bind]

/-- Quotients of two vectors of any length: vectors of one length give the struct that
the type announces, vectors of different lengths the fault of the division. -/
theorem WellBuilt.execute_outcome_vectors :
    ∃ g, Graph.ofSteps (some (.struct [(some "x", .tensor ⟨.int32, ⟨[.dynamic]⟩⟩),
        (some "y", .tensor ⟨.int32, ⟨[.dynamic]⟩⟩)]))
        [.select 0 0, .select 0 1, .binary .div 1 2, .pack [(some "q", 3)]] 4 = .ok g ∧
      (∃ v, g.execute (some (.struct [(none, .vector [6, 9]), (none, .vector [2, 3])])) = .ok v ∧
        v.HasType (.struct [(some "q", .tensor ⟨.int32, ⟨[.dynamic]⟩⟩)])) ∧
      g.execute (some (.struct [(none, .vector [6, 9]), (none, .vector [1, 2, 3])])) =
        .error (.fault (.incompatibleLengths 2 3)) ∧
      ∃ i ∈ g.body, i.Fault g.types (.fault (.incompatibleLengths 2 3)) := by
  have hrun : ∃ g, Graph.ofSteps (some (.struct [(some "x", .tensor ⟨.int32, ⟨[.dynamic]⟩⟩),
      (some "y", .tensor ⟨.int32, ⟨[.dynamic]⟩⟩)]))
      [.select 0 0, .select 0 1, .binary .div 1 2, .pack [(some "q", 3)]] 4 = .ok g ∧
      g.parameter = some (.struct [(some "x", .tensor ⟨.int32, ⟨[.dynamic]⟩⟩),
        (some "y", .tensor ⟨.int32, ⟨[.dynamic]⟩⟩)]) ∧
      g.result = .struct [(some "q", .tensor ⟨.int32, ⟨[.dynamic]⟩⟩)] ∧
      g.execute (some (.struct [(none, .vector [6, 9]), (none, .vector [2, 3])])) =
        .ok (.struct [(some "q", .vector [3, 3])]) ∧
      g.execute (some (.struct [(none, .vector [6, 9]), (none, .vector [1, 2, 3])])) =
        .error (.fault (.incompatibleLengths 2 3)) := ⟨_, rfl, rfl, rfl, rfl, rfl⟩
  obtain ⟨g, hsteps, hparameter, hresult, hquotients, hmismatch⟩ := hrun
  have hbuilt : g.WellBuilt := .ofSteps (by simp) (by simp) hsteps
  have hconforms : ∀ xs ys, ArgumentConforms g.parameter
      (some (.struct [(none, .vector xs), (none, .vector ys)])) := by
    intro xs ys
    rw [hparameter]
    exact .some rfl
  have hsized : ∀ xs ys : List Int32, xs.length < UInt64.size → ys.length < UInt64.size →
      ∀ v ∈ some (Value.struct [(none, .vector xs), (none, .vector ys)]), v.Sized := by
    intro xs ys hxs hys
    simp [Value.sized_struct, Value.sized_vector hxs, Value.sized_vector hys]
  refine ⟨g, hsteps, ?_, hmismatch, ?_⟩
  · rcases hbuilt.execute_outcome (hconforms [6, 9] [2, 3])
        (hsized [6, 9] [2, 3] (by decide) (by decide)) with ⟨v, hv, htype, -⟩ | ⟨e, he, -⟩
    · exact ⟨v, hv, by rwa [hresult] at htype⟩
    · rw [hquotients] at he
      cases he
  · rcases hbuilt.execute_outcome (hconforms [6, 9] [1, 2, 3])
        (hsized [6, 9] [1, 2, 3] (by decide) (by decide)) with ⟨v, hv, -⟩ | ⟨e, he, hfault⟩
    · rw [hmismatch] at hv
      cases hv
    · rw [hmismatch] at he
      cases he
      exact hfault

/-- A vector conforms by its extents alone. One that announces two elements and has one makes
a negation fail on its length, although no axis is open and nothing is divided. -/
theorem WellBuilt.execute_unsized :
    let short : Value := .tensor ⟨[2], .int32 [7]⟩
    (∃ g : Graph, g.WellBuilt ∧ ArgumentConforms g.parameter (some short) ∧
      g.execute (some short) = .error (.fault (.malformedTensor ⟨1, [2]⟩))) ∧
    ¬ ∀ (g : Graph) (a : Option Value), g.WellBuilt → ArgumentConforms g.parameter a →
      (∃ v, g.execute a = .ok v ∧ v.HasType g.result) ∨
        ∃ e, g.execute a = .error e ∧ ∃ i ∈ g.body, i.Fault g.types e := by
  intro short
  have hrun : ∃ g, Graph.ofSteps (some (.tensor ⟨.int32, ⟨[.fixed 2]⟩⟩)) [.unary .neg 0] 1 = .ok g ∧
      g.parameter = some (.tensor ⟨.int32, ⟨[.fixed 2]⟩⟩) ∧
      g.body.map (·.op) = [.parameter, .unary .neg] ∧
      g.execute (some short) = .error (.fault (.malformedTensor ⟨1, [2]⟩)) :=
    ⟨_, rfl, rfl, rfl, rfl⟩
  obtain ⟨g, hsteps, hparameter, hops, herror⟩ := hrun
  have hbuilt : g.WellBuilt := .ofSteps (by simp) (by simp) hsteps
  have hconforms : ArgumentConforms g.parameter (some short) := by
    rw [hparameter]
    exact .some rfl
  refine ⟨⟨g, hbuilt, hconforms, herror⟩, fun h => ?_⟩
  rcases h g (some short) hbuilt hconforms with ⟨v, hv, -⟩ | ⟨e, -, i, hi, operands, -, hfault⟩
  · rw [herror] at hv
    cases hv
  · -- only binary operations have faults
    have hop : i.op ∈ [.parameter, .unary .neg] := hops ▸ List.mem_map_of_mem hi
    rcases List.mem_pair.mp hop with hop | hop <;> (rw [hop] at hfault; cases hfault)

end Graph

end GraphFusion
