import GraphFusion.Graph.Interpreter
import GraphFusion.Proofs.Graph.Typing
import GraphFusion.Proofs.Values.Typing

/-!
Execution of sound graphs. Values are kept in the order of their numbers, which
the interpreter's environment lists the other way round. Every operation gives
a value of its output type, so code typed after some values only adds values of
the types it announces, and a sound graph run on an argument of its parameter
type returns a value of its result type or an execution error.
-/

namespace GraphFusion

namespace TensorData

theorem dtype_of_binary {op : BinaryOp} {a b d : TensorData} (h : a.binary op b = .ok d) :
    d.dtype = a.dtype ∧ d.dtype = b.dtype := by
  have key : ∀ {α : Type} {r : Except ExecutionError (List α)} {f : List α → TensorData},
      r.map f = .ok d → ∃ values, d = f values := by
    intro α r f hr
    cases r with
    | error e => cases hr
    | ok values => exact ⟨values, by cases hr; rfl⟩
  cases a <;> cases b <;> simp only [binary] at h <;> first
    | (obtain ⟨values, rfl⟩ := key h; exact ⟨rfl, rfl⟩)
    | cases h

theorem dtype_of_unary {op : UnaryOp} {a d : TensorData} (h : a.unary op = .ok d) :
    d.dtype = a.dtype := by
  cases a <;> cases h <;> rfl

theorem dtype_cast (data : TensorData) (d : DType) : (data.cast d).dtype = d := by
  unfold cast
  split
  · assumption
  · cases d <;> cases data <;> rfl

end TensorData

namespace Tensor

theorem eq_of_checked {shape : List Nat} {data : TensorData} {t : Tensor}
    (h : checked shape data = .ok t) : t = ⟨shape, data⟩ := by
  unfold checked ofData at h
  split at h <;> cases h
  rfl

theorem shape_isEmpty_iff {t : Tensor} {type : TensorType} (h : t.conformsTo type = true) :
    t.shape.isEmpty = true ↔ type.shape.rank = 0 := by
  have hlen : type.shape.dims.length = t.shape.length := by
    have hs := ((conformsTo_iff t type).mp h).2
    simp only [Shape.admits, Bool.and_eq_true, beq_iff_eq] at hs
    exact hs.1
  rw [List.isEmpty_iff_length_eq_zero, Shape.rank, hlen]

/-- The result of a binary operation fits the broadcast type, even where axes
left open make the lengths disagree only at run time. -/
theorem conformsTo_of_binary {op : BinaryOp} {l r t : Tensor} {lhs rhs type : TensorType}
    (hl : l.conformsTo lhs = true) (hr : r.conformsTo rhs = true)
    (htype : Build.broadcastType? lhs rhs = some type) (h : l.binary op r = .ok t) :
    t.conformsTo type = true := by
  obtain ⟨data, hdata, hchecked⟩ := bind_eq_ok.mp h
  obtain rfl := eq_of_checked hchecked
  have hdtype := TensorData.dtype_of_binary hdata
  have hl' := (conformsTo_iff l lhs).mp hl
  have hr' := (conformsTo_iff r rhs).mp hr
  have hempty := shape_isEmpty_iff hl
  unfold Build.broadcastType? at htype
  split at htype
  · cases htype
  · split at htype
    · rename_i hsame
      cases htype
      refine (conformsTo_iff _ _).mpr ⟨hdtype.1.trans hl'.1, ?_⟩
      by_cases hzero : lhs.shape.rank = 0
      · have hdims : lhs.shape = rhs.shape := by
          rcases hsame with heq | hrank
          · exact heq
          · have hl0 := List.length_eq_zero_iff.mp hzero
            have hr0 := List.length_eq_zero_iff.mp hrank
            cases hs : lhs.shape
            cases hs' : rhs.shape
            simp_all
        rw [if_pos (hempty.mpr hzero), hdims]
        exact hr'.2
      · rw [if_neg (fun he => hzero (hempty.mp he))]
        exact hl'.2
    · split at htype
      · rename_i hzero
        cases htype
        refine (conformsTo_iff _ _).mpr ⟨hdtype.2.trans hr'.1, ?_⟩
        rw [if_pos (hempty.mpr hzero)]
        exact hr'.2
      · cases htype

theorem conformsTo_of_unary {op : UnaryOp} {input t : Tensor} {type : TensorType}
    (hinput : input.conformsTo type = true) (h : input.unary op = .ok t) :
    t.conformsTo type = true := by
  obtain ⟨data, hdata, hchecked⟩ := bind_eq_ok.mp h
  obtain rfl := eq_of_checked hchecked
  have hinput' := (conformsTo_iff input type).mp hinput
  exact (conformsTo_iff _ _).mpr ⟨(TensorData.dtype_of_unary hdata).trans hinput'.1, hinput'.2⟩

theorem conformsTo_of_cast {dtype : DType} {input t : Tensor} {type : TensorType}
    (hinput : input.conformsTo type = true) (h : input.cast dtype = .ok t) :
    t.conformsTo ⟨dtype, type.shape⟩ = true := by
  have hinput' := (conformsTo_iff input type).mp hinput
  unfold cast at h
  split at h
  · rename_i hsame
    cases h
    exact (conformsTo_iff _ _).mpr ⟨hsame, hinput'.2⟩
  · obtain rfl := eq_of_checked h
    exact (conformsTo_iff _ _).mpr ⟨TensorData.dtype_cast input.data dtype, hinput'.2⟩

end Tensor

namespace Operation

/-- Only the reading of the argument depends on it. -/
theorem apply_argument {op : Operation} (h : op ≠ .parameter) (a b : Option Value)
    (inputs : List Value) : op.apply a inputs = op.apply b inputs := by
  cases op <;> first | exact absurd rfl h | rfl

theorem hasType_of_apply {op : Operation} {types : List Ty} {output : Ty} {a : Option Value}
    {inputs : List Value} {v : Value} (hop : op.HasType types output)
    (hinputs : List.Forall₂ Value.HasType inputs types) (h : op.apply a inputs = .ok v) :
    v.HasType output := by
  cases hop with
  | constant tensor =>
    cases h
    simpa only [Value.HasType] using tensor.conformsTo_type
  | @select types index label type hindex =>
    obtain _ | ⟨hsource, hnil⟩ := hinputs
    obtain _ | _ := hnil
    obtain ⟨w, hw, hwt⟩ := Value.exists_element_of_hasType hsource hindex
    simp only [apply, soleInput, ok_bind, hw] at h
    cases h
    exact hwt
  | @pack labels types hlen =>
    have hlen' : labels.length = inputs.length := hlen.trans hinputs.length_eq.symm
    simp only [apply, hlen', ne_eq, not_true_eq_false, if_false] at h
    cases h
    rw [Value.hasType_struct]
    clear hlen'
    induction labels generalizing inputs types with
    | nil => simp
    | cons label labels ih =>
      cases hinputs with
      | nil => simp at hlen
      | cons hv hrest =>
        simp only [List.zip_cons_cons]
        exact .cons ⟨rfl, hv⟩ (ih hrest (by simpa using hlen))
  | binary htype =>
    obtain ⟨l, r, rfl, hl, hr⟩ := Value.exists_tensorPair_of_hasTypes hinputs
    simp only [apply, tensorInput, ok_bind] at h
    obtain ⟨t, ht, hv⟩ := bind_eq_ok.mp h
    cases hv
    simpa only [Value.HasType] using Tensor.conformsTo_of_binary hl hr htype ht
  | unary hdtype =>
    obtain ⟨input, rfl, hi⟩ := Value.exists_tensor_of_hasTypes hinputs
    simp only [apply, soleInput, tensorInput, ok_bind] at h
    obtain ⟨t, ht, hv⟩ := bind_eq_ok.mp h
    cases hv
    simpa only [Value.HasType] using Tensor.conformsTo_of_unary hi ht
  | cast =>
    obtain ⟨input, rfl, hi⟩ := Value.exists_tensor_of_hasTypes hinputs
    simp only [apply, soleInput, tensorInput, ok_bind] at h
    obtain ⟨t, ht, hv⟩ := bind_eq_ok.mp h
    cases hv
    simpa only [Value.HasType] using Tensor.conformsTo_of_cast hi ht

end Operation

/-- The values with the given numbers. -/
def gather (values : List Value) : List ValueId → Except ExecutionError (List Value)
  | [] => .ok []
  | id :: rest =>
    match values[id]? with
    | none => .error (.fault (.operandMissing id))
    | some v => (gather values rest).map (v :: ·)

theorem operands_numbered (values : List Value) (ids : List ValueId) :
    Environment.operands (numbered values) ids = gather values ids := by
  induction ids with
  | nil => rfl
  | cons id rest ih =>
    cases hv : values[id]? with
    | none => simp only [Environment.operands, gather, lookup_numbered, hv]
    | some v => simp only [Environment.operands, gather, lookup_numbered, hv, ih]

theorem gather_of_typed {values : List Value} {before types : List Ty} {ids : List ValueId}
    (hvalues : List.Forall₂ Value.HasType values before)
    (hids : List.Forall₂ (fun id type => before[id]? = some type) ids types) :
    ∃ inputs, gather values ids = .ok inputs ∧ List.Forall₂ Value.HasType inputs types := by
  induction hids with
  | nil => exact ⟨[], rfl, .nil⟩
  | @cons id type ids types hid _ ih =>
    obtain ⟨inputs, hgather, hinputs⟩ := ih
    obtain ⟨v, hv, hvtype⟩ := exists_left_of_forall₂ hvalues hid
    refine ⟨v :: inputs, ?_, .cons hvtype hinputs⟩
    simp only [gather, hv, hgather, Except.map]

/-- Runs code after some values, in the order of their numbers. -/
def evalCode (argument : Option Value) :
    List Value → List Instruction → Except ExecutionError (List Value)
  | values, [] => .ok values
  | values, i :: rest => do
    let inputs ← gather values i.operands
    let v ← i.op.apply argument inputs
    evalCode argument (values ++ [v]) rest

theorem evalCode_append (argument : Option Value) (values : List Value)
    (xs ys : List Instruction) :
    evalCode argument values (xs ++ ys) =
      evalCode argument values xs >>= fun vs => evalCode argument vs ys := by
  induction xs generalizing values with
  | nil => rfl
  | cons i xs ih =>
    simp only [List.cons_append, evalCode]
    cases gather values i.operands with
    | error e => rfl
    | ok inputs =>
      simp only [ok_bind]
      cases i.op.apply argument inputs with
      | error e => rfl
      | ok v => simp only [ok_bind, ih]

theorem evalCode_argument {before : List Ty} {code : List Instruction} (h : CodeTyped before code)
    (a b : Option Value) (values : List Value) :
    evalCode a values code = evalCode b values code := by
  induction code generalizing before values with
  | nil => rfl
  | cons i code ih =>
    obtain ⟨hi, hrest⟩ := h
    obtain ⟨-, types, -, hop⟩ := hi
    simp only [evalCode, Operation.apply_argument hop.ne_parameter a b, ih hrest]

/-- Values of the announced types: code that is typed after `before` extends
values of these types by values of its output types. -/
theorem evalCode_hasTypes {a : Option Value} {before : List Ty} {code : List Instruction}
    {values result : List Value} (hcode : CodeTyped before code)
    (hvalues : List.Forall₂ Value.HasType values before)
    (h : evalCode a values code = .ok result) :
    List.Forall₂ Value.HasType result (before ++ code.map (·.output)) := by
  induction code generalizing before values with
  | nil =>
    cases h
    simpa using hvalues
  | cons i code ih =>
    obtain ⟨⟨-, types, hops, hop⟩, hrest⟩ := hcode
    obtain ⟨inputs, hgather, hinputs⟩ := gather_of_typed hvalues hops
    rw [evalCode, hgather, ok_bind] at h
    obtain ⟨v, hv, h⟩ := bind_eq_ok.mp h
    have hnext : List.Forall₂ Value.HasType (values ++ [v]) (before ++ [i.output]) :=
      List.rel_append hvalues (.cons (Operation.hasType_of_apply hop hinputs hv) .nil)
    simpa using ih hrest hnext h

namespace Graph

theorem runInstruction_noHook (a : Option Value) (env : Environment) (i : Instruction) :
    (runInstruction noHook a env i).run = (do
      let inputs ← env.operands i.operands
      let v ← i.op.apply a inputs
      return (i.id, v) :: env : Except ExecutionError Environment) := by
  unfold runInstruction
  rw [run_bind_id, run_mk_pure_id]
  cases env.operands i.operands with
  | error e => rfl
  | ok inputs =>
    simp only [ok_bind]
    rw [run_bind_id]
    rfl

theorem runBody_cons (a : Option Value) (env : Environment) (i : Instruction)
    (rest : List Instruction) :
    (runBody noHook a env (i :: rest)).run =
      ((runInstruction noHook a env i).run >>= fun next => (runBody noHook a next rest).run :
        Except ExecutionError Environment) := run_bind_id _ _

theorem runBody_numbered {a : Option Value} {before : List Ty} {code : List Instruction}
    {values : List Value} (hcode : CodeTyped before code) (hlen : values.length = before.length) :
    (runBody noHook a (numbered values) code).run = (evalCode a values code).map numbered := by
  induction code generalizing before values with
  | nil => rfl
  | cons i code ih =>
    obtain ⟨hi, hrest⟩ := hcode
    rw [runBody_cons, runInstruction_noHook, operands_numbered, evalCode]
    cases gather values i.operands with
    | error e => rfl
    | ok inputs =>
      simp only [ok_bind]
      cases i.op.apply a inputs with
      | error e => rfl
      | ok v =>
        have hid : (i.id, v) :: numbered values = numbered (values ++ [v]) := by
          rw [numbered_concat, hi.1, hlen]
        simp only [ok_bind, pure_eq_ok, hid]
        exact ih hrest (by simp [hlen])

/-- What a graph is run on: nothing, or a value of its parameter type. -/
inductive ArgumentFits : Option Ty → Option Value → Prop
  | none : ArgumentFits none none
  | some {type : Ty} {v : Value} : v.HasType type → ArgumentFits (some type) (some v)

theorem ArgumentFits.forall₂ {p : Option Ty} {a : Option Value} (h : ArgumentFits p a) :
    List.Forall₂ Value.HasType a.toList p.toList := by
  cases h with
  | none => exact .nil
  | some hv => exact .cons hv .nil

theorem ArgumentFits.length_eq {p : Option Ty} {a : Option Value} (h : ArgumentFits p a) :
    a.toList.length = p.toList.length := h.forall₂.length_eq

theorem argumentFits_of_bindArgument {g : Graph} {argument a : Option Value}
    (h : g.bindArgument argument = .ok a) : ArgumentFits g.parameter a := by
  unfold bindArgument at h
  split at h
  · rename_i hp
    rw [hp]
    split at h
    · rename_i hv
      cases h
      exact .some (Value.hasType_withNamesOf hv)
    · cases h
  · rename_i hp
    cases h
    rw [hp]
    exact .none
  · cases h
  · cases h

theorem bindArgument_of_fits {g : Graph} {a : Option Value} (h : ArgumentFits g.parameter a) :
    g.bindArgument a = .ok a := by
  unfold bindArgument
  cases hp : g.parameter with
  | none =>
    rw [hp] at h
    cases h
    rfl
  | some type =>
    rw [hp] at h
    cases h with
    | some hv =>
      simp [Value.conformsTo_of_hasType hv, Value.withNamesOf_of_hasType hv]

/-- All values of a run on `a`. -/
def valuesOn (g : Graph) (a : Option Value) : Except ExecutionError (List Value) :=
  evalCode a a.toList g.code

/-- The result of a run on `a`, which the graph's argument is bound to. -/
def resultOn (g : Graph) (a : Option Value) : Except ExecutionError Value := do
  match (← g.valuesOn a)[g.resultId]? with
  | none => .error (.fault (.resultMissing g.resultId))
  | some v => .ok v

theorem resultOn_eq_ok {g : Graph} {a : Option Value} {values : List Value} {v : Value}
    (h : g.valuesOn a = .ok values) (hv : values[g.resultId]? = some v) :
    g.resultOn a = .ok v := by
  rw [resultOn, h, ok_bind, hv]

theorem Sound.valuesOn_hasTypes {g : Graph} (hg : g.Sound) {a : Option Value}
    {values : List Value} (ha : ArgumentFits g.parameter a) (h : g.valuesOn a = .ok values) :
    List.Forall₂ Value.HasType values g.types := by
  rw [hg.types_eq]
  exact evalCode_hasTypes hg.typed ha.forall₂ h

theorem Sound.exists_result {g : Graph} (hg : g.Sound) {a : Option Value} {values : List Value}
    (ha : ArgumentFits g.parameter a) (h : g.valuesOn a = .ok values) :
    ∃ v, values[g.resultId]? = some v ∧ v.HasType g.result := by
  exact exists_left_of_forall₂ (hg.valuesOn_hasTypes ha h) hg.result_type

/-- A sound graph returns a value of its result type. -/
theorem Sound.resultOn_hasType {g : Graph} (hg : g.Sound) {a : Option Value} {v : Value}
    (ha : ArgumentFits g.parameter a) (h : g.resultOn a = .ok v) : v.HasType g.result := by
  obtain ⟨values, hvalues, h⟩ := bind_eq_ok.mp h
  obtain ⟨w, hw, hwt⟩ := hg.exists_result ha hvalues
  rw [hw] at h
  cases h
  exact hwt

theorem runBody_start {p : Option Ty} {a : Option Value} (ha : ArgumentFits p a) :
    (runBody noHook a [] (Builder.start p).body).run = .ok (numbered a.toList) := by
  cases ha <;> rfl

theorem runBody_append (a : Option Value) (env : Environment) (xs ys : List Instruction) :
    (runBody noHook a env (xs ++ ys)).run =
      ((runBody noHook a env xs).run >>= fun next => (runBody noHook a next ys).run :
        Except ExecutionError Environment) := by
  induction xs generalizing env with
  | nil => rfl
  | cons i xs ih =>
    simp only [List.cons_append, runBody_cons]
    cases h : ((runInstruction noHook a env i).run : Except ExecutionError Environment) with
    | error e => rfl
    | ok next =>
      simp only [ok_bind]
      exact ih next

theorem Sound.runBody_eq {g : Graph} (hg : g.Sound) {a : Option Value}
    (ha : ArgumentFits g.parameter a) :
    (runBody noHook a [] g.body).run = (g.valuesOn a).map numbered := by
  rw [hg.body_eq, runBody_append, runBody_start ha, ok_bind]
  exact runBody_numbered hg.typed ha.length_eq

/-- Execution binds the argument and then runs the code on it; the names of the
result are already those of its type. -/
theorem Sound.execute_eq {g : Graph} (hg : g.Sound) (argument : Option Value) :
    g.execute argument = g.bindArgument argument >>= g.resultOn := by
  unfold execute executeWith
  rw [run_bind_id, run_mk_pure_id]
  cases hbind : g.bindArgument argument with
  | error e => rfl
  | ok a =>
    have ha := argumentFits_of_bindArgument hbind
    simp only [ok_bind]
    rw [run_bind_id, hg.runBody_eq ha, resultOn]
    cases hvalues : g.valuesOn a with
    | error e => rfl
    | ok values =>
      obtain ⟨v, hv, hvt⟩ := hg.exists_result ha hvalues
      simp [Except.map, resultOf, lookup_numbered, hv, Value.withNamesOf_of_hasType hvt]
      rfl

theorem Sound.execute_of_fits {g : Graph} (hg : g.Sound) {a : Option Value}
    (ha : ArgumentFits g.parameter a) : g.execute a = g.resultOn a := by
  rw [hg.execute_eq, bindArgument_of_fits ha, ok_bind]

theorem bindArgument_of_conforms {g : Graph} {type : Ty} {v : Value}
    (hp : g.parameter = some type) (h : v.conformsTo type = true) :
    g.bindArgument (some v) = .ok (some (v.withNamesOf type)) := by
  simp only [bindArgument, hp, h, if_true]

/-- A conforming argument is run on with the names of the parameter. -/
theorem Sound.execute_of_conforms {g : Graph} (hg : g.Sound) {type : Ty} {v : Value}
    (hp : g.parameter = some type) (h : v.conformsTo type = true) :
    g.execute (some v) = g.resultOn (some (v.withNamesOf type)) := by
  rw [hg.execute_eq, bindArgument_of_conforms hp h, ok_bind]

theorem Sound.execute_none {g : Graph} (hg : g.Sound) (hp : g.parameter = none) :
    g.execute none = g.resultOn none := by
  apply hg.execute_of_fits
  rw [hp]
  exact .none

/-- What a graph executes to is a value of its result type. -/
theorem Sound.execute_hasType {g : Graph} (hg : g.Sound) {a : Option Value} {v : Value}
    (h : g.execute a = .ok v) : v.HasType g.result := by
  rw [hg.execute_eq] at h
  obtain ⟨bound, hbind, hrun⟩ := bind_eq_ok.mp h
  exact hg.resultOn_hasType (argumentFits_of_bindArgument hbind) hrun

end Graph

end GraphFusion
