import GraphFusion.Proofs.Graph.Combinators
import GraphFusion.Proofs.Graph.Copying

/-!
Runs of verified graphs under a hook. Verification and the interpreter walk over
the same body, and the ids that the one has defined are those that the other has
bound, each once. Every operand is therefore found, and so is the result: a run
stops early only where the hook answers with an error or where an operation
fails on the inputs it was given, never for want of a value.
-/

namespace GraphFusion

/-- The interpreter looked for a value that nothing has computed. -/
inductive ExecutionError.Unbound : ExecutionError → Prop
  | operand (id : ValueId) : Unbound (.fault (.operandMissing id))
  | result (id : ValueId) : Unbound (.fault (.resultMissing id))
  | argument : Unbound (.fault .parameterWithoutArgument)

/-- No failure for want of a value. -/
def ReadsBound {α : Type} (r : Except ExecutionError α) : Prop := ∀ e, r = .error e → ¬ e.Unbound

namespace ReadsBound

variable {α β : Type}

theorem ok (a : α) : ReadsBound (.ok a) := nofun

theorem error {e : ExecutionError} (h : ¬ e.Unbound) : ReadsBound (.error e : Except _ α) := by
  rintro _ ⟨⟩
  exact h

theorem bind {r : Except ExecutionError α} {f : α → Except ExecutionError β}
    (hr : ReadsBound r) (hf : ∀ a, ReadsBound (f a)) : ReadsBound (r >>= f) := by
  cases r with
  | error e => exact error (hr e rfl)
  | ok a => exact hf a

theorem map {r : Except ExecutionError α} (hr : ReadsBound r) (f : α → β) :
    ReadsBound (r.map f) := by
  cases r with
  | error e => exact error (hr e rfl)
  | ok a => exact ok (f a)

theorem mapM {f : α → Except ExecutionError β} (hf : ∀ a, ReadsBound (f a)) (l : List α) :
    ReadsBound (l.mapM f) := by
  induction l with
  | nil => exact ok []
  | cons a l ih =>
    rw [List.mapM_cons]
    exact (hf a).bind fun b => ih.bind fun bs => ok (b :: bs)

end ReadsBound

theorem readsBound_pairwise {α : Type} {f : α → α → Except ExecutionError α}
    (hf : ∀ x y, ReadsBound (f x y)) (lhs rhs : List α) : ReadsBound (pairwise f lhs rhs) := by
  unfold pairwise
  split
  · exact .mapM (fun (x, y) => hf x y) _
  · split
    · exact .mapM (fun x => hf x _) _
    · exact .mapM (fun y => hf _ y) _
    · exact .error nofun

theorem BinaryOp.readsBound_apply {α : Type} (op : BinaryOp) (arithmetic : Arithmetic α)
    (x y : α) : ReadsBound (op.apply arithmetic x y) := by
  cases op with
  | div =>
    rw [BinaryOp.apply]
    split
    · exact .ok _
    · exact .error nofun
  | _ => exact .ok _

theorem TensorData.readsBound_binary (op : BinaryOp) (a b : TensorData) :
    ReadsBound (a.binary op b) := by
  unfold TensorData.binary
  split
  · exact (readsBound_pairwise (op.readsBound_apply _) _ _).map _
  · exact (readsBound_pairwise (op.readsBound_apply _) _ _).map _
  · exact (readsBound_pairwise (op.readsBound_apply _) _ _).map _
  · exact (readsBound_pairwise (op.readsBound_apply _) _ _).map _
  · exact .error nofun
  · exact .error nofun

theorem TensorData.readsBound_unary (op : UnaryOp) (a : TensorData) : ReadsBound (a.unary op) := by
  cases a with
  | bool values => exact .error nofun
  | _ => exact .ok _

theorem Tensor.readsBound_checked (shape : List Nat) (data : TensorData) :
    ReadsBound (checked shape data) := by
  unfold checked
  cases ofData shape data with
  | error e => exact .error nofun
  | ok t => exact .ok t

theorem readsBound_tensorInput (v : Value) : ReadsBound (tensorInput v) := by
  cases v with
  | tensor t => exact .ok t
  | struct elements => exact .error nofun

theorem readsBound_soleInput (op : String) (inputs : List Value) :
    ReadsBound (soleInput op inputs) := by
  unfold soleInput
  split
  · exact .ok _
  · exact .error nofun

/-- An operation on given inputs wants for a value only where the argument is read
and there is none. -/
theorem Operation.readsBound_apply {op : Operation} {a : Option Value}
    (h : op = .parameter → a.isSome = true) (inputs : List Value) :
    ReadsBound (op.apply a inputs) := by
  cases op with
  | parameter =>
    obtain ⟨v, rfl⟩ := Option.isSome_iff_exists.mp (h rfl)
    exact .ok v
  | constant tensor => exact .ok _
  | select index =>
    refine (readsBound_soleInput _ _).bind fun source => ?_
    split
    · exact .ok _
    · exact .error fun h => by cases h
  | pack labels =>
    rw [apply]
    split
    · exact .error fun h => by cases h
    · exact .ok _
  | binary op =>
    unfold apply
    dsimp only
    split
    · refine (readsBound_tensorInput _).bind fun lhs => ?_
      refine (readsBound_tensorInput _).bind fun rhs => ?_
      refine ((TensorData.readsBound_binary op _ _).bind fun data => ?_).bind fun t => .ok _
      exact Tensor.readsBound_checked _ data
    · exact .error fun h => by cases h
  | unary op =>
    refine (readsBound_soleInput _ _).bind fun v => (readsBound_tensorInput v).bind fun input => ?_
    refine ((TensorData.readsBound_unary op _).bind fun data => ?_).bind fun t => .ok _
    exact Tensor.readsBound_checked _ data
  | cast dtype =>
    refine (readsBound_soleInput _ _).bind fun v => (readsBound_tensorInput v).bind fun input => ?_
    refine ReadsBound.bind ?_ fun t => .ok _
    unfold Tensor.cast
    split
    · exact .ok _
    · exact Tensor.readsBound_checked _ _

theorem isSome_lookup_iff {α : Type} {l : List (ValueId × α)} {id : ValueId} :
    (l.lookup id).isSome = true ↔ id ∈ l.map (·.1) := by
  rw [List.lookup_isSome_iff]
  simp

theorem Environment.exists_operands {env : Environment} {ids : List ValueId}
    (h : ∀ id ∈ ids, id ∈ env.map (·.1)) : ∃ inputs, env.operands ids = .ok inputs := by
  induction ids with
  | nil => exact ⟨[], rfl⟩
  | cons id ids ih =>
    obtain ⟨hid, hrest⟩ := List.forall_mem_cons.mp h
    obtain ⟨inputs, hinputs⟩ := ih hrest
    obtain ⟨v, hv⟩ := Option.isSome_iff_exists.mp (isSome_lookup_iff.mpr hid)
    exact ⟨v :: inputs, by rw [operands, hv, hinputs]; rfl⟩

namespace Graph

/-- Verification has seen no id defined twice. -/
theorem undefined_of_checkInstruction {p : Option Ty} {c c' : Checked} {i : Instruction}
    (h : checkInstruction p c i = .ok c') : i.id ∉ c.defined.map (·.1) := by
  intro hmem
  have hold : (c.defined.lookup i.id).isSome = true := isSome_lookup_iff.mpr hmem
  unfold checkInstruction at h
  cases hoperand : c.undefinedOperand? i with
  | some operand =>
    rw [hoperand] at h
    cases h
  | none =>
    cases hparameter : checkParameter p c i with
    | error e => simp [hoperand, hparameter] at h
    | ok readsArgument =>
      simp only [hoperand, hparameter, hold, ok_bind] at h
      split at h <;> cases h

/-- What code defines is defined once. -/
theorem nodup_of_checkInstructions {p : Option Ty} {body : List Instruction} {c c' : Checked}
    (h : body.foldlM (checkInstruction p) c = .ok c') (hc : (c.defined.map (·.1)).Nodup) :
    (c'.defined.map (·.1)).Nodup := by
  induction body generalizing c with
  | nil =>
    cases h
    exact hc
  | cons i body ih =>
    rw [List.foldlM_cons] at h
    obtain ⟨next, hi, hrest⟩ := bind_eq_ok.mp h
    refine ih hrest ?_
    rw [(of_checkInstruction hi).2.1, List.map_cons, List.nodup_cons]
    exact ⟨undefined_of_checkInstruction hi, hc⟩

/-- Code defines the ids of its instructions. -/
theorem ids_of_checkInstructions {p : Option Ty} {body : List Instruction} {c c' : Checked}
    (h : body.foldlM (checkInstruction p) c = .ok c') :
    c'.defined.map (·.1) = (body.map (·.id)).reverse ++ c.defined.map (·.1) := by
  induction body generalizing c with
  | nil =>
    cases h
    rfl
  | cons i body ih =>
    rw [List.foldlM_cons] at h
    obtain ⟨next, hi, hrest⟩ := bind_eq_ok.mp h
    rw [ih hrest, (of_checkInstruction hi).2.1]
    simp

/-- The environment binds the ids that code defines, each once. -/
structure Binds (env : Environment) (body : List Instruction) : Prop where
  ids_eq : env.map (·.1) = (body.map (·.id)).reverse
  nodup : (env.map (·.1)).Nodup

section

variable {σ : Type} (hook : Hook (StateM σ)) (a : Option Value)

/-- Why an instruction fails on its inputs: the hook answers with an error, or it
declines and the operation fails, though not for want of a value. -/
inductive Fails (i : Instruction) (inputs : List Value) (s : σ) : ExecutionError → σ → Prop
  | answered {e : ExecutionError} {s' : σ} :
      (hook i.op inputs).run s = (some (.error e), s') → Fails i inputs s e s'
  | applied {e : ExecutionError} {s' : σ} :
      (hook i.op inputs).run s = (none, s') → i.op.apply a inputs = .error e → ¬ e.Unbound →
        Fails i inputs s e s'

/-- Code, run from an environment, binds the ids that it defines up to an instruction
whose operands are found and which fails on them. -/
inductive Stops (env : Environment) (s : σ) (body : List Instruction) :
    ExecutionError → σ → Prop
  | intro {done rest : List Instruction} {i : Instruction} {reached : Environment}
      {inputs : List Value} {t s' : σ} {e : ExecutionError} :
      body = done ++ i :: rest → Yields (runBody hook a env done) s reached t →
        reached.map (·.1) = (done.map (·.id)).reverse ++ env.map (·.1) →
        reached.operands i.operands = .ok inputs → Fails hook a i inputs t e s' →
        Stops env s body e s'

variable {hook a}

theorem runInstruction_run {env : Environment} {i : Instruction} {inputs : List Value}
    (h : env.operands i.operands = .ok inputs) (s : σ) :
    (runInstruction hook a env i).run.run s =
      match (hook i.op inputs).run s with
      | (some answer, s') => (answer.map fun v => (i.id, v) :: env, s')
      | (none, s') => ((i.op.apply a inputs).map fun v => (i.id, v) :: env, s') := by
  unfold runInstruction
  rw [h, run_bind]
  simp only [ExceptT.run_mk, StateT.run_pure]
  change ((ExceptT.mk _ >>= fun output => pure ((i.id, output) :: env) :
    ExceptT ExecutionError (StateM σ) Environment)).run.run s = _
  rw [run_bind, ExceptT.run_mk, StateT.run_bind]
  rcases (hook i.op inputs).run s with ⟨_ | answer, s'⟩
  · cases i.op.apply a inputs <;> rfl
  · cases answer <;> rfl

variable (hook)

/-- An instruction whose operands are found binds its id or fails on them. -/
theorem runInstruction_of_operands {env : Environment} {i : Instruction} {inputs : List Value}
    (hinputs : env.operands i.operands = .ok inputs) (hread : i.op = .parameter → a.isSome = true)
    (s : σ) :
    (∃ v s', Yields (runInstruction hook a env i) s ((i.id, v) :: env) s') ∨
      ∃ e s', (runInstruction hook a env i).run.run s = (.error e, s') ∧
        Fails hook a i inputs s e s' := by
  unfold Yields
  rw [runInstruction_run hinputs]
  rcases hasked : (hook i.op inputs).run s with ⟨_ | e | v, s'⟩
  · cases happly : i.op.apply a inputs with
    | error e =>
      have hbound := Operation.readsBound_apply hread inputs e happly
      exact .inr ⟨e, s', rfl, .applied hasked happly hbound⟩
    | ok v => exact .inl ⟨v, s', rfl⟩
  · exact .inr ⟨e, s', rfl, .answered hasked⟩
  · exact .inl ⟨v, s', rfl⟩

/-- Verification and the interpreter keep step over the same code. -/
theorem runBody_of_checkInstructions {p : Option Ty} {body : List Instruction} {c c' : Checked}
    (hcheck : body.foldlM (checkInstruction p) c = .ok c') (ha : p.isSome = true → a.isSome = true)
    {env : Environment} (henv : env.map (·.1) = c.defined.map (·.1)) (s : σ) :
    (∃ reached s', Yields (runBody hook a env body) s reached s' ∧
        reached.map (·.1) = c'.defined.map (·.1)) ∨
      ∃ e s', (runBody hook a env body).run.run s = (.error e, s') ∧
        Stops hook a env s body e s' := by
  induction body generalizing c env s with
  | nil =>
    cases hcheck
    exact .inl ⟨env, s, .pure _ _, henv⟩
  | cons i body ih =>
    rw [List.foldlM_cons] at hcheck
    obtain ⟨next, hi, hrest⟩ := bind_eq_ok.mp hcheck
    obtain ⟨-, hdefined, hread⟩ := of_checkInstruction hi
    have hoperands : ∀ id ∈ i.operands, id ∈ env.map (·.1) := by
      intro id hid
      rw [henv]
      exact isSome_lookup_iff.mp (defined_of_checkInstruction hi id hid)
    obtain ⟨inputs, hinputs⟩ := Environment.exists_operands hoperands
    have hargument : i.op = .parameter → a.isSome = true := fun hop => ha (by rw [hread hop]; rfl)
    rcases runInstruction_of_operands hook hinputs hargument s with
      ⟨v, t, hstep⟩ | ⟨e, s', hstep, hfails⟩
    · have hnext : (((i.id, v) :: env).map (·.1)) = next.defined.map (·.1) := by
        rw [hdefined, List.map_cons, List.map_cons, henv]
      rcases ih hrest hnext t with ⟨reached, s', hrun, hreached⟩ | ⟨e, s', hrun, hstops⟩
      · exact .inl ⟨reached, s', hstep.bind hrun, hreached⟩
      · refine .inr ⟨e, s', ?_, ?_⟩
        · rw [runBody, run_bind, hstep]
          exact hrun
        · obtain ⟨hbody, hdone, hids, hfound, hfails⟩ := hstops
          exact .intro (by rw [hbody, List.cons_append]) (hstep.bind hdone) (by simp [hids])
            hfound hfails
    · refine .inr ⟨e, s', ?_, ?_⟩
      · rw [runBody, run_bind, hstep]
      · exact .intro (List.nil_append _).symm (.pure _ _) rfl hinputs hfails

/-- How a run on an argument ends that never wants for a value: the argument is refused,
an instruction fails, or the whole body is bound and the result is one of its values. -/
inductive Ends (g : Graph) (argument : Option Value) (s : σ) :
    Except ExecutionError Value → σ → Prop
  | refused {e : ExecutionError} :
      g.bindArgument argument = .error e → ¬ e.Unbound → Ends g argument s (.error e) s
  | stopped {a : Option Value} {e : ExecutionError} {s' : σ} :
      g.bindArgument argument = .ok a → Stops hook a [] s g.body e s' →
        Ends g argument s (.error e) s'
  | returned {a : Option Value} {env : Environment} {v : Value} {s' : σ} :
      g.bindArgument argument = .ok a → Yields (runBody hook a [] g.body) s env s' →
        Binds env g.body → env.lookup g.resultId = some v →
          Ends g argument s (.ok (v.withNamesOf g.result)) s'

theorem readsBound_bindArgument (g : Graph) (argument : Option Value) :
    ReadsBound (g.bindArgument argument) := by
  unfold bindArgument
  split
  · split
    · exact .ok _
    · exact .error nofun
  · exact .ok _
  · exact .error nofun
  · exact .error nofun

theorem isSome_of_bindArgument {g : Graph} {argument a : Option Value}
    (h : g.bindArgument argument = .ok a) (hp : g.parameter.isSome = true) : a.isSome = true := by
  have hfits := argumentFits_of_bindArgument h
  cases hparameter : g.parameter with
  | none => simp [hparameter] at hp
  | some type =>
    rw [hparameter] at hfits
    cases hfits
    rfl

/-- Whatever a hook answers and whatever the argument, the run of a verified graph
never wants for a value, and unless an instruction fails it binds the ids of the body,
each once, and returns one of their values. -/
theorem executeWith_ends {g : Graph} (hg : g.verify = .ok ()) (argument : Option Value) (s : σ) :
    Ends hook g argument s ((g.executeWith hook argument).run.run s).1
      ((g.executeWith hook argument).run.run s).2 := by
  obtain ⟨-, -, c, hcheck, hresult⟩ := verify_eq_ok_iff.mp hg
  have hids := ids_of_checkInstructions hcheck
  have hnodup := nodup_of_checkInstructions hcheck .nil
  unfold executeWith
  rw [run_bind, ExceptT.run_mk]
  cases hbind : g.bindArgument argument with
  | error e => exact .refused hbind (readsBound_bindArgument g argument e hbind)
  | ok a =>
    change Ends hook g argument s
      ((runBody hook a [] g.body >>= fun env => ExceptT.mk (pure (g.resultOf env))).run.run s).1
      ((runBody hook a [] g.body >>= fun env => ExceptT.mk (pure (g.resultOf env))).run.run s).2
    rw [run_bind]
    have hempty : ([] : Environment).map (·.1) = Checked.empty.defined.map (·.1) := rfl
    rcases runBody_of_checkInstructions hook hcheck (isSome_of_bindArgument hbind) hempty s with
      ⟨env, s', hrun, henv⟩ | ⟨e, s', hrun, hstops⟩
    · have hbinds : Binds env g.body :=
        ⟨by rw [henv, hids]; exact List.append_nil _, henv ▸ hnodup⟩
      have hfound : (env.lookup g.resultId).isSome = true := by
        rw [isSome_lookup_iff, henv, ← isSome_lookup_iff]
        unfold checkResult at hresult
        cases hlookup : c.defined.lookup g.resultId with
        | none => simp [hlookup] at hresult
        | some type => rfl
      obtain ⟨v, hv⟩ := Option.isSome_iff_exists.mp hfound
      have hreturn : g.resultOf env = .ok (v.withNamesOf g.result) := by rw [resultOf, hv]
      rw [hrun]
      simp only [ExceptT.run_mk, hreturn]
      exact .returned hbind hrun hbinds hv
    · rw [hrun]
      exact .stopped hbind hstops

end

/-- Ids need not be in sequence, a value may go unused, and the hook may take over:
it counts the three instructions and answers the negation itself. -/
theorem executeWith_ends_answered :
    (⟨currentVersion, some (.scalar .int32), .scalar .int32,
        [⟨9, .parameter, [], .scalar .int32⟩, ⟨4, .unary .abs, [9], .scalar .int32⟩,
          ⟨7, .unary .neg, [9], .scalar .int32⟩], 7⟩ : Graph).verify = .ok () ∧
      Ends (fun op _ s => (if op = .unary .neg then some (.ok (.int32 41)) else none, s + 1))
        ⟨currentVersion, some (.scalar .int32), .scalar .int32,
          [⟨9, .parameter, [], .scalar .int32⟩, ⟨4, .unary .abs, [9], .scalar .int32⟩,
            ⟨7, .unary .neg, [9], .scalar .int32⟩], 7⟩
        (some (.int32 3)) 0 (.ok (.int32 41)) 3 :=
  ⟨by decide, executeWith_ends _ (by decide) (some (.int32 3)) 0⟩

/-- A hook with a state that leaves every instruction to the interpreter. -/
def silentHook (σ : Type) : Hook (StateM σ) := fun _ _ => pure none

section

variable {σ : Type}

theorem runBody_silentHook (a : Option Value) (env : Environment) (body : List Instruction)
    (s : σ) :
    (runBody (silentHook σ) a env body).run.run s = ((runBody noHook a env body).run, s) := by
  induction body generalizing env with
  | nil => rfl
  | cons i body ih =>
    rw [runBody, run_bind, runBody_cons, runInstruction_noHook]
    cases hinputs : env.operands i.operands with
    | error e =>
      have hstep : (runInstruction (silentHook σ) a env i).run.run s = (.error e, s) := by
        unfold runInstruction
        rw [hinputs]
        rfl
      rw [hstep]
      rfl
    | ok inputs =>
      rw [runInstruction_run hinputs]
      have hasked : (silentHook σ i.op inputs).run s = (none, s) := rfl
      rw [hasked, ok_bind]
      cases i.op.apply a inputs with
      | error e => rfl
      | ok v => exact ih ((i.id, v) :: env)

/-- A run without a hook is a run under the silent one. -/
theorem executeWith_silentHook (g : Graph) (argument : Option Value) (s : σ) :
    (g.executeWith (silentHook σ) argument).run.run s = (g.execute argument, s) := by
  unfold execute executeWith
  rw [run_bind, run_bind_id, ExceptT.run_mk, run_mk_pure_id]
  cases g.bindArgument argument with
  | error e => rfl
  | ok a =>
    change ((runBody (silentHook σ) a [] g.body >>= fun env =>
      ExceptT.mk (pure (g.resultOf env))).run.run s) = _
    rw [run_bind, runBody_silentHook, ok_bind, run_bind_id]
    cases ((runBody noHook a [] g.body).run : Except ExecutionError Environment) <;> rfl

end

end Graph

end GraphFusion
