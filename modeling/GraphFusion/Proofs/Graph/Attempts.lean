import GraphFusion.Proofs.Graph.Copying

/-!
What steps leave behind, also when they fail. A step that fails leaves the builder as it was,
unless it inlines: then the instructions stay that it had copied by then. Either way the builder
only advances, by code in sequence, so that whatever it finishes with afterwards is a graph in
sequence.
-/

namespace GraphFusion

/-- The one builder becomes the other by code in sequence. -/
def Builder.Advances (b b' : Builder) : Prop :=
  ∃ code, CodeInSequence b.body.length code ∧ b' = b.append code

namespace Builder

theorem Advances.refl (b : Builder) : b.Advances b := ⟨[], trivial, by simp [append]⟩

theorem Advances.trans {b b' b'' : Builder} (h : b.Advances b') (h' : b'.Advances b'') :
    b.Advances b'' := by
  obtain ⟨xs, hxs, rfl⟩ := h
  obtain ⟨ys, hys, rfl⟩ := h'
  rw [append_body, List.length_append] at hys
  exact ⟨xs ++ ys, (codeInSequence_append _ _ _).mpr ⟨hxs, hys⟩, append_append _ _ _⟩

theorem InSequence.advance {b b' : Builder} (hb : b.InSequence) (h : b.Advances b') :
    b'.InSequence := by
  obtain ⟨code, hcode, rfl⟩ := h
  exact hb.append hcode

end Builder

namespace Build

variable {α β : Type}

/-- The builder that an action leaves, whether or not it succeeds. -/
def after (action : Build α) (b : Builder) : Builder := (action.run.run b).2

theorem after_bind (x : Build α) (f : α → Build β) (b : Builder) :
    after (x >>= f) b = match x.run.run b with
      | (.ok a, s) => after (f a) s
      | (.error _, s) => s := by
  rw [after, run_bind]
  rcases x.run.run b with ⟨_ | a, s⟩ <;> rfl

/-- Looks at the builder and leaves it. -/
def Reads (x : Build α) : Prop := ∀ b, after x b = b

/-- Leaves the builder as it was when it fails. -/
def Restores (x : Build α) : Prop := ∀ b e s, x.run.run b = (.error e, s) → s = b

theorem reads_pure (a : α) : Reads (pure a : Build α) := fun _ => rfl

theorem reads_fail (fault : GraphFault) : Reads (fail fault : Build α) := fun _ => rfl

theorem Reads.bind {x : Build α} {f : α → Build β} (hx : Reads x) (hf : ∀ a, Reads (f a)) :
    Reads (x >>= f) := by
  intro b
  have h := hx b
  rw [after_bind]
  unfold after at h
  rcases hrun : x.run.run b with ⟨e | a, s⟩
  · rwa [hrun] at h
  · rw [hrun] at h
    exact (hf a s).trans h

theorem Reads.restores {x : Build α} (hx : Reads x) : Restores x := by
  intro b e s h
  have hb := hx b
  rw [after, h] at hb
  exact hb

theorem Reads.bind_restores {x : Build α} {f : α → Build β} (hx : Reads x)
    (hf : ∀ a, Restores (f a)) : Restores (x >>= f) := by
  intro b e s h
  have hb := hx b
  rw [run_bind] at h
  unfold after at hb
  rcases hrun : x.run.run b with ⟨d | a, s'⟩
  · rw [hrun] at h hb
    cases h
    exact hb
  · rw [hrun] at h hb
    exact (hf a s' e s h).trans hb

theorem restores_emit (op : Operation) (operands : List ValueId) (output : Ty) :
    Restores (emit op operands output) := by
  intro b e s h
  cases h

theorem reads_typeOf (id : ValueId) : Reads (typeOf id) := by
  have hget : Reads (get : Build Builder) := fun _ => rfl
  refine hget.bind fun b => ?_
  cases b.typeOf? id with
  | none => exact reads_fail _
  | some type => exact reads_pure type

theorem reads_elementsOf (id : ValueId) : Reads (elementsOf id) :=
  (reads_typeOf id).bind fun type => by cases type <;> first | exact reads_pure _ | exact reads_fail _

theorem reads_tensorTypeOf (id : ValueId) : Reads (tensorTypeOf id) :=
  (reads_typeOf id).bind fun type => by cases type <;> first | exact reads_pure _ | exact reads_fail _

theorem reads_labelledTypes (elements : List (Label × ValueId)) :
    Reads (labelledTypes elements) := by
  induction elements with
  | nil => exact reads_pure _
  | cons e elements ih => exact (reads_typeOf e.2).bind fun type => ih.bind fun types => reads_pure _

theorem reads_renamed (table : Renaming) (ids : List ValueId) : Reads (renamed table ids) := by
  induction ids with
  | nil => exact reads_pure _
  | cons id ids ih =>
    rw [renamed]
    cases table.lookup id with
    | none => exact reads_fail _
    | some new => exact ih.bind fun news => reads_pure _

theorem reads_checkArgument (p : Option Ty) (argument : Option ValueId) :
    Reads (checkArgument p argument) := by
  cases p with
  | none => cases argument <;> first | exact reads_pure _ | exact reads_fail _
  | some expected =>
    cases argument with
    | none => exact reads_fail _
    | some id =>
      refine (reads_typeOf id).bind fun found => ?_
      split
      · exact fun _ => rfl
      · exact reads_pure _

theorem advances_bind {x : Build α} {f : α → Build β} {b : Builder} (hx : b.Advances (after x b))
    (hf : ∀ a s, Yields x b a s → s.Advances (after (f a) s)) :
    b.Advances (after (x >>= f) b) := by
  rw [after_bind]
  unfold after at hx
  rcases hrun : x.run.run b with ⟨e | a, s⟩
  · rw [hrun] at hx
    exact hx
  · rw [hrun] at hx
    exact hx.trans (hf a s hrun)

theorem Reads.advances {x : Build α} (hx : Reads x) (b : Builder) : b.Advances (after x b) := by
  rw [hx b]
  exact .refl b

/-- Copying that breaks off has copied in sequence. -/
theorem advances_inlineBody {argument : Option ValueId} {table : Renaming} {b : Builder}
    (hargument : ∀ a ∈ argument, a < b.body.length) (htable : Below b.body.length table)
    (body : List Instruction) : b.Advances (after (inlineBody argument table body) b) := by
  induction body generalizing table b with
  | nil => exact (reads_pure table).advances b
  | cons i body ih =>
    rw [inlineBody]
    split
    · exact ih hargument (htable.read hargument i.id)
    · rename_i hop
      refine advances_bind ((reads_renamed table i.operands).advances b) fun operands s hs => ?_
      obtain ⟨hoperands, rfl⟩ := yields_renamed.mp hs
      have hemit : s.Advances (s.emit i.op operands i.output) :=
        ⟨[⟨s.body.length, i.op, operands, i.output⟩],
          ⟨⟨rfl, hop, htable.mapM_lookup hoperands⟩, trivial⟩, rfl⟩
      refine advances_bind (x := emit i.op operands i.output) hemit fun id t ht => ?_
      obtain ⟨rfl, rfl⟩ := yields_emit.mp ht
      have hlength : (s.emit i.op operands i.output).body.length = s.body.length + 1 := by
        simp [Builder.emit]
      refine ih (fun a ha => ?_) ?_
      · rw [hlength]
        exact Nat.lt_succ_of_lt (hargument a ha)
      · rw [hlength]
        exact htable.define i.id

theorem advances_inline (g : Graph) (argument : Option ValueId) (b : Builder) :
    b.Advances (after (inline g argument) b) := by
  refine advances_bind ((reads_checkArgument _ _).advances b) fun u s hs => ?_
  obtain ⟨haccepts, rfl⟩ := yields_checkArgument.mp hs
  refine advances_bind (advances_inlineBody (lt_of_accepts haccepts) (below_nil _) g.body)
    fun table t _ => ?_
  cases table.lookup g.resultId with
  | none => exact (reads_fail _).advances t
  | some id => exact (reads_pure _).advances t

end Build

namespace BuildStep

open Build

/-- A step that does not inline leaves the builder as it was when it fails. -/
theorem restores_run {step : BuildStep} (h : ∀ g argument, step ≠ .inline g argument) :
    Restores step.run := by
  cases step with
  | constant tensor => exact restores_emit _ _ _
  | select source index =>
    refine (reads_elementsOf source).bind_restores fun elements => ?_
    split
    · exact restores_emit _ _ _
    · exact (reads_fail _).restores
  | pack elements =>
    exact (reads_labelledTypes elements).bind_restores fun types => restores_emit _ _ _
  | binary op lhs rhs =>
    refine (reads_tensorTypeOf lhs).bind_restores fun l => ?_
    refine (reads_tensorTypeOf rhs).bind_restores fun r => ?_
    split
    · exact restores_emit _ _ _
    · exact Reads.restores fun _ => rfl
  | unary op input =>
    refine (reads_tensorTypeOf input).bind_restores fun type => ?_
    split
    · exact (reads_fail _).restores
    · exact restores_emit _ _ _
  | cast input dtype =>
    exact (reads_tensorTypeOf input).bind_restores fun type => restores_emit _ _ _
  | inline g argument => exact absurd rfl (h g argument)

/-- Every step advances the builder, also one that fails. -/
theorem advances_run (step : BuildStep) (b : Builder) : b.Advances (after step.run b) := by
  by_cases h : ∃ g argument, step = .inline g argument
  · obtain ⟨g, argument, rfl⟩ := h
    exact advances_inline g argument b
  · push Not at h
    rcases hrun : step.run.run.run b with ⟨e | id, s⟩
    · rw [after, hrun, restores_run h b e s hrun]
      exact .refl b
    · obtain ⟨code, hcode, htyped, -⟩ :=
        appends_of_run (fun g argument heq => absurd heq (h g argument)) hrun
      have hsequence := htyped.inSequence
      rw [b.length_types] at hsequence
      rw [after, hrun]
      exact ⟨code, hsequence, hcode⟩

/-- Tries the steps one after the other, going on after one that fails. -/
def attemptAll (steps : List BuildStep) (b : Builder) : Builder :=
  steps.foldl (fun b step => after step.run b) b

theorem advances_attemptAll (steps : List BuildStep) (b : Builder) :
    b.Advances (attemptAll steps b) := by
  induction steps generalizing b with
  | nil => exact .refl b
  | cons step steps ih => exact (advances_run step b).trans (ih _)

/-- Where no step fails, trying the steps is running them. -/
theorem attemptAll_of_runAll {steps : List BuildStep} {b b' : Builder} {u : Unit}
    (h : Yields (runAll steps) b u b') : attemptAll steps b = b' := by
  induction steps generalizing b with
  | nil => exact (yields_pure.mp h).2
  | cons step steps ih =>
    obtain ⟨id, s, hstep, hrest⟩ := yields_bind.mp h
    have hs : after step.run b = s := congrArg Prod.snd hstep
    rw [attemptAll, List.foldl_cons, hs]
    exact ih hrest

end BuildStep

namespace Graph

/-- A graph that a builder finishes with, whatever steps were tried on it before. -/
def Finished (g : Graph) : Prop :=
  ∃ p steps result b,
    Yields (Build.finish result) (BuildStep.attemptAll steps (.start p)) g b

theorem Finished.ofSteps {p : Option Ty} {steps : List BuildStep} {result : ValueId} {g : Graph}
    (h : Graph.ofSteps p steps result = .ok g) : g.Finished := by
  obtain ⟨id, b, type, haction, hid, hverify, rfl⟩ := build_eq_ok.mp h
  obtain ⟨u, s, hsteps, hreturn⟩ := yields_bind.mp haction
  obtain ⟨rfl, rfl⟩ := yields_pure.mp hreturn
  refine ⟨p, steps, result, s, ?_⟩
  rw [BuildStep.attemptAll_of_runAll hsteps]
  exact yields_finish.mpr ⟨type, hid, hverify, rfl, rfl⟩

theorem Finished.inSequence {g : Graph} (h : g.Finished) : g.InSequence := by
  obtain ⟨p, steps, result, b, hfinish⟩ := h
  obtain ⟨type, htype, hverify, rfl, -⟩ := yields_finish.mp hfinish
  have hb := (Builder.inSequence_start p).advance (BuildStep.advances_attemptAll steps _)
  exact hb.toGraph (data_of_verify hverify) htype

end Graph

end GraphFusion
