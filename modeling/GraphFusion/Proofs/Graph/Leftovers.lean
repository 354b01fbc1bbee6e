import GraphFusion.Proofs.Graph.Attempts

/-!
What a failed step leaves behind, exactly. Steps that emit one instruction check everything
before they emit it. Inlining checks its argument, and then copies one instruction after the
other until it meets an operand that it has not copied: what it has copied by then stays, and
later values are numbered after it. That never happens to a verified graph.
-/

namespace GraphFusion

namespace Build

variable {α β : Type} {b : Builder}

theorem after_bind_of_yields {x : Build α} {f : α → Build β} {a : α} {s : Builder}
    (h : Yields x b a s) : after (x >>= f) b = after (f a) s := by
  have hrun : x.run.run b = (.ok a, s) := h
  rw [after_bind, hrun]

theorem after_bind_of_fails {x : Build α} {f : α → Build β} (h : ∀ a s, ¬ Yields x b a s) :
    after (x >>= f) b = after x b := by
  rw [after_bind, after]
  rcases hrun : x.run.run b with ⟨e | a, s⟩
  · rfl
  · exact absurd hrun (h a s)

/-- What only looks at the builder in the end does not change what is left. -/
theorem after_bind_of_reads {x : Build α} {f : α → Build β} (hf : ∀ a, Reads (f a)) :
    after (x >>= f) b = after x b := by
  rw [after_bind, after]
  rcases x.run.run b with ⟨e | a, s⟩
  · rfl
  · exact hf a s

/-- The instructions that inlining has copied when it ends, also where it breaks off. -/
def copied (argument : Option ValueId) : Nat → Renaming → List Instruction → List Instruction
  | _, _, [] => []
  | n, table, i :: rest =>
    if i.op = .parameter then
      copied argument n ((argument.map fun a => (i.id, a)).toList ++ table) rest
    else
      match i.operands.mapM fun id => table.lookup id with
      | none => []
      | some operands =>
        ⟨n, i.op, operands, i.output⟩ :: copied argument (n + 1) ((i.id, n) :: table) rest

theorem after_inlineBody (argument : Option ValueId) (table : Renaming)
    (body : List Instruction) (b : Builder) :
    after (inlineBody argument table body) b =
      b.append (copied argument b.body.length table body) := by
  induction body generalizing table b with
  | nil => simp [inlineBody, copied, Builder.append, reads_pure table b]
  | cons i body ih =>
    rw [inlineBody, copied]
    by_cases hop : i.op = .parameter
    · rw [if_pos hop, if_pos hop]
      exact ih _ b
    · rw [if_neg hop, if_neg hop]
      cases hoperands : i.operands.mapM fun id => table.lookup id with
      | none =>
        have hfails : ∀ operands s, ¬ Yields (renamed table i.operands) b operands s := by
          intro operands s hyields
          have hsome := (yields_renamed.mp hyields).1
          rw [hoperands] at hsome
          cases hsome
        rw [after_bind_of_fails hfails, reads_renamed table i.operands b]
        simp [Builder.append]
      | some operands =>
        have hemit := emit_yields i.op operands i.output b
        have hlength : (b.emit i.op operands i.output).body.length = b.body.length + 1 := by
          simp [Builder.emit]
        rw [after_bind_of_yields (yields_renamed.mpr ⟨hoperands, rfl⟩), after_bind_of_yields hemit,
          ih, hlength, Builder.emit, Builder.append_append]
        rfl

variable {g : Graph} {argument : Option ValueId}

theorem after_inline_of_accepts (h : b.Accepts g.parameter argument) :
    after (inline g argument) b = b.append (copied argument b.body.length [] g.body) := by
  have hcheck : Yields (checkArgument g.parameter argument) b () b := checkArgument_yields h
  rw [inline, after_bind_of_yields hcheck, after_bind_of_reads, after_inlineBody]
  intro table
  cases table.lookup g.resultId with
  | none => exact reads_fail _
  | some id => exact reads_pure id

theorem after_inline_of_not_accepts (h : ¬ b.Accepts g.parameter argument) :
    after (inline g argument) b = b := by
  have hfails : ∀ u s, ¬ Yields (checkArgument g.parameter argument) b u s :=
    fun u s hyields => h (yields_checkArgument.mp hyields).1
  rw [inline, after_bind_of_fails hfails, reads_checkArgument]

end Build

namespace BuildStep

open Build

/-- A step that fails is as good as never tried, unless it inlines a graph that is not verified
on an argument of the right type. Then the instructions stay that it had copied before the first
one that it could not copy, or before it missed the result, and the next value is numbered after
them. -/
theorem leftovers {step : BuildStep} {b s : Builder} {e : GraphError}
    (h : step.run.run.run b = (.error e, s)) :
    (s = b ∧ ∀ rest, attemptAll (step :: rest) b = attemptAll rest b) ∨
      ∃ g argument i code, step = .inline g argument ∧ b.Accepts g.parameter argument ∧
        g.verify ≠ .ok () ∧ copied argument b.body.length [] g.body = i :: code ∧
        s = b.append (i :: code) := by
  have hafter : after step.run b = s := congrArg Prod.snd h
  have hsame : s = b → ∀ rest, attemptAll (step :: rest) b = attemptAll rest b := by
    intro hs rest
    rw [attemptAll, List.foldl_cons, hafter, hs]
    rfl
  by_cases hinline : ∃ g argument, step = .inline g argument
  · obtain ⟨g, argument, hstep⟩ := hinline
    subst hstep
    by_cases haccepts : b.Accepts g.parameter argument
    · have hs := hafter.symm.trans (after_inline_of_accepts haccepts)
      cases hcopied : copied argument b.body.length [] g.body with
      | nil =>
        rw [hcopied] at hs
        have hb : s = b := by simpa [Builder.append] using hs
        exact .inl ⟨hb, hsame hb⟩
      | cons i code =>
        rw [hcopied] at hs
        refine .inr ⟨g, argument, i, code, rfl, haccepts, ?_, hcopied, hs⟩
        -- a verified graph would have been copied to its end
        intro hverify
        obtain ⟨id, code', hyields, -⟩ := exists_inline hverify haccepts
        have hrun : (run (.inline g argument)).run.run b = (.ok id, b.append code') := hyields
        rw [h] at hrun
        cases hrun
    · have hb := hafter.symm.trans (after_inline_of_not_accepts haccepts)
      exact .inl ⟨hb, hsame hb⟩
  · have hb := restores_run (fun g argument heq => hinline ⟨g, argument, heq⟩) b e s h
    exact .inl ⟨hb, hsame hb⟩

/-- Selecting from a tensor leaves nothing. A record that returns a value it does not define leaves
its constant. -/
theorem leftovers_missingResult :
    let number : Ty := .tensor ⟨.int32, ⟨[]⟩⟩
    let one : Operation := .constant ⟨[], .int32 [1]⟩
    let record : Graph := ⟨"fedgraph.v1", none, number, [⟨8, one, [], number⟩], 6⟩
    let b := Builder.start (some number)
    (∀ rest, attemptAll (.select 0 0 :: rest) b = attemptAll rest b) ∧
      (run (.inline record none)).run.run b =
        (.error (.invalid (.inlinedResultUndefined 6)), b.append [⟨1, one, [], number⟩]) ∧
      record.verify ≠ .ok () := by
  intro number one record b
  have hselect : (run (.select 0 0)).run.run b =
      (.error (.invalid (.expectedStruct 0 number)), b) := rfl
  have hinline : (run (.inline record none)).run.run b =
      (.error (.invalid (.inlinedResultUndefined 6)), b.append [⟨1, one, [], number⟩]) := rfl
  obtain ⟨-, hrest⟩ | ⟨g, argument, i, code, heq, -⟩ := leftovers hselect
  · obtain ⟨hsame, -⟩ | ⟨g, argument, i, code, heq, -, hverify, -, -⟩ := leftovers hinline
    · exact absurd (congrArg (·.body.length) hsame) (by decide)
    · cases heq
      exact ⟨hrest, hinline, hverify⟩
  · cases heq

/-- The step after that record takes another number than it would have without it, and value 1
is the constant that was left. -/
theorem leftovers_renumber :
    let number : Ty := .tensor ⟨.int32, ⟨[]⟩⟩
    let one : Operation := .constant ⟨[], .int32 [1]⟩
    let record : Graph := ⟨"fedgraph.v1", none, number, [⟨8, one, [], number⟩], 6⟩
    let b := Builder.start (some number)
    let built (steps : List BuildStep) := ((finish 1).run.run (attemptAll steps b)).1
    ((run (.inline record none)).run.run b).1 = .error (.invalid (.inlinedResultUndefined 6)) ∧
      after (run (.inline record none)) b ≠ b ∧
      built [.unary .neg 0] = .ok ⟨"fedgraph.v1", some number, number,
        [⟨0, .parameter, [], number⟩, ⟨1, .unary .neg, [0], number⟩], 1⟩ ∧
      built [.inline record none, .unary .neg 0] = .ok ⟨"fedgraph.v1", some number, number,
        [⟨0, .parameter, [], number⟩, ⟨1, one, [], number⟩, ⟨2, .unary .neg, [0], number⟩], 1⟩ := by
  intro number one record b built
  refine ⟨rfl, by decide, by decide +kernel, by decide +kernel⟩

end BuildStep

end GraphFusion
