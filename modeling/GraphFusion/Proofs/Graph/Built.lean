import GraphFusion.Proofs.Graph.Inline

/-!
Graphs built step by step. A graph is built when a script of steps builds it and
every graph that the script inlines is built. Each step keeps a builder sound,
so built graphs are sound; scripts can be put one after the other, which is how
the operations that compose graphs are seen to give built graphs again.
-/

namespace GraphFusion

/-- Graphs that a script builds, inlining built graphs only. -/
inductive Graph.Built : Graph → Prop
  | ofSteps {p : Option Ty} {steps : List BuildStep} {id : ValueId} {g : Graph} :
      (∀ h argument, .inline h argument ∈ steps → Built h) →
        Graph.ofSteps p steps id = .ok g → Built g

namespace Build

theorem yields_emit {op : Operation} {operands : List ValueId} {output : Ty} {b b' : Builder}
    {id : ValueId} : Yields (emit op operands output) b id b' ↔
      id = b.body.length ∧ b' = b.emit op operands output := by
  constructor
  · intro h
    cases h
    exact ⟨rfl, rfl⟩
  · rintro ⟨rfl, rfl⟩
    exact emit_yields op operands output b

theorem yields_typeOf {b b' : Builder} {id : ValueId} {type : Ty} :
    Yields (typeOf id) b type b' ↔ b.types[id]? = some type ∧ b' = b := by
  constructor
  · intro h
    obtain ⟨c, s, hget, htype⟩ := yields_bind.mp h
    obtain ⟨rfl, rfl⟩ := yields_get.mp hget
    split at htype
    · rename_i found hid
      obtain ⟨rfl, rfl⟩ := yields_pure.mp htype
      exact ⟨by rw [← Builder.typeOf?_eq, hid], rfl⟩
    · exact (yields_throw.mp htype).elim
  · rintro ⟨h, rfl⟩
    exact typeOf_yields h

theorem yields_elementsOf {b b' : Builder} {id : ValueId} {elements : List (Label × Ty)} :
    Yields (elementsOf id) b elements b' ↔ b.types[id]? = some (.struct elements) ∧ b' = b := by
  constructor
  · intro h
    obtain ⟨type, s, htype, hk⟩ := yields_bind.mp h
    obtain ⟨hid, rfl⟩ := yields_typeOf.mp htype
    split at hk
    · obtain ⟨rfl, rfl⟩ := yields_pure.mp hk
      exact ⟨hid, rfl⟩
    · exact (yields_throw.mp hk).elim
  · rintro ⟨h, rfl⟩
    exact (typeOf_yields h).bind (.pure _ _)

theorem yields_tensorTypeOf {b b' : Builder} {id : ValueId} {type : TensorType} :
    Yields (tensorTypeOf id) b type b' ↔ b.types[id]? = some (.tensor type) ∧ b' = b := by
  constructor
  · intro h
    obtain ⟨found, s, htype, hk⟩ := yields_bind.mp h
    obtain ⟨hid, rfl⟩ := yields_typeOf.mp htype
    split at hk
    · obtain ⟨rfl, rfl⟩ := yields_pure.mp hk
      exact ⟨hid, rfl⟩
    · exact (yields_throw.mp hk).elim
  · rintro ⟨h, rfl⟩
    exact (typeOf_yields h).bind (.pure _ _)

theorem yields_select {b b' : Builder} {source id : ValueId} {index : Nat} :
    Yields (select source index) b id b' ↔ ∃ elements label type,
      b.types[source]? = some (.struct elements) ∧ elements[index]? = some (label, type) ∧
        id = b.body.length ∧ b' = b.emit (.select index) [source] type := by
  constructor
  · intro h
    obtain ⟨elements, s, helements, hk⟩ := yields_bind.mp h
    obtain ⟨hsource, rfl⟩ := yields_elementsOf.mp helements
    split at hk
    · rename_i label type hindex
      obtain ⟨rfl, rfl⟩ := yields_emit.mp hk
      exact ⟨elements, label, type, hsource, hindex, rfl, rfl⟩
    · exact (yields_throw.mp hk).elim
  · rintro ⟨elements, label, type, hsource, hindex, rfl, rfl⟩
    refine (yields_elementsOf.mpr ⟨hsource, rfl⟩).bind ?_
    rw [hindex]
    exact emit_yields _ _ _ b

theorem yields_labelledTypes {b b' : Builder} {elements : List (Label × ValueId)}
    {types : List (Label × Ty)} :
    Yields (labelledTypes elements) b types b' ↔
      List.Forall₂ (fun e f => e.1 = f.1 ∧ b.types[e.2]? = some f.2) elements types ∧ b' = b := by
  induction elements generalizing types b' with
  | nil =>
    rw [labelledTypes, yields_pure, List.forall₂_nil_left_iff]
    exact ⟨fun h => ⟨h.1.symm, h.2.symm⟩, fun h => ⟨h.1.symm, h.2.symm⟩⟩
  | cons e elements ih =>
    obtain ⟨label, id⟩ := e
    constructor
    · intro h
      obtain ⟨type, s, htype, hk⟩ := yields_bind.mp h
      obtain ⟨hid, rfl⟩ := yields_typeOf.mp htype
      obtain ⟨rest, t, hrest, hm⟩ := yields_bind.mp hk
      obtain ⟨hall, rfl⟩ := ih.mp hrest
      obtain ⟨rfl, rfl⟩ := yields_pure.mp hm
      exact ⟨.cons ⟨rfl, hid⟩ hall, rfl⟩
    · rintro ⟨hall, rfl⟩
      cases hall with
      | @cons _ f _ rest hhead hrest =>
        obtain ⟨flabel, type⟩ := f
        obtain ⟨hlabel, hid⟩ := hhead
        simp only at hlabel
        subst hlabel
        exact (typeOf_yields hid).bind ((ih.mpr ⟨hrest, rfl⟩).bind (.pure _ _))

theorem yields_pack {b b' : Builder} {elements : List (Label × ValueId)} {id : ValueId} :
    Yields (pack elements) b id b' ↔ ∃ types,
      List.Forall₂ (fun e f => e.1 = f.1 ∧ b.types[e.2]? = some f.2) elements types ∧
        id = b.body.length ∧
          b' = b.emit (.pack (elements.map (·.1))) (elements.map (·.2)) (.struct types) := by
  constructor
  · intro h
    obtain ⟨types, s, htypes, hk⟩ := yields_bind.mp h
    obtain ⟨hall, rfl⟩ := yields_labelledTypes.mp htypes
    obtain ⟨rfl, rfl⟩ := yields_emit.mp hk
    exact ⟨types, hall, rfl, rfl⟩
  · rintro ⟨types, hall, rfl, rfl⟩
    exact (yields_labelledTypes.mpr ⟨hall, rfl⟩).bind (emit_yields _ _ _ b)

end Build

/-- Packing gives the struct of the labelled types. -/
theorem Operation.hasType_pack {b : Builder} {elements : List (Label × ValueId)}
    {types : List (Label × Ty)}
    (h : List.Forall₂ (fun e f => e.1 = f.1 ∧ b.types[e.2]? = some f.2) elements types) :
    List.Forall₂ (fun id type => b.types[id]? = some type) (elements.map (·.2))
        (types.map (·.2)) ∧
      (Operation.pack (elements.map (·.1))).HasType (types.map (·.2)) (.struct types) := by
  constructor
  · rw [List.forall₂_map_left_iff, List.forall₂_map_right_iff]
    exact h.imp fun e f hef => hef.2
  · have hzip : (types.map (·.1)).zip (types.map (·.2)) = types := by
      rw [List.zip_map']
      exact List.map_id types
    rw [map_fst_of_forall₂ h]
    have hpack : (Operation.pack (types.map (·.1))).HasType (types.map (·.2))
        (.struct ((types.map (·.1)).zip (types.map (·.2)))) := .pack (by simp)
    rwa [hzip] at hpack

/-- A constant that the step puts into the graph, itself or with a graph it inlines. -/
def BuildStep.Supplies (step : BuildStep) (tensor : Tensor) : Prop :=
  step = .constant tensor ∨
    ∃ g argument, step = .inline g argument ∧ ∃ i ∈ g.code, i.op = .constant tensor

/-- What a step does to a builder: it appends typed code. -/
theorem BuildStep.appends_of_run {step : BuildStep} {b b' : Builder} {id : ValueId}
    (hinline : ∀ g argument, step = .inline g argument → g.Sound) (h : Yields step.run b id b') :
    ∃ code, b' = b.append code ∧ CodeTyped b.types code ∧
      ∀ i ∈ code, ∀ tensor, i.op = .constant tensor → step.Supplies tensor := by
  cases step with
  | constant tensor =>
    obtain ⟨rfl, rfl⟩ := Build.yields_emit.mp h
    refine ⟨_, rfl, Builder.codeTyped_emit .nil (.constant tensor), ?_⟩
    intro i hi t ht
    obtain rfl := List.mem_singleton.mp hi
    cases ht
    exact .inl rfl
  | select source index =>
    obtain ⟨elements, label, type, hsource, hindex, rfl, rfl⟩ := Build.yields_select.mp h
    exact ⟨_, rfl, Builder.codeTyped_emit (.cons hsource .nil) (.select hindex), by simp⟩
  | pack elements =>
    obtain ⟨types, hall, rfl, rfl⟩ := Build.yields_pack.mp h
    have hpack := Operation.hasType_pack hall
    exact ⟨_, rfl, Builder.codeTyped_emit hpack.1 hpack.2, by simp⟩
  | binary op lhs rhs =>
    obtain ⟨l, s, hl, hk⟩ := yields_bind.mp h
    obtain ⟨hlid, rfl⟩ := Build.yields_tensorTypeOf.mp hl
    obtain ⟨r, t, hr, hm⟩ := yields_bind.mp hk
    obtain ⟨hrid, rfl⟩ := Build.yields_tensorTypeOf.mp hr
    split at hm
    · rename_i type htype
      obtain ⟨rfl, rfl⟩ := Build.yields_emit.mp hm
      exact ⟨_, rfl, Builder.codeTyped_emit (.cons hlid (.cons hrid .nil)) (.binary htype),
        by simp⟩
    · exact (yields_throw.mp hm).elim
  | unary op input =>
    obtain ⟨type, s, htype, hk⟩ := yields_bind.mp h
    obtain ⟨hid, rfl⟩ := Build.yields_tensorTypeOf.mp htype
    split at hk
    · exact (yields_throw.mp hk).elim
    · rename_i hdtype
      obtain ⟨rfl, rfl⟩ := Build.yields_emit.mp hk
      exact ⟨_, rfl, Builder.codeTyped_emit (.cons hid .nil) (.unary hdtype), by simp⟩
  | cast input dtype =>
    obtain ⟨type, s, htype, hk⟩ := yields_bind.mp h
    obtain ⟨hid, rfl⟩ := Build.yields_tensorTypeOf.mp htype
    obtain ⟨rfl, rfl⟩ := Build.yields_emit.mp hk
    exact ⟨_, rfl, Builder.codeTyped_emit (.cons hid .nil) .cast, by simp⟩
  | inline g argument =>
    have hg := hinline g argument rfl
    have haccepts := Build.accepts_of_inline h
    obtain ⟨rfl, rfl⟩ := (Build.inline_yields hg haccepts).unique h
    refine ⟨_, rfl, Builder.codeTyped_inlinedCode hg haccepts, ?_⟩
    intro i hi tensor htensor
    obtain ⟨j, hj, rfl⟩ := List.mem_map.mp hi
    exact .inr ⟨g, argument, rfl, j, hj, htensor⟩

/-- A step keeps a builder sound and its parameter as it is. -/
theorem BuildStep.sound_run {step : BuildStep} {b b' : Builder} {id : ValueId} (hb : b.Sound)
    (hinline : ∀ g argument, step = .inline g argument → g.Sound)
    (h : Yields step.run b id b') : b'.Sound ∧ b'.parameter = b.parameter := by
  obtain ⟨code, rfl, hcode, -⟩ := appends_of_run hinline h
  exact ⟨(hb.append hcode).1, rfl⟩

theorem BuildStep.sound_runAll {steps : List BuildStep} {b b' : Builder} {u : Unit} (hb : b.Sound)
    (hinline : ∀ g argument, .inline g argument ∈ steps → g.Sound)
    (h : Yields (runAll steps) b u b') : b'.Sound ∧ b'.parameter = b.parameter := by
  induction steps generalizing b with
  | nil =>
    obtain ⟨-, rfl⟩ := yields_pure.mp h
    exact ⟨hb, rfl⟩
  | cons step steps ih =>
    obtain ⟨id, s, hstep, hrest⟩ := yields_bind.mp h
    obtain ⟨hs, hparameter⟩ := BuildStep.sound_run hb
      (fun g argument heq => hinline g argument (by simp [heq])) hstep
    obtain ⟨hb', hparameter'⟩ := ih hs (fun g argument hmem => hinline g argument (by simp [hmem]))
      hrest
    exact ⟨hb', hparameter'.trans hparameter⟩

namespace Graph

/-- What one step of verification has checked, and what it records. -/
theorem of_checkInstruction {p : Option Ty} {c c' : Checked} {i : Instruction}
    (h : checkInstruction p c i = .ok c') : i.output.isData = true ∧
      c'.defined = (i.id, i.output) :: c.defined ∧ (i.op = .parameter → p = some i.output) := by
  unfold checkInstruction at h
  cases hoperand : c.undefinedOperand? i with
  | some operand =>
    rw [hoperand] at h
    cases h
  | none =>
    rw [hoperand] at h
    cases hparameter : checkParameter p c i with
    | error e => simp [hparameter] at h
    | ok readsArgument =>
      have hread : i.op = .parameter → p = some i.output := by
        intro hop
        unfold checkParameter at hparameter
        rw [if_pos hop] at hparameter
        split at hparameter
        · cases hparameter
        · split at hparameter
          · cases hparameter
          · split at hparameter
            · cases hparameter
            · rename_i heq
              rw [not_not.mp heq]
      cases hdata : i.output.isData with
      | false =>
        simp [hparameter, hdata] at h
        cases h
      | true =>
        cases hnew : (c.defined.lookup i.id).isSome with
        | true =>
          simp [hparameter, hdata, hnew] at h
          cases h
        | false =>
          simp [hparameter, hdata, hnew] at h
          exact ⟨rfl, by rw [← h], hread⟩

/-- Verification has seen every operand defined before it is used. -/
theorem defined_of_checkInstruction {p : Option Ty} {c c' : Checked} {i : Instruction}
    (h : checkInstruction p c i = .ok c') :
    ∀ operand ∈ i.operands, (c.defined.lookup operand).isSome = true := by
  have hnone : c.undefinedOperand? i = none := by
    cases hoperand : c.undefinedOperand? i with
    | none => rfl
    | some operand =>
      unfold checkInstruction at h
      rw [hoperand] at h
      cases h
  intro operand hmem
  have hdefined := List.find?_eq_none.mp hnone operand hmem
  simpa [Option.isNone_iff_eq_none, Option.isSome_iff_ne_none] using hdefined

theorem isData_of_checkInstructions {p : Option Ty} {body : List Instruction} {c c' : Checked}
    (h : body.foldlM (checkInstruction p) c = .ok c') :
    ∀ i ∈ body, i.output.isData = true := by
  induction body generalizing c with
  | nil => simp
  | cons i body ih =>
    rw [List.foldlM_cons] at h
    obtain ⟨next, hi, hrest⟩ := bind_eq_ok.mp h
    intro j hj
    rcases List.mem_cons.mp hj with rfl | hmem
    · exact (of_checkInstruction hi).1
    · exact ih hrest j hmem

/-- What verification has checked. -/
theorem verify_eq_ok_iff {g : Graph} : g.verify = .ok () ↔
    (∀ type ∈ g.parameter, type.isData = true) ∧ g.result.isData = true ∧
      ∃ c, g.body.foldlM (checkInstruction g.parameter) .empty = .ok c ∧
        g.checkResult c = .ok () := by
  have hchecked : (g.body.foldlM (checkInstruction g.parameter) .empty >>= g.checkResult) = .ok () ↔
      ∃ c, g.body.foldlM (checkInstruction g.parameter) .empty = .ok c ∧
        g.checkResult c = .ok () := bind_eq_ok
  rw [← hchecked]
  unfold verify
  cases g.parameter with
  | none =>
    cases hresult : g.result.isData with
    | false => exact ⟨nofun, fun h => nomatch h.2.1⟩
    | true => exact ⟨fun h => ⟨nofun, rfl, h⟩, fun h => h.2.2⟩
  | some type =>
    cases htype : type.isData with
    | false =>
      simp only [htype]
      exact ⟨nofun, fun h => by simpa [htype] using h.1 type rfl⟩
    | true =>
      simp only [htype]
      cases hresult : g.result.isData with
      | false => exact ⟨nofun, fun h => nomatch h.2.1⟩
      | true => exact ⟨fun h => ⟨by simpa using htype, rfl, h⟩, fun h => h.2.2⟩

/-- A verified graph computes with data only. -/
theorem data_of_verify {g : Graph} (h : g.verify = .ok ()) :
    ∀ type ∈ g.types, type.isData = true := by
  obtain ⟨-, -, c, hc, -⟩ := verify_eq_ok_iff.mp h
  intro type hmem
  obtain ⟨i, hi, rfl⟩ := List.mem_map.mp hmem
  exact isData_of_checkInstructions hc i hi

theorem sound_toGraph {b : Builder} (hb : b.Sound) (hdata : b.Data) {id : ValueId} {type : Ty}
    (hid : b.types[id]? = some type) : (b.toGraph type id).Sound where
  version := rfl
  body_eq := hb.body_eq
  typed := hb.typed
  result_type := hid
  data := hdata

theorem yields_finish {b b' : Builder} {id : ValueId} {g : Graph} :
    Yields (Build.finish id) b g b' ↔
      ∃ type, b.types[id]? = some type ∧ (b.toGraph type id).verify = .ok () ∧
        g = b.toGraph type id ∧ b' = b := by
  constructor
  · intro h
    obtain ⟨type, s, htype, hk⟩ := yields_bind.mp h
    obtain ⟨hid, rfl⟩ := Build.yields_typeOf.mp htype
    obtain ⟨c, t, hget, hm⟩ := yields_bind.mp hk
    obtain ⟨rfl, rfl⟩ := yields_get.mp hget
    obtain ⟨u, r, hverify, hn⟩ := yields_bind.mp hm
    obtain ⟨hverify, rfl⟩ := yields_liftM.mp hverify
    obtain ⟨rfl, rfl⟩ := yields_pure.mp hn
    exact ⟨type, hid, hverify, rfl, rfl⟩
  · rintro ⟨type, hid, hverify, rfl, rfl⟩
    refine (Build.typeOf_yields hid).bind ((yields_get.mpr ⟨rfl, rfl⟩).bind ?_)
    exact (yields_liftM.mpr ⟨hverify, rfl⟩).bind (.pure _ _)

theorem build_eq_ok {p : Option Ty} {action : Build ValueId} {g : Graph} :
    Graph.build p action = .ok g ↔ ∃ id b type, Yields action (.start p) id b ∧
      b.types[id]? = some type ∧ (b.toGraph type id).verify = .ok () ∧
        g = b.toGraph type id := by
  have hyields : Graph.build p action = .ok g ↔
      ∃ b, Yields (action >>= Build.finish) (.start p) g b := by
    unfold Graph.build Yields
    rcases (action >>= Build.finish).run.run (.start p) with ⟨r, b⟩
    constructor
    · intro h
      exact ⟨b, by rw [show r = .ok g from h]⟩
    · rintro ⟨b', h⟩
      cases h
      rfl
  rw [hyields]
  constructor
  · rintro ⟨b, h⟩
    obtain ⟨id, b, haction, hfinish⟩ := yields_bind.mp h
    obtain ⟨type, hid, hverify, hg, -⟩ := yields_finish.mp hfinish
    exact ⟨id, b, type, haction, hid, hverify, hg⟩
  · rintro ⟨id, b, type, haction, hid, hverify, hg⟩
    exact ⟨b, haction.bind (yields_finish.mpr ⟨type, hid, hverify, hg, rfl⟩)⟩

/-- A graph that does not pass verification is not built. -/
theorem build_of_verify_error {p : Option Ty} {action : Build ValueId} {id : ValueId} {b : Builder}
    {type : Ty} {e : GraphError} (haction : Yields action (.start p) id b)
    (hid : b.types[id]? = some type) (hverify : (b.toGraph type id).verify = .error e) :
    Graph.build p action = .error e := by
  have htype : (Build.typeOf id).run.run b = (.ok type, b) := Build.typeOf_yields hid
  have hfinish : (Build.finish id).run.run b = (.error e, b) := by
    rw [Build.finish, run_bind, htype]
    change (liftM (b.toGraph type id).verify >>= fun _ => pure (b.toGraph type id) :
      Build Graph).run.run b = _
    rw [hverify]
    rfl
  have hrun : action.run.run (.start p) = (.ok id, b) := haction
  rw [Graph.build, run_bind, hrun]
  exact congrArg Prod.fst hfinish

/-- Built graphs are sound. -/
theorem Built.sound {g : Graph} (h : g.Built) : g.Sound := by
  induction h with
  | @ofSteps p steps id g _ hrun ih =>
    obtain ⟨r, b, type, haction, hid, hverify, rfl⟩ := build_eq_ok.mp hrun
    obtain ⟨u, s, hsteps, hreturn⟩ := yields_bind.mp haction
    obtain ⟨rfl, rfl⟩ := yields_pure.mp hreturn
    have hs := (BuildStep.sound_runAll (Builder.sound_start p).1 ih hsteps).1
    exact sound_toGraph hs (data_of_verify hverify) hid

end Graph

/-- A script that inlines built graphs only leads from one builder to another. -/
def Builder.Reaches (b b' : Builder) : Prop :=
  ∃ steps, (∀ g argument, .inline g argument ∈ steps → g.Built) ∧
    Yields (BuildStep.runAll steps) b () b'

theorem Builder.Reaches.refl (b : Builder) : b.Reaches b :=
  ⟨[], by simp, yields_pure.mpr ⟨rfl, rfl⟩⟩

theorem BuildStep.runAll_append (xs ys : List BuildStep) {b b' b'' : Builder}
    (hxs : Yields (runAll xs) b () b') (hys : Yields (runAll ys) b' () b'') :
    Yields (runAll (xs ++ ys)) b () b'' := by
  induction xs generalizing b with
  | nil =>
    obtain ⟨-, rfl⟩ := yields_pure.mp hxs
    exact hys
  | cons step xs ih =>
    obtain ⟨id, s, hstep, hrest⟩ := yields_bind.mp hxs
    exact hstep.bind (ih hrest)

theorem Builder.Reaches.trans {b b' b'' : Builder} (h : b.Reaches b') (h' : b'.Reaches b'') :
    b.Reaches b'' := by
  obtain ⟨xs, hxs, hrun⟩ := h
  obtain ⟨ys, hys, hrun'⟩ := h'
  refine ⟨xs ++ ys, ?_, BuildStep.runAll_append xs ys hrun hrun'⟩
  intro g argument hmem
  rcases List.mem_append.mp hmem with hx | hy
  · exact hxs g argument hx
  · exact hys g argument hy

theorem Builder.Reaches.step {b b' : Builder} (step : BuildStep) {id : ValueId}
    (h : Yields step.run b id b') (hinline : ∀ g argument, step = .inline g argument → g.Built) :
    b.Reaches b' := by
  refine ⟨[step], ?_, h.bind (.pure _ _)⟩
  intro g argument hmem
  exact hinline g argument (List.mem_singleton.mp hmem).symm

/-- What an action builds is built, when a script leads to where the action ends. -/
theorem Graph.built_of_reaches {p : Option Ty} {action : Build ValueId} {id : ValueId}
    {b : Builder} {g : Graph} (hreaches : (Builder.start p).Reaches b)
    (haction : Yields action (.start p) id b) (h : Graph.build p action = .ok g) : g.Built := by
  obtain ⟨steps, hinline, hsteps⟩ := hreaches
  obtain ⟨r, s, type, haction', hid, hverify, rfl⟩ := build_eq_ok.mp h
  obtain ⟨rfl, rfl⟩ := haction.unique haction'
  have hrun : Graph.ofSteps p steps id = .ok (b.toGraph type id) := by
    refine build_eq_ok.mpr ⟨id, b, type, ?_, hid, hverify, rfl⟩
    exact hsteps.bind (.pure _ _)
  exact .ofSteps hinline hrun

end GraphFusion
