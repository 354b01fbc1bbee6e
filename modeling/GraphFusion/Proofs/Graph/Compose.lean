import GraphFusion.Graph.Compose
import GraphFusion.Proofs.Graph.Built

/-!
Graphs made of graphs. `Wires` says what appended code computes from values that
are there already; wirings can be put one after the other or side by side, and
one that ends in the returned value says what the finished graph does. From this
follows, for each operation on graphs, when it succeeds and what its graph
returns on every argument.
-/

namespace GraphFusion

theorem gather_append {values ins : List Value} {ids : List ValueId} (tail : List Value)
    (h : gather values ids = .ok ins) : gather (values ++ tail) ids = .ok ins := by
  induction ids generalizing ins with
  | nil => exact h
  | cons id ids ih =>
    rw [gather] at h ⊢
    cases hv : values[id]? with
    | none =>
      rw [hv] at h
      cases h
    | some v =>
      rw [hv] at h
      rw [List.getElem?_append_left (List.getElem?_eq_some_iff.mp hv).1, hv]
      cases hrest : gather values ids with
      | error e =>
        rw [hrest] at h
        cases h
      | ok rest =>
        rw [hrest] at h
        rw [ih hrest]
        exact h

theorem gather_concat {values xs ys : List Value} {ids jds : List ValueId}
    (hids : gather values ids = .ok xs) (hjds : gather values jds = .ok ys) :
    gather values (ids ++ jds) = .ok (xs ++ ys) := by
  induction ids generalizing xs with
  | nil =>
    cases hids
    exact hjds
  | cons id ids ih =>
    rw [List.cons_append, gather]
    rw [gather] at hids
    cases hv : values[id]? with
    | none =>
      rw [hv] at hids
      cases hids
    | some v =>
      rw [hv] at hids
      cases hrest : gather values ids with
      | error e =>
        rw [hrest] at hids
        cases hids
      | ok rest =>
        rw [hrest] at hids
        cases hids
        rw [ih hrest]
        rfl

theorem gather_toList {values ins : List Value} {argument : Option ValueId}
    (h : gather values argument.toList = .ok ins) :
    argument.bind (values[·]?) = ins.head? := by
  cases argument with
  | none =>
    cases h
    rfl
  | some id =>
    rw [Option.toList_some, gather] at h
    cases hv : values[id]? with
    | none =>
      rw [hv] at h
      cases h
    | some v =>
      rw [hv] at h
      cases h
      exact hv

theorem eq_singleton_of_gather {values ins : List Value} {id : ValueId}
    (h : gather values [id] = .ok ins) : ∃ v, ins = [v] := by
  rw [gather] at h
  cases hv : values[id]? with
  | none =>
    rw [hv] at h
    cases h
  | some v =>
    rw [hv] at h
    cases h
    exact ⟨v, rfl⟩

namespace Builder

theorem data_start {p : Option Ty} (hp : ∀ type ∈ p, type.isData = true) : (start p).Data := by
  intro type hmem
  rw [types_start] at hmem
  exact hp type (by simpa using hmem)

theorem Data.append {b : Builder} (hb : b.Data) {code : List Instruction}
    (hcode : ∀ i ∈ code, i.output.isData = true) : (b.append code).Data := by
  intro type hmem
  rw [types_append] at hmem
  rcases List.mem_append.mp hmem with hold | hnew
  · exact hb type hold
  · obtain ⟨i, hi, rfl⟩ := List.mem_map.mp hnew
    exact hcode i hi

theorem getElem?_types_append {b : Builder} {id : ValueId} {type : Ty}
    (h : b.types[id]? = some type) (code : List Instruction) :
    (b.append code).types[id]? = some type := by
  rw [types_append, List.getElem?_append_left (List.getElem?_eq_some_iff.mp h).1, h]

theorem getElem?_types_emit (b : Builder) (op : Operation) (operands : List ValueId)
    (output : Ty) : (b.emit op operands output).types[b.body.length]? = some output := by
  rw [emit, types_append, ← length_types]
  simp

/-- Code that a script can append and that computes the values `outputs` from the
values `inputs`. -/
structure Wires (b : Builder) (code : List Instruction) (inputs outputs : List ValueId)
    (f : List Value → Except ExecutionError (List Value)) : Prop where
  reaches : b.Reaches (b.append code)
  typed : CodeTyped b.types code
  data : ∀ i ∈ code, i.output.isData = true
  run : ∀ a values ins, List.Forall₂ Value.HasType values b.types →
    gather values inputs = .ok ins →
      (∃ e, f ins = .error e ∧ evalCode a values code = .error e) ∨
      ∃ outs tail, f ins = .ok outs ∧ evalCode a values code = .ok (values ++ tail) ∧
        gather (values ++ tail) outputs = .ok outs

namespace Wires

variable {b : Builder}

/-- No code, but a choice of values that are there. -/
theorem nil (b : Builder) (inputs outputs : List ValueId)
    {f : List Value → Except ExecutionError (List Value)}
    (h : ∀ values ins, gather values inputs = .ok ins →
      ∃ outs, f ins = .ok outs ∧ gather values outputs = .ok outs) :
    b.Wires [] inputs outputs f where
  reaches := by
    rw [show b.append [] = b by simp [append]]
    exact .refl b
  typed := trivial
  data := by simp
  run _ values ins _ hins := by
    obtain ⟨outs, houts, hgather⟩ := h values ins hins
    exact .inr ⟨outs, [], houts, by simp [evalCode], by simpa using hgather⟩

theorem congr {code : List Instruction} {inputs outputs : List ValueId}
    {f g : List Value → Except ExecutionError (List Value)} (hf : b.Wires code inputs outputs f)
    (h : ∀ values ins, List.Forall₂ Value.HasType values b.types →
      gather values inputs = .ok ins → f ins = g ins) : b.Wires code inputs outputs g where
  reaches := hf.reaches
  typed := hf.typed
  data := hf.data
  run a values ins hvalues hins := by
    rw [← h values ins hvalues hins]
    exact hf.run a values ins hvalues hins

/-- The outputs of one wiring feed the next. -/
theorem trans {xs ys : List Instruction} {inputs middle outputs : List ValueId}
    {f g : List Value → Except ExecutionError (List Value)} (hf : b.Wires xs inputs middle f)
    (hg : (b.append xs).Wires ys middle outputs g) :
    b.Wires (xs ++ ys) inputs outputs fun vs => f vs >>= g where
  reaches := by
    have h := hf.reaches.trans hg.reaches
    rwa [append_append] at h
  typed := (codeTyped_append _ _ _).mpr ⟨hf.typed, by rw [← types_append]; exact hg.typed⟩
  data i hi := (List.mem_append.mp hi).elim (hf.data i) (hg.data i)
  run a values ins hvalues hins := by
    rw [evalCode_append]
    rcases hf.run a values ins hvalues hins with ⟨e, hfe, hrun⟩ | ⟨mid, tail, hmid, hrun, hgather⟩
    · exact .inl ⟨e, by rw [hfe, error_bind], by rw [hrun, error_bind]⟩
    · have hnext := evalCode_hasTypes hf.typed hvalues hrun
      rw [← types_append] at hnext
      rw [hmid, hrun, ok_bind, ok_bind]
      rcases hg.run a _ mid hnext hgather with ⟨e, hge, hrun'⟩ | ⟨outs, tail', houts, hrun', hout⟩
      · exact .inl ⟨e, hge, hrun'⟩
      · rw [List.append_assoc] at hrun' hout
        exact .inr ⟨outs, tail ++ tail', houts, hrun', hout⟩

/-- Two wirings of the same inputs, the first run before the second. -/
theorem beside {xs ys : List Instruction} {inputs outputs outputs' : List ValueId}
    {f g : List Value → Except ExecutionError (List Value)} (hf : b.Wires xs inputs outputs f)
    (hg : (b.append xs).Wires ys inputs outputs' g) :
    b.Wires (xs ++ ys) inputs (outputs ++ outputs') fun vs => do
      let us ← f vs
      let ws ← g vs
      return us ++ ws where
  reaches := by
    have h := hf.reaches.trans hg.reaches
    rwa [append_append] at h
  typed := (codeTyped_append _ _ _).mpr ⟨hf.typed, by rw [← types_append]; exact hg.typed⟩
  data i hi := (List.mem_append.mp hi).elim (hf.data i) (hg.data i)
  run a values ins hvalues hins := by
    rw [evalCode_append]
    rcases hf.run a values ins hvalues hins with ⟨e, hfe, hrun⟩ | ⟨us, tail, hus, hrun, hgather⟩
    · exact .inl ⟨e, by rw [hfe, error_bind], by rw [hrun, error_bind]⟩
    · have hnext := evalCode_hasTypes hf.typed hvalues hrun
      rw [← types_append] at hnext
      rw [hus, hrun, ok_bind, ok_bind]
      rcases hg.run a _ ins hnext (gather_append tail hins) with
        ⟨e, hge, hrun'⟩ | ⟨ws, tail', hws, hrun', hout⟩
      · exact .inl ⟨e, by rw [hge, error_bind], hrun'⟩
      · have hkept := gather_append tail' hgather
        rw [List.append_assoc] at hrun' hout hkept
        exact .inr ⟨us ++ ws, tail ++ tail', by rw [hws, ok_bind, pure_eq_ok], hrun',
          gather_concat hkept hout⟩

theorem emit {op : Operation} {operands : List ValueId} {types : List Ty} {output : Ty}
    (hreaches : b.Reaches (b.emit op operands output))
    (hops : List.Forall₂ (fun id type => b.types[id]? = some type) operands types)
    (hop : op.HasType types output) (hdata : output.isData = true) :
    b.Wires [⟨b.body.length, op, operands, output⟩] operands [b.body.length]
      fun vs => (fun v => [v]) <$> op.apply none vs where
  reaches := hreaches
  typed := codeTyped_emit hops hop
  data := by simpa using hdata
  run a values ins hvalues hins := by
    have hlen : values.length = b.body.length := by rw [hvalues.length_eq, length_types]
    simp only [evalCode, hins, ok_bind, Operation.apply_argument hop.ne_parameter a none]
    cases hv : op.apply none ins with
    | error e => exact .inl ⟨e, rfl, rfl⟩
    | ok v => exact .inr ⟨[v], [v], rfl, rfl, by simp [gather, ← hlen, Except.map]⟩

theorem select {source : ValueId} {elements : List (Label × Ty)} {index : Nat} {label : Label}
    {type : Ty} (hdata : b.Data) (hsource : b.types[source]? = some (.struct elements))
    (hindex : elements[index]? = some (label, type)) :
    b.Wires [⟨b.body.length, .select index, [source], type⟩] [source] [b.body.length]
      fun vs => (fun v => [v]) <$> (Operation.select index).apply none vs := by
  apply emit
  · apply Reaches.step (.select source index)
    · exact Build.yields_select.mpr ⟨elements, label, type, hsource, hindex, rfl, rfl⟩
    · intro g argument h
      cases h
  · exact .cons hsource .nil
  · exact .select hindex
  · have hstruct := hdata _ (List.mem_of_getElem? hsource)
    exact (Ty.isData_struct elements).mp hstruct _ (List.mem_of_getElem? hindex)

theorem pack {elements : List (Label × ValueId)} {types : List (Label × Ty)} (hdata : b.Data)
    (h : List.Forall₂ (fun e f => e.1 = f.1 ∧ b.types[e.2]? = some f.2) elements types) :
    b.Wires [⟨b.body.length, .pack (elements.map (·.1)), elements.map (·.2), .struct types⟩]
      (elements.map (·.2)) [b.body.length]
      fun vs => (fun v => [v]) <$> (Operation.pack (elements.map (·.1))).apply none vs := by
  have htyped := Operation.hasType_pack h
  apply emit _ htyped.1 htyped.2
  · apply (Ty.isData_struct types).mpr
    exact forall_of_forall₂ h fun e f _ hef => hdata _ (List.mem_of_getElem? hef.2)
  · apply Reaches.step (.pack elements)
    · exact Build.yields_pack.mpr ⟨types, h, rfl, rfl⟩
    · intro g argument h
      cases h

theorem inline {g : Graph} {argument : Option ValueId} (hg : g.Built)
    (h : b.Accepts g.parameter argument) :
    b.Wires (g.inlinedCode b.body.length argument) argument.toList
      [inlinedId b.body.length argument g.resultId]
      fun vs => (fun v => [v]) <$> g.resultOn vs.head? where
  reaches := by
    apply Reaches.step (.inline g argument) (Build.inline_yields hg.sound h)
    intro g' argument' heq
    cases heq
    exact hg
  typed := codeTyped_inlinedCode hg.sound h
  data i hi := by
    obtain ⟨j, hj, rfl⟩ := List.mem_map.mp hi
    apply hg.sound.data
    rw [hg.sound.types_eq]
    exact List.mem_append_right _ (List.mem_map.mpr ⟨j, hj, rfl⟩)
  run a values ins hvalues hins := by
    have hhead := gather_toList hins
    rcases hg.sound.evalCode_inlined h hvalues a with ⟨e, he, hrun⟩ | ⟨v, tail, hv, hrun, hget⟩
    · rw [hhead] at he
      exact .inl ⟨e, by rw [he]; rfl, hrun⟩
    · rw [hhead] at hv
      exact .inr ⟨[v], tail, by rw [hv]; rfl, hrun, by simp [gather, hget, Except.map]⟩

end Wires

end Builder

namespace Graph

/-- A built graph with the given parameter and result. -/
structure BuiltAs (g : Graph) (parameter : Option Ty) (result : Ty) : Prop where
  built : g.Built
  parameter_eq : g.parameter = parameter
  result_eq : g.result = result

/-- A wiring of the argument to the returned value finishes, and the graph
computes what the wiring does. -/
theorem build_of_wires {p : Option Ty} {action : Build ValueId} {id : ValueId} {b : Builder}
    {code : List Instruction} {result : Ty} {f : List Value → Except ExecutionError (List Value)}
    (hp : ∀ type ∈ p, type.isData = true) (hb : (Builder.start p).append code = b)
    (haction : Yields action (.start p) id b)
    (hwires : (Builder.start p).Wires code (Builder.start p).argument?.toList [id] f)
    (htype : b.types[id]? = some result) :
    ∃ g, Graph.build p action = .ok g ∧ g.BuiltAs p result ∧
      ∀ a, ArgumentFits p a → (fun v => [v]) <$> g.resultOn a = f a.toList := by
  subst hb
  obtain ⟨hsound, hcode⟩ := (Builder.sound_start p).1.append hwires.typed
  have hdata := (Builder.data_start hp).append hwires.data
  have hverify := verify_toGraph hsound hdata htype
  refine ⟨_, build_eq_ok.mpr ⟨id, _, result, haction, htype, hverify, rfl⟩, ?_, ?_⟩
  · refine ⟨?_, Builder.start_parameter p, rfl⟩
    exact built_of_reaches hwires.reaches haction
      (build_eq_ok.mpr ⟨id, _, result, haction, htype, hverify, rfl⟩)
  · intro a ha
    have hvalues : List.Forall₂ Value.HasType a.toList (Builder.start p).types := by
      rw [Builder.types_start]
      exact ha.forall₂
    have hins : gather a.toList (Builder.start p).argument?.toList = .ok a.toList := by
      cases ha <;> rfl
    have hgcode : (((Builder.start p).append code).toGraph result id).code = code := by
      have hstart := (Builder.sound_start p).2
      rw [hstart, List.nil_append] at hcode
      exact hcode
    rcases hwires.run a _ _ hvalues hins with ⟨e, hf, hrun⟩ | ⟨outs, tail, hf, hrun, hout⟩
    · rw [resultOn, valuesOn, hgcode, hrun, hf]
      rfl
    · have hvaluesOn : (((Builder.start p).append code).toGraph result id).valuesOn a =
          .ok (a.toList ++ tail) := by
        rw [valuesOn, hgcode, hrun]
      rw [gather] at hout
      cases hv : (a.toList ++ tail)[id]? with
      | none =>
        rw [hv] at hout
        cases hout
      | some v =>
        rw [hv] at hout
        cases hout
        rw [hf, resultOn_eq_ok hvaluesOn hv, ok_map]

theorem eq_of_singleton {r s : Except ExecutionError Value}
    (h : (fun v => [v]) <$> r = (fun v => [v]) <$> s) : r = s := by
  cases r <;> cases s <;> cases h <;> rfl

theorem identity_spec {type : Ty} (h : type.isData = true) :
    ∃ g, identity type = .ok g ∧ g.BuiltAs (some type) type ∧
      ∀ v, v.HasType type → g.resultOn (some v) = .ok v := by
  have hwires := Builder.Wires.nil (Builder.start (some type)) [0] [0]
    (f := .ok) fun values ins hins => ⟨ins, rfl, hins⟩
  have haction : Yields (return 0 : Build ValueId) (.start (some type)) 0
      ((Builder.start (some type)).append []) := yields_pure.mpr ⟨rfl, rfl⟩
  obtain ⟨g, hg, hbuilt, hrun⟩ := build_of_wires (by simpa using h) rfl haction hwires rfl
  exact ⟨g, hg, hbuilt, fun v hv => eq_of_singleton (hrun (some v) (.some hv))⟩

/-- Packing what a wiring gives. -/
theorem build_pack {p : Option Ty} {action : Build (List (Label × ValueId))}
    {elements : List (Label × ValueId)} {code : List Instruction} {types : List (Label × Ty)}
    {f : List Value → Except ExecutionError (List Value)}
    (hp : ∀ type ∈ p, type.isData = true)
    (haction : Yields action (.start p) elements ((Builder.start p).append code))
    (hwires : (Builder.start p).Wires code (Builder.start p).argument?.toList
      (elements.map (·.2)) f)
    (htypes : List.Forall₂ (fun e f => e.1 = f.1 ∧
      ((Builder.start p).append code).types[e.2]? = some f.2) elements types) :
    ∃ g, Graph.build p (action >>= Build.pack) = .ok g ∧ g.BuiltAs p (.struct types) ∧
      ∀ a, ArgumentFits p a → g.resultOn a =
        f a.toList >>= fun vs => (Operation.pack (types.map (·.1))).apply none vs := by
  have hdata := (Builder.data_start hp).append hwires.data
  have hpack := Builder.Wires.pack hdata htypes
  have hyields := haction.bind (Build.yields_pack.mpr ⟨types, htypes, rfl, rfl⟩)
  obtain ⟨g, hg, hbuilt, hrun⟩ := build_of_wires hp (Builder.append_append _ _ _).symm hyields
    (hwires.trans hpack) (Builder.getElem?_types_emit _ _ _ _)
  refine ⟨g, hg, hbuilt, fun a ha => eq_of_singleton ((hrun a ha).trans ?_)⟩
  rw [map_fst_of_forall₂ htypes]
  cases f a.toList <;> rfl

theorem emptyStruct_spec :
    ∃ g, emptyStruct = .ok g ∧ g.BuiltAs none (.struct []) ∧
      g.resultOn none = .ok (.struct []) := by
  have hwires := Builder.Wires.nil (Builder.start none) [] []
    (f := .ok) fun values ins hins => ⟨ins, rfl, hins⟩
  have haction : Yields (return [] : Build (List (Label × ValueId))) (.start none) []
      ((Builder.start none).append []) := yields_pure.mpr ⟨rfl, rfl⟩
  obtain ⟨g, hg, hbuilt, hrun⟩ := build_pack (by simp) haction hwires .nil
  exact ⟨g, hg, hbuilt, hrun none .none⟩

theorem gather_copies {values ins : List Value} {id : ValueId} (labels : List Label)
    (h : gather values [id] = .ok ins) :
    gather values ((labels.map fun label => (label, id)).map (·.2)) =
      .ok (labels.flatMap fun _ => ins) := by
  induction labels with
  | nil => rfl
  | cons label labels ih => simpa using gather_concat h ih

theorem zip_copies (labels : List Label) (v : Value) :
    labels.zip (labels.flatMap fun _ => [v]) = labels.map fun label => (label, v) := by
  induction labels with
  | nil => rfl
  | cons label labels ih => simp [ih]

/-- Copies of the argument under the given labels. -/
theorem replicate_spec {type : Ty} (h : type.isData = true) (labels : List Label) :
    ∃ g, replicate type labels = .ok g ∧
      g.BuiltAs (some type) (.struct (labels.map fun label => (label, type))) ∧
        ∀ v, v.HasType type →
          g.resultOn (some v) = .ok (.struct (labels.map fun label => (label, v))) := by
  have htypes : List.Forall₂ (fun (e : Label × ValueId) (f : Label × Ty) =>
      e.1 = f.1 ∧ ((Builder.start (some type)).append []).types[e.2]? = some f.2)
      (labels.map fun label => (label, 0)) (labels.map fun label => (label, type)) := by
    rw [List.forall₂_map_left_iff, List.forall₂_map_right_iff, List.forall₂_same]
    intro label _
    exact ⟨rfl, rfl⟩
  have hwires := Builder.Wires.nil (Builder.start (some type)) [0] _
    (f := fun vs => .ok (labels.flatMap fun _ => vs))
    fun values ins hins => ⟨_, rfl, gather_copies labels hins⟩
  have haction : Yields (return labels.map fun label => (label, 0) :
      Build (List (Label × ValueId))) (.start (some type)) _
      ((Builder.start (some type)).append []) := yields_pure.mpr ⟨rfl, rfl⟩
  obtain ⟨g, hg, hbuilt, hrun⟩ := build_pack (by simpa using h) haction hwires htypes
  refine ⟨g, hg, hbuilt, fun v hv => ?_⟩
  rw [hrun (some v) (.some hv)]
  have hlabels : (labels.map fun label => (label, type)).map (·.1) = labels := by
    rw [List.map_map]
    exact List.map_id labels
  simp only [ok_bind, hlabels]
  simp [Operation.apply, zip_copies, List.length_flatMap]

theorem accepts_start {p : Option Ty} :
    (Builder.start p).Accepts p (Builder.start p).argument? := by
  cases p with
  | none => exact .none
  | some type => exact .some rfl

theorem argument?_yields (p : Option Ty) :
    Yields Build.argument? (.start p) (Builder.start p).argument? (.start p) :=
  (yields_get.mpr ⟨rfl, rfl⟩).bind (.pure _ _)

theorem head?_toList (a : Option Value) : a.toList.head? = a := by
  cases a <;> rfl

/-- Element `index` of the value that a graph returns. -/
theorem project_spec {g : Graph} (hg : g.Built) {elements : List (Label × Ty)} {index : Nat}
    {label : Label} {type : Ty} (hresult : g.result = .struct elements)
    (hindex : elements[index]? = some (label, type)) :
    ∃ h, g.project index = .ok h ∧ h.BuiltAs g.parameter type ∧
      ∀ a, ArgumentFits g.parameter a → h.resultOn a =
        g.resultOn a >>= fun v => (Operation.select index).apply none [v] := by
  have hp : ∀ type ∈ g.parameter, type.isData = true := fun type htype =>
    hg.sound.parameter_isData htype
  have haccepts := accepts_start (p := g.parameter)
  have hinline := Builder.Wires.inline hg haccepts
  have hsource := Builder.types_inlined_result hg.sound haccepts
  rw [hresult] at hsource
  have hselect := Builder.Wires.select ((Builder.data_start hp).append hinline.data) hsource hindex
  have hyields : Yields (do
      let result ← Build.inline g (← Build.argument?)
      Build.select result index) (.start g.parameter) _ _ :=
    (argument?_yields _).bind ((Build.inline_yields hg.sound haccepts).bind
      (Build.yields_select.mpr ⟨elements, label, type, hsource, hindex, rfl, rfl⟩))
  obtain ⟨h, hh, hbuilt, hrun⟩ := build_of_wires hp (Builder.append_append _ _ _).symm hyields
    (hinline.trans hselect) (Builder.getElem?_types_emit _ _ _ _)
  refine ⟨h, hh, hbuilt, fun a ha => eq_of_singleton ((hrun a ha).trans ?_)⟩
  rw [head?_toList]
  cases g.resultOn a <;> rfl

/-- The outer graph runs on what the inner one returns. -/
theorem compose_spec {outer inner : Graph} (houter : outer.Built) (hinner : inner.Built)
    (h : outer.parameter = some inner.result) :
    ∃ g, outer.compose inner = .ok g ∧ g.BuiltAs inner.parameter outer.result ∧
      ∀ a, ArgumentFits inner.parameter a → g.resultOn a =
        inner.resultOn a >>= fun v => outer.resultOn (some v) := by
  have hp : ∀ type ∈ inner.parameter, type.isData = true := fun type htype =>
    hinner.sound.parameter_isData htype
  have haccepts := accepts_start (p := inner.parameter)
  have hfirst := Builder.Wires.inline hinner haccepts
  have hmiddle := Builder.types_inlined_result hinner.sound haccepts
  have haccepts' : ((Builder.start inner.parameter).inlined inner
      (Builder.start inner.parameter).argument?).Accepts outer.parameter (some (inlinedId
        (Builder.start inner.parameter).body.length (Builder.start inner.parameter).argument?
          inner.resultId)) := by
    rw [h]
    exact .some hmiddle
  have hsecond := Builder.Wires.inline houter haccepts'
  have hyields : Yields (do
      let intermediate ← Build.inline inner (← Build.argument?)
      Build.inline outer (some intermediate)) (.start inner.parameter) _ _ :=
    (argument?_yields _).bind ((Build.inline_yields hinner.sound haccepts).bind
      (Build.inline_yields houter.sound haccepts'))
  obtain ⟨g, hg, hbuilt, hrun⟩ := build_of_wires hp (Builder.append_append _ _ _).symm hyields
    (hfirst.trans hsecond) (Builder.types_inlined_result houter.sound haccepts')
  refine ⟨g, ?_, hbuilt, fun a ha => eq_of_singleton ((hrun a ha).trans ?_)⟩
  · simp only [compose, h, ne_eq, not_true_eq_false, if_false]
    exact hg
  · rw [head?_toList]
    cases inner.resultOn a <;> rfl

/-- A graph made to take an argument does not look at it. -/
theorem ignoreParameter_spec {g : Graph} (hg : g.Built) (hp : g.parameter = none) {type : Ty}
    (h : type.isData = true) :
    ∃ g', g.ignoreParameter type = .ok g' ∧ g'.BuiltAs (some type) g.result ∧
      ∀ v, v.HasType type → g'.resultOn (some v) = g.resultOn none := by
  have haccepts : (Builder.start (some type)).Accepts g.parameter none := by
    rw [hp]
    exact .none
  have hdrop := Builder.Wires.nil (Builder.start (some type)) [0] []
    (f := fun _ => .ok []) fun values ins _ => ⟨[], rfl, rfl⟩
  have hinline := Builder.Wires.inline hg haccepts
  obtain ⟨g', hg', hbuilt, hrun⟩ := build_of_wires (by simpa using h) rfl
    (Build.inline_yields hg.sound haccepts) (hdrop.trans hinline)
    (Builder.types_inlined_result hg.sound haccepts)
  refine ⟨g', ?_, hbuilt, fun v hv => eq_of_singleton (hrun (some v) (.some hv))⟩
  simp only [ignoreParameter, hp, Option.isSome_none, Bool.false_eq_true, if_false]
  exact hg'

theorem verify_of_parameter {g : Graph} {type : Ty} (hp : g.parameter = some type)
    (h : type.isData = false) : g.verify = .error (.invalid (.parameterNotData type)) := by
  unfold verify
  rw [hp]
  simp only [h]
  rfl

/-- A parameter that is not data cannot be added, even to be ignored. -/
theorem ignoreParameter_error {g : Graph} (hg : g.Built) (hp : g.parameter = none) {type : Ty}
    (h : type.isData = false) :
    g.ignoreParameter type = .error (.invalid (.parameterNotData type)) := by
  have haccepts : (Builder.start (some type)).Accepts g.parameter none := by
    rw [hp]
    exact .none
  simp only [ignoreParameter, hp, Option.isSome_none, Bool.false_eq_true, if_false]
  exact build_of_verify_error (Build.inline_yields hg.sound haccepts)
    (Builder.types_inlined_result hg.sound haccepts) (verify_of_parameter rfl h)

/-- Runs graphs from left to right, each on an argument of its own. -/
def runEach : List (Label × Graph) → List (Option Value) → Except ExecutionError (List Value)
  | (_, g) :: graphs, a :: arguments => do
    let v ← g.resultOn a
    return v :: (← runEach graphs arguments)
  | _, _ => .ok []

/-- The types of the labelled results. -/
def resultTypes (graphs : List (Label × Graph)) : List (Label × Ty) :=
  graphs.map fun part => (part.1, part.2.result)

/-- An element in front of others that are wired after it. -/
theorem forall₂_cons_append {b : Builder} {xs ys : List Instruction} {label : Label}
    {id : ValueId} {type : Ty} {elements : List (Label × ValueId)} {types : List (Label × Ty)}
    (hid : (b.append xs).types[id]? = some type)
    (h : List.Forall₂ (fun e f => e.1 = f.1 ∧
      (((b.append xs).append ys).types[e.2]? = some f.2)) elements types) :
    List.Forall₂ (fun e f => e.1 = f.1 ∧ (b.append (xs ++ ys)).types[e.2]? = some f.2)
      ((label, id) :: elements) ((label, type) :: types) := by
  rw [Builder.append_append] at h
  refine .cons ⟨rfl, ?_⟩ h
  rw [← Builder.append_append]
  exact Builder.getElem?_types_append hid ys

theorem inlineClosed_wires {graphs : List (Label × Graph)}
    (hgraphs : ∀ part ∈ graphs, part.2.Built ∧ part.2.parameter = none) (b : Builder) :
    ∃ elements code, Yields (inlineClosed graphs) b elements (b.append code) ∧
      b.Wires code [] (elements.map (·.2)) (fun _ => runEach graphs (graphs.map fun _ => none)) ∧
      List.Forall₂ (fun e f => e.1 = f.1 ∧ (b.append code).types[e.2]? = some f.2) elements
        (resultTypes graphs) := by
  induction graphs generalizing b with
  | nil =>
    refine ⟨[], [], ?_, .nil b _ _ fun _ _ _ => ⟨[], rfl, rfl⟩, .nil⟩
    exact yields_pure.mpr ⟨rfl, by simp [Builder.append]⟩
  | cons part graphs ih =>
    obtain ⟨label, g⟩ := part
    obtain ⟨hg, hp⟩ := hgraphs _ List.mem_cons_self
    have haccepts : b.Accepts g.parameter none := by
      rw [hp]
      exact .none
    obtain ⟨elements, code, hrun, hwires, htypes⟩ :=
      ih (fun part hmem => hgraphs part (List.mem_cons_of_mem _ hmem)) (b.inlined g none)
    refine ⟨_, _, ?_, ?_, forall₂_cons_append (Builder.types_inlined_result hg.sound haccepts)
      htypes⟩
    · refine (Build.inline_yields hg.sound haccepts).bind (hrun.bind ?_)
      exact yields_pure.mpr ⟨rfl, Builder.append_append _ _ _⟩
    · refine ((Builder.Wires.inline hg haccepts).beside hwires).congr ?_
      intro values ins _ hins
      cases hins
      cases hv : g.resultOn none with
      | error e => simp [runEach, hv]
      | ok v => simp [runEach, hv]

/-- Runs graphs from left to right on successive elements of a struct. -/
def runOnElements (v : Value) : Nat → List (Label × Graph) → Except ExecutionError (List Value)
  | _, [] => .ok []
  | index, (_, g) :: graphs => do
    let a ← (Operation.select index).apply none [v]
    let w ← g.resultOn (some a)
    return w :: (← runOnElements v (index + 1) graphs)

theorem inlineOnElements_wires {source : ValueId} {parameters : List (Label × Ty)} {index : Nat}
    {graphs : List (Label × Graph)} (hgraphs : ∀ part ∈ graphs, part.2.Built)
    (hparameters : List.Forall₂ (fun part p => part.2.parameter = some p.2) graphs
      (parameters.drop index)) {b : Builder} (hdata : b.Data)
    (hsource : b.types[source]? = some (.struct parameters)) :
    ∃ elements code, Yields (inlineOnElements source index graphs) b elements (b.append code) ∧
      b.Wires code [source] (elements.map (·.2))
        (fun vs => vs.head?.elim (.ok []) (runOnElements · index graphs)) ∧
      List.Forall₂ (fun e f => e.1 = f.1 ∧ (b.append code).types[e.2]? = some f.2) elements
        (resultTypes graphs) := by
  induction graphs generalizing b index with
  | nil =>
    refine ⟨[], [], ?_, .nil b _ _ fun values ins _ => ⟨[], ?_, rfl⟩, .nil⟩
    · exact yields_pure.mpr ⟨rfl, by simp [Builder.append]⟩
    · cases ins <;> rfl
  | cons part graphs ih =>
    obtain ⟨label, g⟩ := part
    have hg := hgraphs _ List.mem_cons_self
    obtain ⟨⟨plabel, type⟩, hindex, hp, hrest⟩ := exists_cons_of_forall₂_drop hparameters
    have hselect := Builder.Wires.select hdata hsource hindex
    have haccepts : (b.emit (.select index) [source] type).Accepts g.parameter
        (some b.body.length) := by
      rw [hp]
      exact .some (Builder.getElem?_types_emit _ _ _ _)
    have hfirst := hselect.trans (Builder.Wires.inline hg haccepts)
    have hsource' := Builder.getElem?_types_append (Builder.getElem?_types_append hsource
      [⟨b.body.length, .select index, [source], type⟩])
        (g.inlinedCode (b.emit (.select index) [source] type).body.length (some b.body.length))
    have hstate := Builder.append_append b [⟨b.body.length, .select index, [source], type⟩]
      (g.inlinedCode (b.emit (.select index) [source] type).body.length (some b.body.length))
    obtain ⟨elements, code, hrun, hwires, htypes⟩ := ih
      (fun part hmem => hgraphs part (List.mem_cons_of_mem _ hmem)) hrest
      (by rw [hstate]; exact hdata.append hfirst.data) hsource'
    rw [hstate] at hwires htypes
    have hid := Builder.types_inlined_result hg.sound haccepts
    change ((b.append [⟨b.body.length, .select index, [source], type⟩]).append
      (g.inlinedCode _ _)).types[_]? = _ at hid
    rw [hstate] at hid
    refine ⟨_, _, ?_, ?_, forall₂_cons_append hid htypes⟩
    · refine (Build.yields_select.mpr
        ⟨parameters, plabel, type, hsource, hindex, rfl, rfl⟩).bind ?_
      refine (Build.inline_yields hg.sound haccepts).bind (hrun.bind ?_)
      refine yields_pure.mpr ⟨rfl, ?_⟩
      rw [hstate, Builder.append_append]
    · refine (hfirst.beside hwires).congr ?_
      intro values ins _ hins
      obtain ⟨v, rfl⟩ := eq_singleton_of_gather hins
      simp only [runOnElements, List.head?_cons, Option.elim_some]
      cases (Operation.select index).apply none [v] with
      | error e => rfl
      | ok a =>
        simp only [ok_map, ok_bind, List.head?_cons]
        cases g.resultOn (some a) with
        | error e => rfl
        | ok w => simp

theorem runOnElements_struct {es : List (Label × Value)} {index : Nat}
    {graphs : List (Label × Graph)} (h : graphs.length = (es.drop index).length) :
    runOnElements (.struct es) index graphs =
      runEach graphs ((es.drop index).map fun e => some e.2) := by
  induction graphs generalizing index with
  | nil => cases es.drop index <;> rfl
  | cons part graphs ih =>
    obtain ⟨label, g⟩ := part
    have hlt : index < es.length := by
      simp only [List.length_cons, List.length_drop] at h
      omega
    have hselect : (Operation.select index).apply none [.struct es] = .ok es[index].2 := by
      simp [Operation.apply, soleInput, Value.element?_struct, hlt]
    rw [List.drop_eq_getElem_cons hlt, List.map_cons, runOnElements, runEach, hselect, ok_bind,
      ih (by simp only [List.length_cons, List.length_drop] at h ⊢; omega)]

theorem length_of_runEach {graphs : List (Label × Graph)} {arguments : List (Option Value)}
    {vs : List Value} (hlen : arguments.length = graphs.length)
    (h : runEach graphs arguments = .ok vs) : vs.length = graphs.length := by
  induction graphs generalizing arguments vs with
  | nil =>
    cases h
    rfl
  | cons part graphs ih =>
    cases arguments with
    | nil => simp at hlen
    | cons a arguments =>
      obtain ⟨v, -, h⟩ := bind_eq_ok.mp h
      obtain ⟨rest, hrest, h⟩ := bind_eq_ok.mp h
      cases h
      simpa using ih (by simpa using hlen) hrest

/-- The labelled results of graphs that run on arguments which fit. -/
theorem hasType_of_runEach {graphs : List (Label × Graph)} {arguments : List (Option Value)}
    {vs : List Value} (h : List.Forall₂ (fun part a => part.2.Sound ∧
      ArgumentFits part.2.parameter a) graphs arguments)
    (hrun : runEach graphs arguments = .ok vs) :
    (Value.struct ((graphs.map (·.1)).zip vs)).HasType (.struct (resultTypes graphs)) := by
  rw [Value.hasType_struct]
  induction h generalizing vs with
  | nil => exact .nil
  | @cons part a graphs arguments hpart _ ih =>
    obtain ⟨v, hv, hrun⟩ := bind_eq_ok.mp hrun
    obtain ⟨rest, hrest, hrun⟩ := bind_eq_ok.mp hrun
    cases hrun
    exact .cons ⟨rfl, hpart.1.resultOn_hasType hpart.2 hv⟩ (ih hrest)

theorem pack_runEach {graphs : List (Label × Graph)} {arguments : List (Option Value)}
    (hlen : arguments.length = graphs.length) :
    (runEach graphs arguments >>= fun vs =>
      (Operation.pack ((resultTypes graphs).map (·.1))).apply none vs) =
        (fun vs => .struct ((graphs.map (·.1)).zip vs)) <$> runEach graphs arguments := by
  have hlabels : (resultTypes graphs).map (·.1) = graphs.map (·.1) := by
    simp [resultTypes]
  cases h : runEach graphs arguments with
  | error e => rfl
  | ok vs =>
    simp [hlabels, Operation.apply, length_of_runEach hlen h]

theorem concatenate_of_none {graphs : List (Label × Graph)} (hne : graphs ≠ [])
    (hnone : ∀ part ∈ graphs, part.2.parameter = none) :
    concatenate graphs = build none (do Build.pack (← inlineClosed graphs)) := by
  have hall : (graphs.all fun x => x.2.parameter.isNone) = true := by
    rw [List.all_eq_true]
    intro part hmem
    rw [hnone part hmem]
    rfl
  have hempty : graphs.isEmpty = false := by simpa using hne
  simp only [concatenate, hempty, Bool.false_eq_true, if_false]
  exact if_pos hall

theorem concatenate_of_some {graphs : List (Label × Graph)} {parameters : List Ty}
    (hne : graphs ≠ [])
    (hparameters : List.Forall₂ (fun part p => part.2.parameter = some p) graphs parameters) :
    concatenate graphs =
      build (some (.tuple parameters)) (do Build.pack (← inlineOnElements 0 0 graphs)) := by
  have hempty : graphs.isEmpty = false := by simpa using hne
  have hall : (graphs.all fun x => x.2.parameter.isNone) = false := by
    cases hparameters with
    | nil => exact absurd rfl hne
    | cons hpart _ => simp [hpart]
  simp only [concatenate, hempty, Bool.false_eq_true, if_false]
  refine (if_neg (by simp [hall])).trans ?_
  rw [mapM_eq_some_iff.mpr hparameters]

/-- Graphs that take nothing, one after the other. -/
theorem concatenate_spec_none {graphs : List (Label × Graph)} (hne : graphs ≠ [])
    (hgraphs : ∀ part ∈ graphs, part.2.Built ∧ part.2.parameter = none) :
    ∃ g, concatenate graphs = .ok g ∧ g.BuiltAs none (.struct (resultTypes graphs)) ∧
      g.resultOn none = (fun vs => .struct ((graphs.map (·.1)).zip vs)) <$>
        runEach graphs (graphs.map fun _ => none) := by
  obtain ⟨elements, code, hrun, hwires, htypes⟩ := inlineClosed_wires hgraphs (.start none)
  obtain ⟨g, hg, hbuilt, hresult⟩ := build_pack (by simp) hrun hwires htypes
  refine ⟨g, ?_, hbuilt, (hresult none .none).trans (pack_runEach (by simp))⟩
  rw [concatenate_of_none hne fun part hmem => (hgraphs part hmem).2]
  exact hg

theorem forall₂_tuple {types : List Ty} {vs : List Value}
    (h : List.Forall₂ Value.HasType vs types) :
    (Value.struct (vs.map fun v => (none, v))).HasType (.tuple types) := by
  rw [Ty.tuple, Value.hasType_struct, List.forall₂_map_left_iff, List.forall₂_map_right_iff]
  exact h.imp fun v type hv => ⟨rfl, hv⟩

/-- Graphs that each take an argument, on the unnamed struct of their arguments. -/
theorem concatenate_spec_some {graphs : List (Label × Graph)} {parameters : List Ty}
    (hne : graphs ≠ [])
    (hgraphs : List.Forall₂ (fun part p => part.2.Built ∧ part.2.parameter = some p) graphs
      parameters) :
    ∃ g, concatenate graphs = .ok g ∧
      g.BuiltAs (some (.tuple parameters)) (.struct (resultTypes graphs)) ∧
        ∀ vs, List.Forall₂ Value.HasType vs parameters →
          g.resultOn (some (.struct (vs.map fun v => (none, v)))) =
            (fun ws => .struct ((graphs.map (·.1)).zip ws)) <$>
              runEach graphs (vs.map some) := by
  have hbuilt : ∀ part ∈ graphs, part.2.Built := by
    intro part hmem
    obtain ⟨n, hn⟩ := List.mem_iff_getElem?.mp hmem
    obtain ⟨p, -, hbuilt, -⟩ := exists_right_of_forall₂ hgraphs hn
    exact hbuilt
  have hdata : (Ty.tuple parameters).isData = true := by
    refine (Ty.isData_tuple _).mpr ?_
    exact forall_of_forall₂ hgraphs fun part p _ h => h.1.sound.parameter_isData h.2
  have hparameters : List.Forall₂ (fun part (p : Label × Ty) => part.2.parameter = some p.2)
      graphs ((parameters.map fun type => (none, type)).drop 0) := by
    rw [List.drop_zero, List.forall₂_map_right_iff]
    exact hgraphs.imp fun part p h => h.2
  have hp : ∀ type ∈ some (Ty.tuple parameters), type.isData = true := by simpa using hdata
  have hsource : (Builder.start (some (Ty.tuple parameters))).types[0]? =
      some (.struct (parameters.map fun type => (none, type))) := rfl
  obtain ⟨elements, code, hrun, hwires, htypes⟩ := inlineOnElements_wires hbuilt hparameters
    (Builder.data_start hp) hsource
  obtain ⟨g, hg, hg', hresult⟩ := build_pack hp hrun hwires htypes
  refine ⟨g, ?_, hg', fun vs hvs => ?_⟩
  · rw [concatenate_of_some hne (hgraphs.imp fun part p h => h.2)]
    exact hg
  · have hlen : vs.length = graphs.length := hvs.length_eq.trans hgraphs.length_eq.symm
    rw [hresult _ (.some (forall₂_tuple hvs))]
    simp only [Option.toList_some, List.head?_cons, Option.elim_some]
    rw [runOnElements_struct (by simp [hlen]), List.drop_zero, List.map_map]
    exact pack_runEach (by simp [hlen])

end Graph

end GraphFusion
