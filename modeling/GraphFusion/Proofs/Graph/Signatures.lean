import GraphFusion.Proofs.Graph.Laws

/-!
When graphs can be put together, and what type the result has. Everything is copied, and what
verification has checked can be copied, so no operation on verified graphs fails while it
builds: types that do not match are all that can go wrong. `Achieves` follows a building action
that succeeds, and each operation is put together from it.
-/

namespace GraphFusion

namespace Builder

variable {α β : Type} {b : Builder}

theorem Advances.getElem?_types {b' : Builder} (h : b.Advances b') {id : ValueId} {type : Ty}
    (hid : b.types[id]? = some type) : b'.types[id]? = some type := by
  obtain ⟨code, -, heq⟩ := h
  subst heq
  exact getElem?_types_append hid code

/-- Run in `b`, the action succeeds, continues `b` by data in sequence and ends where `Q` holds. -/
def Achieves (b : Builder) (action : Build α) (Q : α → Builder → Prop) : Prop :=
  ∃ a b', Yields action b a b' ∧ b.Advances b' ∧ b'.Data ∧ Q a b'

theorem achieves_pure (hdata : b.Data) {a : α} {Q : α → Builder → Prop} (h : Q a b) :
    b.Achieves (pure a) Q :=
  ⟨a, b, .pure a b, .refl b, hdata, h⟩

theorem Achieves.bind {x : Build α} {f : α → Build β} {Q : α → Builder → Prop}
    {R : β → Builder → Prop} (hx : b.Achieves x Q)
    (hf : ∀ a b', b.Advances b' → b'.Data → Q a b' → b'.Achieves (f a) R) :
    b.Achieves (x >>= f) R := by
  obtain ⟨a, b', hrun, hadvances, hdata, ha⟩ := hx
  obtain ⟨c, b'', hrun', hadvances', hdata', hc⟩ := hf a b' hadvances hdata ha
  exact ⟨c, b'', hrun.bind hrun', hadvances.trans hadvances', hdata', hc⟩

/-- One more instruction that does not read the argument. -/
theorem achieves_of_emit {action : Build ValueId} {op : Operation} {operands : List ValueId}
    {output : Ty} (h : Yields action b b.body.length (b.emit op operands output)) (hdata : b.Data)
    (hop : op ≠ .parameter) (hoperands : ∀ id ∈ operands, id < b.body.length)
    (houtput : output.isData = true) :
    b.Achieves action fun id b' => b'.types[id]? = some output := by
  have hcode : CodeInSequence b.body.length [⟨b.body.length, op, operands, output⟩] :=
    ⟨⟨rfl, hop, hoperands⟩, trivial⟩
  have hdata' : (b.emit op operands output).Data := hdata.append (by simpa using houtput)
  exact ⟨_, _, h, ⟨_, hcode, rfl⟩, hdata', getElem?_types_emit b op operands output⟩

theorem achieves_select {source : ValueId} {elements : List (Label × Ty)} {index : Nat}
    {label : Label} {type : Ty} (hdata : b.Data)
    (hsource : b.types[source]? = some (.struct elements))
    (hindex : elements[index]? = some (label, type)) :
    b.Achieves (Build.select source index) fun id b' => b'.types[id]? = some type := by
  have hstruct := (Ty.isData_struct elements).mp (hdata _ (List.mem_of_getElem? hsource))
  have hyields := Build.yields_select.mpr ⟨elements, label, type, hsource, hindex, rfl, rfl⟩
  refine achieves_of_emit hyields hdata nofun ?_ (hstruct _ (List.mem_of_getElem? hindex))
  simpa using lt_of_getElem?_types hsource

/-- The labelled values have the labelled types. -/
abbrev ElementsTyped (b : Builder) (elements : List (Label × ValueId))
    (types : List (Label × Ty)) : Prop :=
  List.Forall₂ (fun e f => e.1 = f.1 ∧ b.types[e.2]? = some f.2) elements types

theorem achieves_pack {elements : List (Label × ValueId)} {types : List (Label × Ty)}
    (hdata : b.Data) (h : b.ElementsTyped elements types) :
    b.Achieves (Build.pack elements) fun id b' => b'.types[id]? = some (.struct types) := by
  refine achieves_of_emit (Build.yields_pack.mpr ⟨types, h, rfl, rfl⟩) hdata nofun ?_ ?_
  · intro id hid
    obtain ⟨e, he, heq⟩ := List.mem_map.mp hid
    subst heq
    obtain ⟨n, hn⟩ := List.mem_iff_getElem?.mp he
    obtain ⟨f, -, -, hf⟩ := exists_right_of_forall₂ h hn
    exact lt_of_getElem?_types hf
  · refine (Ty.isData_struct types).mpr ?_
    exact forall_of_forall₂ h fun e f _ hef => hdata _ (List.mem_of_getElem? hef.2)

/-- Inlining a verified graph on an argument of its type gives a value of its result type. -/
theorem achieves_inline {g : Graph} (hg : g.verify = .ok ()) {argument : Option ValueId}
    (hdata : b.Data) (h : b.Accepts g.parameter argument) :
    b.Achieves (Build.inline g argument) fun id b' => b'.types[id]? = some g.result := by
  obtain ⟨id, code, hrun, hcode⟩ := Build.exists_inline hg h
  obtain ⟨-, hadvances⟩ := Build.inSequence_of_inline hrun
  exact ⟨id, _, hrun, hadvances, hdata.append hcode, Build.types_of_inline hg hrun⟩

/-- Builders that are started give their argument to what follows. -/
theorem achieves_argument {p : Option Ty} {f : Option ValueId → Build α}
    {Q : α → Builder → Prop} (h : (start p).Achieves (f (start p).argument?) Q) :
    (start p).Achieves (Build.argument? >>= f) Q := by
  obtain ⟨a, b', hrun, hrest⟩ := h
  exact ⟨a, b', (Graph.argument?_yields p).bind hrun, hrest⟩

theorem Achieves.build {p : Option Ty} {action : Build ValueId} {result : Ty}
    (h : (start p).Achieves action fun id b' => b'.types[id]? = some result) :
    ∃ k, Graph.build p action = .ok k ∧ k.verify = .ok () ∧ k.type = .function p result := by
  obtain ⟨id, b, hrun, hadvances, hdata, hid⟩ := h
  have hverify :=
    Graph.verify_of_inSequence ((inSequence_start p).advance hadvances) hdata hid
  refine ⟨_, Graph.build_eq_ok.mpr ⟨id, b, result, hrun, hid, hverify, rfl⟩, hverify, ?_⟩
  obtain ⟨code, -, heq⟩ := hadvances
  subst heq
  rw [Graph.type, toGraph, append_parameter, start_parameter]

end Builder

namespace Graph

open Builder

theorem achieves_inlineClosed {graphs : List (Label × Graph)} {b : Builder} (hdata : b.Data)
    (hverify : ∀ part ∈ graphs, part.2.verify = .ok ())
    (hnone : ∀ part ∈ graphs, part.2.parameter = none) :
    b.Achieves (inlineClosed graphs) fun elements b' =>
      b'.ElementsTyped elements (resultTypes graphs) := by
  induction graphs generalizing b with
  | nil => exact achieves_pure hdata .nil
  | cons part graphs ih =>
    obtain ⟨label, g⟩ := part
    obtain ⟨hg, hverify⟩ := List.forall_mem_cons.mp hverify
    obtain ⟨hp, hnone⟩ := List.forall_mem_cons.mp hnone
    have haccepts : b.Accepts g.parameter none := by
      rw [hp]
      exact .none
    refine (achieves_inline hg hdata haccepts).bind fun id s _ hs hid => ?_
    refine (ih hs hverify hnone).bind fun elements t hlater ht hrest => ?_
    exact achieves_pure ht (.cons ⟨rfl, hlater.getElem?_types hid⟩ hrest)

theorem achieves_inlineOnElements {source : ValueId} {parameters : List (Label × Ty)}
    {graphs : List (Label × Graph)} {index : Nat} {b : Builder} (hdata : b.Data)
    (hverify : ∀ part ∈ graphs, part.2.verify = .ok ())
    (hparameters : List.Forall₂ (fun part p => part.2.parameter = some p.2) graphs
      (parameters.drop index))
    (hsource : b.types[source]? = some (.struct parameters)) :
    b.Achieves (inlineOnElements source index graphs) fun elements b' =>
      b'.ElementsTyped elements (resultTypes graphs) := by
  induction graphs generalizing b index with
  | nil => exact achieves_pure hdata .nil
  | cons part graphs ih =>
    obtain ⟨label, g⟩ := part
    obtain ⟨hg, hverify⟩ := List.forall_mem_cons.mp hverify
    obtain ⟨⟨plabel, type⟩, hindex, hp, hrest⟩ := exists_cons_of_forall₂_drop hparameters
    refine (achieves_select hdata hsource hindex).bind fun a s hfirst hs ha => ?_
    have haccepts : s.Accepts g.parameter (some a) := by
      rw [hp]
      exact .some ha
    refine (achieves_inline hg hs haccepts).bind fun id t hsecond ht hid => ?_
    have hsource' := (hfirst.trans hsecond).getElem?_types hsource
    refine (ih ht hverify hrest hsource').bind fun elements u hlater hu hall => ?_
    exact achieves_pure hu (.cons ⟨rfl, hlater.getElem?_types hid⟩ hall)

/-- Succeeds exactly where it is `allowed`, and then with a verified graph of a type that is
`promised`. -/
structure Delivers (outcome : Except GraphError Graph) (allowed : Prop) (promised : Ty → Prop) :
    Prop where
  succeeds : (∃ k, outcome = .ok k) ↔ allowed
  verified : ∀ k, outcome = .ok k → k.verify = .ok ()
  signature : ∀ k, outcome = .ok k → promised k.type

theorem delivers_of_ok {outcome : Except GraphError Graph} {allowed : Prop} {promised : Ty → Prop}
    (hallowed : ∀ k, outcome = .ok k → allowed)
    (hok : allowed → ∃ k, outcome = .ok k ∧ k.verify = .ok () ∧ promised k.type) :
    Delivers outcome allowed promised := by
  have hboth : ∀ k, outcome = .ok k → k.verify = .ok () ∧ promised k.type := by
    intro k hk
    obtain ⟨k', hk', hgood⟩ := hok (hallowed k hk)
    rw [hk] at hk'
    cases hk'
    exact hgood
  refine ⟨⟨?_, ?_⟩, fun k hk => (hboth k hk).1, fun k hk => (hboth k hk).2⟩
  · intro h
    obtain ⟨k, hk⟩ := h
    exact hallowed k hk
  · intro h
    obtain ⟨k, hk, -⟩ := hok h
    exact ⟨k, hk⟩

variable {f g : Graph}

theorem data_start_of_verify (hg : g.verify = .ok ()) : (Builder.start g.parameter).Data :=
  data_start (verify_eq_ok_iff.mp hg).1

theorem compose_delivers (hg : g.verify = .ok ()) (hf : f.verify = .ok ()) :
    Delivers (compose g f) (g.parameter = some f.result)
      (· = .function f.parameter g.result) := by
  refine delivers_of_ok (fun k hk => (compose_eq_ok_iff.mp hk).1) fun hp => ?_
  have haction : (Builder.start f.parameter).Achieves (do
      let intermediate ← Build.inline f (← Build.argument?)
      Build.inline g (some intermediate)) fun id b => b.types[id]? = some g.result := by
    refine achieves_argument ?_
    refine (achieves_inline hf (data_start_of_verify hf) accepts_start).bind
      fun middle b _ hdata hmiddle => ?_
    refine achieves_inline hg hdata ?_
    rw [hp]
    exact .some hmiddle
  simp only [compose, hp, ne_eq, not_true_eq_false, if_false]
  exact haction.build

theorem project_delivers (hg : g.verify = .ok ()) (index : Nat) :
    Delivers (project g index)
      (∃ elements, g.result = .struct elements ∧ index < elements.length)
      fun type => ∃ elements label element, g.result = .struct elements ∧
        elements[index]? = some (label, element) ∧ type = .function g.parameter element := by
  refine delivers_of_ok (fun k hk => ?_) fun h => ?_
  · obtain ⟨elements, label, element, hresult, hindex, -⟩ := (project_eq_ok_iff hg).mp hk
    exact ⟨elements, hresult, (List.getElem?_eq_some_iff.mp hindex).1⟩
  · obtain ⟨elements, hresult, hlt⟩ := h
    have hindex := List.getElem?_eq_getElem hlt
    have haction : (Builder.start g.parameter).Achieves (do
        let result ← Build.inline g (← Build.argument?)
        Build.select result index) fun id b => b.types[id]? = some elements[index].2 := by
      refine achieves_argument ?_
      refine (achieves_inline hg (data_start_of_verify hg) accepts_start).bind
        fun source b _ hdata hsource => ?_
      rw [hresult] at hsource
      exact achieves_select hdata hsource hindex
    obtain ⟨k, hk, hverify, htype⟩ := haction.build
    exact ⟨k, hk, hverify, elements, elements[index].1, elements[index].2, hresult, hindex, htype⟩

/-- What is built by actions that keep the parameter takes data. -/
theorem isData_of_build {type : Ty} {action : Build ValueId} {k : Graph}
    (hkeeps : ∀ id b, Yields action (.start (some type)) id b → b.parameter = some type)
    (hk : Graph.build (some type) action = .ok k) : type.isData = true := by
  obtain ⟨id, b, result, hyields, -, hverify, -⟩ := build_eq_ok.mp hk
  exact (verify_eq_ok_iff.mp hverify).1 type (hkeeps id b hyields)

theorem ignoreParameter_delivers (hg : g.verify = .ok ()) (type : Ty) :
    Delivers (ignoreParameter g type) (g.parameter = none ∧ type.isData = true)
      (· = .function (some type) g.result) := by
  by_cases hp : g.parameter = none
  · have heq : ignoreParameter g type = build (some type) (Build.inline g none) := by
      simp only [ignoreParameter, hp, Option.isSome_none, Bool.false_eq_true, if_false]
    rw [heq]
    refine delivers_of_ok (fun k hk => ⟨hp, isData_of_build (fun id b hyields => ?_) hk⟩)
      fun h => ?_
    · exact ((Builder.inSequence_start (some type)).inline hyields).2
    · have hdata : (Builder.start (some type)).Data := data_start (by simpa using h.2)
      have haccepts : (Builder.start (some type)).Accepts g.parameter none := by
        rw [hp]
        exact .none
      exact (achieves_inline hg hdata haccepts).build
  · have hsome : g.parameter.isSome = true := Option.isSome_iff_ne_none.mpr hp
    refine delivers_of_ok (fun k hk => ?_) fun h => absurd h.1 hp
    rw [ignoreParameter, if_pos hsome] at hk
    cases hk

theorem replicate_delivers (type : Ty) (labels : List Label) :
    Delivers (replicate type labels) (type.isData = true)
      (· = .function (some type) (.struct (labels.map fun label => (label, type)))) := by
  refine delivers_of_ok (fun k hk => isData_of_build (fun id b hyields => ?_) hk) fun h => ?_
  · obtain ⟨types, -, -, heq⟩ := Build.yields_pack.mp hyields
    rw [heq]
    rfl
  · have hdata : (Builder.start (some type)).Data := data_start (by simpa using h)
    have htyped : (Builder.start (some type)).ElementsTyped (labels.map fun label => (label, 0))
        (labels.map fun label => (label, type)) := by
      rw [ElementsTyped, List.forall₂_map_left_iff, List.forall₂_map_right_iff, List.forall₂_same]
      intro label _
      exact ⟨rfl, rfl⟩
    exact (achieves_pack hdata htyped).build

theorem exists_parameters {graphs : List (Label × Graph)}
    (h : ∀ part ∈ graphs, part.2.parameter ≠ none) :
    ∃ parameters, List.Forall₂ (fun part p => part.2.parameter = some p) graphs parameters := by
  induction graphs with
  | nil => exact ⟨[], .nil⟩
  | cons part graphs ih =>
    obtain ⟨hpart, hrest⟩ := List.forall_mem_cons.mp h
    obtain ⟨p, hp⟩ := Option.ne_none_iff_exists'.mp hpart
    obtain ⟨parameters, hall⟩ := ih hrest
    exact ⟨p :: parameters, .cons hp hall⟩

/-- Graphs that are concatenated take a parameter each or none at all. -/
theorem parameters_of_concatenate {graphs : List (Label × Graph)} {k : Graph}
    (hk : concatenate graphs = .ok k) :
    graphs ≠ [] ∧ ((∀ part ∈ graphs, part.2.parameter = none) ∨
      ∀ part ∈ graphs, part.2.parameter ≠ none) := by
  unfold concatenate at hk
  split at hk
  · cases hk
  · rename_i hempty
    refine ⟨by simpa using hempty, ?_⟩
    split at hk
    · rename_i hnone
      exact .inl (by simpa using hnone)
    · split at hk
      · cases hk
      · rename_i parameters hparameters
        refine .inr fun part hmem hpart => ?_
        obtain ⟨n, hn⟩ := List.mem_iff_getElem?.mp hmem
        obtain ⟨p, -, hp⟩ := exists_right_of_forall₂ (mapM_eq_some_iff.mp hparameters) hn
        cases hpart.symm.trans hp

theorem concatenate_delivers {graphs : List (Label × Graph)}
    (hverify : ∀ part ∈ graphs, part.2.verify = .ok ()) :
    Delivers (concatenate graphs)
      (graphs ≠ [] ∧ ((∀ part ∈ graphs, part.2.parameter = none) ∨
        ∀ part ∈ graphs, part.2.parameter ≠ none))
      fun type => ((∀ part ∈ graphs, part.2.parameter = none) ∧
          type = .function none (.struct (resultTypes graphs))) ∨
        ∃ parameters, List.Forall₂ (fun part p => part.2.parameter = some p) graphs parameters ∧
          type = .function (some (.tuple parameters)) (.struct (resultTypes graphs)) := by
  refine delivers_of_ok (fun k hk => parameters_of_concatenate hk) fun h => ?_
  obtain ⟨hne, hnone | hsome⟩ := h
  · have hdata : (Builder.start none).Data := data_start nofun
    have haction := (achieves_inlineClosed hdata hverify hnone).bind
      fun elements b _ hdata helements => achieves_pack hdata helements
    obtain ⟨k, hk, hgood, htype⟩ := haction.build
    rw [concatenate_of_none hne hnone]
    exact ⟨k, hk, hgood, .inl ⟨hnone, htype⟩⟩
  · obtain ⟨parameters, hparameters⟩ := exists_parameters hsome
    have hdata : (Builder.start (some (.tuple parameters))).Data := by
      refine data_start fun type htype => ?_
      cases htype
      refine (Ty.isData_tuple _).mpr ?_
      exact forall_of_forall₂ hparameters fun part p hmem hp =>
        (verify_eq_ok_iff.mp (hverify part hmem)).1 p hp
    have hlabelled : List.Forall₂ (fun part (p : Label × Ty) => part.2.parameter = some p.2)
        graphs ((parameters.map fun type => (none, type)).drop 0) := by
      rw [List.drop_zero, List.forall₂_map_right_iff]
      exact hparameters
    have hsource : (Builder.start (some (.tuple parameters))).types[0]? =
      some (.struct (parameters.map fun type => (none, type))) := rfl
    have haction := (achieves_inlineOnElements hdata hverify hlabelled hsource).bind
      fun elements b _ hdata helements => achieves_pack hdata helements
    obtain ⟨k, hk, hgood, htype⟩ := haction.build
    rw [concatenate_of_some hne hparameters]
    exact ⟨k, hk, hgood, .inr ⟨parameters, hparameters, htype⟩⟩

/-- Operations on verified graphs succeed exactly where the types allow it, and give verified
graphs of the types that they promise. -/
theorem operations_deliver :
    (∀ g f : Graph, g.verify = .ok () → f.verify = .ok () →
      Delivers (compose g f) (g.parameter = some f.result)
        (· = .function f.parameter g.result)) ∧
    (∀ (g : Graph) (index : Nat), g.verify = .ok () →
      Delivers (project g index)
        (∃ elements, g.result = .struct elements ∧ index < elements.length)
        fun type => ∃ elements label element, g.result = .struct elements ∧
          elements[index]? = some (label, element) ∧ type = .function g.parameter element) ∧
    (∀ graphs : List (Label × Graph), (∀ part ∈ graphs, part.2.verify = .ok ()) →
      Delivers (concatenate graphs)
        (graphs ≠ [] ∧ ((∀ part ∈ graphs, part.2.parameter = none) ∨
          ∀ part ∈ graphs, part.2.parameter ≠ none))
        fun type => ((∀ part ∈ graphs, part.2.parameter = none) ∧
            type = .function none (.struct (resultTypes graphs))) ∨
          ∃ parameters, List.Forall₂ (fun part p => part.2.parameter = some p) graphs parameters ∧
            type = .function (some (.tuple parameters)) (.struct (resultTypes graphs))) ∧
    (∀ (g : Graph) (type : Ty), g.verify = .ok () →
      Delivers (ignoreParameter g type) (g.parameter = none ∧ type.isData = true)
        (· = .function (some type) g.result)) ∧
    ∀ (type : Ty) (labels : List Label),
      Delivers (replicate type labels) (type.isData = true)
        (· = .function (some type) (.struct (labels.map fun label => (label, type)))) := by
  refine ⟨?_, ?_, ?_, ?_, ?_⟩
  · intro g f hg hf
    exact compose_delivers hg hf
  · intro g index hg
    exact project_delivers hg index
  · intro graphs hverify
    exact concatenate_delivers hverify
  · intro g type hg
    exact ignoreParameter_delivers hg type
  · intro type labels
    exact replicate_delivers type labels

/-- Bodies that no builder makes: ids with gaps, a value that nothing uses, an argument read late,
and one that is never read. -/
theorem operations_deliver_gaps :
    let number : Ty := .tensor ⟨.int32, ⟨[]⟩⟩
    let pair : Ty := .struct [(some "a", number), (none, number)]
    let constant (id : ValueId) (n : Int32) : Instruction :=
      ⟨id, .constant ⟨[], .int32 [n]⟩, [], number⟩
    let f : Graph := ⟨"fedgraph.v0", none, number, [constant 9 2, constant 4 5], 9⟩
    let g : Graph := ⟨"fedgraph.v1", some number, pair,
      [constant 9 3, ⟨5, .parameter, [], number⟩, ⟨2, .pack [some "a", none], [5, 9], pair⟩], 2⟩
    let h : Graph := ⟨"", some number, number, [constant 7 1], 7⟩
    f.verify = .ok () ∧ g.verify = .ok () ∧ h.verify = .ok () ∧
      (∃ k, compose g f = .ok k ∧ k.verify = .ok () ∧ k.type = .function none pair) ∧
      (∃ k, compose g h = .ok k) ∧ (¬ ∃ k, compose h g = .ok k) ∧
      (∃ k, project g 1 = .ok k) ∧ (¬ ∃ k, project g 2 = .ok k) ∧
      (∃ k, concatenate [(some "x", g), (none, h)] = .ok k) ∧
      (¬ ∃ k, concatenate [(none, f), (none, g)] = .ok k) ∧
      (∃ k, ignoreParameter f pair = .ok k) ∧ (¬ ∃ k, ignoreParameter h pair = .ok k) ∧
      ∃ k, replicate pair [none, some "b"] = .ok k := by
  intro number pair constant f g h
  obtain ⟨hcompose, hproject, hconcatenate, hignore, hreplicate⟩ := operations_deliver
  have hf : f.verify = .ok () := by decide +kernel
  have hg : g.verify = .ok () := by decide +kernel
  have hh : h.verify = .ok () := by decide +kernel
  have hboth : ∀ part ∈ [((some "x" : Label), g), (none, h)], part.2.verify = .ok () := by
    simp [hg, hh]
  have hmixed : ∀ part ∈ [((none : Label), f), (none, g)], part.2.verify = .ok () := by
    simp [hf, hg]
  obtain ⟨k, hk⟩ := (hcompose g f hg hf).succeeds.mpr rfl
  refine ⟨hf, hg, hh, ⟨k, hk, (hcompose g f hg hf).verified k hk,
    (hcompose g f hg hf).signature k hk⟩, (hcompose g h hg hh).succeeds.mpr rfl, ?_,
    (hproject g 1 hg).succeeds.mpr ⟨_, rfl, by decide⟩, ?_,
    (hconcatenate _ hboth).succeeds.mpr ⟨by simp, .inr (by simp [g, h])⟩, ?_,
    (hignore f pair hf).succeeds.mpr ⟨rfl, rfl⟩, ?_, (hreplicate pair _).succeeds.mpr rfl⟩
  · rw [(hcompose h g hh hg).succeeds]
    decide +kernel
  · rw [(hproject g 2 hg).succeeds]
    rintro ⟨elements, heq, hlt⟩
    cases heq
    exact absurd hlt (by decide)
  · rw [(hconcatenate _ hmixed).succeeds]
    simp [f, g]
  · rw [(hignore h pair hh).succeeds]
    exact fun hboth => nomatch hboth.1

end Graph

end GraphFusion
