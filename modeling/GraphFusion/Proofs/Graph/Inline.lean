import GraphFusion.Proofs.Graph.Execution

/-!
Inlining. A sound graph inlined in a builder appends its code under new
numbers, with the reading of the argument replaced by a value that is already
there. Run after the values of the builder, the appended code fails where the
graph run on that value fails, and otherwise leaves the graph's result under the
number that inlining returns.
-/

namespace GraphFusion

/-- The entries of `xs` stand in `ys` under their new numbers. -/
def Embeds {α : Type} (ρ : Nat → Nat) (xs ys : List α) : Prop :=
  ∀ n x, xs[n]? = some x → ys[ρ n]? = some x

/-- New numbers from `n` on count up from `m`. -/
def Follows (ρ : Nat → Nat) (n m : Nat) : Prop := ∀ k, ρ (n + k) = m + k

theorem Follows.succ {ρ : Nat → Nat} {n m : Nat} (h : Follows ρ n m) :
    Follows ρ (n + 1) (m + 1) := by
  intro k
  have hk := h (1 + k)
  rw [← Nat.add_assoc] at hk
  omega

theorem Embeds.concat {α : Type} {ρ : Nat → Nat} {xs ys : List α} (h : Embeds ρ xs ys)
    (hρ : Follows ρ xs.length ys.length) (x : α) : Embeds ρ (xs ++ [x]) (ys ++ [x]) := by
  intro n y hn
  rcases Nat.lt_trichotomy n xs.length with hlt | heq | hgt
  · rw [List.getElem?_append_left hlt] at hn
    have hy := h n y hn
    rw [List.getElem?_append_left (List.getElem?_eq_some_iff.mp hy).1]
    exact hy
  · subst heq
    have hnew : ρ xs.length = ys.length := by simpa using hρ 0
    rw [hnew]
    simpa using hn
  · rw [List.getElem?_eq_none (by simp; omega)] at hn
    cases hn

/-- The same instruction under new numbers. -/
def Instruction.renamed (ρ : Nat → Nat) (i : Instruction) : Instruction :=
  ⟨ρ i.id, i.op, i.operands.map ρ, i.output⟩

theorem codeTyped_renamed {ρ : Nat → Nat} {before after : List Ty} {code : List Instruction}
    (hcode : CodeTyped before code) (h : Embeds ρ before after)
    (hρ : Follows ρ before.length after.length) :
    CodeTyped after (code.map (Instruction.renamed ρ)) := by
  induction code generalizing before after with
  | nil => trivial
  | cons i code ih =>
    obtain ⟨⟨hid, types, hops, hop⟩, hrest⟩ := hcode
    refine ⟨⟨?_, types, ?_, hop⟩, ?_⟩
    · rw [Instruction.renamed, hid]
      simpa using hρ 0
    · exact List.forall₂_map_left_iff.mpr (hops.imp fun operand type htype => h operand type htype)
    · apply ih hrest (h.concat hρ i.output)
      simpa using hρ.succ

theorem gather_renamed {ρ : Nat → Nat} {ws us : List Value} {ids : List ValueId}
    (hids : ∀ id ∈ ids, id < ws.length) (h : Embeds ρ ws us) :
    gather us (ids.map ρ) = gather ws ids := by
  induction ids with
  | nil => rfl
  | cons id ids ih =>
    have hlt := hids id (by simp)
    have hget : ws[id]? = some ws[id] := List.getElem?_eq_getElem hlt
    rw [List.map_cons, gather, gather, h id _ hget, hget, ih fun j hj => hids j (by simp [hj])]

theorem evalCode_renamed {ρ : Nat → Nat} {a : Option Value} {before : List Ty}
    {code : List Instruction} {ws us : List Value} (hcode : CodeTyped before code)
    (hlen : ws.length = before.length) (h : Embeds ρ ws us) (hρ : Follows ρ ws.length us.length) :
    (∃ e, evalCode a ws code = .error e ∧
      evalCode a us (code.map (Instruction.renamed ρ)) = .error e) ∨
    ∃ tail, evalCode a ws code = .ok (ws ++ tail) ∧
      evalCode a us (code.map (Instruction.renamed ρ)) = .ok (us ++ tail) ∧
      Embeds ρ (ws ++ tail) (us ++ tail) := by
  induction code generalizing before ws us with
  | nil => exact .inr ⟨[], by simp [evalCode], by simp [evalCode], by simpa using h⟩
  | cons i code ih =>
    obtain ⟨hi, hrest⟩ := hcode
    have hids : ∀ id ∈ i.operands, id < ws.length := fun id hid => by
      rw [hlen]
      exact hi.operand_lt hid
    have hgather : gather us (i.renamed ρ).operands = gather ws i.operands := gather_renamed hids h
    have hop : (i.renamed ρ).op = i.op := rfl
    simp only [List.map_cons, evalCode, hgather, hop]
    cases gather ws i.operands with
    | error e => exact .inl ⟨e, rfl, rfl⟩
    | ok inputs =>
      simp only [ok_bind]
      cases i.op.apply a inputs with
      | error e => exact .inl ⟨e, rfl, rfl⟩
      | ok v =>
        simp only [ok_bind]
        have hρ' : Follows ρ (ws ++ [v]).length (us ++ [v]).length := by simpa using hρ.succ
        rcases ih hrest (by simp [hlen]) (h.concat hρ v) hρ' with
          ⟨e, hws, hus⟩ | ⟨tail, hws, hus, hembeds⟩
        · exact .inl ⟨e, hws, hus⟩
        · refine .inr ⟨v :: tail, ?_, ?_, ?_⟩
          · simpa using hws
          · simpa using hus
          · simpa using hembeds

/-- New number of a value of an inlined graph: the argument has the number of
the value that replaces it, the others count up from `base`. -/
def inlinedId (base : Nat) (argument : Option ValueId) (id : ValueId) : ValueId :=
  match argument with
  | none => base + id
  | some a => if id = 0 then a else base + (id - 1)

theorem follows_inlinedId (base : Nat) (argument : Option ValueId) :
    Follows (inlinedId base argument) argument.toList.length base := by
  intro k
  cases argument with
  | none => simp [inlinedId]
  | some a => simp [inlinedId, Nat.add_comm 1 k]

namespace Graph

/-- The code of a graph as it is appended at `base`. -/
def inlinedCode (g : Graph) (base : Nat) (argument : Option ValueId) : List Instruction :=
  g.code.map (Instruction.renamed (inlinedId base argument))

theorem outputs_inlinedCode (g : Graph) (base : Nat) (argument : Option ValueId) :
    (g.inlinedCode base argument).map (·.output) = g.code.map (·.output) := by
  simp [inlinedCode, Instruction.renamed]

end Graph

namespace Builder

/-- The argument that a graph with a given parameter can be inlined on. -/
inductive Accepts (b : Builder) : Option Ty → Option ValueId → Prop
  | none : Accepts b none none
  | some {type : Ty} {id : ValueId} : b.types[id]? = some type → Accepts b (some type) (some id)

theorem Accepts.length_eq {b : Builder} {p : Option Ty} {argument : Option ValueId}
    (h : b.Accepts p argument) : argument.toList.length = p.toList.length := by
  cases h <;> rfl

/-- The builder after inlining a graph. -/
def inlined (b : Builder) (g : Graph) (argument : Option ValueId) : Builder :=
  b.append (g.inlinedCode b.body.length argument)

theorem codeTyped_inlinedCode {b : Builder} {g : Graph} {argument : Option ValueId}
    (hg : g.Sound) (h : b.Accepts g.parameter argument) :
    CodeTyped b.types (g.inlinedCode b.body.length argument) := by
  apply codeTyped_renamed hg.typed
  · intro n type hn
    generalize g.parameter = p at h hn
    cases h with
    | none => simp at hn
    | @some t id hid =>
      cases n with
      | zero =>
        cases hn
        simpa [inlinedId] using hid
      | succ n => simp at hn
  · rw [← h.length_eq, length_types]
    exact follows_inlinedId _ _

theorem types_inlined (b : Builder) (g : Graph) (argument : Option ValueId) :
    (b.inlined g argument).types = b.types ++ g.code.map (·.output) := by
  rw [inlined, types_append, Graph.outputs_inlinedCode]

/-- The inlined result has the result type of the graph. -/
theorem types_inlined_result {b : Builder} {g : Graph} {argument : Option ValueId}
    (hg : g.Sound) (h : b.Accepts g.parameter argument) :
    (b.inlined g argument).types[inlinedId b.body.length argument g.resultId]? =
      some g.result := by
  have hresult := hg.result_type
  rw [hg.types_eq] at hresult
  rw [types_inlined, ← length_types]
  generalize g.parameter = p at h hresult
  cases h with
  | none =>
    simp only [inlinedId]
    rw [List.getElem?_append_right (by omega), Nat.add_sub_cancel_left]
    simpa using hresult
  | @some t id hid =>
    cases hr : g.resultId with
    | zero =>
      simp only [hr, Option.toList_some, List.singleton_append, List.getElem?_cons_zero,
        Option.some.injEq] at hresult
      simp only [inlinedId, if_true]
      rw [List.getElem?_append_left (List.getElem?_eq_some_iff.mp hid).1, hid, hresult]
    | succ n =>
      simp only [hr, Option.toList_some, List.singleton_append, List.getElem?_cons_succ] at hresult
      simp only [inlinedId, Nat.succ_ne_zero, if_false]
      rw [List.getElem?_append_right (by omega), Nat.add_sub_cancel_left]
      exact hresult

end Builder

namespace Build

theorem emit_yields (op : Operation) (operands : List ValueId) (output : Ty) (b : Builder) :
    Yields (emit op operands output) b b.body.length (b.emit op operands output) := rfl

theorem typeOf_yields {b : Builder} {id : ValueId} {type : Ty} (h : b.types[id]? = some type) :
    Yields (typeOf id) b type b := by
  rw [← Builder.typeOf?_eq] at h
  refine (yields_get.mpr ⟨rfl, rfl⟩).bind ?_
  rw [h]
  exact .pure _ _

theorem renamed_yields {table : Renaming} {ρ : Nat → Nat} {ids : List ValueId} (b : Builder)
    (h : ∀ id ∈ ids, table.lookup id = some (ρ id)) :
    Yields (renamed table ids) b (ids.map ρ) b := by
  induction ids with
  | nil => exact .pure _ _
  | cons id ids ih =>
    rw [renamed, h id (by simp)]
    exact (ih fun j hj => h j (by simp [hj])).bind (.pure _ _)

theorem inlineBody_yields {argument : Option ValueId} {ρ : Nat → Nat} {n : Nat}
    {code : List Instruction} {table : Renaming} {b : Builder} (hcode : CodeInSequence n code)
    (htable : ∀ k < n, table.lookup k = some (ρ k)) (hρ : Follows ρ n b.body.length) :
    ∃ table', Yields (inlineBody argument table code) b table'
        (b.append (code.map (Instruction.renamed ρ))) ∧
      ∀ k < n + code.length, table'.lookup k = some (ρ k) := by
  induction code generalizing n table b with
  | nil =>
    refine ⟨table, yields_pure.mpr ⟨rfl, by simp [Builder.append]⟩, ?_⟩
    simpa using htable
  | cons i code ih =>
    obtain ⟨hi, hrest⟩ := hcode
    have hnew : ρ n = b.body.length := by simpa using hρ 0
    have htable' : ∀ k < n + 1, List.lookup k ((i.id, b.body.length) :: table) = some (ρ k) := by
      intro k hk
      rw [List.lookup_cons, hi.id_eq]
      by_cases heq : k = n
      · simp [heq, hnew]
      · have hne : (k == n) = false := by simpa using heq
        rw [hne]
        exact htable k (by omega)
    have hρ' : Follows ρ (n + 1) (b.emit i.op (i.operands.map ρ) i.output).body.length := by
      simpa [Builder.emit] using hρ.succ
    obtain ⟨table', hrun, hlookup⟩ := ih hrest htable' hρ'
    refine ⟨table', ?_, ?_⟩
    · rw [inlineBody, if_neg hi.ne_parameter]
      refine (renamed_yields b fun id hid => htable id (hi.operand_lt id hid)).bind ?_
      refine (emit_yields _ _ _ b).bind ?_
      have hstate : (b.emit i.op (i.operands.map ρ) i.output).append
          (code.map (Instruction.renamed ρ)) =
            b.append ((i :: code).map (Instruction.renamed ρ)) := by
        rw [Builder.emit, Builder.append_append, ← hnew, ← hi.id_eq]
        rfl
      rw [← hstate]
      exact hrun
    · intro k hk
      apply hlookup
      simp only [List.length_cons] at hk
      omega

theorem checkArgument_yields {b : Builder} {p : Option Ty} {argument : Option ValueId}
    (h : b.Accepts p argument) : Yields (checkArgument p argument) b () b := by
  cases h with
  | none => exact .pure _ _
  | some hid =>
    refine (typeOf_yields hid).bind ?_
    simp only [ne_eq, not_true_eq_false, if_false]
    exact .pure _ _

theorem inlineBody_start_yields {g : Graph} {argument : Option ValueId} {b : Builder}
    (hg : g.InSequence) (h : b.Accepts g.parameter argument) :
    ∃ table, Yields (inlineBody argument [] g.body) b table (b.inlined g argument) ∧
      ∀ n < g.types.length, table.lookup n = some (inlinedId b.body.length argument n) := by
  have hlength : g.types.length = g.parameter.toList.length + g.code.length := by
    rw [hg.types_eq]
    simp
  have hρ : Follows (inlinedId b.body.length argument) g.parameter.toList.length b.body.length := by
    rw [← h.length_eq]
    exact follows_inlinedId _ _
  have hcode := hg.code
  rw [hg.body_eq, hlength]
  unfold Builder.inlined Graph.inlinedCode
  generalize g.parameter = p at *
  cases h with
  | none => exact inlineBody_yields hcode (by simp) hρ
  | @some type id hid =>
    have htable : ∀ n < 1,
        List.lookup n [((0 : Nat), id)] = some (inlinedId b.body.length (some id) n) := by
      intro n hn
      obtain rfl : n = 0 := by simpa using hn
      simp [inlinedId]
    exact inlineBody_yields hcode htable hρ

/-- Inlining a graph in sequence on a value of its parameter type succeeds. -/
theorem inline_yields_of_inSequence {g : Graph} {argument : Option ValueId} {b : Builder}
    (hg : g.InSequence) (h : b.Accepts g.parameter argument) :
    Yields (inline g argument) b (inlinedId b.body.length argument g.resultId)
      (b.inlined g argument) := by
  obtain ⟨table, hrun, hlookup⟩ := inlineBody_start_yields hg h
  refine (checkArgument_yields h).bind (hrun.bind ?_)
  rw [hlookup g.resultId (List.getElem?_eq_some_iff.mp hg.result_type).1]
  exact .pure _ _

/-- Inlining a sound graph on a value of its parameter type succeeds. -/
theorem inline_yields {g : Graph} {argument : Option ValueId} {b : Builder}
    (hg : g.Sound) (h : b.Accepts g.parameter argument) :
    Yields (inline g argument) b (inlinedId b.body.length argument g.resultId)
      (b.inlined g argument) :=
  inline_yields_of_inSequence hg.inSequence h

theorem accepts_of_checkArgument {b b' : Builder} {p : Option Ty} {argument : Option ValueId}
    {u : Unit} (h : Yields (checkArgument p argument) b u b') : b.Accepts p argument := by
  cases p with
  | none =>
    cases argument with
    | none => exact .none
    | some id => exact (yields_throw.mp h).elim
  | some expected =>
    cases argument with
    | none => exact (yields_throw.mp h).elim
    | some id =>
      obtain ⟨found, t, hfound, h⟩ := yields_bind.mp h
      obtain ⟨c, s, hget, htype⟩ := yields_bind.mp hfound
      obtain ⟨rfl, rfl⟩ := yields_get.mp hget
      split at htype
      · rename_i type hid
        obtain ⟨rfl, rfl⟩ := yields_pure.mp htype
        split at h
        · exact (yields_throw.mp h).elim
        · rename_i heq
          rw [Builder.typeOf?_eq] at hid
          simp only [ne_eq, Decidable.not_not] at heq
          subst heq
          exact .some hid
      · exact (yields_throw.mp htype).elim

theorem accepts_of_inline {b b' : Builder} {g : Graph} {argument : Option ValueId} {id : ValueId}
    (h : Yields (inline g argument) b id b') : b.Accepts g.parameter argument := by
  obtain ⟨_, _, hcheck, -⟩ := yields_bind.mp h
  exact accepts_of_checkArgument hcheck

end Build

namespace Graph

/-- The value that an inlined graph runs on. -/
theorem argumentFits_of_accepts {b : Builder} {g : Graph} {argument : Option ValueId}
    {values : List Value} (h : b.Accepts g.parameter argument)
    (hvalues : List.Forall₂ Value.HasType values b.types) :
    ArgumentFits g.parameter (argument.bind (values[·]?)) := by
  generalize g.parameter = p at h
  cases h with
  | none => exact .none
  | @some type id hid =>
    obtain ⟨v, hv, hvtype⟩ := exists_left_of_forall₂ hvalues hid
    rw [Option.bind_some, hv]
    exact .some hvtype

/-- Inlined code fails where the graph fails, and else leaves its result. -/
theorem Sound.evalCode_inlined {b : Builder} {g : Graph} {argument : Option ValueId}
    {values : List Value} (hg : g.Sound) (h : b.Accepts g.parameter argument)
    (hvalues : List.Forall₂ Value.HasType values b.types) (a : Option Value) :
    (∃ e, g.resultOn (argument.bind (values[·]?)) = .error e ∧
      evalCode a values (g.inlinedCode b.body.length argument) = .error e) ∨
    ∃ v tail, g.resultOn (argument.bind (values[·]?)) = .ok v ∧
      evalCode a values (g.inlinedCode b.body.length argument) = .ok (values ++ tail) ∧
      (values ++ tail)[inlinedId b.body.length argument g.resultId]? = some v := by
  have hfits := argumentFits_of_accepts h hvalues
  have hlen : values.length = b.body.length := by rw [hvalues.length_eq, Builder.length_types]
  set x := argument.bind (values[·]?) with hx
  have hembeds : Embeds (inlinedId b.body.length argument) x.toList values := by
    intro n v hn
    generalize g.parameter = p at h
    cases h with
    | none => simp [hx] at hn
    | @some type id hid =>
      simp only [hx, Option.bind_some] at hn
      cases hget : values[id]? with
      | none => simp [hget] at hn
      | some w =>
        rw [hget] at hn
        cases n with
        | zero =>
          cases hn
          simpa [inlinedId] using hget
        | succ n => simp at hn
  have hρ : Follows (inlinedId b.body.length argument) x.toList.length values.length := by
    rw [hfits.length_eq, ← h.length_eq, hlen]
    exact follows_inlinedId _ _
  have hargument := evalCode_argument (Builder.codeTyped_inlinedCode hg h) a x values
  rw [hargument, resultOn, valuesOn]
  rcases evalCode_renamed (a := x) hg.typed hfits.length_eq hembeds hρ with
    ⟨e, hws, hus⟩ | ⟨tail, hws, hus, htail⟩
  · exact .inl ⟨e, by rw [hws, error_bind], hus⟩
  · obtain ⟨v, hv, -⟩ := hg.exists_result hfits hws
    exact .inr ⟨v, tail, by simp [hws, hv], hus, htail _ _ hv⟩

end Graph

end GraphFusion
