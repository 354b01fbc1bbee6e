import GraphFusion.Proofs.Graph.Built

/-!
Inlining as copying. What inlining appends and which number it returns is computed from the
body and a table of numbers alone, whatever else the builder holds. The table only ever names
values that are there, so a builder keeps its values in order even when it inlines a record that
no builder made; and a copy made elsewhere, where values have other numbers, is the same copy
renumbered. Copying follows verification: what the one has checked the other can copy, with the
types that were checked.
-/

namespace GraphFusion

namespace Build

/-- What inlining appends from number `n` on, and the numbers it has given. -/
def copyBody? (argument : Option ValueId) :
    Nat → Renaming → List Instruction → Option (List Instruction × Renaming)
  | _, table, [] => some ([], table)
  | n, table, i :: rest =>
    if i.op = .parameter then
      copyBody? argument n ((argument.map fun a => (i.id, a)).toList ++ table) rest
    else
      (i.operands.mapM fun id => table.lookup id).bind fun operands =>
        (copyBody? argument (n + 1) ((i.id, n) :: table) rest).map fun (code, table) =>
          (⟨n, i.op, operands, i.output⟩ :: code, table)

theorem yields_renamed {table : Renaming} {ids news : List ValueId} {b b' : Builder} :
    Yields (renamed table ids) b news b' ↔
      (ids.mapM fun id => table.lookup id) = some news ∧ b' = b := by
  induction ids generalizing news b' with
  | nil =>
    rw [renamed, yields_pure, List.mapM_nil]
    exact ⟨fun h => ⟨congrArg some h.1, h.2.symm⟩, fun h => ⟨Option.some.inj h.1, h.2.symm⟩⟩
  | cons id ids ih =>
    rw [renamed, List.mapM_cons]
    cases table.lookup id with
    | none =>
      constructor
      · exact fun h => (yields_throw.mp h).elim
      · rintro ⟨h, -⟩
        cases h
    | some new =>
      constructor
      · intro h
        obtain ⟨rest, s, hyields, hpure⟩ := yields_bind.mp h
        obtain ⟨hrest, rfl⟩ := ih.mp hyields
        obtain ⟨rfl, rfl⟩ := yields_pure.mp hpure
        refine ⟨?_, rfl⟩
        rw [hrest]
        rfl
      · rintro ⟨h, rfl⟩
        change (ids.mapM fun id => table.lookup id).bind _ = some news at h
        obtain ⟨rest, hrest, hcons⟩ := Option.bind_eq_some_iff.mp h
        cases hcons
        exact (ih.mpr ⟨hrest, rfl⟩).bind (.pure _ _)

/-- Inlining appends what copying gives. -/
theorem yields_inlineBody {argument : Option ValueId} {body : List Instruction}
    {table table' : Renaming} {b b' : Builder} :
    Yields (inlineBody argument table body) b table' b' ↔
      ∃ code, copyBody? argument b.body.length table body = some (code, table') ∧
        b' = b.append code := by
  induction body generalizing table b with
  | nil =>
    rw [inlineBody, yields_pure]
    constructor
    · rintro ⟨rfl, rfl⟩
      exact ⟨[], rfl, by simp [Builder.append]⟩
    · rintro ⟨code, h, rfl⟩
      cases h
      exact ⟨rfl, by simp [Builder.append]⟩
  | cons i body ih =>
    rw [inlineBody, copyBody?]
    by_cases hop : i.op = .parameter
    · rw [if_pos hop, if_pos hop]
      exact ih
    · rw [if_neg hop, if_neg hop]
      constructor
      · intro h
        obtain ⟨operands, s, hrenamed, hk⟩ := yields_bind.mp h
        obtain ⟨hoperands, rfl⟩ := yields_renamed.mp hrenamed
        obtain ⟨id, t, hemit, hm⟩ := yields_bind.mp hk
        obtain ⟨rfl, rfl⟩ := yields_emit.mp hemit
        obtain ⟨code, hcode, rfl⟩ := ih.mp hm
        have hlength : (s.emit i.op operands i.output).body.length = s.body.length + 1 := by
          simp [Builder.emit]
        rw [hlength] at hcode
        refine ⟨_, ?_, Builder.append_append _ _ _⟩
        rw [hoperands, Option.bind_some, hcode]
        rfl
      · rintro ⟨code, h, rfl⟩
        obtain ⟨operands, hoperands, h⟩ := Option.bind_eq_some_iff.mp h
        obtain ⟨⟨rest, table''⟩, hrest, h⟩ := Option.map_eq_some_iff.mp h
        cases h
        refine (yields_renamed.mpr ⟨hoperands, rfl⟩).bind ((emit_yields _ _ _ b).bind ?_)
        refine ih.mpr ⟨rest, ?_, ?_⟩
        · simpa [Builder.emit] using hrest
        · rw [Builder.emit, Builder.append_append]
          rfl

end Build

namespace Graph

open Build

/-- What inlining the graph appends from number `n` on, and the number of its result. -/
def copy? (g : Graph) (argument : Option ValueId) (n : Nat) :
    Option (List Instruction × ValueId) :=
  (copyBody? argument n [] g.body).bind fun (code, table) =>
    (table.lookup g.resultId).map fun id => (code, id)

end Graph

namespace Build

theorem yields_checkArgument {b b' : Builder} {p : Option Ty} {argument : Option ValueId}
    {u : Unit} : Yields (checkArgument p argument) b u b' ↔ b.Accepts p argument ∧ b' = b := by
  constructor
  · intro h
    have haccepts := accepts_of_checkArgument h
    exact ⟨haccepts, ((checkArgument_yields haccepts).unique h).2.symm⟩
  · rintro ⟨h, rfl⟩
    exact checkArgument_yields h

theorem yields_inline {g : Graph} {argument : Option ValueId} {b b' : Builder} {id : ValueId} :
    Yields (inline g argument) b id b' ↔ b.Accepts g.parameter argument ∧
      ∃ code, g.copy? argument b.body.length = some (code, id) ∧ b' = b.append code := by
  constructor
  · intro h
    obtain ⟨u, s, hcheck, hk⟩ := yields_bind.mp h
    obtain ⟨haccepts, rfl⟩ := yields_checkArgument.mp hcheck
    obtain ⟨table, t, hbody, hm⟩ := yields_bind.mp hk
    obtain ⟨code, hcode, rfl⟩ := yields_inlineBody.mp hbody
    split at hm
    · rename_i new hnew
      obtain ⟨rfl, rfl⟩ := yields_pure.mp hm
      exact ⟨haccepts, code, by simp [Graph.copy?, hcode, hnew], rfl⟩
    · exact (yields_throw.mp hm).elim
  · rintro ⟨haccepts, code, h, rfl⟩
    obtain ⟨⟨copied, table⟩, hcode, h⟩ := Option.bind_eq_some_iff.mp h
    obtain ⟨new, hnew, h⟩ := Option.map_eq_some_iff.mp h
    cases h
    refine (checkArgument_yields haccepts).bind ((yields_inlineBody.mpr ⟨code, hcode, rfl⟩).bind ?_)
    simp only [hnew]
    exact .pure _ _

/-- Every number that a table gives is below `n`. -/
def Below (n : Nat) (table : Renaming) : Prop := ∀ entry ∈ table, entry.2 < n

theorem below_nil (n : Nat) : Below n [] := by
  simp [Below]

theorem Below.lookup_lt {n : Nat} {table : Renaming} (h : Below n table) {id new : ValueId}
    (hid : table.lookup id = some new) : new < n := by
  induction table with
  | nil => cases hid
  | cons entry table ih =>
    obtain ⟨hentry, hrest⟩ := List.forall_mem_cons.mp h
    rw [List.lookup_cons] at hid
    split at hid
    · cases hid
      exact hentry
    · exact ih hrest hid

theorem Below.mapM_lookup {n : Nat} {table : Renaming} (h : Below n table)
    {ids news : List ValueId} (hids : (ids.mapM fun id => table.lookup id) = some news) :
    ∀ new ∈ news, new < n :=
  forall_of_forall₂ (mapM_eq_some_iff.mp hids) fun _ _ _ hnew => h.lookup_lt hnew

theorem Below.mono {m n : Nat} {table : Renaming} (h : Below m table) (hmn : m ≤ n) :
    Below n table := fun entry hentry => Nat.lt_of_lt_of_le (h entry hentry) hmn

theorem Below.read {n : Nat} {table : Renaming} (h : Below n table) {argument : Option ValueId}
    (hargument : ∀ a ∈ argument, a < n) (id : ValueId) :
    Below n ((argument.map fun a => (id, a)).toList ++ table) := by
  cases argument with
  | none => exact h
  | some a => exact List.forall_mem_cons.mpr ⟨hargument a rfl, h⟩

theorem Below.define {n : Nat} {table : Renaming} (h : Below n table) (id : ValueId) :
    Below (n + 1) ((id, n) :: table) :=
  List.forall_mem_cons.mpr ⟨Nat.lt_succ_self n, h.mono (Nat.le_succ n)⟩

/-- Copies are in sequence, whatever is copied. -/
theorem inSequence_of_copyBody? {argument : Option ValueId} {n : Nat} {table table' : Renaming}
    {body code : List Instruction} (h : copyBody? argument n table body = some (code, table'))
    (hargument : ∀ a ∈ argument, a < n) (htable : Below n table) :
    CodeInSequence n code ∧ Below (n + code.length) table' := by
  induction body generalizing n table code with
  | nil =>
    cases h
    exact ⟨trivial, htable⟩
  | cons i body ih =>
    rw [copyBody?] at h
    split at h
    · exact ih h hargument (htable.read hargument i.id)
    · rename_i hop
      obtain ⟨operands, hoperands, h⟩ := Option.bind_eq_some_iff.mp h
      obtain ⟨⟨rest, table''⟩, hrest, h⟩ := Option.map_eq_some_iff.mp h
      cases h
      obtain ⟨hcode, hbelow⟩ := ih hrest
        (fun a ha => Nat.lt_succ_of_lt (hargument a ha)) (htable.define i.id)
      refine ⟨⟨⟨rfl, hop, htable.mapM_lookup hoperands⟩, hcode⟩, ?_⟩
      rw [List.length_cons, Nat.add_comm rest.length 1, ← Nat.add_assoc]
      exact hbelow

theorem lt_of_accepts {b : Builder} {p : Option Ty} {argument : Option ValueId}
    (h : b.Accepts p argument) : ∀ a ∈ argument, a < b.body.length := by
  cases h with
  | none => simp
  | some hid =>
    intro a ha
    cases ha
    exact Builder.lt_of_getElem?_types hid

/-- Whatever is inlined, its copy continues the values of the builder in order. -/
theorem inSequence_of_inline {g : Graph} {argument : Option ValueId} {b b' : Builder}
    {id : ValueId} (h : Yields (inline g argument) b id b') :
    id < b'.body.length ∧ ∃ code, CodeInSequence b.body.length code ∧ b' = b.append code := by
  obtain ⟨haccepts, code, hcopy, rfl⟩ := yields_inline.mp h
  obtain ⟨⟨copied, table⟩, hcode, hid⟩ := Option.bind_eq_some_iff.mp hcopy
  obtain ⟨new, hnew, hid⟩ := Option.map_eq_some_iff.mp hid
  cases hid
  obtain ⟨hsequence, hbelow⟩ := inSequence_of_copyBody? hcode (lt_of_accepts haccepts) (below_nil _)
  refine ⟨?_, code, hsequence, rfl⟩
  have hlt := hbelow.lookup_lt hnew
  rwa [Builder.append_body, List.length_append]

/-- The table with other numbers given. -/
def Renaming.map (ρ : Nat → Nat) (table : Renaming) : Renaming :=
  List.map (fun entry => (entry.1, ρ entry.2)) table

theorem Renaming.lookup_map (ρ : Nat → Nat) (table : Renaming) (id : ValueId) :
    (Renaming.map ρ table).lookup id = (table.lookup id).map ρ := by
  induction table with
  | nil => rfl
  | cons entry table ih =>
    rw [Renaming.map, List.map_cons, List.lookup_cons, List.lookup_cons]
    split
    · rfl
    · exact ih

theorem Renaming.mapM_lookup_map (ρ : Nat → Nat) (table : Renaming) (ids : List ValueId) :
    (ids.mapM fun id => (Renaming.map ρ table).lookup id) =
      (ids.mapM fun id => table.lookup id).map (List.map ρ) := by
  induction ids with
  | nil => rfl
  | cons id ids ih =>
    rw [List.mapM_cons, List.mapM_cons, ih, Renaming.lookup_map]
    cases table.lookup id with
    | none => rfl
    | some new => cases ids.mapM fun id => table.lookup id <;> rfl

/-- A copy made where values have other numbers is the same copy renumbered. -/
theorem copyBody?_map {ρ : Nat → Nat} {n m : Nat} (hρ : Follows ρ n m)
    (argument : Option ValueId) (table : Renaming) (body : List Instruction) :
    copyBody? (argument.map ρ) m (Renaming.map ρ table) body =
      (copyBody? argument n table body).map fun (code, table) =>
        (code.map (Instruction.renamed ρ), Renaming.map ρ table) := by
  induction body generalizing n m table with
  | nil => rfl
  | cons i body ih =>
    rw [copyBody?, copyBody?]
    by_cases hop : i.op = .parameter
    · rw [if_pos hop, if_pos hop, ← ih hρ]
      cases argument <;> rfl
    · have hnew : ρ n = m := by simpa using hρ 0
      have htable : ((i.id, m) :: Renaming.map ρ table) = Renaming.map ρ ((i.id, n) :: table) := by
        rw [← hnew]
        rfl
      rw [if_neg hop, if_neg hop, Renaming.mapM_lookup_map, htable, ih hρ.succ]
      cases i.operands.mapM fun id => table.lookup id with
      | none => rfl
      | some operands =>
        cases copyBody? argument (n + 1) ((i.id, n) :: table) body with
        | none => rfl
        | some copied => simp [Instruction.renamed, hnew]

end Build

theorem Graph.copy?_map {ρ : Nat → Nat} {n m : Nat} (hρ : Follows ρ n m) (g : Graph)
    (argument : Option ValueId) :
    g.copy? (argument.map ρ) m =
      (g.copy? argument n).map fun (code, id) => (code.map (Instruction.renamed ρ), ρ id) := by
  have hbody := Build.copyBody?_map hρ argument [] g.body
  change Build.copyBody? (argument.map ρ) m [] g.body = _ at hbody
  rw [copy?, copy?, hbody]
  cases Build.copyBody? argument n [] g.body with
  | none => rfl
  | some copied =>
    simp only [Option.map_some, Option.bind_some, Build.Renaming.lookup_map, Option.map_map]
    rfl

/-- Where the table gives a defined value a number, that value has the recorded type. -/
def Build.Agrees (types : List Ty) (defined : List (ValueId × Ty)) (table : Build.Renaming) :
    Prop :=
  ∀ id new, table.lookup id = some new →
    ∃ type, defined.lookup id = some type ∧ types[new]? = some type

namespace Build

variable {types : List Ty} {defined : List (ValueId × Ty)} {table : Renaming}

theorem Agrees.add (h : Agrees types defined table) (id : ValueId) {new : ValueId} {type : Ty}
    (hnew : types[new]? = some type) :
    Agrees types ((id, type) :: defined) ((id, new) :: table) := by
  intro k found hk
  rw [List.lookup_cons] at hk ⊢
  split at hk
  · cases hk
    exact ⟨type, rfl, hnew⟩
  · exact h k found hk

theorem Agrees.concat (h : Agrees types defined table) (type : Ty) :
    Agrees (types ++ [type]) defined table := by
  intro k new hk
  obtain ⟨found, hdefined, hnew⟩ := h k new hk
  refine ⟨found, hdefined, ?_⟩
  rw [List.getElem?_append_left (List.getElem?_eq_some_iff.mp hnew).1, hnew]

/-- Verification and copying keep step: a value that the one has seen and the other has copied
has one type. -/
theorem agrees_of_copyBody? {p : Option Ty} {argument : Option ValueId} {c c' : Graph.Checked}
    {body code : List Instruction} {table' : Renaming}
    (hcheck : body.foldlM (Graph.checkInstruction p) c = .ok c')
    (hargument : ∀ type ∈ p, ∃ a, argument = some a ∧ types[a]? = some type)
    (hcopy : copyBody? argument types.length table body = some (code, table'))
    (h : Agrees types c.defined table) :
    Agrees (types ++ code.map (·.output)) c'.defined table' := by
  induction body generalizing types table c code with
  | nil =>
    cases hcheck
    cases hcopy
    simpa using h
  | cons i body ih =>
    rw [List.foldlM_cons] at hcheck
    obtain ⟨next, hi, hrest⟩ := bind_eq_ok.mp hcheck
    obtain ⟨-, hdefined, hread⟩ := Graph.of_checkInstruction hi
    rw [copyBody?] at hcopy
    split at hcopy
    · rename_i hop
      obtain ⟨a, rfl, ha⟩ := hargument i.output (hread hop)
      refine ih hrest hargument hcopy ?_
      rw [hdefined]
      exact h.add i.id ha
    · obtain ⟨operands, -, hcopy⟩ := Option.bind_eq_some_iff.mp hcopy
      obtain ⟨⟨rest, table''⟩, htail, hcopy⟩ := Option.map_eq_some_iff.mp hcopy
      cases hcopy
      have hlength : types.length + 1 = (types ++ [i.output]).length := by simp
      rw [hlength] at htail
      have hnext : Agrees (types ++ [i.output]) next.defined ((i.id, types.length) :: table) := by
        rw [hdefined]
        exact (h.concat i.output).add i.id (by simp)
      have hargument' : ∀ type ∈ p, ∃ a, argument = some a ∧
          (types ++ [i.output])[a]? = some type := by
        intro type htype
        obtain ⟨a, ha, hget⟩ := hargument type htype
        refine ⟨a, ha, ?_⟩
        rw [List.getElem?_append_left (List.getElem?_eq_some_iff.mp hget).1, hget]
      simpa using ih hrest hargument' htail hnext

/-- The inlined result of a verified graph has the result type that the graph declares. -/
theorem types_of_inline {g : Graph} (hg : g.verify = .ok ()) {argument : Option ValueId}
    {b b' : Builder} {id : ValueId} (h : Yields (inline g argument) b id b') :
    b'.types[id]? = some g.result := by
  obtain ⟨haccepts, code, hcopy, rfl⟩ := yields_inline.mp h
  obtain ⟨⟨copied, table⟩, hcode, hid⟩ := Option.bind_eq_some_iff.mp hcopy
  obtain ⟨new, hnew, hid⟩ := Option.map_eq_some_iff.mp hid
  cases hid
  obtain ⟨-, -, c, hcheck, hresult⟩ := Graph.verify_eq_ok_iff.mp hg
  have hargument : ∀ type ∈ g.parameter, ∃ a, argument = some a ∧ b.types[a]? = some type := by
    intro type htype
    rw [Option.mem_def.mp htype] at haccepts
    cases haccepts with
    | some ha => exact ⟨_, rfl, ha⟩
  rw [← b.length_types] at hcode
  obtain ⟨type, hdefined, htype⟩ :=
    agrees_of_copyBody? hcheck hargument hcode (nofun : Agrees b.types [] []) _ _ hnew
  rw [Graph.checkResult, hdefined] at hresult
  rw [Builder.types_append, htype]
  dsimp only at hresult
  split at hresult
  · cases hresult
  · rename_i heq
    rw [not_not.mp heq]

/-- Every defined value has a number in the table. -/
def Covers (defined : List (ValueId × Ty)) (table : Renaming) : Prop :=
  ∀ id, (defined.lookup id).isSome = true → (table.lookup id).isSome = true

theorem Covers.add (h : Covers defined table) (id new : ValueId) (type : Ty) :
    Covers ((id, type) :: defined) ((id, new) :: table) := by
  intro k hk
  rw [List.lookup_cons] at hk ⊢
  split at hk
  · rfl
  · exact h k hk

theorem Covers.exists_mapM_lookup (h : Covers defined table) {ids : List ValueId}
    (hids : ∀ id ∈ ids, (defined.lookup id).isSome = true) :
    ∃ news, (ids.mapM fun id => table.lookup id) = some news := by
  obtain ⟨news, hnews⟩ := exists_forall₂ fun id hid =>
    Option.isSome_iff_exists.mp (h id (hids id hid))
  exact ⟨news, mapM_eq_some_iff.mpr hnews⟩

/-- What verification has checked can be copied, and the copies have the types of
what they are copies of. -/
theorem exists_copyBody? {p : Option Ty} {argument : Option ValueId} {c c' : Graph.Checked}
    {body : List Instruction} (hcheck : body.foldlM (Graph.checkInstruction p) c = .ok c')
    (hargument : ∀ type ∈ p, ∃ a, argument = some a) (h : Covers c.defined table) (n : Nat) :
    ∃ code table', copyBody? argument n table body = some (code, table') ∧
      Covers c'.defined table' ∧ ∀ i ∈ code, ∃ j ∈ body, i.output = j.output := by
  induction body generalizing c table n with
  | nil =>
    cases hcheck
    exact ⟨[], table, rfl, h, by simp⟩
  | cons i body ih =>
    rw [List.foldlM_cons] at hcheck
    obtain ⟨next, hi, hrest⟩ := bind_eq_ok.mp hcheck
    obtain ⟨-, hdefined, hread⟩ := Graph.of_checkInstruction hi
    rw [copyBody?]
    -- a reading of the argument is not copied; its id stands for the argument from here on
    by_cases hop : i.op = .parameter
    · obtain ⟨a, ha⟩ := hargument i.output (hread hop)
      subst ha
      have hnext : Covers next.defined ((i.id, a) :: table) := hdefined ▸ h.add i.id a i.output
      obtain ⟨code, table', hcode, hcovers, houtputs⟩ := ih hrest hnext n
      refine ⟨code, table', ?_, hcovers,
        fun k hk => List.exists_mem_cons_of_exists (houtputs k hk)⟩
      rw [if_pos hop]
      exact hcode
    · obtain ⟨operands, hoperands⟩ :=
        h.exists_mapM_lookup (Graph.defined_of_checkInstruction hi)
      have hnext : Covers next.defined ((i.id, n) :: table) := hdefined ▸ h.add i.id n i.output
      obtain ⟨code, table', hcode, hcovers, houtputs⟩ := ih hrest hnext (n + 1)
      refine ⟨⟨n, i.op, operands, i.output⟩ :: code, table', ?_, hcovers,
        List.forall_mem_cons.mpr ⟨⟨i, List.mem_cons_self, rfl⟩,
          fun k hk => List.exists_mem_cons_of_exists (houtputs k hk)⟩⟩
      rw [if_neg hop, hoperands, Option.bind_some, hcode]
      rfl

/-- Inlining a verified graph fails only on its argument. -/
theorem exists_inline {g : Graph} (hg : g.verify = .ok ()) {argument : Option ValueId}
    {b : Builder} (h : b.Accepts g.parameter argument) :
    ∃ id code, Yields (inline g argument) b id (b.append code) ∧
      ∀ i ∈ code, i.output.isData = true := by
  obtain ⟨-, -, c, hcheck, hresult⟩ := Graph.verify_eq_ok_iff.mp hg
  have hargument : ∀ type ∈ g.parameter, ∃ a, argument = some a := by
    intro type htype
    rw [Option.mem_def.mp htype] at h
    cases h with
    | some ha => exact ⟨_, rfl⟩
  obtain ⟨code, table, hcode, hcovers, houtputs⟩ :=
    exists_copyBody? hcheck hargument (nofun : Covers [] []) b.body.length
  have hdefined : (c.defined.lookup g.resultId).isSome = true := by
    unfold Graph.checkResult at hresult
    cases hlookup : c.defined.lookup g.resultId with
    | none =>
      rw [hlookup] at hresult
      cases hresult
    | some type => rfl
  obtain ⟨id, hid⟩ := Option.isSome_iff_exists.mp (hcovers g.resultId hdefined)
  refine ⟨id, code, yields_inline.mpr ⟨h, code, ?_, rfl⟩, ?_⟩
  · simp only [Graph.copy?, hcode, Option.bind_some, hid, Option.map_some]
  · intro i hi
    obtain ⟨j, hj, heq⟩ := houtputs i hi
    rw [heq]
    exact Graph.data_of_verify hg _ (List.mem_map_of_mem hj)

end Build

namespace Builder

/-- A builder stays in sequence, whatever is inlined. -/
theorem InSequence.inline {b b' : Builder} (hb : b.InSequence) {g : Graph}
    {argument : Option ValueId} {id : ValueId} (h : Yields (Build.inline g argument) b id b') :
    b'.InSequence ∧ b'.parameter = b.parameter := by
  obtain ⟨-, code, hcode, rfl⟩ := Build.inSequence_of_inline h
  exact ⟨hb.append hcode, rfl⟩

theorem InSequence.verify_iff {b : Builder} (hb : b.InSequence) {id : ValueId} {type : Ty}
    (hid : b.types[id]? = some type) : (b.toGraph type id).verify = .ok () ↔ b.Data :=
  ⟨Graph.data_of_verify, fun hdata => Graph.verify_of_inSequence hb hdata hid⟩

theorem InSequence.toGraph {b : Builder} (hb : b.InSequence) (hdata : b.Data) {id : ValueId}
    {type : Ty} (hid : b.types[id]? = some type) : (b.toGraph type id).InSequence :=
  ⟨rfl, hb.body_eq, hb.code, hid, hdata⟩

end Builder

end GraphFusion
