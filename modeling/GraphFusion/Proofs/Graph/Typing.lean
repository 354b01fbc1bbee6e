import GraphFusion.Graph.Builder
import GraphFusion.Terms.Basic
import GraphFusion.Proofs.Lists
import GraphFusion.Proofs.Outcome
import Mathlib.Data.List.Induction

/-!
Typing of straight-line code. `CodeTyped before code` says that instructions
continue values of the types `before`: each is numbered by its position, takes
operands defined earlier and has the output type of its operation. A sound
builder holds the reading of its argument followed by such code, and a sound
graph is what it returns; every sound graph of data passes verification. Verification
needs less, code in sequence: numbers by position and operands defined earlier, whatever
their types.
-/

namespace GraphFusion

/-- Entries numbered from zero on, the latest first. -/
def numbered {α : Type} (xs : List α) : List (Nat × α) := (xs.zipIdx.map Prod.swap).reverse

@[simp] theorem numbered_nil {α : Type} : numbered ([] : List α) = [] := rfl

theorem numbered_concat {α : Type} (xs : List α) (x : α) :
    numbered (xs ++ [x]) = (xs.length, x) :: numbered xs := by
  simp [numbered, List.zipIdx_append]

theorem lookup_numbered {α : Type} (xs : List α) (n : Nat) :
    (numbered xs).lookup n = xs[n]? := by
  induction xs using List.reverseRecOn with
  | nil => simp
  | append_singleton xs x ih =>
    rw [numbered_concat, List.lookup_cons, ih]
    by_cases hn : n = xs.length
    · simp [hn]
    · have hne : (n == xs.length) = false := by simpa using hn
      rw [hne]
      rcases Nat.lt_or_gt_of_ne hn with hlt | hgt
      · rw [List.getElem?_append_left hlt]
      · rw [List.getElem?_eq_none (by omega), List.getElem?_eq_none (by simp; omega)]

/-- Result type of an operation on operands of the given types. Reading the
argument has none: only a builder's first instruction does it. -/
inductive Operation.HasType : Operation → List Ty → Ty → Prop
  | constant (tensor : Tensor) : HasType (.constant tensor) [] (.tensor tensor.type)
  | select {types : List (Label × Ty)} {index : Nat} {label : Label} {type : Ty} :
      types[index]? = some (label, type) → HasType (.select index) [.struct types] type
  | pack {labels : List Label} {types : List Ty} :
      labels.length = types.length → HasType (.pack labels) types (.struct (labels.zip types))
  | binary {op : BinaryOp} {lhs rhs type : TensorType} :
      Build.broadcastType? lhs rhs = some type →
        HasType (.binary op) [.tensor lhs, .tensor rhs] (.tensor type)
  | unary {op : UnaryOp} {type : TensorType} :
      type.dtype ≠ .bool → HasType (.unary op) [.tensor type] (.tensor type)
  | cast {dtype : DType} {type : TensorType} :
      HasType (.cast dtype) [.tensor type] (.tensor ⟨dtype, type.shape⟩)

theorem Operation.HasType.ne_parameter {op : Operation} {types : List Ty} {output : Ty}
    (h : op.HasType types output) : op ≠ .parameter := by
  cases h <;> simp

namespace Instruction

def WellTyped (before : List Ty) (i : Instruction) : Prop :=
  i.id = before.length ∧ ∃ types,
    List.Forall₂ (fun operand type => before[operand]? = some type) i.operands types ∧
      i.op.HasType types i.output

theorem WellTyped.operand_lt {before : List Ty} {i : Instruction} (h : i.WellTyped before)
    {operand : ValueId} (hmem : operand ∈ i.operands) : operand < before.length := by
  obtain ⟨-, types, hops, -⟩ := h
  obtain ⟨n, hn⟩ := List.mem_iff_getElem?.mp hmem
  obtain ⟨type, -, hget⟩ := exists_right_of_forall₂ hops hn
  exact (List.getElem?_eq_some_iff.mp hget).1

/-- The instruction defines value `n` from earlier ones and does not read the argument. -/
structure Defines (n : Nat) (i : Instruction) : Prop where
  id_eq : i.id = n
  ne_parameter : i.op ≠ .parameter
  operand_lt : ∀ operand ∈ i.operands, operand < n

theorem WellTyped.defines {before : List Ty} {i : Instruction} (h : i.WellTyped before) :
    i.Defines before.length where
  id_eq := h.1
  ne_parameter := by
    obtain ⟨-, _, -, hop⟩ := h
    exact hop.ne_parameter
  operand_lt _ hmem := h.operand_lt hmem

end Instruction

/-- Instructions that continue values of the types `before`. -/
def CodeTyped : List Ty → List Instruction → Prop
  | _, [] => True
  | before, i :: rest => i.WellTyped before ∧ CodeTyped (before ++ [i.output]) rest

/-- Instructions that define the values from `n` on, in order. -/
def CodeInSequence : Nat → List Instruction → Prop
  | _, [] => True
  | n, i :: rest => i.Defines n ∧ CodeInSequence (n + 1) rest

theorem CodeTyped.inSequence {before : List Ty} {code : List Instruction}
    (h : CodeTyped before code) : CodeInSequence before.length code := by
  induction code generalizing before with
  | nil => trivial
  | cons i code ih =>
    have hrest := ih h.2
    rw [List.length_append] at hrest
    exact ⟨h.1.defines, hrest⟩

theorem codeInSequence_append (n : Nat) (xs ys : List Instruction) :
    CodeInSequence n (xs ++ ys) ↔ CodeInSequence n xs ∧ CodeInSequence (n + xs.length) ys := by
  induction xs generalizing n with
  | nil => simp [CodeInSequence]
  | cons i xs ih =>
    have hlength : n + (i :: xs).length = n + 1 + xs.length := by
      rw [List.length_cons]
      omega
    rw [List.cons_append, CodeInSequence, CodeInSequence, ih, hlength, and_assoc]

theorem codeTyped_append (before : List Ty) (xs ys : List Instruction) :
    CodeTyped before (xs ++ ys) ↔
      CodeTyped before xs ∧ CodeTyped (before ++ xs.map (·.output)) ys := by
  induction xs generalizing before with
  | nil => simp [CodeTyped]
  | cons i xs ih => simp [CodeTyped, ih, and_assoc]

namespace Builder

/-- Types of the values defined so far. -/
def types (b : Builder) : List Ty := b.body.map (·.output)

theorem typeOf?_eq (b : Builder) (id : ValueId) : b.typeOf? id = b.types[id]? := by
  simp [typeOf?, types]

theorem length_types (b : Builder) : b.types.length = b.body.length := by
  simp [types]

theorem lt_of_getElem?_types {b : Builder} {id : ValueId} {type : Ty}
    (h : b.types[id]? = some type) : id < b.body.length := by
  rw [← length_types]
  exact (List.getElem?_eq_some_iff.mp h).1

theorem start_parameter (p : Option Ty) : (start p).parameter = p := by
  cases p <;> rfl

theorem types_start (p : Option Ty) : (start p).types = p.toList := by
  cases p <;> rfl

theorem length_start_body (p : Option Ty) : (start p).body.length = p.toList.length := by
  cases p <;> rfl

/-- The instructions after the reading of the argument. -/
def code (b : Builder) : List Instruction := b.body.drop b.parameter.toList.length

structure Sound (b : Builder) : Prop where
  body_eq : b.body = (start b.parameter).body ++ b.code
  typed : CodeTyped b.parameter.toList b.code

theorem sound_of_body {b : Builder} {code : List Instruction}
    (hbody : b.body = (start b.parameter).body ++ code)
    (htyped : CodeTyped b.parameter.toList code) : b.Sound ∧ b.code = code := by
  have hcode : b.code = code := by
    rw [Builder.code, hbody, ← length_start_body, List.drop_left]
  exact ⟨⟨by rw [hcode]; exact hbody, by rw [hcode]; exact htyped⟩, hcode⟩

theorem sound_start (p : Option Ty) : (start p).Sound ∧ (start p).code = [] := by
  apply sound_of_body
  · rw [start_parameter, List.append_nil]
  · trivial

/-- The reading of the argument, if there is one, and code in sequence. -/
structure InSequence (b : Builder) : Prop where
  body_eq : b.body = (start b.parameter).body ++ b.code
  code : CodeInSequence b.parameter.toList.length b.code

theorem Sound.inSequence {b : Builder} (hb : b.Sound) : b.InSequence :=
  ⟨hb.body_eq, hb.typed.inSequence⟩

theorem InSequence.types_eq {b : Builder} (hb : b.InSequence) :
    b.types = b.parameter.toList ++ b.code.map (·.output) := by
  have h := congrArg (List.map (·.output)) hb.body_eq
  rw [List.map_append] at h
  exact h.trans (congrArg (· ++ b.code.map (·.output)) (types_start b.parameter))

theorem Sound.types_eq {b : Builder} (hb : b.Sound) :
    b.types = b.parameter.toList ++ b.code.map (·.output) := hb.inSequence.types_eq

/-- The builder after more instructions. -/
def append (b : Builder) (code : List Instruction) : Builder :=
  ⟨b.parameter, b.body ++ code⟩

@[simp] theorem append_parameter (b : Builder) (code : List Instruction) :
    (b.append code).parameter = b.parameter := rfl

@[simp] theorem append_body (b : Builder) (code : List Instruction) :
    (b.append code).body = b.body ++ code := rfl

theorem append_append (b : Builder) (xs ys : List Instruction) :
    (b.append xs).append ys = b.append (xs ++ ys) := by
  simp [append, List.append_assoc]

theorem types_append (b : Builder) (code : List Instruction) :
    (b.append code).types = b.types ++ code.map (·.output) := by
  simp [types]

/-- Code typed after the values of a sound builder may be appended to it. -/
theorem Sound.append {b : Builder} (hb : b.Sound) {code : List Instruction}
    (hcode : CodeTyped b.types code) :
    (b.append code).Sound ∧ (b.append code).code = b.code ++ code := by
  apply sound_of_body
  · rw [append_body, append_parameter, ← List.append_assoc, ← hb.body_eq]
  · rw [append_parameter, codeTyped_append]
    exact ⟨hb.typed, by rw [← hb.types_eq]; exact hcode⟩

theorem inSequence_start (p : Option Ty) : (start p).InSequence := (sound_start p).1.inSequence

theorem InSequence.length_body {b : Builder} (hb : b.InSequence) :
    b.body.length = b.parameter.toList.length + b.code.length := by
  have h := congrArg List.length hb.body_eq
  rwa [List.length_append, length_start_body] at h

theorem InSequence.append {b : Builder} (hb : b.InSequence) {code : List Instruction}
    (hcode : CodeInSequence b.body.length code) : (b.append code).InSequence := by
  have hlength := hb.length_body
  have heq : (b.append code).code = b.code ++ code := by
    rw [Builder.code, append_body, append_parameter,
      List.drop_append_of_le_length (by omega)]
    rfl
  refine ⟨?_, ?_⟩
  · rw [heq, append_body, append_parameter, ← List.append_assoc, ← hb.body_eq]
  · rw [heq, append_parameter, codeInSequence_append, ← hlength]
    exact ⟨hb.code, hcode⟩

/-- One more instruction, numbered by its position. -/
def emit (b : Builder) (op : Operation) (operands : List ValueId) (output : Ty) : Builder :=
  b.append [⟨b.body.length, op, operands, output⟩]

theorem codeTyped_emit {b : Builder} {op : Operation} {operands : List ValueId} {types : List Ty}
    {output : Ty} (hops : List.Forall₂ (fun id type => b.types[id]? = some type) operands types)
    (hop : op.HasType types output) :
    CodeTyped b.types [⟨b.body.length, op, operands, output⟩] :=
  ⟨⟨b.length_types.symm, types, hops, hop⟩, trivial⟩

/-- Every value defined so far is data. -/
def Data (b : Builder) : Prop := ∀ type ∈ b.types, type.isData = true

end Builder

namespace Graph

/-- The instructions after the reading of the argument. -/
def code (g : Graph) : List Instruction := g.body.drop g.parameter.toList.length

/-- Types of the values a graph defines. -/
def types (g : Graph) : List Ty := g.body.map (·.output)

/-- What building step by step guarantees of a graph. -/
structure Sound (g : Graph) : Prop where
  version : g.formatVersion = currentVersion
  body_eq : g.body = (Builder.start g.parameter).body ++ g.code
  typed : CodeTyped g.parameter.toList g.code
  result_type : g.types[g.resultId]? = some g.result
  data : ∀ type ∈ g.types, type.isData = true

/-- What every builder guarantees of its graph, whatever it was told to inline: the values are
defined in order, each from earlier ones, and are data. -/
structure InSequence (g : Graph) : Prop where
  version : g.formatVersion = currentVersion
  body_eq : g.body = (Builder.start g.parameter).body ++ g.code
  code : CodeInSequence g.parameter.toList.length g.code
  result_type : g.types[g.resultId]? = some g.result
  data : ∀ type ∈ g.types, type.isData = true

theorem Sound.inSequence {g : Graph} (hg : g.Sound) : g.InSequence :=
  ⟨hg.version, hg.body_eq, hg.typed.inSequence, hg.result_type, hg.data⟩

theorem InSequence.types_eq {g : Graph} (hg : g.InSequence) :
    g.types = g.parameter.toList ++ g.code.map (·.output) := by
  have h := congrArg (List.map (·.output)) hg.body_eq
  rw [List.map_append] at h
  exact h.trans (congrArg (· ++ g.code.map (·.output)) (Builder.types_start g.parameter))

theorem Sound.types_eq {g : Graph} (hg : g.Sound) :
    g.types = g.parameter.toList ++ g.code.map (·.output) := hg.inSequence.types_eq

theorem Sound.parameter_isData {g : Graph} (hg : g.Sound) {type : Ty}
    (h : g.parameter = some type) : type.isData = true := by
  apply hg.data
  rw [hg.types_eq, h]
  simp

theorem Sound.result_isData {g : Graph} (hg : g.Sound) : g.result.isData = true :=
  hg.data _ (List.mem_of_getElem? hg.result_type)

theorem Sound.load {u : CompiledUnit} (hu : u.graph.Sound) : u.load = .ok u.graph := by
  simp [CompiledUnit.load, checkVersion, hu.version]

/-- What checking has seen after values of the given types. -/
def Checked.after (types : List Ty) (readsArgument : Bool) : Checked :=
  ⟨numbered types, readsArgument⟩

theorem undefinedOperand?_eq_none {types : List Ty} {readsArgument : Bool} {i : Instruction}
    (h : ∀ operand ∈ i.operands, operand < types.length) :
    (Checked.after types readsArgument).undefinedOperand? i = none := by
  apply List.find?_eq_none.mpr
  intro operand hmem
  simp [Checked.after, lookup_numbered, List.getElem?_eq_getElem (h operand hmem)]

theorem checkInstruction_of_defines {p : Option Ty} {types : List Ty} {readsArgument : Bool}
    {i : Instruction} (hi : i.Defines types.length) (hdata : i.output.isData = true) :
    checkInstruction p (.after types readsArgument) i =
      .ok (.after (types ++ [i.output]) readsArgument) := by
  have hundefined : (Checked.after types readsArgument).undefinedOperand? i = none :=
    undefinedOperand?_eq_none hi.operand_lt
  have hnew : (numbered types).lookup i.id = none := by
    rw [lookup_numbered, hi.id_eq]
    simp
  simp only [checkInstruction, hundefined, checkParameter, if_neg hi.ne_parameter]
  rw [Checked.after, hnew]
  simp [Checked.after, hdata, numbered_concat, hi.id_eq]

theorem checkInstructions_of_inSequence {p : Option Ty} {readsArgument : Bool}
    {code : List Instruction} {types : List Ty} (hcode : CodeInSequence types.length code)
    (hdata : ∀ i ∈ code, i.output.isData = true) :
    code.foldlM (checkInstruction p) (.after types readsArgument) =
      .ok (.after (types ++ code.map (·.output)) readsArgument) := by
  induction code generalizing types with
  | nil => simp
  | cons i code ih =>
    obtain ⟨hi, hrest⟩ := hcode
    rw [List.foldlM_cons, checkInstruction_of_defines hi (hdata i (by simp))]
    have hcode : CodeInSequence (types ++ [i.output]).length code := by simpa using hrest
    simpa using ih hcode fun j hj => hdata j (by simp [hj])

theorem checkInstructions_start (p : Option Ty) (hdata : ∀ type ∈ p, type.isData = true) :
    (Builder.start p).body.foldlM (checkInstruction p) .empty =
      .ok (.after p.toList p.isSome) := by
  cases p with
  | none => rfl
  | some type =>
    simp [Builder.start, checkInstruction, Checked.empty, Checked.undefinedOperand?,
      checkParameter, hdata, Checked.after, numbered]

/-- Verification of code in sequence asks for data only. -/
theorem verify_of_inSequence {b : Builder} (hb : b.InSequence) (hdata : b.Data) {id : ValueId}
    {type : Ty} (hid : b.types[id]? = some type) : (b.toGraph type id).verify = .ok () := by
  have hparam : ∀ t ∈ b.parameter, t.isData = true := by
    intro t ht
    apply hdata
    rw [hb.types_eq, Option.mem_def.mp ht]
    simp
  have hresult : type.isData = true := hdata _ (List.mem_of_getElem? hid)
  have hcode : ∀ i ∈ b.code, i.output.isData = true := by
    intro i hi
    apply hdata
    rw [hb.types_eq]
    exact List.mem_append_right _ (List.mem_map_of_mem hi)
  have hfold : b.body.foldlM (checkInstruction b.parameter) .empty =
      .ok (.after b.types b.parameter.isSome) := by
    rw [hb.body_eq, List.foldlM_append, checkInstructions_start _ hparam]
    rw [hb.types_eq]
    exact checkInstructions_of_inSequence hb.code hcode
  have hcheck : (b.toGraph type id).checkResult (.after b.types b.parameter.isSome) = .ok () := by
    simp [checkResult, Checked.after, Builder.toGraph, lookup_numbered, hid]
  unfold verify
  cases hp : b.parameter with
  | none =>
    simp only [Builder.toGraph, hp, hresult] at *
    simp [hfold]
    exact hcheck
  | some t =>
    have ht : t.isData = true := hparam t (by simp [hp])
    simp only [Builder.toGraph, hp, hresult] at *
    simp [hfold, ht]
    exact hcheck

/-- A sound builder of data finishes with any value it has defined. -/
theorem verify_toGraph {b : Builder} (hb : b.Sound) (hdata : b.Data) {id : ValueId} {type : Ty}
    (hid : b.types[id]? = some type) : (b.toGraph type id).verify = .ok () :=
  verify_of_inSequence hb.inSequence hdata hid

theorem InSequence.eq_toGraph {g : Graph} (hg : g.InSequence) :
    g = (⟨g.parameter, g.body⟩ : Builder).toGraph g.result g.resultId := by
  rw [Builder.toGraph, ← hg.version]

theorem InSequence.verify {g : Graph} (hg : g.InSequence) : g.verify = .ok () := by
  have hb : (⟨g.parameter, g.body⟩ : Builder).InSequence := ⟨hg.body_eq, hg.code⟩
  rw [hg.eq_toGraph]
  exact verify_of_inSequence hb hg.data hg.result_type

theorem Sound.verify {g : Graph} (hg : g.Sound) : g.verify = .ok () := hg.inSequence.verify

end Graph

end GraphFusion
