import GraphFusion.Proofs.Decoding
import GraphFusion.Proofs.Json.Parser
import GraphFusion.Proofs.Types.Json

/-!
Graphs come back from their JSON text when their constants hold no floats. Main statement: the
text of a graph, well formed or not, is read with the same outcome as its stored form.
-/

namespace GraphFusion

open Json (Restores)

/-- Elements are restored unless they are floats. -/
theorem TensorData.restores :
    Restores TensorData.ofJson? TensorData.toJson fun d => d.dtype.isFloat = false := by
  intro d hd
  cases d with
  | bool values =>
    exact (Json.restores_bool.list values fun _ _ => trivial).tagged rfl fun _ => rfl
  | int32 values =>
    exact (Json.restores_int32.list values fun _ _ => trivial).tagged rfl fun _ => rfl
  | int64 values =>
    exact (Json.restores_int64.list values fun _ _ => trivial).tagged rfl fun _ => rfl
  | float32 values => cases hd
  | float64 values => cases hd

theorem Tensor.restores :
    Restores Tensor.ofJson? Tensor.toJson fun t => t.Fits ∧ t.dtype.isFloat = false := by
  intro t ht
  have hshape := Json.restores_word64.list t.shape ht.1.extents
  have hdata := TensorData.restores t.data ht.2
  have hfields : t.toJson.fields? ["shape", "data"] =
      some [.given (.ofList .ofNat t.shape), .given t.data.toJson] :=
    Json.fields?_record (by decide : ["shape", "data"].Nodup)
  constructor
  · refine Json.decimal_record (List.forall_mem_cons.mpr ⟨?_, List.forall_mem_singleton.mpr ?_⟩)
    · exact hshape.decimal
    · exact hdata.decimal
  · exact Tensor.ofJson?_eq_some_iff.mpr ⟨_, _, hfields, hshape.decodes, hdata.decodes⟩

theorem BinaryOp.restores :
    Restores (Json.constant? BinaryOp.ofName?) (fun op => .ofString op.name) fun _ => True :=
  Json.restores_constant fun op => by cases op <;> decide

theorem UnaryOp.restores :
    Restores (Json.constant? UnaryOp.ofName?) (fun op => .ofString op.name) fun _ => True :=
  Json.restores_constant fun op => by cases op <;> decide

namespace Operation

/-- No constant with floats. -/
def FloatFree : Operation → Prop
  | constant tensor => tensor.dtype.isFloat = false
  | _ => True

theorem restores_soleField {α : Type} {decode : Json → Option α} {encode : α → Json}
    {fits : α → Prop} (h : Restores decode encode fits) (name : String) :
    Restores (soleField? name decode) (fun a => .record [(name, encode a)]) fits := by
  intro a ha
  have hfields : (Json.record [(name, encode a)]).fields? [name] = some [.given (encode a)] :=
    Json.fields?_record (List.nodup_singleton name)
  constructor
  · exact Json.decimal_record (List.forall_mem_singleton.mpr (h a ha).decimal)
  · rw [soleField?, hfields]
    exact (h a ha).decodes

theorem restores : Restores ofJson? toJson fun op => op.Fits ∧ op.FloatFree := by
  rintro op ⟨hfits, hfree⟩
  cases op with
  | parameter => exact ⟨.string (some "Parameter"), rfl⟩
  | constant tensor => exact (Tensor.restores tensor ⟨hfits, hfree⟩).tagged rfl fun _ => rfl
  | select index =>
    have hindex := restores_soleField Json.restores_word64 "index" index hfits
    exact hindex.tagged rfl fun _ => rfl
  | pack labels =>
    have hnames := restores_soleField Label.restores.list "names" labels fun _ _ => trivial
    exact hnames.tagged rfl fun _ => rfl
  | binary op => exact (BinaryOp.restores op trivial).tagged rfl fun _ => rfl
  | unary op => exact (UnaryOp.restores op trivial).tagged rfl fun _ => rfl
  | cast dtype =>
    have hdtype := restores_soleField DType.restores "dtype" dtype trivial
    exact hdtype.tagged rfl fun _ => rfl

end Operation

theorem Instruction.restores :
    Restores Instruction.ofJson? Instruction.toJson fun i => i.Fits ∧ i.op.FloatFree := by
  rintro i ⟨hfits, hfree⟩
  have hid := Json.restores_word32 i.id hfits.id
  have hop := Operation.restores i.op ⟨hfits.op, hfree⟩
  have hoperands := Json.restores_word32.list i.operands hfits.operands
  have houtput := Ty.restores i.output hfits.output
  have hfields : i.toJson.fields? ["id", "op", "operands", "output"] =
      some [.given (.ofNat i.id), .given i.op.toJson, .given (.ofList .ofNat i.operands),
        .given i.output.toJson] :=
    Json.fields?_record (by decide : ["id", "op", "operands", "output"].Nodup)
  constructor
  · refine Json.decimal_record ?_
    simp only [List.forall_mem_cons]
    exact ⟨hid.decimal, hop.decimal, hoperands.decimal, houtput.decimal, nofun⟩
  · rw [Instruction.ofJson?, hfields]
    simp [Json.Field.required?, hid.decodes, hop.decodes, hoperands.decodes, houtput.decodes]

namespace Graph

theorem restores :
    Restores ofJson? toJson fun g => g.Fits ∧ ∀ i ∈ g.body, i.op.FloatFree := by
  rintro g ⟨hfits, hfree⟩
  have hversion := Json.restores_text g.formatVersion trivial
  have hparameter := Ty.restores.option Ty.toJson_ne_null g.parameter hfits.parameter
  have hresult := Ty.restores g.result hfits.result
  have hbody := Instruction.restores.list g.body fun i hi => ⟨hfits.body i hi, hfree i hi⟩
  have hid := Json.restores_word32 g.resultId hfits.resultId
  have hfields : g.toJson.fields? ["format_version", "parameter", "result", "body", "result_id"] =
      some [.given (.ofString g.formatVersion), .given (.ofOption Ty.toJson g.parameter),
        .given g.result.toJson, .given (.ofList Instruction.toJson g.body),
        .given (.ofNat g.resultId)] :=
    Json.fields?_record
      (by decide : ["format_version", "parameter", "result", "body", "result_id"].Nodup)
  constructor
  · refine Json.decimal_record ?_
    simp only [List.forall_mem_cons]
    exact ⟨hversion.decimal, hparameter.decimal, hresult.decimal, hbody.decimal, hid.decimal,
      nofun⟩
  · rw [ofJson?, hfields]
    simp [Json.Field.required?, Json.Field.optional?, Json.Field.orDefault?, hversion.decodes,
      hparameter.decodes, hresult.decodes, hbody.decodes, hid.decodes]

section

variable {g : Graph}

theorem floatFree_of_constants (h : ∀ t ∈ g.constants, t.dtype.isFloat = false) :
    ∀ i ∈ g.body, i.op.FloatFree := by
  intro i hi
  cases hop : i.op with
  | constant tensor => exact h tensor (mem_constants.mpr ⟨i, hi, hop⟩)
  | parameter | select | pack | binary | unary | cast => trivial

theorem ofJsonText_toJsonText (hg : g.Fits) (h : ∀ t ∈ g.constants, t.dtype.isFloat = false) :
    ofJsonText g.toJsonText = g.accept := by
  have hrestored := restores g ⟨hg, floatFree_of_constants h⟩
  rw [ofJsonText, toJsonText, Json.parse?_pretty hrestored.decimal, Option.bind_some,
    hrestored.decodes]

end

/-- The text of a graph without floats is read as that graph if it has the current version and is
well formed, and refused for its version, or else for what is wrong with it, if not: text and
stored form have one outcome. -/
theorem ofJsonText_outcome (g : Graph) (hg : g.Fits)
    (h : ∀ t ∈ g.constants, t.dtype.isFloat = false) :
    (g.formatVersion = "fedgraph.v1" → g.verify = .ok () → ofJsonText g.toJsonText = .ok g) ∧
    (g.formatVersion ≠ "fedgraph.v1" →
      ofJsonText g.toJsonText = .error (.versionMismatch g.formatVersion)) ∧
    (∀ e, g.formatVersion = "fedgraph.v1" → g.verify = .error e →
      ofJsonText g.toJsonText = .error e) ∧
    ofJsonText g.toJsonText = ofBytes g.write := by
  have hstored : ofBytes g.write = g.accept := by
    simpa only [List.append_nil] using ofBytes_write_append hg []
  rw [ofJsonText_toJsonText hg h]
  exact ⟨fun hversion hverify => accept_eq_ok_iff.mpr ⟨rfl, hversion, hverify⟩,
    accept_of_version_ne, fun e => accept_of_verify_eq_error, hstored.symm⟩

/-- The least integer is subtracted from the one element of the argument, whose name needs
escapes. As it is the graph is read back, under another version it is refused for it, and with
a result that no instruction defines for that. -/
theorem ofJsonText_outcome_least :
    let word : TensorType := .scalar .int64
    let argument : Ty := .struct [(some "\"λ\"\n", .tensor word)]
    let result : Ty := .struct [(none, .tensor word)]
    let least : Tensor := ⟨[], .int64 [Int64.minValue]⟩
    let body : List Instruction := [⟨0, .parameter, [], argument⟩,
      ⟨1, .select 0, [0], .tensor word⟩, ⟨2, .constant least, [], .tensor word⟩,
      ⟨3, .binary .sub, [1, 2], .tensor word⟩, ⟨4, .pack [none], [3], result⟩]
    let g : Graph := ⟨"fedgraph.v1", some argument, result, body, 4⟩
    let newer : Graph := { g with formatVersion := "fedgraph.v2" }
    let unfinished : Graph := { g with resultId := 5 }
    g.Fits ∧ (∀ t ∈ g.constants, t.dtype.isFloat = false) ∧ ofJsonText g.toJsonText = .ok g ∧
      ofJsonText newer.toJsonText = .error (.versionMismatch "fedgraph.v2") ∧
      ofJsonText unfinished.toJsonText = .error (.invalid (.resultUndefined 5)) ∧
      ofJsonText unfinished.toJsonText = ofBytes unfinished.write := by
  intro word argument result least body g newer unfinished
  have hword : Ty.Fits (.tensor word) := .tensor ⟨by decide, nofun⟩
  have hargument : argument.Fits :=
    .struct (by decide) (List.forall_mem_singleton.mpr (by decide))
      (List.forall_mem_singleton.mpr hword)
  have hresult : result.Fits :=
    .struct (by decide) (List.forall_mem_singleton.mpr (by decide))
      (List.forall_mem_singleton.mpr hword)
  have hleast : least.Fits := ⟨by decide, nofun, show 1 < UInt64.size by decide⟩
  have hbody : ∀ i ∈ body, i.Fits := by
    simp only [body, List.forall_mem_cons]
    exact ⟨⟨by decide, trivial, by decide, nofun, hargument⟩,
      ⟨by decide, show 0 < UInt64.size by decide, by decide, by decide, hword⟩,
      ⟨by decide, hleast, by decide, nofun, hword⟩,
      ⟨by decide, trivial, by decide, by decide, hword⟩,
      ⟨by decide, ⟨by decide, by decide⟩, by decide, by decide, hresult⟩, nofun⟩
  have hcount : body.length < UInt64.size := by decide
  have hfits : ∀ version id, version.utf8ByteSize < UInt64.size → id < UInt32.size →
      Fits { g with formatVersion := version, resultId := id } := by
    intro version id hversion hid
    exact ⟨hversion, fun t ht => Option.some.inj ht ▸ hargument, hresult, hcount, hbody, hid⟩
  have hg : g.Fits := hfits "fedgraph.v1" 4 (by decide) (by decide)
  have hnewer : newer.Fits := hfits "fedgraph.v2" 4 (by decide) (by decide)
  have hunfinished : unfinished.Fits := hfits "fedgraph.v1" 5 (by decide) (by decide)
  have hconstants : ∀ t ∈ g.constants, t.dtype.isFloat = false := by decide
  obtain ⟨-, -, hrefused, hagree⟩ := ofJsonText_outcome unfinished hunfinished hconstants
  refine ⟨hg, hconstants, ?_, ?_, ?_, hagree⟩
  · exact (ofJsonText_outcome g hg hconstants).1 rfl (by decide +kernel)
  · exact (ofJsonText_outcome newer hnewer hconstants).2.1 (by decide)
  · exact hrefused (.invalid (.resultUndefined 5)) rfl (by decide +kernel)

end Graph

end GraphFusion
