import GraphFusion.Graph.Codec
import GraphFusion.Proofs.Values.Codec
import Mathlib.Tactic.IntervalCases

/-!
The stored form of graphs is canonical for every record whose numbers fit their words,
whether or not the record is a well-formed graph. Main statement: what is written is
read as the same graph if its version is the current one and it is well formed, and
refused for exactly that reason if not; and whatever is accepted begins with the stored
form of the graph that is given.
-/

namespace GraphFusion

open Reader (Reads Takes Canonical Codec)

theorem BinaryOp.getElem?_all_eq_some_iff (n : Nat) (op : BinaryOp) :
    BinaryOp.all[n]? = some op ↔ op.tag = n := by
  constructor
  · intro h
    obtain ⟨hn, rfl⟩ := List.getElem?_eq_some_iff.mp h
    change n < 6 at hn
    interval_cases n <;> rfl
  · rintro rfl
    cases op <;> rfl

theorem BinaryOp.codec : Codec BinaryOp.read BinaryOp.write fun _ => True :=
  Reader.codec_tagged (fun op => by cases op <;> decide) BinaryOp.getElem?_all_eq_some_iff
    fun n => by cases BinaryOp.all[n]? <;> rfl

theorem UnaryOp.getElem?_all_eq_some_iff (n : Nat) (op : UnaryOp) :
    UnaryOp.all[n]? = some op ↔ op.tag = n := by
  constructor
  · intro h
    obtain ⟨hn, rfl⟩ := List.getElem?_eq_some_iff.mp h
    change n < 2 at hn
    interval_cases n <;> rfl
  · rintro rfl
    cases op <;> rfl

theorem UnaryOp.codec : Codec UnaryOp.read UnaryOp.write fun _ => True :=
  Reader.codec_tagged (fun op => by cases op <;> decide) UnaryOp.getElem?_all_eq_some_iff
    fun n => by cases UnaryOp.all[n]? <;> rfl

namespace Operation

/-- All numbers in the operation fit their words. -/
def Fits : Operation → Prop
  | constant tensor => tensor.Fits
  | select index => index < UInt64.size
  | pack labels => labels.length < UInt64.size ∧ ∀ label ∈ labels, label.Fits
  | parameter | binary _ | unary _ | cast _ => True

theorem codec : Codec read write Fits where
  reads op hop := by
    cases op with
    | parameter => exact (Reader.reads_tag (by decide)).bind (Reader.reads_pure parameter)
    | constant tensor =>
      exact (Reader.reads_tag (by decide)).bind ((Tensor.codec.reads _ hop).map constant)
    | select index =>
      exact (Reader.reads_tag (by decide)).bind ((Reader.reads_word64 hop).map select)
    | pack labels =>
      exact (Reader.reads_tag (by decide)).bind ((Label.codec.list.reads _ hop).map pack)
    | binary op =>
      exact (Reader.reads_tag (by decide)).bind ((BinaryOp.codec.reads op trivial).map binary)
    | unary op =>
      exact (Reader.reads_tag (by decide)).bind ((UnaryOp.codec.reads op trivial).map unary)
    | cast dtype =>
      exact (Reader.reads_tag (by decide)).bind ((DType.codec.reads dtype trivial).map cast)
  takes := by
    refine Reader.codec_word32.takes.bind ?_
    rintro _ tag ⟨-, rfl⟩
    split
    · exact Reader.takes_pure ⟨trivial, rfl⟩
    · refine Tensor.codec.takes.map ?_
      rintro _ tensor ⟨htensor, rfl⟩
      exact ⟨htensor, rfl⟩
    · refine Reader.codec_word64.takes.map ?_
      rintro _ index ⟨hindex, rfl⟩
      exact ⟨hindex, rfl⟩
    · refine Label.codec.list.takes.map ?_
      rintro _ labels ⟨hlabels, rfl⟩
      exact ⟨hlabels, rfl⟩
    · refine BinaryOp.codec.takes.map ?_
      rintro _ op ⟨-, rfl⟩
      exact ⟨trivial, rfl⟩
    · refine UnaryOp.codec.takes.map ?_
      rintro _ op ⟨-, rfl⟩
      exact ⟨trivial, rfl⟩
    · refine DType.codec.takes.map ?_
      rintro _ dtype ⟨-, rfl⟩
      exact ⟨trivial, rfl⟩
    · exact Reader.takes_failure

end Operation

namespace Instruction

/-- Ids of four bytes, a word that counts the operands, and parts that fit. -/
structure Fits (i : Instruction) : Prop where
  id : i.id < UInt32.size
  op : i.op.Fits
  arity : i.operands.length < UInt64.size
  operands : ∀ operand ∈ i.operands, operand < UInt32.size
  output : i.output.Fits

theorem codec : Codec read write Fits where
  reads i hi := by
    rw [write, List.append_assoc, List.append_assoc]
    exact (Reader.reads_word32 hi.id).bind ((Operation.codec.reads _ hi.op).bind
      ((Reader.codec_word32.list.reads _ ⟨hi.arity, hi.operands⟩).bind
        ((Ty.codec.reads _ hi.output).map _)))
  takes := by
    refine Reader.codec_word32.takes.bind ?_
    rintro _ id ⟨hid, rfl⟩
    refine Operation.codec.takes.bind ?_
    rintro _ op ⟨hop, rfl⟩
    refine Reader.codec_word32.list.takes.bind ?_
    rintro _ operands ⟨⟨harity, hoperands⟩, rfl⟩
    refine Ty.codec.takes.map ?_
    rintro _ output ⟨houtput, rfl⟩
    exact ⟨⟨hid, hop, harity, hoperands, houtput⟩, by simp only [write, List.append_assoc]⟩

end Instruction

namespace Graph

/-- All numbers in the graph fit their words; it need not be well formed. -/
structure Fits (g : Graph) : Prop where
  formatVersion : g.formatVersion.utf8ByteSize < UInt64.size
  parameter : ∀ t ∈ g.parameter, t.Fits
  result : g.result.Fits
  count : g.body.length < UInt64.size
  body : ∀ i ∈ g.body, i.Fits
  resultId : g.resultId < UInt32.size

theorem codec : Codec read write Fits where
  reads g hg := by
    rw [write, List.append_assoc, List.append_assoc, List.append_assoc]
    exact (Reader.reads_text hg.formatVersion).bind
      ((Ty.codec.option.reads _ hg.parameter).bind ((Ty.codec.reads _ hg.result).bind
        ((Instruction.codec.list.reads _ ⟨hg.count, hg.body⟩).bind
          ((Reader.reads_word32 hg.resultId).map _))))
  takes := by
    refine Reader.codec_text.takes.bind ?_
    rintro _ formatVersion ⟨hversion, rfl⟩
    refine Ty.codec.option.takes.bind ?_
    rintro _ parameter ⟨hparameter, rfl⟩
    refine Ty.codec.takes.bind ?_
    rintro _ result ⟨hresult, rfl⟩
    refine Instruction.codec.list.takes.bind ?_
    rintro _ body ⟨⟨hcount, hbody⟩, rfl⟩
    refine Reader.codec_word32.takes.map ?_
    rintro _ resultId ⟨hresultId, rfl⟩
    exact ⟨⟨hversion, hparameter, hresult, hcount, hbody, hresultId⟩,
      by simp only [write, List.append_assoc]⟩

section

variable {g h : Graph} {bytes : List UInt8} {e : GraphError}

theorem accept_of_version_ne (hversion : g.formatVersion ≠ currentVersion) :
    g.accept = .error (.versionMismatch g.formatVersion) := by
  rw [accept, checkVersion, if_neg hversion]
  rfl

theorem accept_of_verify_eq_error (hversion : g.formatVersion = currentVersion)
    (hverify : g.verify = .error e) : g.accept = .error e := by
  rw [accept, checkVersion, if_pos hversion, hverify]
  rfl

theorem accept_eq_ok_iff :
    g.accept = .ok h ↔ g = h ∧ g.formatVersion = currentVersion ∧ g.verify = .ok () := by
  by_cases hversion : g.formatVersion = currentVersion
  · cases hverify : g.verify with
    | error e => simp [accept_of_verify_eq_error hversion hverify]
    | ok _ =>
      have haccept : g.accept = .ok g := by
        rw [accept, checkVersion, if_pos hversion, hverify]
        rfl
      simp [haccept, hversion]
  · simp [accept_of_version_ne hversion, hversion]

theorem ofBytes_write_append (hg : g.Fits) (rest : List UInt8) :
    ofBytes (g.write ++ rest) = g.accept := by
  rw [ofBytes, (codec.reads g hg).front]

theorem ofBytes_eq_ok_iff : ofBytes bytes = .ok g ↔
    g.formatVersion = currentVersion ∧ g.verify = .ok () ∧ g.Fits ∧ g.write <+: bytes := by
  rw [← codec.front?_eq_some_iff, ofBytes]
  cases Reader.front? read bytes with
  | none => simp
  | some h =>
    simp only [accept_eq_ok_iff, Option.some.injEq]
    constructor
    · rintro ⟨rfl, hversion, hverify⟩
      exact ⟨hversion, hverify, rfl⟩
    · rintro ⟨hversion, hverify, rfl⟩
      exact ⟨rfl, hversion, hverify⟩

end

/-- A graph that is written is read back if it has the current version and is well formed, and
refused for its version, or else for what is wrong with it, if not. What is accepted begins with
the stored form of the graph that is given, so no two graphs are stored alike. -/
theorem ofBytes_outcome :
    (∀ g : Graph, g.Fits → ∀ rest,
      (g.formatVersion = "fedgraph.v1" → g.verify = .ok () → ofBytes (g.write ++ rest) = .ok g) ∧
      (g.formatVersion ≠ "fedgraph.v1" →
        ofBytes (g.write ++ rest) = .error (.versionMismatch g.formatVersion)) ∧
      ∀ e, g.formatVersion = "fedgraph.v1" → g.verify = .error e →
        ofBytes (g.write ++ rest) = .error e) ∧
    (∀ bytes g, ofBytes bytes = .ok g → g.Fits ∧ g.write <+: bytes) ∧
    ∀ g h : Graph, g.Fits → h.Fits → g.write = h.write → g = h := by
  refine ⟨fun g hg rest => ?_, fun bytes g h => (ofBytes_eq_ok_iff.mp h).2.2,
    fun g h hg hh => codec.write_inj hg hh⟩
  rw [ofBytes_write_append hg]
  exact ⟨fun hversion hverify => accept_eq_ok_iff.mpr ⟨rfl, hversion, hverify⟩,
    accept_of_version_ne, fun e => accept_of_verify_eq_error⟩

/-- A constant that is no number, packed under no name. As it is it is read back, under
another version it is refused for it, and with a result that no instruction defines for that. -/
theorem ofBytes_outcome_constant :
    let nan : Tensor := ⟨[], .float32 [⟨0x7fc00001⟩]⟩
    let result : Ty := .struct [(none, .tensor nan.type)]
    let g : Graph := ⟨"fedgraph.v1", none, result,
      [⟨0, .constant nan, [], .tensor nan.type⟩, ⟨1, .pack [none], [0], result⟩], 1⟩
    let newer : Graph := { g with formatVersion := "fedgraph.v2" }
    let unfinished : Graph := { g with resultId := 2 }
    g.Fits ∧ ofBytes (g.write ++ [7]) = .ok g ∧ g.write <+: g.write ++ [7] ∧
      ofBytes newer.write = .error (.versionMismatch "fedgraph.v2") ∧
      ofBytes unfinished.write = .error (.invalid (.resultUndefined 2)) ∧
      g.write ≠ newer.write := by
  intro nan result g newer unfinished
  have hnan : nan.Fits := ⟨by decide, nofun, show 1 < UInt64.size by decide⟩
  have htype : Ty.Fits (.tensor nan.type) := .tensor ⟨by decide, nofun⟩
  have hresult : result.Fits :=
    .struct (by decide) (List.forall_mem_singleton.mpr (by decide))
      (List.forall_mem_singleton.mpr htype)
  have hconstant : Instruction.Fits ⟨0, .constant nan, [], .tensor nan.type⟩ :=
    ⟨by decide, hnan, by decide, nofun, htype⟩
  have hpack : Instruction.Fits ⟨1, .pack [none], [0], result⟩ :=
    ⟨by decide, ⟨by decide, by decide⟩, by decide, by decide, hresult⟩
  have hcount : g.body.length < UInt64.size := by decide
  have hbody : ∀ i ∈ g.body, i.Fits :=
    List.forall_mem_cons.mpr ⟨hconstant, List.forall_mem_singleton.mpr hpack⟩
  have hfits : ∀ version id, version.utf8ByteSize < UInt64.size → id < UInt32.size →
      Fits { g with formatVersion := version, resultId := id } :=
    fun version id hversion hid => ⟨hversion, nofun, hresult, hcount, hbody, hid⟩
  have hg : g.Fits := hfits "fedgraph.v1" 1 (by decide) (by decide)
  have hnewer : newer.Fits := hfits "fedgraph.v2" 1 (by decide) (by decide)
  have hunfinished : unfinished.Fits := hfits "fedgraph.v1" 2 (by decide) (by decide)
  obtain ⟨hwritten, haccepted, hinj⟩ := ofBytes_outcome
  have hok : ofBytes (g.write ++ [7]) = .ok g :=
    (hwritten g hg [7]).1 rfl (by decide +kernel)
  refine ⟨hg, hok, (haccepted _ g hok).2, ?_, ?_, fun h => ?_⟩
  · simpa only [List.append_nil] using (hwritten newer hnewer []).2.1 (by decide)
  · simpa only [List.append_nil] using
      (hwritten unfinished hunfinished []).2.2 (.invalid (.resultUndefined 2)) rfl
        (by decide +kernel)
  · exact absurd (congrArg Graph.formatVersion (hinj g newer hg hnewer h)) (by decide)

end Graph

end GraphFusion
