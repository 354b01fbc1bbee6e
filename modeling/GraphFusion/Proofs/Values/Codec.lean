import GraphFusion.Proofs.Types.Codec
import GraphFusion.Values.Codec

/-!
The stored form of tensors and values, and the envelope around a value alone. Elements are
kept bit for bit, and a tensor need not fill its extents. Main statement: an envelope that
is opened gives exactly the value whose stored form stands in it, a wrong header is told
from a wrong version, and behind a right header the payload decides.
-/

namespace GraphFusion

open Reader (Reads Takes Canonical Codec)

namespace Reader

theorem codec_int32 : Codec int32 Bytes.int32 fun _ => True := by
  refine codec_word32.map (fun n hn => ?_) fun n => ⟨fun _ => ?_, fun _ => trivial⟩
  · rw [Bytes.int32, UInt32.toUInt32_toInt32, UInt32.toNat_ofNat_of_lt' hn]
  · exact ⟨n.toUInt32.toNat, n.toUInt32.toNat_lt, by
      rw [UInt32.ofNat_toNat, Int32.toInt32_toUInt32]⟩

theorem codec_int64 : Codec int64 Bytes.int64 fun _ => True := by
  refine codec_word64.map (fun n hn => ?_) fun n => ⟨fun _ => ?_, fun _ => trivial⟩
  · rw [Bytes.int64, UInt64.toUInt64_toInt64, UInt64.toNat_ofNat_of_lt' hn]
  · exact ⟨n.toUInt64.toNat, n.toUInt64.toNat_lt, by
      rw [UInt64.ofNat_toNat, Int64.toInt64_toUInt64]⟩

theorem codec_binary32 : Codec Binary32.read Binary32.write fun _ => True := by
  refine codec_word32.map (fun n hn => ?_) fun x => ⟨fun _ => ?_, fun _ => trivial⟩
  · rw [Binary32.write, UInt32.toNat_ofNat_of_lt' hn]
  · exact ⟨x.bits.toNat, x.bits.toNat_lt, by rw [UInt32.ofNat_toNat]⟩

theorem codec_binary64 : Codec Binary64.read Binary64.write fun _ => True := by
  refine codec_word64.map (fun n hn => ?_) fun x => ⟨fun _ => ?_, fun _ => trivial⟩
  · rw [Binary64.write, UInt64.toNat_ofNat_of_lt' hn]
  · exact ⟨x.bits.toNat, x.bits.toNat_lt, by rw [UInt64.ofNat_toNat]⟩

end Reader

namespace TensorData

/-- A word can count the elements. -/
def Fits (d : TensorData) : Prop := d.length < UInt64.size

theorem codec : Codec read write Fits where
  reads d hd := by
    have hall : ∀ {α : Type} {values : List α}, values.length < UInt64.size →
        values.length < UInt64.size ∧ ∀ a ∈ values, True := fun h => ⟨h, fun _ _ => trivial⟩
    cases d with
    | bool values =>
      exact (Reader.reads_tag (by decide)).bind ((Reader.codec_flag.list.reads _ (hall hd)).map _)
    | int32 values =>
      exact (Reader.reads_tag (by decide)).bind ((Reader.codec_int32.list.reads _ (hall hd)).map _)
    | int64 values =>
      exact (Reader.reads_tag (by decide)).bind ((Reader.codec_int64.list.reads _ (hall hd)).map _)
    | float32 values =>
      exact (Reader.reads_tag (by decide)).bind
        ((Reader.codec_binary32.list.reads _ (hall hd)).map _)
    | float64 values =>
      exact (Reader.reads_tag (by decide)).bind
        ((Reader.codec_binary64.list.reads _ (hall hd)).map _)
  takes := by
    refine Reader.codec_word32.takes.bind ?_
    rintro _ tag ⟨-, rfl⟩
    split
    · refine Reader.codec_flag.list.takes.map ?_
      rintro _ values ⟨⟨hcount, -⟩, rfl⟩
      exact ⟨hcount, rfl⟩
    · refine Reader.codec_int32.list.takes.map ?_
      rintro _ values ⟨⟨hcount, -⟩, rfl⟩
      exact ⟨hcount, rfl⟩
    · refine Reader.codec_int64.list.takes.map ?_
      rintro _ values ⟨⟨hcount, -⟩, rfl⟩
      exact ⟨hcount, rfl⟩
    · refine Reader.codec_binary32.list.takes.map ?_
      rintro _ values ⟨⟨hcount, -⟩, rfl⟩
      exact ⟨hcount, rfl⟩
    · refine Reader.codec_binary64.list.takes.map ?_
      rintro _ values ⟨⟨hcount, -⟩, rfl⟩
      exact ⟨hcount, rfl⟩
    · exact Reader.takes_failure

end TensorData

namespace Tensor

/-- Extents of one machine word, and words that count them and the elements. -/
structure Fits (t : Tensor) : Prop where
  rank : t.shape.length < UInt64.size
  extents : ∀ extent ∈ t.shape, extent < UInt64.size
  data : t.data.Fits

theorem codec : Codec read write Fits where
  reads t ht := (Reader.codec_word64.list.reads t.shape ⟨ht.rank, ht.extents⟩).bind
    ((TensorData.codec.reads t.data ht.data).map _)
  takes := by
    refine Reader.codec_word64.list.takes.bind ?_
    rintro _ shape ⟨⟨hrank, hextents⟩, rfl⟩
    refine TensorData.codec.takes.map ?_
    rintro _ data ⟨hdata, rfl⟩
    exact ⟨⟨hrank, hextents, hdata⟩, rfl⟩

end Tensor

namespace Value

/-- All numbers in the value fit their words. -/
inductive Fits : Value → Prop
  | tensor {t : Tensor} (h : t.Fits) : Fits (.tensor t)
  | struct {es : List (Label × Value)} (count : es.length < UInt64.size)
      (labels : ∀ e ∈ es, Label.Fits e.1) (values : ∀ e ∈ es, Fits e.2) : Fits (.struct es)

theorem writeElements_eq (es : List (Label × Value)) :
    writeElements es = es.flatMap (Bytes.labelled write) := by
  induction es with
  | nil => rfl
  | cons e es ih => rw [writeElements, ih]; rfl

theorem write_struct (es : List (Label × Value)) :
    write (.struct es) = Bytes.word32 1 ++ Bytes.list (Bytes.labelled write) es := by
  rw [write, writeElements_eq, List.append_assoc]
  rfl

/-- One level of nesting for each byte is enough. -/
theorem Fits.reads_readWithin {v : Value} (h : v.Fits) (depth : Nat)
    (hdepth : v.write.length < depth) : Reads (readWithin depth) v.write v := by
  induction h generalizing depth with
  | tensor h =>
    cases depth with
    | zero => exact absurd hdepth (Nat.not_lt_zero _)
    | succ depth =>
      rw [write]
      exact (Reader.reads_tag (by decide)).bind ((Tensor.codec.reads _ h).map Value.tensor)
  | @struct es count labels values ih =>
    cases depth with
    | zero => exact absurd hdepth (Nat.not_lt_zero _)
    | succ depth =>
      rw [write_struct, List.length_append] at hdepth
      rw [write_struct]
      refine (Reader.reads_tag (by decide)).bind (Reads.map ?_ Value.struct)
      refine Reader.reads_labelled count labels fun e he => ih e he depth ?_
      have hlength := Bytes.length_labelled_le write he
      omega

/-- Whatever is read within some depth is the stored form of a value that fits. -/
theorem canonical_readWithin (depth : Nat) : Canonical (readWithin depth) write Fits := by
  induction depth with
  | zero => exact Reader.takes_failure
  | succ depth ih =>
    refine Reader.codec_word32.takes.bind ?_
    rintro _ tag ⟨-, rfl⟩
    split
    · refine Tensor.codec.takes.map ?_
      rintro _ t ⟨ht, rfl⟩
      exact ⟨.tensor ht, rfl⟩
    · refine Takes.map (Canonical.list (Reader.canonical_labelled ih)) ?_
      rintro _ es ⟨⟨hcount, hes⟩, rfl⟩
      exact ⟨.struct hcount (fun e he => (hes e he).1) fun e he => (hes e he).2,
        (write_struct es).symm⟩
    · exact Reader.takes_failure

theorem codec : Codec read write Fits where
  reads v hv rest := hv.reads_readWithin _ (by rw [List.length_append]; omega) rest
  takes bytes := canonical_readWithin _ bytes

section

variable {bytes payload : List UInt8} {n : Nat} {v : Value}

theorem length_envelopeMagic : envelopeMagic.length = 8 := rfl

/-- Every byte string has no header, or one with some version. -/
theorem header_cases (bytes : List UInt8) :
    (bytes.length < 12 ∨ ¬ envelopeMagic <+: bytes) ∨
      ∃ n payload, n < UInt32.size ∧ bytes = envelopeMagic ++ (Bytes.word32 n ++ payload) := by
  by_cases hlong : bytes.length < 12
  · exact .inl (.inl hlong)
  by_cases hmagic : envelopeMagic <+: bytes
  · obtain ⟨rest, rfl⟩ := hmagic
    rw [List.length_append, length_envelopeMagic] at hlong
    obtain ⟨n, payload, hread⟩ := Reader.exists_word (by omega : 4 ≤ rest.length)
    obtain ⟨_, rfl, hn, rfl⟩ := Reader.takes_word 4 rest n payload hread
    exact .inr ⟨n, payload, hn, rfl⟩
  · exact .inl (.inr hmagic)

theorem deserialize_malformed (h : bytes.length < 12 ∨ ¬ envelopeMagic <+: bytes) :
    deserialize bytes = .error .badMagic := by
  rw [deserialize, List.splitAt_eq]
  by_cases hmagic : bytes.take 8 = envelopeMagic
  · have hshort : bytes.length < 12 :=
      h.resolve_right (not_not.mpr (hmagic ▸ List.take_prefix 8 bytes))
    have hread : Reader.word32 (bytes.drop 8) = none :=
      Reader.word_eq_none (by rw [List.length_drop]; omega)
    simp only [hmagic, hread, ne_eq, not_true_eq_false, if_false]
  · simp only [ne_eq, hmagic, not_false_eq_true, if_true]

theorem deserialize_header (hn : n < UInt32.size) :
    deserialize (envelopeMagic ++ (Bytes.word32 n ++ payload)) =
      if n ≠ envelopeVersion then .error (.unsupportedVersion n)
      else (Reader.front? read payload).elim (.error .undecodable) .ok := by
  have hmagic : (envelopeMagic ++ (Bytes.word32 n ++ payload)).splitAt 8 =
      (envelopeMagic, Bytes.word32 n ++ payload) := by
    rw [List.splitAt_eq]
    rfl
  rw [deserialize, hmagic]
  simp only [ne_eq, not_true_eq_false, if_false, Reader.reads_word32 hn payload]
  cases Reader.front? read payload <;> rfl

theorem deserialize_eq_badMagic_iff :
    deserialize bytes = .error .badMagic ↔ bytes.length < 12 ∨ ¬ envelopeMagic <+: bytes := by
  refine ⟨fun h => (header_cases bytes).resolve_right ?_, deserialize_malformed⟩
  rintro ⟨n, payload, hn, rfl⟩
  rw [deserialize_header hn] at h
  split at h
  · cases h
  · cases hread : Reader.front? read payload <;> rw [hread] at h <;> cases h

theorem deserialize_eq_unsupportedVersion_iff :
    deserialize bytes = .error (.unsupportedVersion n) ↔
      n < UInt32.size ∧ n ≠ envelopeVersion ∧ envelopeMagic ++ Bytes.word32 n <+: bytes := by
  constructor
  · intro h
    rcases header_cases bytes with hmalformed | ⟨m, payload, hm, rfl⟩
    · rw [deserialize_malformed hmalformed] at h
      cases h
    · rw [deserialize_header hm] at h
      split at h
      · rename_i hversion
        cases h
        exact ⟨hm, hversion, payload, List.append_assoc ..⟩
      · cases hread : Reader.front? read payload <;> rw [hread] at h <;> cases h
  · rintro ⟨hn, hversion, payload, rfl⟩
    rw [List.append_assoc, deserialize_header hn, if_pos hversion]

/-- Behind a header with the current version, the payload decides. -/
theorem deserialize_payload :
    deserialize (envelopeMagic ++ (Bytes.word32 envelopeVersion ++ payload)) =
      (Reader.front? read payload).elim (.error .undecodable) .ok := by
  rw [deserialize_header (by decide), if_neg (not_not.mpr rfl)]

theorem deserialize_payload_eq_ok_iff :
    deserialize (envelopeMagic ++ (Bytes.word32 envelopeVersion ++ payload)) = .ok v ↔
      v.Fits ∧ v.write <+: payload := by
  rw [deserialize_payload, ← codec.front?_eq_some_iff]
  cases Reader.front? read payload <;> simp

theorem deserialize_payload_eq_undecodable_iff :
    deserialize (envelopeMagic ++ (Bytes.word32 envelopeVersion ++ payload)) =
      .error .undecodable ↔ ¬ ∃ v : Value, v.Fits ∧ v.write <+: payload := by
  rw [deserialize_payload]
  simp only [← codec.front?_eq_some_iff]
  cases Reader.front? read payload <;> simp

theorem serialize_eq (v : Value) :
    v.serialize = envelopeMagic ++ (Bytes.word32 envelopeVersion ++ v.write) :=
  List.append_assoc ..

theorem deserialize_eq_ok_iff :
    deserialize bytes = .ok v ↔ v.Fits ∧ v.serialize <+: bytes := by
  rw [serialize_eq]
  constructor
  · intro h
    rcases header_cases bytes with hmalformed | ⟨n, payload, hn, rfl⟩
    · rw [deserialize_malformed hmalformed] at h
      cases h
    · by_cases hversion : n = envelopeVersion
      · subst hversion
        obtain ⟨hfits, hpayload⟩ := deserialize_payload_eq_ok_iff.mp h
        exact ⟨hfits, by simpa only [List.prefix_append_right_inj] using hpayload⟩
      · rw [deserialize_header hn, if_pos hversion] at h
        cases h
  · rintro ⟨hfits, rest, rfl⟩
    rw [List.append_assoc, List.append_assoc]
    exact deserialize_payload_eq_ok_iff.mpr ⟨hfits, List.prefix_append _ _⟩

end

/-- What is serialized is deserialized to the same value, whatever follows it, and nothing else
is deserialized. A byte string without a whole header is refused for its magic, one with another
version for its version, and behind a right header the payload alone decides. -/
theorem deserialize_outcome (bytes : List UInt8) :
    (∀ v : Value, v.Fits → ∀ rest, deserialize (v.serialize ++ rest) = .ok v) ∧
    (∀ v, deserialize bytes = .ok v → v.Fits ∧ v.serialize <+: bytes) ∧
    (deserialize bytes = .error .badMagic ↔ bytes.length < 12 ∨ ¬ envelopeMagic <+: bytes) ∧
    (∀ n, deserialize bytes = .error (.unsupportedVersion n) ↔
      n < UInt32.size ∧ n ≠ 1 ∧ envelopeMagic ++ Bytes.word32 n <+: bytes) ∧
    ∀ payload, bytes = envelopeMagic ++ Bytes.word32 1 ++ payload →
      (∀ v, deserialize bytes = .ok v ↔ v.Fits ∧ v.write <+: payload) ∧
      (deserialize bytes = .error .undecodable ↔ ¬ ∃ v : Value, v.Fits ∧ v.write <+: payload) := by
  refine ⟨fun v hfits rest => ?_, fun v => deserialize_eq_ok_iff.mp, deserialize_eq_badMagic_iff,
    fun n => deserialize_eq_unsupportedVersion_iff, fun payload hbytes => ?_⟩
  · exact deserialize_eq_ok_iff.mpr ⟨hfits, List.prefix_append _ _⟩
  · rw [hbytes, List.append_assoc]
    exact ⟨fun v => deserialize_payload_eq_ok_iff, deserialize_payload_eq_undecodable_iff⟩

/-- Unnamed elements, an empty struct, no elements in a tensor, and a number that is none;
one more byte follows. -/
theorem deserialize_outcome_nested :
    let v : Value := .struct [(some "é", .struct []), (none, .tensor ⟨[0, 3], .int64 []⟩),
      (some "", .tensor ⟨[], .float32 [⟨0x7fc00001⟩]⟩)]
    let payload := v.write ++ [7]
    let bytes := envelopeMagic ++ Bytes.word32 1 ++ payload
    v.Fits ∧ deserialize bytes = .ok v ∧ v.serialize <+: bytes ∧
      (deserialize bytes = .ok v ↔ v.Fits ∧ v.write <+: payload) := by
  intro v payload bytes
  have htensor : ∀ t : Tensor, t.shape.length < UInt64.size → (∀ n ∈ t.shape, n < UInt64.size) →
      t.data.length < UInt64.size → Value.Fits (.tensor t) :=
    fun t hrank hextents hdata => .tensor ⟨hrank, hextents, hdata⟩
  have hfits : v.Fits := by
    refine .struct (by decide) ?_ ?_
    · simp only [List.forall_mem_cons]
      exact ⟨by decide, by decide, by decide, nofun⟩
    · simp only [List.forall_mem_cons]
      exact ⟨.struct (by decide) nofun nofun, htensor _ (by decide) (by decide) (by decide),
        htensor _ (by decide) (by decide) (by decide), nofun⟩
  obtain ⟨hread, hopened, -, -, hpayload⟩ := deserialize_outcome bytes
  have hok : deserialize bytes = .ok v := hread v hfits [7]
  exact ⟨hfits, hok, (hopened v hok).2, (hpayload payload rfl).1 v⟩

end Value

end GraphFusion
