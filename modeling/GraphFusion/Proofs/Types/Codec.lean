import GraphFusion.Proofs.Bytes.Canonical
import GraphFusion.Types.Codec

/-!
The stored form of types is canonical for the types whose numbers fit their words: extents
of one machine word, and no more elements, axes or bytes in a name than a word can count.
Whatever nesting a type has, the levels that a reader is allowed suffice.
-/

namespace GraphFusion

open Reader (Reads Takes Canonical Codec)

/-- The name, if there is one, is no longer than a word can count. -/
def Label.Fits (label : Label) : Prop := ∀ name ∈ label, name.utf8ByteSize < UInt64.size

instance : DecidablePred Label.Fits := fun label =>
  inferInstanceAs (Decidable (∀ name ∈ label, name.utf8ByteSize < UInt64.size))

theorem Label.codec : Codec (Reader.option Reader.text) (Bytes.option Bytes.text) Label.Fits :=
  Reader.codec_text.option

section

variable {α : Type} {read : Reader α} {write : α → List UInt8} {fits : α → Prop}

/-- An element of a struct as it is written. -/
def Bytes.labelled (write : α → List UInt8) (e : Label × α) : List UInt8 :=
  Bytes.option Bytes.text e.1 ++ write e.2

theorem Bytes.length_labelled_le (write : α → List UInt8) {es : List (Label × α)} {e : Label × α}
    (h : e ∈ es) : (write e.2).length + 8 ≤ (Bytes.list (labelled write) es).length := by
  have helement : (write e.2).length ≤ (labelled write e).length := by
    rw [labelled, List.length_append]
    omega
  have hall := length_le_length_flatMap (labelled write) h
  rw [Bytes.list, List.length_append, length_word64]
  omega

theorem Reader.reads_labelled {es : List (Label × α)} (hcount : es.length < UInt64.size)
    (hlabels : ∀ e ∈ es, e.1.Fits) (h : ∀ e ∈ es, Reads read (write e.2) e.2) :
    Reads (list do return (← option text, ← read)) (Bytes.list (Bytes.labelled write) es) es := by
  have hread : Reads (list do return (← option text, ← read))
      (Bytes.list (Bytes.labelled write) es) (es.map id) := by
    refine reads_list (fun e he => ?_) hcount
    exact (Label.codec.reads e.1 (hlabels e he)).bind ((h e he).map (e.1, ·))
  rwa [List.map_id] at hread

theorem Reader.canonical_labelled (h : Canonical read write fits) :
    Canonical (do return (← option text, ← read)) (Bytes.labelled write) fun e =>
      Label.Fits e.1 ∧ fits e.2 := by
  refine Label.codec.takes.bind ?_
  rintro _ label ⟨hlabel, rfl⟩
  refine Takes.map h ?_
  rintro _ a ⟨ha, rfl⟩
  exact ⟨⟨hlabel, ha⟩, rfl⟩

end

theorem DType.codec : Codec DType.read DType.write fun _ => True :=
  Reader.codec_tagged (fun d => Nat.lt_trans d.tag_lt (by decide))
    (fun _ d => ⟨DType.tag_of_ofTag?, fun h => h ▸ d.ofTag?_tag⟩)
    fun n => by cases DType.ofTag? n <;> rfl

namespace Dimension

def Fits : Dimension → Prop
  | fixed extent => extent < UInt64.size
  | dynamic => True

theorem codec : Codec read write Fits where
  reads d hd := by
    cases d with
    | fixed extent =>
      exact (Reader.reads_tag (by decide)).bind ((Reader.reads_word64 hd).map fixed)
    | dynamic =>
      exact (Reader.reads_tag (by decide)).bind (Reader.reads_pure dynamic)
  takes := by
    refine Reader.codec_word32.takes.bind ?_
    rintro _ tag ⟨-, rfl⟩
    split
    · refine Reader.codec_word64.takes.map ?_
      rintro _ extent ⟨hextent, rfl⟩
      exact ⟨hextent, rfl⟩
    · exact Reader.takes_pure ⟨trivial, rfl⟩
    · exact Reader.takes_failure

end Dimension

namespace Shape

structure Fits (s : Shape) : Prop where
  rank : s.dims.length < UInt64.size
  dims : ∀ d ∈ s.dims, d.Fits

theorem codec : Codec read write Fits :=
  Dimension.codec.list.map (fun _ _ => rfl) fun s =>
    ⟨fun h => ⟨s.dims, ⟨h.rank, h.dims⟩, rfl⟩, fun ⟨_, h, hs⟩ => hs ▸ ⟨h.1, h.2⟩⟩

end Shape

namespace TensorType

def Fits (t : TensorType) : Prop := t.shape.Fits

theorem codec : Codec read write Fits where
  reads t ht := (DType.codec.reads t.dtype trivial).bind ((Shape.codec.reads t.shape ht).map _)
  takes := by
    refine DType.codec.takes.bind ?_
    rintro _ dtype ⟨-, rfl⟩
    refine Shape.codec.takes.map ?_
    rintro _ shape ⟨hshape, rfl⟩
    exact ⟨hshape, rfl⟩

end TensorType

namespace Ty

/-- All numbers in the type fit their words. -/
inductive Fits : Ty → Prop
  | tensor {t : TensorType} (h : t.Fits) : Fits (.tensor t)
  | struct {es : List (Label × Ty)} (count : es.length < UInt64.size)
      (labels : ∀ e ∈ es, Label.Fits e.1) (types : ∀ e ∈ es, Fits e.2) : Fits (.struct es)
  | function {parameter : Option Ty} {result : Ty} (hparameter : ∀ t ∈ parameter, Fits t)
      (hresult : Fits result) : Fits (.function parameter result)

theorem writeElements_eq (es : List (Label × Ty)) :
    writeElements es = es.flatMap (Bytes.labelled write) := by
  induction es with
  | nil => rfl
  | cons e es ih => rw [writeElements, ih]; rfl

theorem write_struct (es : List (Label × Ty)) :
    write (.struct es) = Bytes.word32 1 ++ Bytes.list (Bytes.labelled write) es := by
  rw [write, writeElements_eq, List.append_assoc]
  rfl

theorem write_function (parameter : Option Ty) (result : Ty) : write (.function parameter result) =
    Bytes.word32 2 ++ (Bytes.option write parameter ++ write result) := by
  cases parameter <;> simp only [write, Bytes.option, List.append_assoc]

/-- One level of nesting for each byte is enough. -/
theorem Fits.reads_readWithin {t : Ty} (h : t.Fits) (depth : Nat)
    (hdepth : t.write.length < depth) : Reads (readWithin depth) t.write t := by
  induction h generalizing depth with
  | tensor h =>
    cases depth with
    | zero => exact absurd hdepth (Nat.not_lt_zero _)
    | succ depth =>
      rw [write]
      exact (Reader.reads_tag (by decide)).bind ((TensorType.codec.reads _ h).map Ty.tensor)
  | @struct es count labels types ih =>
    cases depth with
    | zero => exact absurd hdepth (Nat.not_lt_zero _)
    | succ depth =>
      rw [write_struct, List.length_append] at hdepth
      rw [write_struct]
      refine (Reader.reads_tag (by decide)).bind (Reads.map ?_ Ty.struct)
      refine Reader.reads_labelled count labels fun e he => ih e he depth ?_
      have hlength := Bytes.length_labelled_le write he
      omega
  | @function parameter result hparameter _ ihparameter ihresult =>
    cases depth with
    | zero => exact absurd hdepth (Nat.not_lt_zero _)
    | succ depth =>
      rw [write_function, List.length_append, List.length_append, Bytes.length_word32] at hdepth
      rw [write_function]
      refine (Reader.reads_tag (by decide)).bind
        (Reads.bind ?_ ((ihresult depth (by omega)).map _))
      cases parameter with
      | none => exact (Reader.codec_flag.reads false trivial).bind (Reader.reads_pure none)
      | some p =>
        rw [Bytes.option, List.length_append] at hdepth
        exact (Reader.codec_flag.reads true trivial).bind
          ((ihparameter p rfl depth (by omega)).map some)

/-- Whatever is read within some depth is the stored form of a type that fits. -/
theorem canonical_readWithin (depth : Nat) : Canonical (readWithin depth) write Fits := by
  induction depth with
  | zero => exact Reader.takes_failure
  | succ depth ih =>
    refine Reader.codec_word32.takes.bind ?_
    rintro _ tag ⟨-, rfl⟩
    split
    · refine TensorType.codec.takes.map ?_
      rintro _ t ⟨ht, rfl⟩
      exact ⟨.tensor ht, rfl⟩
    · refine Takes.map (Canonical.list (Reader.canonical_labelled ih)) ?_
      rintro _ es ⟨⟨hcount, hes⟩, rfl⟩
      exact ⟨.struct hcount (fun e he => (hes e he).1) fun e he => (hes e he).2,
        (write_struct es).symm⟩
    · refine Takes.bind (Canonical.option ih) ?_
      rintro _ parameter ⟨hparameter, rfl⟩
      refine Takes.map ih ?_
      rintro _ result ⟨hresult, rfl⟩
      exact ⟨.function hparameter hresult, (write_function parameter result).symm⟩
    · exact Reader.takes_failure

theorem codec : Codec read write Fits where
  reads t ht rest := ht.reads_readWithin _ (by rw [List.length_append]; omega) rest
  takes bytes := canonical_readWithin _ bytes

end Ty

end GraphFusion
