import GraphFusion.Store.Archive
import GraphFusion.Proofs.Values.Codec
import GraphFusion.Proofs.Lists
import Mathlib.Algebra.GroupWithZero.Nat
import Mathlib.Algebra.Order.BigOperators.Group.List
import Mathlib.Algebra.Order.Group.Nat

/-!
What an archive can hold, and that it holds it. The lengths of the index and of
the elements follow from the names, the extents and the element types alone, and
they alone decide whether leaves can be archived. Reading the archive gives the
same leaves back in the same order, bit for bit, and the entries of its index take
up every byte behind the index, one after the other.
-/

namespace GraphFusion

namespace Tensor

/-- As many elements as the extents say, and extents of one machine word. -/
structure WellFormed (t : Tensor) : Prop where
  filled : t.Filled
  extents : ∀ extent ∈ t.shape, extent < UInt64.size

/-- As many elements as the machine computes from the extents, and extents of one machine
word. -/
structure Storable (t : Tensor) : Prop where
  sized : t.Sized
  extents : ∀ extent ∈ t.shape, extent < UInt64.size

variable {t : Tensor}

/-- No product that counts elements in memory wraps around. -/
theorem Filled.sized (h : t.Filled) (hfits : t.data.Fits) : t.Sized := by
  rw [Filled] at h
  rw [TensorData.Fits, h] at hfits
  rw [Sized, capacity, Nat.mod_eq_of_lt hfits, h]

theorem Sized.filled_iff (h : t.Sized) : t.Filled ↔ volume t.shape < UInt64.size := by
  rw [Filled, h, capacity]
  exact Nat.mod_eq_iff_lt (by decide)

theorem WellFormed.storable (h : t.WellFormed) (hfits : t.data.Fits) : t.Storable :=
  ⟨h.filled.sized hfits, h.extents⟩

end Tensor

theorem DType.sizeInBytes_pos (d : DType) : 0 < d.sizeInBytes := by
  cases d <;> decide

namespace TensorData

theorem length_writeElements (d : TensorData) :
    d.writeElements.length = d.dtype.sizeInBytes * d.length := by
  cases d with
  | bool values => exact Bytes.length_flatMap_of_const fun _ _ => Bytes.length_flag _
  | int32 values => exact Bytes.length_flatMap_of_const fun _ _ => Bytes.length_word32 _
  | int64 values => exact Bytes.length_flatMap_of_const fun _ _ => Bytes.length_word64 _
  | float32 values => exact Bytes.length_flatMap_of_const fun _ _ => Bytes.length_word32 _
  | float64 values => exact Bytes.length_flatMap_of_const fun _ _ => Bytes.length_word64 _

theorem front?_repeated {α : Type} {read : Reader α} {write : α → List UInt8}
    (h : Reader.Codec read write fun _ => True) (values : List α) :
    Reader.front? (Reader.repeated read values.length) (values.flatMap write) = some values := by
  have hread : Reader.Reads (Reader.repeated read values.length) (values.flatMap write)
      (values.map id) := Reader.reads_repeated fun a _ => h.reads a trivial
  have hfront := hread.front []
  rwa [List.append_nil, List.map_id] at hfront

theorem map_flag (values : List Bool) : (values.flatMap Bytes.flag).map (· != 0) = values := by
  induction values with
  | nil => rfl
  | cons b values ih =>
    rw [List.flatMap_cons, List.map_append, ih]
    cases b <;> rfl

theorem readElements?_writeElements (d : TensorData) :
    readElements? d.dtype d.writeElements = some d := by
  have hlength := d.length_writeElements
  have hsize : 0 < d.dtype.sizeInBytes := DType.sizeInBytes_pos _
  have haligned : d.writeElements.length % d.dtype.sizeInBytes = 0 := by
    rw [hlength, Nat.mul_mod_right]
  have hcount : d.writeElements.length / d.dtype.sizeInBytes = d.length := by
    rw [hlength, Nat.mul_div_cancel_left _ hsize]
  rw [readElements?, if_neg (not_not.mpr haligned), hcount]
  cases d with
  | bool values => exact congrArg (some ∘ bool) (map_flag values)
  | int32 values => exact congrArg (Option.map int32) (front?_repeated Reader.codec_int32 values)
  | int64 values => exact congrArg (Option.map int64) (front?_repeated Reader.codec_int64 values)
  | float32 values =>
    exact congrArg (Option.map float32) (front?_repeated Reader.codec_binary32 values)
  | float64 values =>
    exact congrArg (Option.map float64) (front?_repeated Reader.codec_binary64 values)

end TensorData

namespace ArchiveEntry

theorem length_write (e : ArchiveEntry) :
    e.write.length = 36 + e.name.utf8ByteSize + 8 * e.shape.length := by
  have hshape : (Bytes.list Bytes.word64 e.shape).length = 8 + 8 * e.shape.length := by
    rw [Bytes.list, List.length_append, Bytes.length_word64,
      Bytes.length_flatMap_of_const fun n _ => Bytes.length_word64 n]
  simp only [write, List.length_append, Bytes.length_text, Bytes.length_word32,
    Bytes.length_word64, hshape]
  omega

/-- All numbers of the entry fit their words. -/
structure Fits (e : ArchiveEntry) : Prop where
  name : e.name.utf8ByteSize < UInt64.size
  rank : e.shape.length < UInt64.size
  extents : ∀ extent ∈ e.shape, extent < UInt64.size
  offset : e.offset < UInt64.size
  length : e.length < UInt64.size

theorem reads_write {e : ArchiveEntry} (h : e.Fits) : Reader.Reads read e.write (.ok e) := by
  have htag : e.dtype.tag < 256 := Nat.lt_trans e.dtype.tag_lt (by decide)
  rw [write, read, List.append_assoc, List.append_assoc, List.append_assoc]
  refine (Reader.reads_text h.name).bind
    ((Reader.codec_word64.list.reads e.shape ⟨h.rank, h.extents⟩).bind
      ((Reader.reads_tag htag).bind ((Reader.reads_word64 h.offset).bind ?_)))
  simp only [DType.ofTag?_tag]
  exact (Reader.reads_word64 h.length).map fun length =>
    (.ok ⟨e.name, e.shape, e.dtype, e.offset, length⟩ : Except Nat ArchiveEntry)

end ArchiveEntry

namespace Archive

/-- Bytes of the index: a count, and for each leaf its name, its extents and four
numbers. -/
def indexLength (leaves : List (String × Tensor)) : Nat :=
  8 + (leaves.map fun leaf => 36 + leaf.1.utf8ByteSize + 8 * leaf.2.shape.length).sum

/-- Bytes of the elements of all leaves. -/
def dataLength (leaves : List (String × Tensor)) : Nat :=
  (leaves.map fun leaf => leaf.2.dtype.sizeInBytes * leaf.2.elementCount).sum

/-- Why leaves cannot be archived: the index has to be shorter than 2^32 bytes and
the whole file no longer than a file can be. -/
def obstacle? (leaves : List (String × Tensor)) : Option ArchiveError :=
  if UInt32.size ≤ indexLength leaves then some .indexTooLarge
  else if maxFileLength < headerLength + indexLength leaves + dataLength leaves then some .file
  else none

/-- The bytes in front of the elements. -/
def head (leaves : List (String × Tensor)) : List UInt8 :=
  magic ++ Bytes.word32 version ++ Bytes.word32 (indexLength leaves) ++
    writeIndex (place (headerLength + indexLength leaves) leaves)

/-- The file that holds the leaves. -/
def content (leaves : List (String × Tensor)) : List UInt8 :=
  head leaves ++ leaves.flatMap fun (_, t) => t.data.writeElements

theorem length_place (start : Nat) (leaves : List (String × Tensor)) :
    (place start leaves).length = leaves.length := by
  induction leaves generalizing start with
  | nil => rfl
  | cons leaf leaves ih => rw [place, List.length_cons, List.length_cons, ih]

theorem length_writeIndex_place (start : Nat) (leaves : List (String × Tensor)) :
    (writeIndex (place start leaves)).length = indexLength leaves := by
  have hentries : ((place start leaves).flatMap ArchiveEntry.write).length =
      (leaves.map fun leaf => 36 + leaf.1.utf8ByteSize + 8 * leaf.2.shape.length).sum := by
    induction leaves generalizing start with
    | nil => rfl
    | cons leaf leaves ih =>
      rw [place, List.flatMap_cons, List.length_append, ih, ArchiveEntry.length_write,
        List.map_cons, List.sum_cons]
  rw [writeIndex, Bytes.list, List.length_append, Bytes.length_word64, hentries, indexLength]

theorem length_head (leaves : List (String × Tensor)) :
    (head leaves).length = headerLength + indexLength leaves := by
  have hmagic : magic.length = 8 := rfl
  simp only [head, List.length_append, Bytes.length_word32, length_writeIndex_place, hmagic,
    headerLength]

theorem length_content (leaves : List (String × Tensor)) :
    (content leaves).length = headerLength + indexLength leaves + dataLength leaves := by
  have hdata : (leaves.flatMap fun (_, t) => t.data.writeElements).length = dataLength leaves := by
    rw [List.length_flatMap, dataLength]
    exact congrArg List.sum (List.map_congr_left fun leaf _ => leaf.2.data.length_writeElements)
  rw [content, List.length_append, length_head, hdata]

/-- Whether leaves can be archived depends on the lengths alone. -/
theorem ofLeaves_eq (leaves : List (String × Tensor)) :
    ofLeaves leaves = match obstacle? leaves with
      | some e => .error e
      | none => .ok (content leaves) := by
  have hlength := length_content leaves
  simp only [content, head] at hlength
  simp only [ofLeaves, length_writeIndex_place, obstacle?]
  by_cases hindex : UInt32.size ≤ indexLength leaves
  · rw [if_pos hindex, if_pos hindex]
    rfl
  · rw [if_neg hindex, if_neg hindex, hlength]
    by_cases hfile : maxFileLength < headerLength + indexLength leaves + dataLength leaves
    · rw [if_pos hfile, if_pos hfile]
      rfl
    · rw [if_neg hfile, if_neg hfile]
      rfl

theorem ofLeaves_eq_error_iff {leaves : List (String × Tensor)} {e : ArchiveError} :
    ofLeaves leaves = .error e ↔ obstacle? leaves = some e := by
  rw [ofLeaves_eq]
  cases obstacle? leaves <;> simp

theorem ofLeaves_eq_ok_iff {leaves : List (String × Tensor)} {file : List UInt8} :
    ofLeaves leaves = .ok file ↔ obstacle? leaves = none ∧ content leaves = file := by
  rw [ofLeaves_eq]
  cases obstacle? leaves <;> simp

theorem reading_of_reads {α : Type} {read : Reader α} {written : List UInt8} {a : α}
    (h : Reader.Reads read written a) (rest : List UInt8) :
    reading read (written ++ rest) = .ok (a, rest) := by
  rw [reading, h rest]

theorem indexLength_lt {leaves : List (String × Tensor)} (h : obstacle? leaves = none) :
    indexLength leaves < UInt32.size ∧
      headerLength + indexLength leaves + dataLength leaves ≤ maxFileLength := by
  simp only [obstacle?] at h
  split at h
  · cases h
  · split at h
    · cases h
    · exact ⟨by omega, by omega⟩

/-- The entries of leaves laid out one after the other fit their words. -/
theorem fits_of_mem_place {leaves : List (String × Tensor)} (start : Nat)
    (hleaves : ∀ leaf ∈ leaves, leaf.2.Storable) (hindex : indexLength leaves < UInt32.size)
    (hend : start + dataLength leaves < UInt64.size) : ∀ e ∈ place start leaves, e.Fits := by
  induction leaves generalizing start with
  | nil => simp [place]
  | cons leaf leaves ih =>
    obtain ⟨name, t⟩ := leaf
    have hsize : UInt32.size < UInt64.size := by decide
    have hlength := t.data.length_writeElements
    have hdata : dataLength ((name, t) :: leaves) =
        t.data.writeElements.length + dataLength leaves := by
      rw [hlength, dataLength, List.map_cons, List.sum_cons]
      rfl
    have hentry : indexLength ((name, t) :: leaves) =
        indexLength leaves + (36 + name.utf8ByteSize + 8 * t.shape.length) := by
      simp only [indexLength, List.map_cons, List.sum_cons]
      omega
    refine List.forall_mem_cons.mpr ⟨⟨?_, ?_, ?_, ?_, ?_⟩, ih _ ?_ ?_ ?_⟩
    · show name.utf8ByteSize < UInt64.size
      omega
    · show t.shape.length < UInt64.size
      omega
    · exact (hleaves _ List.mem_cons_self).extents
    · show start < UInt64.size
      omega
    · show t.data.writeElements.length < UInt64.size
      omega
    · exact fun leaf hleaf => hleaves leaf (List.mem_cons_of_mem _ hleaf)
    · omega
    · omega

theorem length_le_indexLength (leaves : List (String × Tensor)) :
    leaves.length ≤ indexLength leaves := by
  induction leaves with
  | nil => exact Nat.zero_le _
  | cons leaf leaves ih =>
    simp only [indexLength, List.map_cons, List.sum_cons, List.length_cons] at ih ⊢
    omega

theorem mapM_ok (found : List ArchiveEntry) :
    (found.map (Except.ok : ArchiveEntry → Except Nat ArchiveEntry)).mapM id = .ok found := by
  rw [mapM_eq_ok_iff, List.forall₂_map_left_iff, List.forall₂_same]
  exact fun _ _ => rfl

/-- The index is read whatever stands behind it. -/
theorem entries_head_append {leaves : List (String × Tensor)} (h : obstacle? leaves = none)
    (hleaves : ∀ leaf ∈ leaves, leaf.2.Storable) (rest : List UInt8) :
    entries (head leaves ++ rest) = .ok (place (headerLength + indexLength leaves) leaves) := by
  obtain ⟨hindex, hfile⟩ := indexLength_lt h
  have hmax : maxFileLength < UInt64.size := by decide
  have hsize : UInt32.size < UInt64.size := by decide
  have hfits := fits_of_mem_place (headerLength + indexLength leaves) hleaves hindex (by omega)
  have hcount : (place (headerLength + indexLength leaves) leaves).length < UInt64.size := by
    have hshort := length_le_indexLength leaves
    rw [length_place]
    omega
  have hmagic := reading_of_reads (Reader.reads_take magic)
  have hversion := reading_of_reads (Reader.reads_word32 (n := version) (by decide))
  have htake := Reader.reads_take (writeIndex (place (headerLength + indexLength leaves) leaves))
  rw [length_writeIndex_place] at htake
  have hbody := reading_of_reads ((Reader.reads_word32 hindex).bind htake)
  have hread := (Reader.reads_list
    (fun e he => ArchiveEntry.reads_write (hfits e he)) hcount).front []
  rw [List.append_nil] at hread
  have hhead : head leaves ++ rest = magic ++ (Bytes.word32 version ++
      ((Bytes.word32 (indexLength leaves) ++
        writeIndex (place (headerLength + indexLength leaves) leaves)) ++ rest)) := by
    simp only [head, List.append_assoc]
  rw [entries, hhead, hmagic, ok_bind]
  simp only [ne_eq, not_true_eq_false, if_false]
  rw [hversion, ok_bind]
  simp only [not_true_eq_false, if_false]
  rw [hbody, ok_bind, writeIndex]
  simp only [hread, mapM_ok]
  rfl

theorem entries_content {leaves : List (String × Tensor)} (h : obstacle? leaves = none)
    (hleaves : ∀ leaf ∈ leaves, leaf.2.Storable) :
    entries (content leaves) = .ok (place (headerLength + indexLength leaves) leaves) :=
  entries_head_append h hleaves _

theorem tensorAt_of_eq {file rest : List UInt8} (name : String) {t : Tensor}
    {offset : Nat} (hfile : file.drop offset = t.data.writeElements ++ rest)
    (hoffset : offset ≤ maxFileLength) (hsized : t.Sized) :
    tensorAt file ⟨name, t.shape, t.data.dtype, offset, t.data.writeElements.length⟩ = .ok t := by
  have hread := reading_of_reads (Reader.reads_take t.data.writeElements) rest
  have hdata : Tensor.ofData t.shape t.data = .ok t := if_pos hsized
  rw [tensorAt, if_neg (Nat.not_lt.mpr hoffset)]
  simp only [hfile, hread, ok_bind, TensorData.readElements?_writeElements, hdata]
  rfl

/-- The leaves that lie one after the other from `start` on are read back. -/
theorem mapM_place {leaves : List (String × Tensor)} {file : List UInt8} (front : List UInt8)
    (hfile : file = front ++ leaves.flatMap fun (_, t) => t.data.writeElements)
    (hlength : file.length ≤ maxFileLength) (hleaves : ∀ leaf ∈ leaves, leaf.2.Storable) :
    ((place front.length leaves).mapM fun e => do return (e.name, ← tensorAt file e)) =
      .ok leaves := by
  induction leaves generalizing front with
  | nil => rfl
  | cons leaf leaves ih =>
    obtain ⟨name, t⟩ := leaf
    rw [List.flatMap_cons] at hfile
    have hdrop : file.drop front.length = t.data.writeElements ++
        leaves.flatMap fun (_, t) => t.data.writeElements := by
      rw [hfile, List.drop_left]
    have hfront : front.length ≤ maxFileLength := by
      rw [hfile, List.length_append] at hlength
      omega
    have ht := tensorAt_of_eq name hdrop hfront (hleaves _ List.mem_cons_self).sized
    have hrest := ih (front ++ t.data.writeElements)
      (by rw [hfile, List.append_assoc]) fun leaf hleaf => hleaves leaf (List.mem_cons_of_mem _ hleaf)
    simp only [List.length_append, pure_eq_ok] at hrest
    rw [place, List.mapM_cons]
    simp only [ht, ok_bind, pure_eq_ok, hrest]

/-- An archive gives back exactly the leaves that it was made of. -/
theorem leaves_content {leaves : List (String × Tensor)} (h : obstacle? leaves = none)
    (hleaves : ∀ leaf ∈ leaves, leaf.2.Storable) : Archive.leaves (content leaves) = .ok leaves := by
  have hlength := (indexLength_lt h).2
  rw [← length_content] at hlength
  have hread := mapM_place (head leaves) rfl hlength hleaves
  rw [length_head] at hread
  rw [Archive.leaves, entries_content h hleaves, ok_bind]
  exact hread

/-- Leaves that a file has room for do not have 2^64 elements. -/
theorem storable_of_obstacle {leaves : List (String × Tensor)} (h : obstacle? leaves = none)
    (hwf : ∀ leaf ∈ leaves, leaf.2.WellFormed) : ∀ leaf ∈ leaves, leaf.2.Storable := by
  intro leaf hleaf
  have hmax : maxFileLength < UInt64.size := by decide
  have hbytes : leaf.2.dtype.sizeInBytes * leaf.2.elementCount ≤ dataLength leaves :=
    List.single_le_sum (fun _ _ => Nat.zero_le _) _ (List.mem_map_of_mem hleaf)
  have hcount : leaf.2.elementCount ≤ leaf.2.dtype.sizeInBytes * leaf.2.elementCount :=
    Nat.le_mul_of_pos_left _ leaf.2.dtype.sizeInBytes_pos
  have hfile := (indexLength_lt h).2
  refine (hwf leaf hleaf).storable ?_
  show leaf.2.elementCount < UInt64.size
  omega

/-- Whatever could be archived can be read back. -/
theorem leaves_of_ofLeaves {leaves : List (String × Tensor)} {file : List UInt8}
    (h : ofLeaves leaves = .ok file) (hwf : ∀ leaf ∈ leaves, leaf.2.WellFormed) :
    Archive.leaves file = .ok leaves := by
  obtain ⟨hobstacle, rfl⟩ := ofLeaves_eq_ok_iff.mp h
  exact leaves_content hobstacle (storable_of_obstacle hobstacle hwf)

/-- Entries that take up the bytes from `start` to `stop`: the first begins at `start`, each
other one where the one before it ends, and the last ends at `stop`. -/
inductive Contiguous : Nat → List ArchiveEntry → Nat → Prop
  | nil (start : Nat) : Contiguous start [] start
  | cons {e : ArchiveEntry} {es : List ArchiveEntry} {stop : Nat}
      (rest : Contiguous (e.offset + e.length) es stop) : Contiguous e.offset (e :: es) stop

theorem contiguous_place (start : Nat) (leaves : List (String × Tensor)) :
    Contiguous start (place start leaves) (start + dataLength leaves) := by
  induction leaves generalizing start with
  | nil => exact .nil start
  | cons leaf leaves ih =>
    obtain ⟨name, t⟩ := leaf
    have hdata : start + dataLength ((name, t) :: leaves) =
        start + t.data.writeElements.length + dataLength leaves := by
      rw [dataLength, List.map_cons, List.sum_cons, t.data.length_writeElements, Nat.add_assoc]
      rfl
    rw [hdata]
    exact .cons (e := ⟨name, t.shape, t.data.dtype, start, t.data.writeElements.length⟩) (ih _)

/-- An entry carries the name, the extents and the element type of its leaf. -/
theorem map_place (start : Nat) (leaves : List (String × Tensor)) :
    (place start leaves).map (fun e => (e.name, e.shape, e.dtype)) =
      leaves.map fun leaf => (leaf.1, leaf.2.shape, leaf.2.dtype) := by
  induction leaves generalizing start with
  | nil => rfl
  | cons leaf leaves ih =>
    rw [place, List.map_cons, List.map_cons, ih]
    rfl

theorem content_eq (leaves : List (String × Tensor)) :
    content leaves = magic ++ Bytes.word32 version ++ Bytes.word32 (indexLength leaves) ++
      writeIndex (place (headerLength + indexLength leaves) leaves) ++
      leaves.flatMap fun (_, t) => t.data.writeElements := rfl

/-- Leaves whose index stays below 2^32 bytes are archived unless the file would be longer than
any file. Then loading gives exactly these leaves in their order, and the entries of the index
take up everything from the end of the index to the end of the file. -/
theorem ofLeaves_layout {leaves : List (String × Tensor)}
    (hwf : ∀ leaf ∈ leaves, leaf.2.WellFormed) (hindex : indexLength leaves < UInt32.size) :
    (maxFileLength < headerLength + indexLength leaves + dataLength leaves ∧
      ofLeaves leaves = .error .file) ∨
    ∃ file index data found,
      ofLeaves leaves = .ok file ∧ Archive.leaves file = .ok leaves ∧
      file = magic ++ Bytes.word32 version ++ Bytes.word32 index.length ++ index ++ data ∧
      index.length = indexLength leaves ∧ entries file = .ok found ∧
      found.map (fun e => (e.name, e.shape, e.dtype)) =
        leaves.map (fun leaf => (leaf.1, leaf.2.shape, leaf.2.dtype)) ∧
      Contiguous (headerLength + index.length) found file.length := by
  by_cases hfile : maxFileLength < headerLength + indexLength leaves + dataLength leaves
  · refine .inl ⟨hfile, ofLeaves_eq_error_iff.mpr ?_⟩
    rw [obstacle?, if_neg (Nat.not_le.mpr hindex), if_pos hfile]
  · have hnone : obstacle? leaves = none := by
      rw [obstacle?, if_neg (Nat.not_le.mpr hindex), if_neg hfile]
    have hleaves := storable_of_obstacle hnone hwf
    have hlength := length_writeIndex_place (headerLength + indexLength leaves) leaves
    refine .inr ⟨content leaves, writeIndex (place (headerLength + indexLength leaves) leaves),
      leaves.flatMap fun (_, t) => t.data.writeElements,
      place (headerLength + indexLength leaves) leaves, ofLeaves_eq_ok_iff.mpr ⟨hnone, rfl⟩,
      leaves_content hnone hleaves, ?_, hlength, entries_content hnone hleaves, map_place _ _, ?_⟩
    · rw [hlength, content_eq]
    · rw [hlength, length_content]
      exact contiguous_place _ _

/-- A name twice and an empty name, a tensor without elements, and a number that is none. -/
theorem ofLeaves_layout_repeatedName :
    let leaves : List (String × Tensor) := [("w", ⟨[2], .int32 [1, -1]⟩),
      ("", ⟨[0, 3], .float64 []⟩), ("w", ⟨[], .float32 [⟨0x7fc00001⟩]⟩)]
    (∀ leaf ∈ leaves, leaf.2.WellFormed) ∧ indexLength leaves < UInt32.size ∧
      ∃ file found, ofLeaves leaves = .ok file ∧ Archive.leaves file = .ok leaves ∧
        entries file = .ok found ∧
        Contiguous (headerLength + indexLength leaves) found file.length := by
  intro leaves
  have hwf : ∀ leaf ∈ leaves, leaf.2.WellFormed := by
    simp only [leaves, List.forall_mem_cons]
    exact ⟨⟨by decide, by decide⟩, ⟨by decide, by decide⟩, ⟨by decide, by decide⟩, nofun⟩
  have hindex : indexLength leaves < UInt32.size := by decide
  obtain ⟨hlong, -⟩ | ⟨file, index, -, found, hsave, hload, -, hlength, hfound, -, hlayout⟩ :=
    ofLeaves_layout hwf hindex
  · exact absurd hlong (by decide)
  · exact ⟨hwf, hindex, file, found, hsave, hload, hfound, hlength ▸ hlayout⟩

end Archive

end GraphFusion
