import GraphFusion.Values.Codec

/-!
An archive of named tensors in one file: eight magic bytes, a version, the
length of the index, the index, and the elements of all tensors. An entry of
the index says where in the file the elements of its tensor start. Reading
follows the entries and asks for no particular layout.
-/

namespace GraphFusion

/-- Where the elements of one tensor are. -/
structure ArchiveEntry where
  name : String
  shape : List Nat
  dtype : DType
  offset : Nat
  length : Nat
  deriving DecidableEq, Inhabited

namespace ArchiveEntry

def write (e : ArchiveEntry) : List UInt8 :=
  Bytes.text e.name ++ Bytes.list Bytes.word64 e.shape ++ Bytes.word32 e.dtype.tag ++
    Bytes.word64 e.offset ++ Bytes.word64 e.length

/-- An entry, or the tag in it that names no element type. -/
def read : Reader (Except Nat ArchiveEntry) := do
  let name ← Reader.text
  let shape ← Reader.list Reader.word64
  let tag ← Reader.word32
  let offset ← Reader.word64
  let length ← Reader.word64
  return match DType.ofTag? tag with
    | some dtype => .ok ⟨name, shape, dtype, offset, length⟩
    | none => .error tag

end ArchiveEntry

/-- Why tensors cannot be archived, or read back. -/
inductive ArchiveError where
  /-- The file is not there, too short, or longer than a file can be. -/
  | file
  | badMagic
  | unsupportedVersion (version : Nat)
  | undecodableIndex
  | unknownTag (tag : Nat)
  | misaligned (name : String) (dtype : DType)
  | tensor (error : TensorError)
  | indexTooLarge
  deriving DecidableEq, Inhabited

namespace ArchiveError

/-- Text of an error about the file at `path`; none is fixed for a file that
cannot be used and an index that does not decode. -/
def message? (path : String) : ArchiveError → Option String
  | file | undecodableIndex => none
  | badMagic => some ("invalid state archive magic header in " ++ path)
  | unsupportedVersion version => some s!"unsupported state archive version {version}"
  | unknownTag tag => some s!"unknown dtype tag {tag} in state archive"
  | misaligned name dtype => some ("leaf " ++ name ++ ": data size misaligned for " ++ dtype.name)
  | tensor error => some error.message
  | indexTooLarge => some "state archive index too large"

end ArchiveError

namespace TensorData

/-- The elements alone, each in the bytes of its type. -/
def writeElements : TensorData → List UInt8
  | bool values => values.flatMap Bytes.flag
  | int32 values => values.flatMap Bytes.int32
  | int64 values => values.flatMap Bytes.int64
  | float32 values => values.flatMap Binary32.write
  | float64 values => values.flatMap Binary64.write

/-- As many elements as the bytes hold, if no bytes are left over. Any byte but
zero counts as true. -/
def readElements? (dtype : DType) (bytes : List UInt8) : Option TensorData :=
  if bytes.length % dtype.sizeInBytes ≠ 0 then none
  else
    let count := bytes.length / dtype.sizeInBytes
    match dtype with
    | .bool => some (.bool (bytes.map (· != 0)))
    | .int32 => (Reader.front? (Reader.repeated Reader.int32 count) bytes).map .int32
    | .int64 => (Reader.front? (Reader.repeated Reader.int64 count) bytes).map .int64
    | .float32 => (Reader.front? (Reader.repeated Binary32.read count) bytes).map .float32
    | .float64 => (Reader.front? (Reader.repeated Binary64.read count) bytes).map .float64

end TensorData

namespace Archive

/-- The letters FEDRSPST. -/
def magic : List UInt8 := [70, 69, 68, 82, 83, 80, 83, 84]

def version : Nat := 1

/-- Bytes in front of the index. -/
def headerLength : Nat := 16

/-- Entries for leaves whose elements follow one another from `start` on. -/
def place (start : Nat) : List (String × Tensor) → List ArchiveEntry
  | [] => []
  | (name, t) :: rest =>
    let length := t.data.writeElements.length
    ⟨name, t.shape, t.data.dtype, start, length⟩ :: place (start + length) rest

def writeIndex (entries : List ArchiveEntry) : List UInt8 := Bytes.list ArchiveEntry.write entries

/-- Length of the longest file, and the farthest position in one: blocks of 4096
bytes, numbered in 32 bits. -/
def maxFileLength : Nat := 4096 * (UInt32.size - 1)

/-- The file that holds the given leaves. Offsets are written in eight bytes, so
the length of the index does not depend on where the elements start. -/
def ofLeaves (leaves : List (String × Tensor)) : Except ArchiveError (List UInt8) := do
  let indexLength := (writeIndex (place 0 leaves)).length
  if UInt32.size ≤ indexLength then throw .indexTooLarge
  let file := magic ++ Bytes.word32 version ++ Bytes.word32 indexLength ++
    writeIndex (place (headerLength + indexLength) leaves) ++
    leaves.flatMap fun (_, t) => t.data.writeElements
  if maxFileLength < file.length then throw .file
  return file

/-- Reads from the front of a file. -/
def reading {α : Type} (read : Reader α) (file : List UInt8) :
    Except ArchiveError (α × List UInt8) :=
  match read file with
  | some result => .ok result
  | none => .error .file

/-- The index of a file. -/
def entries (file : List UInt8) : Except ArchiveError (List ArchiveEntry) := do
  let (letters, rest) ← reading (Reader.take magic.length) file
  if letters ≠ magic then throw .badMagic
  let (found, rest) ← reading Reader.word32 rest
  if found ≠ version then throw (.unsupportedVersion found)
  let (index, _) ← reading (do Reader.take (← Reader.word32)) rest
  match Reader.front? (Reader.list ArchiveEntry.read) index with
  | none => throw .undecodableIndex
  | some found => (found.mapM id).mapError .unknownTag

/-- The tensor that an entry describes. -/
def tensorAt (file : List UInt8) (e : ArchiveEntry) : Except ArchiveError Tensor := do
  if maxFileLength < e.offset then throw .file
  let (bytes, _) ← reading (Reader.take e.length) (file.drop e.offset)
  match TensorData.readElements? e.dtype bytes with
  | none => throw (.misaligned e.name e.dtype)
  | some data => (Tensor.ofData e.shape data).mapError .tensor

/-- The leaves that a file holds, in the order of its index. -/
def leaves (file : List UInt8) : Except ArchiveError (List (String × Tensor)) := do
  (← entries file).mapM fun e => do return (e.name, ← tensorAt file e)

end Archive

end GraphFusion
