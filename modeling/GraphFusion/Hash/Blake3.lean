import GraphFusion.Bytes.Write

/-!
The BLAKE3 hash of a byte string. The input is cut into chunks of 1024 bytes,
each chunk into blocks of 64; chaining values of chunks are joined pairwise into
a tree whose left subtrees are complete, kept here as a binary counter of
pending subtrees.
-/

namespace GraphFusion.Blake3

/-- Eight words that carry the state from one compression to the next. -/
abbrev Chaining := Vector UInt32 8

/-- Sixteen words of message. -/
abbrev Block := Vector UInt32 16

def initial : Chaining :=
  #v[0x6a09e667, 0xbb67ae85, 0x3c6ef372, 0xa54ff53a, 0x510e527f, 0x9b05688c, 0x1f83d9ab, 0x5be0cd19]

def chunkStart : UInt32 := 1

def chunkEnd : UInt32 := 2

def parent : UInt32 := 4

def root : UInt32 := 8

def rotateRight (x n : UInt32) : UInt32 := (x >>> n) ||| (x <<< (32 - n))

/-- Mixes two message words into four words of the state. -/
def mix (s : Block) (a b c d : Fin 16) (x y : UInt32) : Block :=
  let s := s.set a (s[a] + s[b] + x)
  let s := s.set d (rotateRight (s[d] ^^^ s[a]) 16)
  let s := s.set c (s[c] + s[d])
  let s := s.set b (rotateRight (s[b] ^^^ s[c]) 12)
  let s := s.set a (s[a] + s[b] + y)
  let s := s.set d (rotateRight (s[d] ^^^ s[a]) 8)
  let s := s.set c (s[c] + s[d])
  s.set b (rotateRight (s[b] ^^^ s[c]) 7)

/-- Columns, then diagonals. -/
def round (s m : Block) : Block :=
  let s := mix s 0 4 8 12 m[0] m[1]
  let s := mix s 1 5 9 13 m[2] m[3]
  let s := mix s 2 6 10 14 m[4] m[5]
  let s := mix s 3 7 11 15 m[6] m[7]
  let s := mix s 0 5 10 15 m[8] m[9]
  let s := mix s 1 6 11 12 m[10] m[11]
  let s := mix s 2 7 8 13 m[12] m[13]
  mix s 3 4 9 14 m[14] m[15]

def permute (m : Block) : Block :=
  #v[m[2], m[6], m[3], m[10], m[7], m[0], m[4], m[13],
    m[1], m[11], m[12], m[5], m[9], m[14], m[15], m[8]]

def rounds : Nat → Block → Block → Block
  | 0, s, _ => s
  | n + 1, s, m => rounds n (round s m) (permute m)

/-- A compression that has not been run yet, since the last one of a hash is
run with the root flag. -/
structure Node where
  input : Chaining
  block : Block
  counter : UInt64
  length : UInt32
  flags : UInt32

def Node.compress (n : Node) (extra : UInt32) : Chaining :=
  let h := n.input
  let s := rounds 7 #v[h[0], h[1], h[2], h[3], h[4], h[5], h[6], h[7],
    initial[0], initial[1], initial[2], initial[3],
    n.counter.toUInt32, (n.counter >>> 32).toUInt32, n.length, n.flags ||| extra] n.block
  #v[s[0] ^^^ s[8], s[1] ^^^ s[9], s[2] ^^^ s[10], s[3] ^^^ s[11],
    s[4] ^^^ s[12], s[5] ^^^ s[13], s[6] ^^^ s[14], s[7] ^^^ s[15]]

def Node.chaining (n : Node) : Chaining := n.compress 0

/-- A little-endian word; missing bytes are zero. -/
def wordOf (bytes : List UInt8) : UInt32 :=
  bytes.foldr (fun b w => (w <<< 8) ||| b.toUInt32) 0

def blockOf (bytes : List UInt8) : Block :=
  Vector.ofFn fun i => wordOf ((bytes.drop (4 * i.val)).take 4)

/-- Pieces of `size` bytes, the last one possibly shorter; one empty piece for
no bytes at all. -/
def pieces (size : Nat) (bytes : List UInt8) : List (List UInt8) :=
  (List.range (max 1 ((bytes.length + size - 1) / size))).map fun i =>
    (bytes.drop (i * size)).take size

/-- The last block of a chunk, after the blocks before it went into `input`. -/
def chunkBlocks (index : UInt64) (input : Chaining) (start : UInt32) : List (List UInt8) → Node
  | [] => ⟨input, blockOf [], index, 0, start ||| chunkEnd⟩
  | [last] => ⟨input, blockOf last, index, last.length.toUInt32, start ||| chunkEnd⟩
  | b :: rest =>
    let node : Node := ⟨input, blockOf b, index, b.length.toUInt32, start⟩
    chunkBlocks index node.chaining 0 rest

def chunkNode (index : UInt64) (chunk : List UInt8) : Node :=
  chunkBlocks index initial chunkStart (pieces 64 chunk)

def parentNode (left right : Chaining) : Node :=
  ⟨initial, #v[left[0], left[1], left[2], left[3], left[4], left[5], left[6], left[7],
    right[0], right[1], right[2], right[3], right[4], right[5], right[6], right[7]], 0, 64, parent⟩

/-- Adds a chunk to the pending subtrees, smallest first: subtrees of equal
size are joined like carries. -/
def push (right : Chaining) : List (Option Chaining) → List (Option Chaining)
  | [] => [some right]
  | none :: rest => some right :: rest
  | some left :: rest => none :: push (parentNode left right).chaining rest

/-- The node of the whole tree, once `last` is its rightmost one. -/
def close (last : Node) (pending : List (Option Chaining)) : Node :=
  pending.foldl (fun node subtree =>
    match subtree with
    | none => node
    | some left => parentNode left node.chaining) last

def treeNode (index : UInt64) (pending : List (Option Chaining)) : List (List UInt8) → Node
  | [] => close (chunkNode index []) pending
  | [chunk] => close (chunkNode index chunk) pending
  | chunk :: rest => treeNode (index + 1) (push (chunkNode index chunk).chaining pending) rest

/-- The 32-byte digest. -/
def digest (bytes : List UInt8) : List UInt8 :=
  ((treeNode 0 [] (pieces 1024 bytes)).compress root).toList.flatMap fun w => Bytes.word32 w.toNat

end GraphFusion.Blake3

namespace GraphFusion.Bytes

/-- Lowercase hexadecimal digits, two per byte. -/
def hex (bytes : List UInt8) : String :=
  .ofList (bytes.flatMap fun b => [Nat.digitChar (b.toNat / 16), Nat.digitChar (b.toNat % 16)])

end GraphFusion.Bytes
