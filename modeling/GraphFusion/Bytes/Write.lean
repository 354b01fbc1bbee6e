/-!
The byte layout of stored data: little-endian words, eight-byte counts, text as
counted UTF-8, one byte for a Boolean or for the presence of an option, and
sequences as a count followed by their items.
-/

namespace GraphFusion.Bytes

/-- The low `width` base-256 digits of `n`, least significant first. -/
def word : Nat → Nat → List UInt8
  | 0, _ => []
  | width + 1, n => UInt8.ofNat n :: word width (n / 256)

def word32 (n : Nat) : List UInt8 := word 4 n

def word64 (n : Nat) : List UInt8 := word 8 n

def flag (b : Bool) : List UInt8 := [if b then 1 else 0]

def utf8 (s : String) : List UInt8 := s.toByteArray.data.toList

def text (s : String) : List UInt8 := word64 (utf8 s).length ++ utf8 s

def option {α : Type} (write : α → List UInt8) : Option α → List UInt8
  | none => flag false
  | some a => flag true ++ write a

def list {α : Type} (write : α → List UInt8) (items : List α) : List UInt8 :=
  word64 items.length ++ items.flatMap write

end GraphFusion.Bytes
