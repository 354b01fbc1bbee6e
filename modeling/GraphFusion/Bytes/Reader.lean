import GraphFusion.Bytes.Write

/-!
Readers take a value off the front of a byte string and leave the rest. They
undo the writers of `GraphFusion.Bytes` and fail on anything those never write:
short input, a Boolean byte above one, malformed UTF-8.
-/

namespace GraphFusion

/-- Reads an `α` from the front of the remaining bytes. -/
abbrev Reader (α : Type) := StateT (List UInt8) Option α

namespace Reader

def byte : Reader UInt8 := fun bytes =>
  match bytes with
  | [] => none
  | b :: rest => some (b, rest)

/-- A little-endian word of `width` bytes. -/
def word : Nat → Reader Nat
  | 0 => pure 0
  | width + 1 => do
    let low ← byte
    let high ← word width
    return low.toNat + 256 * high

def word32 : Reader Nat := word 4

def word64 : Reader Nat := word 8

/-- Exactly `n` bytes. -/
def take (n : Nat) : Reader (List UInt8) := fun bytes =>
  if bytes.length < n then none else some (bytes.splitAt n)

def flag : Reader Bool := do
  match ← byte with
  | 0 => return false
  | 1 => return true
  | _ => failure

/-- The text with the given UTF-8 bytes. -/
def ofUtf8? (bytes : List UInt8) : Option String := String.fromUTF8? ⟨bytes.toArray⟩

def text : Reader String := do
  let bytes ← take (← word64)
  match ofUtf8? bytes with
  | some s => return s
  | none => failure

def option {α : Type} (read : Reader α) : Reader (Option α) := do
  if ← flag then
    return some (← read)
  else
    return none

/-- `count` items in a row. -/
def repeated {α : Type} (read : Reader α) : Nat → Reader (List α)
  | 0 => pure []
  | count + 1 => do
    let head ← read
    let tail ← repeated read count
    return head :: tail

def list {α : Type} (read : Reader α) : Reader (List α) := do
  repeated read (← word64)

/-- The value at the front of `bytes`; what follows it is ignored. -/
def front? {α : Type} (read : Reader α) (bytes : List UInt8) : Option α :=
  (read bytes).map (·.1)

end Reader

end GraphFusion
