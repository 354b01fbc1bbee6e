import GraphFusion.Json.Parser
import GraphFusion.Json.Real

/-!
Reading typed data from JSON values. A record is an object, whose unknown
members are skipped and whose known members may not repeat, or an array of all
its fields in order. An alternative of a sum is its name alone or an object
with its name as the only key.
-/

namespace GraphFusion.Json

def bool? : Json → Option Bool
  | .bool b => some b
  | _ => none

def text? : Json → Option String
  | .string text => text
  | _ => none

/-- A natural number below `limit`. -/
def nat? (limit : Nat) : Json → Option Nat
  | .number n => n.natural?.filter (· < limit)
  | _ => none

/-- A signed integer of `bits` bits. -/
def int? (bits : Nat) : Json → Option Int
  | .number n =>
    let half : Int := Nat.pow 2 (bits - 1)
    n.integer?.filter fun i => decide (-half ≤ i ∧ i < half)
  | _ => none

def word32? (j : Json) : Option Nat := j.nat? UInt32.size

def word64? (j : Json) : Option Nat := j.nat? UInt64.size

def int32? (j : Json) : Option Int32 := (j.int? 32).map Int32.ofInt

def int64? (j : Json) : Option Int64 := (j.int? 64).map Int64.ofInt

def binary32? : Json → Option Binary32
  | .number n => n.toBinary32?
  | _ => none

def binary64? : Json → Option Binary64
  | .number n => n.toBinary64?
  | _ => none

def list? {α : Type} (decode : Json → Option α) : Json → Option (List α)
  | .array items => items.mapM decode
  | _ => none

def option? {α : Type} (decode : Json → Option α) : Json → Option (Option α)
  | .null => some none
  | j => (decode j).map some

def pair? {α β : Type} (first : Json → Option α) (second : Json → Option β) :
    Json → Option (α × β)
  | .array [a, b] => do
    return (← first a, ← second b)
  | _ => none

/-- What a record says about one of its fields. -/
inductive Field where
  | given (value : Json)
  /-- An object without a member of that name. -/
  | missing
  /-- An array that ends before the field. -/
  | cutOff

namespace Field

def required? {α : Type} (decode : Json → Option α) : Field → Option α
  | given j => decode j
  | _ => none

def optional? {α : Type} (decode : Json → Option α) : Field → Option (Option α)
  | given j => j.option? decode
  | missing => some none
  | cutOff => none

def orDefault? {α : Type} (fallback : α) (decode : Json → Option α) : Field → Option α
  | given j => decode j
  | _ => some fallback

end Field

/-- The fields called `names`, in that order. -/
def fields? (names : List String) : Json → Option (List Field)
  | .array items =>
    if names.length < items.length then none
    else some (items.map .given ++ List.replicate (names.length - items.length) .cutOff)
  | .object members =>
    if members.any fun (key, _) => key.isNone then none
    else if names.any fun name => decide (1 < members.countP fun (key, _) => key == some name) then
      none
    else some (names.map fun name =>
      match members.lookup (some name) with
      | some j => .given j
      | none => .missing)
  | _ => none

/-- Name and content of an alternative. -/
def alternative? : Json → Option (String × Option Json)
  | .string (some name) => some (name, none)
  | .object [(some name, j)] => some (name, some j)
  | _ => none

/-- An alternative without content: its name, or its name with null. -/
def constant? {α : Type} (ofName? : String → Option α) (j : Json) : Option α :=
  match j.alternative? with
  | some (name, none) => ofName? name
  | some (name, some .null) => ofName? name
  | _ => none

end GraphFusion.Json
