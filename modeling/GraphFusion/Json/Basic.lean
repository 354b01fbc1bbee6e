/-!
JSON values. Numbers keep the digits they are written with. A string may hold
an unpaired surrogate and then stands for no text, which `none` records.
-/

namespace GraphFusion

namespace Json

/-- Content of a JSON string; `none` when it holds an unpaired surrogate. -/
abbrev Text := Option String

/-- Power of ten of a number. -/
structure Exponent where
  negative : Bool
  magnitude : Nat
  deriving DecidableEq, Inhabited

/-- A number as it is written: sign, whole part, fraction digits, exponent. -/
structure Number where
  negative : Bool
  whole : Nat
  fraction : List Nat
  exponent : Option Exponent
  deriving DecidableEq, Inhabited

namespace Number

def ofNat (n : Nat) : Number := ⟨false, n, [], none⟩

def ofInt (n : Int) : Number := ⟨decide (n < 0), n.natAbs, [], none⟩

/-- Written without fraction and exponent. -/
def isInteger (n : Number) : Bool := n.fraction.isEmpty && n.exponent.isNone

end Number

end Json

inductive Json where
  | null
  | bool (value : Bool)
  | number (value : Json.Number)
  | string (text : Json.Text)
  | array (items : List Json)
  | object (members : List (Json.Text × Json))
  deriving Inhabited

namespace Json

def ofString (s : String) : Json := .string (some s)

def ofNat (n : Nat) : Json := .number (.ofNat n)

def ofInt (n : Int) : Json := .number (.ofInt n)

def ofList {α : Type} (f : α → Json) (items : List α) : Json := .array (items.map f)

def ofOption {α : Type} (f : α → Json) : Option α → Json
  | none => .null
  | some a => f a

/-- An object with the given members in order. -/
def record (members : List (String × Json)) : Json :=
  .object (members.map fun (key, value) => (some key, value))

/-- The value of one alternative of a sum, under the alternative's name. -/
def tagged (name : String) (value : Json) : Json := .record [(name, value)]

mutual

/-- Levels of nesting, at least one. -/
def depth : Json → Nat
  | .array items => depthOfItems items + 1
  | .object members => depthOfMembers members + 1
  | _ => 1

def depthOfItems : List Json → Nat
  | [] => 0
  | j :: rest => max (depth j) (depthOfItems rest)

def depthOfMembers : List (Text × Json) → Nat
  | [] => 0
  | (_, j) :: rest => max (depth j) (depthOfMembers rest)

end

end Json

end GraphFusion
