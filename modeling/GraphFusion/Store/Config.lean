import GraphFusion.Json.Decode

/-!
Settings of a store, which versions they let go, and how versions are named. A
version is kept in the directory called by the stem and the version's decimal
digits; it is prepared under that name followed by `_temp`.
-/

namespace GraphFusion

structure StoreConfig where
  /-- The directory that holds one directory per version. -/
  root : String
  /-- What the names of the version directories begin with. -/
  stem : String
  /-- Number of versions to keep; zero keeps all. -/
  keepTotal : Nat
  /-- Keep the lowest version as well. -/
  keepFirst : Bool
  deriving DecidableEq, Inhabited

namespace StoreConfig

def defaultStem : String := "program_state_"

def defaultKeepTotal : Nat := 5

def defaultKeepFirst : Bool := true

def withDefaults (root : String) : StoreConfig :=
  ⟨root, defaultStem, defaultKeepTotal, defaultKeepFirst⟩

/-- Every field but the root may be left out. -/
def ofJson? (j : Json) : Option StoreConfig := do
  match ← j.fields? ["root_dir", "prefix", "keep_total", "keep_first"] with
  | [root, stem, keepTotal, keepFirst] =>
    return ⟨← root.required? Json.text?, ← stem.orDefault? defaultStem Json.text?,
      ← keepTotal.orDefault? defaultKeepTotal Json.word64?,
      ← keepFirst.orDefault? defaultKeepFirst Json.bool?⟩
  | _ => none

def ofJsonText? (text : String) : Option StoreConfig := do
  ofJson? (← Json.parse? text)

def versionName (c : StoreConfig) (version : UInt64) : String :=
  c.stem ++ toString version.toNat

def stagingName (c : StoreConfig) (version : UInt64) : String :=
  c.versionName version ++ "_temp"

/-- The version written in decimal digits without leading zeros. -/
def ofDigits? (digits : List Char) : Option UInt64 :=
  if digits.isEmpty || digits.any fun c => !c.isDigit then none
  else if digits.head? = some '0' ∧ digits ≠ ['0'] then none
  else
    let n := Nat.ofDigitChars 10 digits 0
    if n < UInt64.size then some (UInt64.ofNat n) else none

/-- The version whose directory has the given name. -/
def versionOf? (c : StoreConfig) (name : String) : Option UInt64 := do
  ofDigits? (← c.stem.toList.isPrefixOf? name.toList)

/-- The versions to let go, out of all versions in ascending order. -/
def evicted (c : StoreConfig) (versions : List UInt64) : List UInt64 :=
  if c.keepTotal = 0 then []
  else
    let candidates := if c.keepFirst then versions.tail else versions
    candidates.take (candidates.length - c.keepTotal)

/-- Full path of an entry of the root. -/
def pathText (c : StoreConfig) (name : String) : String :=
  if c.root.toList.getLast? = some '/' then c.root ++ name else c.root ++ "/" ++ name

end StoreConfig

end GraphFusion
