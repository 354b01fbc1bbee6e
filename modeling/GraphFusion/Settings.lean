/-!
Settings of compilation and the environment variables they come from.
-/

namespace GraphFusion

/-- Knobs of the standard pipelines. -/
structure Settings where
  /-- Bound on the rounds of the normalization fixed point. -/
  normalizeRounds : Nat
  /-- Report the number of rewrites of every pass. -/
  countRewrites : Bool
  deriving DecidableEq, Inhabited

namespace Settings

def defaultRounds : Nat := 8

/-- White space of the Unicode standard. -/
def isBlank (c : Char) : Bool :=
  let n := c.toNat
  (9 ≤ n && n ≤ 13) || n == 0x20 || n == 0x85 || n == 0xa0 || n == 0x1680 ||
    (0x2000 ≤ n && n ≤ 0x200a) || n == 0x2028 || n == 0x2029 || n == 0x202f || n == 0x205f ||
    n == 0x3000

def trim (chars : List Char) : List Char :=
  ((chars.dropWhile isBlank).reverse.dropWhile isBlank).reverse

/-- The words that switch a setting on, in any case of the ASCII letters. -/
def isOn (value : String) : Bool :=
  ["1", "true", "yes", "on"].contains (String.ofList ((trim value.toList).map Char.toLower))

/-- A positive number of 64 bits; a leading plus sign is allowed. -/
def positive? (value : String) : Option Nat :=
  let trimmed := trim value.toList
  let digits := if trimmed.head? = some '+' then trimmed.tail else trimmed
  if digits.isEmpty || digits.any fun c => !c.isDigit then none
  else
    let n := Nat.ofDigitChars 10 digits 0
    if 0 < n ∧ n < UInt64.size then some n else none

/-- The settings given by environment variables; unusable values count as unset. -/
def ofEnvironment (setting : String → Option String) : Settings where
  normalizeRounds := ((setting "FEDRS_NORMALIZE_MAX_ITERS").bind positive?).getD defaultRounds
  countRewrites := ((setting "FEDRS_PASS_STATS").map isOn).getD false

end Settings

end GraphFusion
