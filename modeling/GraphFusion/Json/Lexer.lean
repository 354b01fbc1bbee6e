import GraphFusion.Json.Basic

/-!
Tokens of JSON text. Strings are read in two steps: first the symbols between
the quotes, then the text they stand for, if the surrogates among them pair up.
-/

namespace GraphFusion.Json

inductive Token where
  | openBracket
  | closeBracket
  | openBrace
  | closeBrace
  | colon
  | comma
  | null
  | bool (value : Bool)
  | number (value : Number)
  | string (text : Text)
  deriving DecidableEq, Inhabited

def isBlank (c : Char) : Bool := c == ' ' || c == '\n' || c == '\t' || c == '\r'

/-- A symbol of a string: a character, or the 16-bit code of a long escape. -/
inductive Symbol where
  | char (c : Char)
  | code (unit : Nat)
  deriving DecidableEq, Inhabited

def hexValue? (c : Char) : Option Nat :=
  if '0' ≤ c ∧ c ≤ '9' then some (c.toNat - '0'.toNat)
  else if 'a' ≤ c ∧ c ≤ 'f' then some (c.toNat - 'a'.toNat + 10)
  else if 'A' ≤ c ∧ c ≤ 'F' then some (c.toNat - 'A'.toNat + 10)
  else none

def codeOf? (a b c d : Char) : Option Nat := do
  return 4096 * (← hexValue? a) + 256 * (← hexValue? b) + 16 * (← hexValue? c) + (← hexValue? d)

/-- The character that a backslash and `c` stand for. -/
def shortEscape? (c : Char) : Option Char :=
  match c with
  | '"' => some '"'
  | '\\' => some '\\'
  | '/' => some '/'
  | 'b' => some '\x08'
  | 'f' => some '\x0c'
  | 'n' => some '\n'
  | 'r' => some '\r'
  | 't' => some '\t'
  | _ => none

/-- Symbols up to the closing quote, and what follows it. -/
def symbols : List Char → Option (List Symbol × List Char)
  | [] => none
  | '"' :: rest => some ([], rest)
  | '\\' :: 'u' :: a :: b :: c :: d :: rest => do
    let unit ← codeOf? a b c d
    let (tail, rest) ← symbols rest
    return (.code unit :: tail, rest)
  | '\\' :: c :: rest => do
    let char ← shortEscape? c
    let (tail, rest) ← symbols rest
    return (.char char :: tail, rest)
  | c :: rest =>
    if c == '\\' || c.toNat < 32 then none
    else do
      let (tail, rest) ← symbols rest
      return (.char c :: tail, rest)

def isLeadingSurrogate (unit : Nat) : Bool := 0xd800 ≤ unit && unit < 0xdc00

def isTrailingSurrogate (unit : Nat) : Bool := 0xdc00 ≤ unit && unit < 0xe000

/-- The characters of a string; `none` when a surrogate stands alone. -/
def characters? : List Symbol → Option (List Char)
  | [] => some []
  | .char c :: rest => (characters? rest).map (c :: ·)
  | .code lead :: .code trail :: rest =>
    if isLeadingSurrogate lead then
      if isTrailingSurrogate trail then
        let c := Char.ofNat (0x10000 + (lead - 0xd800) * 0x400 + (trail - 0xdc00))
        (characters? rest).map (c :: ·)
      else none
    else if isTrailingSurrogate lead then none
    else (characters? (.code trail :: rest)).map (Char.ofNat lead :: ·)
  | .code unit :: rest =>
    if isLeadingSurrogate unit || isTrailingSurrogate unit then none
    else (characters? rest).map (Char.ofNat unit :: ·)

def digitValue (c : Char) : Nat := c.toNat - '0'.toNat

/-- One or more digits, and what follows them. -/
def digits? (chars : List Char) : Option (List Char × List Char) :=
  let digits := chars.takeWhile Char.isDigit
  if digits.isEmpty then none else some (digits, chars.dropWhile Char.isDigit)

/-- A whole part, which starts with zero only if it is zero. -/
def whole? : List Char → Option (Nat × List Char)
  | '0' :: rest => some (0, rest)
  | chars => do
    let (digits, rest) ← digits? chars
    return (Nat.ofDigitChars 10 digits 0, rest)

def fraction? : List Char → Option (List Nat × List Char)
  | '.' :: rest => do
    let (digits, rest) ← digits? rest
    return (digits.map digitValue, rest)
  | rest => some ([], rest)

def exponentDigits? (negative : Bool) (chars : List Char) : Option (Option Exponent × List Char) := do
  let (digits, rest) ← digits? chars
  return (some ⟨negative, Nat.ofDigitChars 10 digits 0⟩, rest)

def exponent? : List Char → Option (Option Exponent × List Char)
  | c :: rest =>
    if c == 'e' || c == 'E' then
      match rest with
      | '+' :: rest => exponentDigits? false rest
      | '-' :: rest => exponentDigits? true rest
      | rest => exponentDigits? false rest
    else some (none, c :: rest)
  | [] => some (none, [])

/-- A number after its sign. -/
def unsigned? (negative : Bool) (chars : List Char) : Option (Token × List Char) := do
  let (whole, rest) ← whole? chars
  let (fraction, rest) ← fraction? rest
  let (exponent, rest) ← exponent? rest
  return (.number ⟨negative, whole, fraction, exponent⟩, rest)

/-- The token that starts with `c`. -/
def token? (c : Char) (rest : List Char) : Option (Token × List Char) :=
  match c, rest with
  | '[', rest => some (.openBracket, rest)
  | ']', rest => some (.closeBracket, rest)
  | '\x7b', rest => some (.openBrace, rest)
  | '\x7d', rest => some (.closeBrace, rest)
  | ':', rest => some (.colon, rest)
  | ',', rest => some (.comma, rest)
  | 'n', 'u' :: 'l' :: 'l' :: rest => some (.null, rest)
  | 't', 'r' :: 'u' :: 'e' :: rest => some (.bool true, rest)
  | 'f', 'a' :: 'l' :: 's' :: 'e' :: rest => some (.bool false, rest)
  | '"', rest => do
    let (content, rest) ← symbols rest
    return (.string ((characters? content).map .ofList), rest)
  | '-', rest => unsigned? true rest
  | c, rest => if c.isDigit then unsigned? false (c :: rest) else none

/-- All tokens of a text. A token that gave back more than it was given would
end the reading; none does. -/
def tokens? : List Char → Option (List Token)
  | [] => some []
  | c :: chars =>
    if isBlank c then tokens? chars
    else
      match token? c chars with
      | none => none
      | some (token, rest) =>
        if rest.length ≤ chars.length then (tokens? rest).map (token :: ·) else none
termination_by chars => chars.length

end GraphFusion.Json
