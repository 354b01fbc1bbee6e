import GraphFusion.Json.Basic

/-!
JSON text with one item per line, two blanks per level and nothing inside an
empty array or object. Strings escape quotes, backslashes and control
characters only.
-/

namespace GraphFusion.Json

/-- The four hexadecimal digits of a code below 65536. -/
def hexDigits (code : Nat) : List Char :=
  [4096, 256, 16, 1].map fun place => Nat.digitChar (code / place % 16)

def escapeChar (c : Char) : List Char :=
  match c with
  | '"' => ['\\', '"']
  | '\\' => ['\\', '\\']
  | '\n' => ['\\', 'n']
  | '\r' => ['\\', 'r']
  | '\t' => ['\\', 't']
  | c =>
    if c.toNat = 8 then ['\\', 'b']
    else if c.toNat = 12 then ['\\', 'f']
    else if c.toNat < 32 then '\\' :: 'u' :: hexDigits c.toNat
    else [c]

/-- A quoted string; one that stands for no text shows a lone surrogate. -/
def quote : Text → List Char
  | some s => '"' :: s.toList.flatMap escapeChar ++ ['"']
  | none => '"' :: '\\' :: 'u' :: hexDigits 0xd800 ++ ['"']

namespace Number

def digitsOf (n : Nat) : List Char := Nat.toDigits 10 n

def fractionText (digits : List Nat) : List Char :=
  if digits.isEmpty then [] else '.' :: digits.map Nat.digitChar

def exponentText : Option Exponent → List Char
  | none => []
  | some e => 'e' :: (if e.negative then '-' else '+') :: digitsOf e.magnitude

def render (n : Number) : List Char :=
  (if n.negative then ['-'] else []) ++ digitsOf n.whole ++ fractionText n.fraction ++
    exponentText n.exponent

end Number

def newLine (level : Nat) : List Char := '\n' :: List.replicate (2 * level) ' '

mutual

def render (level : Nat) : Json → List Char
  | .null => "null".toList
  | .bool true => "true".toList
  | .bool false => "false".toList
  | .number n => n.render
  | .string text => quote text
  | .array [] => "[]".toList
  | .array (j :: rest) =>
    '[' :: newLine (level + 1) ++ render (level + 1) j ++ renderItems (level + 1) rest ++
      newLine level ++ [']']
  | .object [] => ['\x7b', '\x7d']
  | .object ((key, j) :: rest) =>
    '\x7b' :: newLine (level + 1) ++ quote key ++ ": ".toList ++ render (level + 1) j ++
      renderMembers (level + 1) rest ++ newLine level ++ ['\x7d']

def renderItems (level : Nat) : List Json → List Char
  | [] => []
  | j :: rest => ',' :: newLine level ++ render level j ++ renderItems level rest

def renderMembers (level : Nat) : List (Text × Json) → List Char
  | [] => []
  | (key, j) :: rest =>
    ',' :: newLine level ++ quote key ++ ": ".toList ++ render level j ++ renderMembers level rest

end

def pretty (j : Json) : String := .ofList (render 0 j)

end GraphFusion.Json
