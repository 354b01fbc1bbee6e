import GraphFusion.Json.Lexer

/-!
A pushdown automaton from tokens to JSON values. Its stack holds the containers
that are still open, each with the items already read, newest first.
-/

namespace GraphFusion.Json

/-- An open container around the value being read. -/
inductive Frame where
  | array (before : List Json)
  | object (before : List (Text × Json)) (key : Text)

inductive State where
  /-- A value must follow. -/
  | awaiting (stack : List Frame)
  /-- An array has just been opened. -/
  | opened (stack : List Frame)
  /-- An object has just been opened. -/
  | braced (stack : List Frame)
  /-- A key must follow. -/
  | separated (before : List (Text × Json)) (stack : List Frame)
  /-- A colon must follow. -/
  | keyed (before : List (Text × Json)) (key : Text) (stack : List Frame)
  /-- A value has just ended. -/
  | complete (value : Json) (stack : List Frame)

namespace State

/-- Reads the first token of a value. -/
def start (stack : List Frame) : Token → Option State
  | .null => some (.complete .null stack)
  | .bool b => some (.complete (.bool b) stack)
  | .number n => some (.complete (.number n) stack)
  | .string text => some (.complete (.string text) stack)
  | .openBracket => some (.opened stack)
  | .openBrace => some (.braced stack)
  | _ => none

def step : State → Token → Option State
  | .awaiting stack, token => start stack token
  | .opened stack, .closeBracket => some (.complete (.array []) stack)
  | .opened stack, token => start (.array [] :: stack) token
  | .braced stack, .closeBrace => some (.complete (.object []) stack)
  | .braced stack, .string key => some (.keyed [] key stack)
  | .separated before stack, .string key => some (.keyed before key stack)
  | .keyed before key stack, .colon => some (.awaiting (.object before key :: stack))
  | .complete value (.array before :: stack), .comma =>
    some (.awaiting (.array (value :: before) :: stack))
  | .complete value (.array before :: stack), .closeBracket =>
    some (.complete (.array (value :: before).reverse) stack)
  | .complete value (.object before key :: stack), .comma =>
    some (.separated ((key, value) :: before) stack)
  | .complete value (.object before key :: stack), .closeBrace =>
    some (.complete (.object ((key, value) :: before).reverse) stack)
  | _, _ => none

/-- The value read, once every container is closed. -/
def value? : State → Option Json
  | .complete value [] => some value
  | _ => none

end State

def ofTokens? (tokens : List Token) : Option Json := do
  (← tokens.foldlM State.step (.awaiting [])).value?

/-- The value a text stands for; `none` for text that is not JSON. -/
def parse? (text : String) : Option Json := do
  ofTokens? (← tokens? text.toList)

end GraphFusion.Json
