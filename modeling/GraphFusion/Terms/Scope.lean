import GraphFusion.Terms.Basic

/-!
Names in terms. A lambda binds its parameter name in its result, whether or not
it takes a parameter; a local of a block is bound in the later locals and the
result.
-/

namespace GraphFusion

namespace Term

/-- The names that locals bind, the latest first, in front of those around them. -/
def bindLocals (locals : List (String × Term)) (bound : List String) : List String :=
  (locals.map (·.1)).reverse ++ bound

mutual

/-- Names that occur outside every binder of theirs, in order of occurrence;
`bound` lists the names bound around the term. -/
def freeFrom (bound : List String) : Term → List String
  | .reference x _ => if x ∈ bound then [] else [x]
  | .lambda x _ r => freeFrom (x :: bound) r
  | .call f none => freeFrom bound f
  | .call f (some a) => freeFrom bound f ++ freeFrom bound a
  | .selection s _ => freeFrom bound s
  | .struct es => freeInElements bound es
  | .block ls r => freeInLocals bound ls ++ freeFrom (bindLocals ls bound) r
  | .compiled _ | .intrinsic .. => []

def freeInElements (bound : List String) : List (Label × Term) → List String
  | [] => []
  | (_, t) :: es => freeFrom bound t ++ freeInElements bound es

def freeInLocals (bound : List String) : List (String × Term) → List String
  | [] => []
  | (x, t) :: ls => freeFrom bound t ++ freeInLocals (x :: bound) ls

end

/-- Names of the free references of a term. -/
def freeNames (t : Term) : List String := freeFrom [] t

/-- Each free name once, in ascending order. -/
def freeReferences (t : Term) : List String :=
  t.freeNames.eraseDups.mergeSort fun x y => decide (x ≤ y)

mutual

/-- Every name that a reference, a lambda or a block of the term mentions. -/
def names : Term → List String
  | .reference x _ => [x]
  | .lambda x _ r => x :: names r
  | .call f none => names f
  | .call f (some a) => names f ++ names a
  | .selection s _ => names s
  | .struct es => namesInElements es
  | .block ls r => namesInLocals ls ++ names r
  | .compiled _ | .intrinsic .. => []

def namesInElements : List (Label × Term) → List String
  | [] => []
  | (_, t) :: es => names t ++ namesInElements es

def namesInLocals : List (String × Term) → List String
  | [] => []
  | (x, t) :: ls => x :: names t ++ namesInLocals ls

end

end Term

/-- The name given to the `n`-th renamed binder. -/
def freshName (n : Nat) : String := "_var" ++ toString n

/-- The least number from `start` on whose fresh name is not used. One of the
next `used.length + 1` numbers is free. -/
def nextFresh (used : List String) (start : Nat) : Nat :=
  ((List.range' start (used.length + 1)).find? fun n => !used.contains (freshName n)).getD start

end GraphFusion
