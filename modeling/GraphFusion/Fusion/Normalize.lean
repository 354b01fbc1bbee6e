import GraphFusion.Terms.Postorder
import GraphFusion.Terms.Scope

/-!
Four rewrites that bring a term into the shape fusion looks for: no called
lambdas, no blocks, no selections from literal structs, and every data
reference consumed by a compiled call. Each returns the new term and how often
it rewrote.
-/

namespace GraphFusion

namespace Term

/-- `(p -> body)(arg)` becomes `(let p=arg in body)`. -/
def calledLambdaToBlock? : Term → Option Term
  | .call (.lambda x (some _) r) (some a) => some (.block [(x, a)] r)
  | .call (.lambda _ _ r) _ => some (.block [] r)
  | _ => none

def calledLambdasToBlocks (t : Term) : Except CompileError (Term × Nat) :=
  rewriteAll (fun node => .ok node.calledLambdaToBlock?) t

/-- `<..., e_i, ...>[i]` becomes `e_i`. -/
def elementOfStruct? : Term → Option Term
  | .selection (.struct es) index => (es[index]?).map (·.2)
  | _ => none

def selectionsFromStructs (t : Term) : Except CompileError (Term × Nat) :=
  rewriteAll (fun node => .ok node.elementOfStruct?) t

/-- Terms that stand for names; each name occurs once. -/
abbrev Substitution := List (String × Term)

namespace Substitution

def without (s : Substitution) (x : String) : Substitution := s.filter (·.1 != x)

def extend (s : Substitution) (x : String) (t : Term) : Substitution := (x, t) :: s.without x

/-- Some substituted term mentions `x`, which a binder of `x` would capture. -/
def mentions (s : Substitution) (x : String) : Bool := s.any fun (_, t) => t.freeNames.contains x

end Substitution

/-- Number of the next fresh name to try, and rewrites so far. -/
structure Inlining where
  nextName : Nat
  rewrites : Nat

def Inlining.start : Inlining := ⟨0, 0⟩

/-- A name that no term of the tree mentions and that was not handed out before. -/
def takeFresh (used : List String) : Compile Inlining String := do
  let s ← get
  let n := nextFresh used s.nextName
  set { s with nextName := n + 1 }
  return freshName n

def countRewrite : Compile Inlining Unit := modify fun s => { s with rewrites := s.rewrites + 1 }

/-- The parameter name of a lambda under a substitution, renamed if it would
capture, and the substitution for its result. -/
def enterLambda (used : List String) (s : Substitution) (x : String) (type : Option Ty) :
    Compile Inlining (String × Substitution) := do
  let inner := s.without x
  if inner.mentions x then
    let fresh ← takeFresh used
    countRewrite
    return (fresh, (type.map fun t => (x, Term.reference fresh t)).toList ++ inner)
  else
    return (x, inner)

def rebuild (node : Term) (parts : List Term) : Compile Inlining Term :=
  Compile.lift ((node.withChildren parts).mapError .type)

mutual

/-- Applies a substitution and replaces every block by its result, with the
locals substituted one after the other. -/
def inline (used : List String) (s : Substitution) : Term → Compile Inlining Term
  | .reference x type => return (s.lookup x).getD (.reference x type)
  | .lambda x type r => do
    let (x, inner) ← enterLambda used s x type
    return .lambda x type (← inline used inner r)
  | .block ls r => do
    let inner ← inlineLocals used s ls
    countRewrite
    inline used inner r
  | .call f none => do
    let f' ← inline used s f
    rebuild (.call f none) [f']
  | .call f (some a) => do
    let f' ← inline used s f
    let a' ← inline used s a
    rebuild (.call f (some a)) [f', a']
  | .selection t index => do
    let t' ← inline used s t
    rebuild (.selection t index) [t']
  | .struct es => do
    let parts ← inlineElements used s es
    rebuild (.struct es) parts
  | .compiled u => return .compiled u
  | .intrinsic uri type => return .intrinsic uri type

def inlineElements (used : List String) (s : Substitution) :
    List (Label × Term) → Compile Inlining (List Term)
  | [] => return []
  | (_, t) :: es => do
    let t' ← inline used s t
    return t' :: (← inlineElements used s es)

def inlineLocals (used : List String) (s : Substitution) :
    List (String × Term) → Compile Inlining Substitution
  | [] => return s
  | (x, t) :: ls => do
    let t' ← inline used s t
    inlineLocals used (s.extend x t') ls

end

def inlineBlocks (t : Term) : Except CompileError (Term × Nat) :=
  match (inline t.names [] t).run.run .start with
  | (.ok result, s) => .ok (result, s.rewrites)
  | (.error e, _) => .error e

/-- A reference to data, which no compiled call consumes where it stands. -/
def isDataReference (t : Term) : Bool := t.isReference && t.type.isData

def wrapIfData (t : Term) : Except CompileError Term :=
  if t.isDataReference then t.identityCall else .ok t

/-- Passes the data references among the children of a node through compiled
identities. The argument of a compiled unit is left alone. -/
def wrapChildren? (node : Term) : Except CompileError (Option Term) :=
  let wrapAll : Except CompileError (Option Term) := do
    if node.children.any isDataReference then
      let parts ← node.children.mapM wrapIfData
      return some (← (node.withChildren parts).mapError .type)
    else
      return none
  match node with
  | .call (.compiled _) _ => .ok none
  | _ => wrapAll

def identitiesAtLeaves (t : Term) : Except CompileError (Term × Nat) :=
  rewriteAll wrapChildren? t

end Term

end GraphFusion
