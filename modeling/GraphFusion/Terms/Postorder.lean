import GraphFusion.Terms.Construct

/-!
Rewriting from the leaves up. Children are visited from left to right before
their parent; the transformation sees a parent already rebuilt over its new
children and says whether it changed anything. A node none of whose children
changed is passed on as it is.
-/

namespace GraphFusion

/-- A compilation step with state of type `σ`, which outlives errors. -/
abbrev Compile (σ α : Type) := ExceptT CompileError (StateM σ) α

namespace Compile

def lift {σ α : Type} (r : Except CompileError α) : Compile σ α := ExceptT.mk (pure r)

end Compile

/-- A step on one node: its replacement, and whether it counts as changed. -/
abbrev NodeStep (σ : Type) := Term → Compile σ (Term × Bool)

namespace Term

/-- Rebuilds a node over the results for its children, if one of them changed,
and applies the step to it. -/
def settle {σ : Type} (step : NodeStep σ) (node : Term) (parts : List (Term × Bool)) :
    Compile σ (Term × Bool) := do
  let changed := parts.any (·.2)
  let rebuilt ←
    if changed then Compile.lift ((node.withChildren (parts.map (·.1))).mapError .type)
    else pure node
  let (result, here) ← step rebuilt
  return (result, changed || here)

mutual

def transform {σ : Type} (step : NodeStep σ) : Term → Compile σ (Term × Bool)
  | .lambda x type r => do
    let r' ← transform step r
    settle step (.lambda x type r) [r']
  | .call f none => do
    let f' ← transform step f
    settle step (.call f none) [f']
  | .call f (some a) => do
    let f' ← transform step f
    let a' ← transform step a
    settle step (.call f (some a)) [f', a']
  | .selection s index => do
    let s' ← transform step s
    settle step (.selection s index) [s']
  | .struct es => do
    let parts ← transformElements step es
    settle step (.struct es) parts
  | .block ls r => do
    let parts ← transformLocals step ls
    let r' ← transform step r
    settle step (.block ls r) (parts ++ [r'])
  | .reference x type => settle step (.reference x type) []
  | .compiled u => settle step (.compiled u) []
  | .intrinsic uri type => settle step (.intrinsic uri type) []

def transformElements {σ : Type} (step : NodeStep σ) :
    List (Label × Term) → Compile σ (List (Term × Bool))
  | [] => return []
  | (_, t) :: es => do
    let t' ← transform step t
    return t' :: (← transformElements step es)

def transformLocals {σ : Type} (step : NodeStep σ) :
    List (String × Term) → Compile σ (List (Term × Bool))
  | [] => return []
  | (_, t) :: ls => do
    let t' ← transform step t
    return t' :: (← transformLocals step ls)

end

/-- Applies a partial rewrite at every node from the leaves up, and counts the
nodes it replaced. -/
def rewriteAll (rewrite : Term → Except CompileError (Option Term)) (t : Term) :
    Except CompileError (Term × Nat) :=
  let step : NodeStep Nat := fun node => do
    match ← Compile.lift (rewrite node) with
    | some replacement =>
      modify (· + 1)
      return (replacement, true)
    | none => return (node, false)
  match (transform step t).run.run 0 with
  | (.ok (result, _), count) => .ok (result, count)
  | (.error e, _) => .error e

end Term

end GraphFusion
