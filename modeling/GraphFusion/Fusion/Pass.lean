import GraphFusion.Fusion.Normalize
import GraphFusion.Fusion.Pattern
import GraphFusion.LogLevel

/-!
Passes over a whole term, and what they report while they run. Fusing a node
repeats the first matching pattern: a struct can match twice, a call, a
selection or a lambda once, and no other node matches at all.
-/

namespace GraphFusion

inductive Pass where
  | calledLambdasToBlocks
  | inlineBlocks
  | selectionsFromStructs
  | identitiesAtLeaves
  | fusion
  deriving DecidableEq, Inhabited

namespace Pass

def all : List Pass :=
  [calledLambdasToBlocks, inlineBlocks, selectionsFromStructs, identitiesAtLeaves, fusion]

def name : Pass → String
  | calledLambdasToBlocks => "replace_called_lambda_with_block"
  | inlineBlocks => "inline_block_locals"
  | selectionsFromStructs => "replace_selection_from_struct_with_element"
  | identitiesAtLeaves => "insert_called_identity_at_leaves"
  | fusion => "graph_parser"

def ofName? (text : String) : Option Pass := all.find? (·.name == text)

end Pass

/-- What compilation reports. -/
inductive CompileEvent where
  | patternApplied (pattern : Pattern) (before after : Term)
  /-- A pass has run; `counted` asks for the number of rewrites. -/
  | passRun (pass : Pass) (rewrites : Nat) (counted : Bool)
  | fixedPointStopped (iterations : Nat)

namespace CompileEvent

def level : CompileEvent → LogLevel
  | patternApplied .. => .trace
  | passRun _ _ counted => if counted then .info else .debug
  | fixedPointStopped _ => .debug

def text : CompileEvent → String
  | patternApplied pattern before after =>
    pattern.name ++ ": " ++ before.text ++ " => " ++ after.text
  | passRun pass rewrites true =>
    s!"pass {pass.name}: changed={decide (0 < rewrites)} rewrites={rewrites}"
  | passRun pass rewrites false => s!"pass {pass.name} changed={decide (0 < rewrites)}"
  | fixedPointStopped iterations => s!"fixed point stopped after {iterations} iterations"

end CompileEvent

/-- Reports, oldest first. -/
abbrev CompileLog := List CompileEvent

namespace Term

/-- How often patterns can match at a node, one after the other. -/
def fusionBound : Term → Nat
  | .struct _ => 2
  | .call (.compiled _) none => 0
  | .call (.compiled _) (some (.reference ..)) => 0
  | .call .. | .selection .. | .lambda .. => 1
  | _ => 0

/-- Rewrites a node of type `type` by the first matching pattern, at most
`bound` times. -/
def fuseWithin (type : Ty) (bound : Nat) (current : Term) (changed : Bool) :
    Compile CompileLog (Term × Bool) :=
  match bound with
  | 0 => return (current, changed)
  | bound + 1 => do
    match ← Compile.lift (Pattern.firstMatch? current Pattern.all) with
    | none => return (current, changed)
    | some (pattern, next) =>
      if type ≠ next.type then
        throw (.typeChanged pattern.name type next.type)
      modify (· ++ [.patternApplied pattern current next])
      fuseWithin type bound next true

/-- Rewrites a node until no pattern matches it, and says whether one did. -/
def fuseNode : NodeStep CompileLog := fun t => fuseWithin t.type t.fusionBound t false

/-- Rewrites so far, and reports. -/
structure Fusing where
  rewrites : Nat
  log : CompileLog

/-- Fuses every node from the leaves up, and counts the nodes that changed. -/
def fuseAll (t : Term) : Compile CompileLog (Term × Nat) := do
  let step : NodeStep Fusing := fun node => do
    let s ← get
    let (outcome, log) := (fuseNode node).run.run s.log
    let changed := match outcome with
      | .ok (_, changed) => changed
      | .error _ => false
    set (⟨s.rewrites + changed.toNat, log⟩ : Fusing)
    Compile.lift outcome
  let (outcome, s) := (transform step t).run.run ⟨0, ← get⟩
  set s.log
  let (result, _) ← Compile.lift outcome
  return (result, s.rewrites)

end Term

namespace Pass

/-- The new term and the number of rewrites. -/
def run (pass : Pass) (t : Term) : Compile CompileLog (Term × Nat) :=
  match pass with
  | calledLambdasToBlocks => Compile.lift t.calledLambdasToBlocks
  | inlineBlocks => Compile.lift t.inlineBlocks
  | selectionsFromStructs => Compile.lift t.selectionsFromStructs
  | identitiesAtLeaves => Compile.lift t.identitiesAtLeaves
  | fusion => t.fuseAll

end Pass

end GraphFusion
