import GraphFusion.Fusion.Pass
import GraphFusion.Settings

/-!
Sequences of passes and bounded fixed points of them. Normalization repeats the
three rewrites that remove called lambdas, blocks and selections until they
leave a term alone, then inserts identities; lowering goes on to fuse.
-/

namespace GraphFusion

/-- A step of a pipeline. -/
inductive Step where
  | pass (pass : Pass)
  /-- The steps over and over again, at most so many rounds of them. -/
  | repeated (rounds : Nat) (steps : List Step)

/-- What a run did: whether any step changed the term, and how many rewrites
there were. -/
structure RunStats where
  changed : Bool
  rewrites : Nat
  deriving DecidableEq, Inhabited

namespace RunStats

def none : RunStats := ⟨false, 0⟩

def ofRewrites (rewrites : Nat) : RunStats := ⟨decide (0 < rewrites), rewrites⟩

def merge (a b : RunStats) : RunStats := ⟨a.changed || b.changed, a.rewrites + b.rewrites⟩

end RunStats

/-- A step applied to a term. -/
abbrev TermRun := Term → Compile CompileLog (Term × RunStats)

/-- Repeats `body` until it changes nothing, `left` times at most after the
`done` rounds behind it. -/
def repeatRounds (body : TermRun) (done : Nat) : Nat → TermRun
  | 0, t => do
    modify (· ++ [.fixedPointStopped done])
    return (t, .none)
  | left + 1, t => do
    let (t, stats) ← body t
    if stats.changed then
      let (t, later) ← repeatRounds body (done + 1) left t
      return (t, stats.merge later)
    else
      return (t, stats)

/-- Runs a pass and reports it. -/
def Pass.runLogged (counted : Bool) (pass : Pass) : TermRun := fun t => do
  let (t, rewrites) ← pass.run t
  modify (· ++ [.passRun pass rewrites counted])
  return (t, .ofRewrites rewrites)

namespace Step

/-- A fixed point as pipelines are built of: its bound is at least one round. -/
def fixedPoint (rounds : Nat) (steps : List Step) : Step := .repeated (max rounds 1) steps

mutual

def run (counted : Bool) : Step → TermRun
  | .pass p, t => p.runLogged counted t
  | .repeated rounds steps, t => repeatRounds (fun t => runAll counted steps t) 0 rounds t

def runAll (counted : Bool) : List Step → TermRun
  | [], t => return (t, .none)
  | step :: rest, t => do
    let (t, stats) ← run counted step t
    let (t, later) ← runAll counted rest t
    return (t, stats.merge later)

end

end Step

structure Pipeline where
  steps : List Step
  counted : Bool

namespace Pipeline

def run (p : Pipeline) : TermRun := Step.runAll p.counted p.steps

def normalizationSteps (rounds : Nat) : List Step :=
  [.fixedPoint rounds
    [.pass .calledLambdasToBlocks, .pass .inlineBlocks, .pass .selectionsFromStructs],
    .pass .identitiesAtLeaves]

def normalization (s : Settings) : Pipeline :=
  ⟨normalizationSteps s.normalizeRounds, s.countRewrites⟩

def lowering (s : Settings) : Pipeline :=
  ⟨normalizationSteps s.normalizeRounds ++ [.pass .fusion], s.countRewrites⟩

end Pipeline

namespace Term

/-- Rewrites the root node by patterns until none matches. -/
def fuseRoot (t : Option Term) : Compile CompileLog (Term × Bool) :=
  match t with
  | none => throw (.invalidArgument "graph parser received no computation")
  | some t => t.fuseNode

/-- Normalizes a term and fuses it, and says whether anything was fused. The
fusing pass is reported only where rewrites are counted. -/
def lower (s : Settings) (t : Option Term) : Compile CompileLog (Term × Bool) :=
  match t with
  | none => throw (.invalidArgument "parse_to_graph received no computation")
  | some t => do
    let (normalized, _) ← (Pipeline.normalization s).run t
    let (result, rewrites) ← normalized.fuseAll
    if s.countRewrites then
      modify (· ++ [.passRun .fusion rewrites true])
    return (result, decide (0 < rewrites))

end Term

end GraphFusion
