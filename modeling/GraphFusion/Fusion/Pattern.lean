import GraphFusion.Terms.Construct

/-!
Local fusion of compiled calls. A called graph is a compiled unit applied to a
reference or to nothing; each pattern turns a node around called graphs into a
single one. Terms are fused from the leaves up, so a pattern looks at most two
levels down.
-/

namespace GraphFusion

inductive Pattern where
  /-- `(p -> C(p))` becomes `C`. -/
  | lambdaWrappingGraph
  /-- `<n_0=C_0(r_0), ...>` becomes `concatenate(C_0, ...)(<r_0, ...>)`. -/
  | structOfCalledGraphs
  /-- `C(r)[i]` becomes `project(C, i)(r)`. -/
  | selectionFromCalledGraph
  /-- `D(C(r))` becomes `compose(D, C)(r)`. -/
  | calledComposition
  /-- `C(<n_0=x, n_1=x, ...>)` becomes `compose(C, replicate)(x)`. -/
  | calledGraphOnReplicatedArg
  /-- `(p -> C())` becomes `C` made to ignore `p`. -/
  | lambdaWrappingNoArgGraph
  deriving DecidableEq, Inhabited

namespace Pattern

/-- The patterns in the order in which they are tried. -/
def all : List Pattern :=
  [lambdaWrappingGraph, structOfCalledGraphs, selectionFromCalledGraph, calledComposition,
    calledGraphOnReplicatedArg, lambdaWrappingNoArgGraph]

def name : Pattern → String
  | lambdaWrappingGraph => "lambda_wrapping_graph"
  | structOfCalledGraphs => "struct_of_called_graphs"
  | selectionFromCalledGraph => "selection_from_called_graph"
  | calledComposition => "called_composition"
  | calledGraphOnReplicatedArg => "called_graph_on_replicated_arg"
  | lambdaWrappingNoArgGraph => "lambda_wrapping_no_arg_graph"

end Pattern

namespace Term

/-- The unit and the argument of a called graph. -/
def calledGraph? : Term → Option (CompiledUnit × Option Term)
  | .call (.compiled u) none => some (u, none)
  | .call (.compiled u) (some (.reference x type)) => some (u, some (.reference x type))
  | _ => none

/-- A call of the compiled form of `g`. -/
def callGraph (g : Graph) (argument : Option Term) : Except CompileError Term := do
  let function ← (ofGraph g).mapError .graph
  (function.apply argument).mapError .type

def loadUnit (u : CompiledUnit) : Except CompileError Graph := u.load.mapError .graph

/-- The labelled graphs and arguments of the elements, if all are called graphs. -/
def calledElements : List (Label × Term) →
    Except CompileError (Option (List (Label × Graph × Option Term)))
  | [] => .ok (some [])
  | (label, t) :: es =>
    match t.calledGraph? with
    | none => .ok none
    | some (u, argument) => do
      let g ← loadUnit u
      return (← calledElements es).map ((label, g, argument) :: ·)

/-- An element that takes no argument is made to ignore `shared` instead. -/
def shareArgument (shared : Term) (part : Label × Graph × Option Term) :
    Except CompileError ((Label × Graph) × Term) :=
  match part with
  | (label, g, some argument) => .ok ((label, g), argument)
  | (label, g, none) => do
    let lifted ← (g.ignoreParameter shared.type).mapError .graph
    return ((label, lifted), shared)

/-- One call in place of a struct of called graphs. Elements without an argument
share the first one there is. -/
def fuseElements (parts : List (Label × Graph × Option Term)) : Except CompileError Term := do
  match parts.findSome? fun (_, _, argument) => argument with
  | none =>
    let fused ← (Graph.concatenate (parts.map fun (label, g, _) => (label, g))).mapError .graph
    callGraph fused none
  | some shared =>
    let lifted ← parts.mapM (shareArgument shared)
    let fused ← (Graph.concatenate (lifted.map (·.1))).mapError .graph
    callGraph fused (some (.tuple (lifted.map (·.2))))

/-- The name that all elements refer to, with the first of them. -/
def replicatedReference? : List (Label × Term) → Option Term
  | (label, .reference x type) :: es =>
    let same : Label × Term → Bool := fun (_, t) =>
      match t with
      | .reference y _ => y == x
      | _ => false
    if ((label, .reference x type) :: es).all same then some (.reference x type) else none
  | _ => none

end Term

namespace Pattern

/-- The replacement of a node that has the pattern's shape. -/
def rewrite? : Pattern → Term → Except CompileError (Option Term)
  | lambdaWrappingGraph, .lambda x (some _) r =>
    match r.calledGraph? with
    | some (u, some (.reference y _)) => .ok (if x = y then some (.compiled u) else none)
    | _ => .ok none
  | structOfCalledGraphs, .struct [] => do
    let empty ← Graph.emptyStruct.mapError .graph
    return some (← Term.callGraph empty none)
  | structOfCalledGraphs, .struct es => do
    match ← Term.calledElements es with
    | none => return none
    | some parts => return some (← Term.fuseElements parts)
  | selectionFromCalledGraph, .selection source index =>
    match source.calledGraph? with
    | none => .ok none
    | some (u, argument) => do
      let projected ← ((← Term.loadUnit u).project index).mapError .graph
      return some (← Term.callGraph projected argument)
  | calledComposition, .call (.compiled outer) (some a) =>
    match a.calledGraph? with
    | none => .ok none
    | some (inner, argument) => do
      let outer ← Term.loadUnit outer
      let inner ← Term.loadUnit inner
      let composed ← (outer.compose inner).mapError .graph
      return some (← Term.callGraph composed argument)
  | calledGraphOnReplicatedArg, .call (.compiled u) (some (.struct es)) =>
    match Term.replicatedReference? es with
    | none => .ok none
    | some shared => do
      let replicate ← (Graph.replicate shared.type (es.map (·.1))).mapError .graph
      let composed ← ((← Term.loadUnit u).compose replicate).mapError .graph
      return some (← Term.callGraph composed (some shared))
  | lambdaWrappingNoArgGraph, .lambda _ parameter r =>
    match r.calledGraph? with
    | some (u, none) =>
      match parameter with
      | none => .ok (some (.compiled u))
      | some type => do
        let lifted ← ((← Term.loadUnit u).ignoreParameter type).mapError .graph
        return some (← (Term.ofGraph lifted).mapError .graph)
    | _ => .ok none
  | _, _ => .ok none

/-- The first pattern that applies, with the replacement. -/
def firstMatch? (t : Term) : List Pattern → Except CompileError (Option (Pattern × Term))
  | [] => .ok none
  | p :: rest => do
    match ← p.rewrite? t with
    | some replacement => return some (p, replacement)
    | none => firstMatch? t rest

end Pattern

end GraphFusion
