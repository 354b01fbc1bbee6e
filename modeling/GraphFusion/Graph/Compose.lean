import GraphFusion.Graph.Builder

/-!
Graphs made of graphs. Each operation copies its operands into a new builder
and so renumbers them; none looks inside a body.
-/

namespace GraphFusion

namespace Graph

/-- Returns its argument. -/
def identity (type : Ty) : Except GraphError Graph :=
  build (some type) (return 0)

/-- Takes no argument and returns the empty struct. -/
def emptyStruct : Except GraphError Graph :=
  build none (Build.pack [])

/-- A struct with one copy of the argument per label. -/
def replicate (type : Ty) (labels : List Label) : Except GraphError Graph :=
  build (some type) (Build.pack (labels.map fun label => (label, 0)))

/-- Element `index` of the struct that `graph` returns. -/
def project (graph : Graph) (index : Nat) : Except GraphError Graph :=
  build graph.parameter do
    let result ← Build.inline graph (← Build.argument?)
    Build.select result index

/-- `outer` applied to the result of `inner`. -/
def compose (outer inner : Graph) : Except GraphError Graph :=
  match outer.parameter with
  | none => .error (.invalid .composeIntoNoArgument)
  | some type =>
    if type ≠ inner.result then .error (.typeMismatch .compose type inner.result)
    else
      build inner.parameter do
        let intermediate ← Build.inline inner (← Build.argument?)
        Build.inline outer (some intermediate)

/-- Inlines graphs without a parameter and labels their results. -/
def inlineClosed : List (Label × Graph) → Build (List (Label × ValueId))
  | [] => return []
  | (label, graph) :: rest => do
    let result ← Build.inline graph none
    return (label, result) :: (← inlineClosed rest)

/-- Inlines graphs on successive elements of the struct at `source`, from
`index` on, and labels their results. -/
def inlineOnElements (source : ValueId) :
    Nat → List (Label × Graph) → Build (List (Label × ValueId))
  | _, [] => return []
  | index, (label, graph) :: rest => do
    let argument ← Build.select source index
    let result ← Build.inline graph (some argument)
    return (label, result) :: (← inlineOnElements source (index + 1) rest)

/-- Runs graphs side by side: takes the unnamed struct of their arguments, or
nothing if none takes one, and returns the struct of their labelled results. -/
def concatenate (graphs : List (Label × Graph)) : Except GraphError Graph :=
  if graphs.isEmpty then .error (.invalid .concatenateNothing)
  else if graphs.all fun (_, graph) => graph.parameter.isNone then
    build none do
      Build.pack (← inlineClosed graphs)
  else
    match graphs.mapM fun (_, graph) => graph.parameter with
    | none => .error (.invalid .concatenateMixed)
    | some parameters =>
      build (some (.tuple parameters)) do
        Build.pack (← inlineOnElements 0 0 graphs)

/-- A graph without a parameter, made to take and ignore one. -/
def ignoreParameter (graph : Graph) (parameter : Ty) : Except GraphError Graph :=
  if graph.parameter.isSome then .error (.invalid .ignoreParameterOfFunction)
  else build (some parameter) (Build.inline graph none)

end Graph

end GraphFusion
