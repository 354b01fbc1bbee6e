import GraphFusion.Graph.Codec

/-!
Terms of the computation language: a typed lambda calculus with structs,
sequential blocks, opaque intrinsics and compiled units. A compiled unit keeps
the verified graph that it runs; its stored form and its fingerprint follow
from the graph.
-/

namespace GraphFusion

/-- A graph that has been verified. Its format version is checked on loading. -/
structure CompiledUnit where
  graph : Graph
  verified : graph.verify = .ok ()
  deriving DecidableEq

namespace CompiledUnit

def ofGraph (g : Graph) : Except GraphError CompiledUnit :=
  match h : g.verify with
  | .ok () => .ok ⟨g, h⟩
  | .error e => .error e

def type (u : CompiledUnit) : Ty := u.graph.type

def fingerprint (u : CompiledUnit) : String := u.graph.fingerprint

/-- The graph to work with: one of another format version cannot be loaded. -/
def load (u : CompiledUnit) : Except GraphError Graph := do
  u.graph.checkVersion
  return u.graph

end CompiledUnit

inductive Term where
  | reference (name : String) (type : Ty)
  | lambda (parameter : String) (parameterType : Option Ty) (result : Term)
  | call (function : Term) (argument : Option Term)
  | selection (source : Term) (index : Nat)
  | struct (elements : List (Label × Term))
  /-- Each local is in scope in the later ones and in the result. -/
  | block (locals : List (String × Term)) (result : Term)
  | compiled (unit : CompiledUnit)
  | intrinsic (uri : String) (type : Ty)

namespace Term

instance : Inhabited Term := ⟨.struct []⟩

mutual

def beq : Term → Term → Bool
  | .reference x t, .reference y u => x == y && t == u
  | .lambda x t r, .lambda y u s => x == y && t == u && beq r s
  | .call f none, .call g none => beq f g
  | .call f (some a), .call g (some b) => beq f g && beq a b
  | .selection s i, .selection t j => beq s t && i == j
  | .struct es, .struct fs => beqElements es fs
  | .block ls r, .block ms s => beqLocals ls ms && beq r s
  | .compiled u, .compiled v => decide (u = v)
  | .intrinsic x t, .intrinsic y u => x == y && t == u
  | _, _ => false

def beqElements : List (Label × Term) → List (Label × Term) → Bool
  | [], [] => true
  | (n, t) :: es, (m, u) :: fs => n == m && beq t u && beqElements es fs
  | _, _ => false

def beqLocals : List (String × Term) → List (String × Term) → Bool
  | [], [] => true
  | (n, t) :: es, (m, u) :: fs => n == m && beq t u && beqLocals es fs
  | _, _ => false

end

instance : BEq Term := ⟨beq⟩

/-- Result of a function type; other types have none. -/
def resultType : Ty → Ty
  | .function _ result => result
  | _ => .struct []

mutual

/-- The type of a term. A call of no function and a selection out of range, which
the checked constructors refuse, count as the empty struct. -/
def type : Term → Ty
  | .reference _ t => t
  | .lambda _ p r => .function p (type r)
  | .call f _ => resultType (type f)
  | .selection s i => ((type s).element? i).getD (.struct [])
  | .struct es => .struct (elementTypes es)
  | .block _ r => type r
  | .compiled u => u.type
  | .intrinsic _ t => t

def elementTypes : List (Label × Term) → List (Label × Ty)
  | [] => []
  | (n, t) :: es => (n, type t) :: elementTypes es

end

def kind : Term → String
  | .reference .. => "Reference"
  | .lambda .. => "Lambda"
  | .call .. => "Call"
  | .selection .. => "Selection"
  | .struct _ => "Struct"
  | .block .. => "Block"
  | .compiled _ => "CompiledComputation"
  | .intrinsic .. => "Intrinsic"

def isReference : Term → Bool
  | .reference .. => true
  | _ => false

def unit? : Term → Option CompiledUnit
  | .compiled u => some u
  | _ => none

/-- Direct parts in the order of evaluation. -/
def children : Term → List Term
  | .reference .. | .compiled _ | .intrinsic .. => []
  | .lambda _ _ r => [r]
  | .call f a => f :: a.toList
  | .selection s _ => [s]
  | .struct es => es.map (·.2)
  | .block ls r => ls.map (·.2) ++ [r]

mutual

/-- Compact notation, with compiled units shown by their fingerprints. -/
def text : Term → String
  | .reference x _ => x
  | .lambda _ none r => "( -> " ++ text r ++ ")"
  | .lambda x (some _) r => "(" ++ x ++ " -> " ++ text r ++ ")"
  | .call f none => text f ++ "()"
  | .call f (some a) => text f ++ "(" ++ text a ++ ")"
  | .selection s i => text s ++ "[" ++ toString i ++ "]"
  | .struct es => "<" ++ ",".intercalate (elementTexts es) ++ ">"
  | .block [] r => "(let in " ++ text r ++ ")"
  | .block ls r => "(let " ++ ",".intercalate (localTexts ls) ++ " in " ++ text r ++ ")"
  | .compiled u => "comp#" ++ u.fingerprint
  | .intrinsic uri _ => uri

def elementTexts : List (Label × Term) → List String
  | [] => []
  | (n, t) :: es => n.tagged (text t) :: elementTexts es

def localTexts : List (String × Term) → List String
  | [] => []
  | (n, t) :: ls => (n ++ "=" ++ text t) :: localTexts ls

end

mutual

/-- Compiled units of a term, a node before its children. -/
def units : Term → List CompiledUnit
  | .reference .. | .intrinsic .. => []
  | .lambda _ _ r => units r
  | .call f none => units f
  | .call f (some a) => units f ++ units a
  | .selection s _ => units s
  | .struct es => elementUnits es
  | .block ls r => localUnits ls ++ units r
  | .compiled u => [u]

def elementUnits : List (Label × Term) → List CompiledUnit
  | [] => []
  | (_, t) :: es => units t ++ elementUnits es

def localUnits : List (String × Term) → List CompiledUnit
  | [] => []
  | (_, t) :: ls => units t ++ localUnits ls

end

/-- The first unit of each fingerprint. -/
def distinctUnits (t : Term) : List CompiledUnit :=
  t.units.foldl (fun found u =>
    if found.any (·.fingerprint == u.fingerprint) then found else found ++ [u]) []

end Term

end GraphFusion
