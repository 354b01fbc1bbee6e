import GraphFusion.Fusion.Pattern
import GraphFusion.Proofs.Graph.Compose
import GraphFusion.Proofs.Terms.Evaluation
import GraphFusion.Proofs.Terms.Rewriting

/-!
Called graphs. A built graph called on an argument of its parameter type gives
what the graph returns on the value of that argument. Every built graph is the
graph of a compiled unit, which can be called on whatever has the type of its
parameter.
-/

namespace GraphFusion

/-- Every built graph is the graph of a unit. -/
theorem CompiledUnit.exists_ofGraph {g : Graph} (hg : g.Built) :
    ∃ u, CompiledUnit.ofGraph g = .ok u ∧ u.graph = g := by
  have hverify := hg.sound.verify
  unfold CompiledUnit.ofGraph
  split
  · exact ⟨_, rfl, rfl⟩
  · rename_i e he
    rw [hverify] at he
    cases he

namespace Meaning

theorem exists_argument {g : Graph} (hg : g.Sound) {a : Option Meaning}
    (ha : a.map (·.type) = g.parameter) :
    ∃ v, argument? a = some v ∧ Graph.ArgumentFits g.parameter v := by
  cases a with
  | none =>
    rw [← ha]
    exact ⟨none, rfl, .none⟩
  | some m =>
    obtain ⟨v, hv⟩ := m.exists_value? (hg.parameter_isData ha.symm)
    rw [← ha]
    exact ⟨some v, by rw [argument?, hv]; rfl, .some (hasType_of_value? hv)⟩

/-- A call gives what the graph returns. -/
theorem apply_ofGraph {g : Graph} (hg : g.Sound) {a : Option Meaning} {v : Option Value}
    (ha : a.map (·.type) = g.parameter) (hv : argument? a = some v) :
    (ofGraph g).apply a = returned g.result (g.resultOn v) := by
  obtain ⟨w, hw, hfits⟩ := exists_argument hg ha
  obtain rfl : v = w := Option.some.inj (hv.symm.trans hw)
  rw [ofGraph, apply_function ha, hv]
  · simp only [hg.execute_of_fits hfits]
  · intro m hm
    rw [hv] at hm
    exact type_of_returned hm

/-- What a call gives, seen as values. -/
theorem returned_resultOn {g : Graph} (hg : g.Sound) {v : Option Value}
    (hv : Graph.ArgumentFits g.parameter v) :
    (∃ e, g.resultOn v = .error e ∧ returned g.result (g.resultOn v) = .error (.execution e)) ∨
    ∃ w m, g.resultOn v = .ok w ∧ w.HasType g.result ∧
      returned g.result (g.resultOn v) = .ok m ∧ m.type = g.result ∧ m.value? = some w := by
  cases h : g.resultOn v with
  | error e => exact .inl ⟨e, rfl, rfl⟩
  | ok w =>
    have hw := hg.resultOn_hasType hv h
    obtain ⟨m, hm, htype, hvalue⟩ := exists_returned hw
    exact .inr ⟨w, m, rfl, hw, hm, htype, hvalue⟩

end Meaning

namespace Term

/-- The meaning of an argument, if there is one. -/
def evalArgument (I : Interpretation) (env : Env) : Option Term → Except Failure (Option Meaning)
  | none => .ok none
  | some a => some <$> eval I env a

theorem eval_call (I : Interpretation) (env : Env) (f : Term) (a : Option Term) :
    eval I env (.call f a) =
      eval I env f >>= fun m => evalArgument I env a >>= fun v => m.apply v := by
  cases a with
  | none => simp only [eval, evalArgument, ok_bind]
  | some a =>
    simp only [eval, evalArgument]
    cases eval I env f with
    | error e => rfl
    | ok m => cases eval I env a <;> rfl

/-- An argument that is typed, if there is one. -/
def ArgumentTyped (Γ : Context) : Option Term → Prop
  | none => True
  | some a => a.Typed Γ

theorem typed_call {Γ : Context} {f : Term} {a : Option Term} :
    (Term.call f a).Typed Γ ↔
      f.Typed Γ ∧ ArgumentTyped Γ a ∧ ∃ r, f.type = .function (a.map type) r := by
  cases a with
  | none => simp only [Typed, ArgumentTyped, Option.map_none, true_and]
  | some a => simp only [Typed, ArgumentTyped, Option.map_some]

theorem type_call {f : Term} {a : Option Term} {p : Option Ty} {r : Ty}
    (h : f.type = .function p r) : (Term.call f a).type = r := by
  simp only [type, h, resultType]

theorem typed_compiled {Γ : Context} {u : CompiledUnit} :
    (Term.compiled u).Typed Γ ↔ u.graph.Built := by
  simp only [Typed]

theorem type_compiled (u : CompiledUnit) :
    (Term.compiled u).type = .function u.graph.parameter u.graph.result := by
  simp only [type, CompiledUnit.type, Graph.type]

theorem type_callCompiled (u : CompiledUnit) (a : Option Term) :
    (Term.call (.compiled u) a).type = u.graph.result := type_call (type_compiled u)

theorem typed_callCompiled {Γ : Context} {u : CompiledUnit} {a : Option Term} :
    (Term.call (.compiled u) a).Typed Γ ↔
      u.graph.Built ∧ ArgumentTyped Γ a ∧ u.graph.parameter = a.map type := by
  rw [typed_call, typed_compiled, type_compiled]
  simp only [Ty.function.injEq, exists_and_left, exists_eq', and_true]

theorem eval_callCompiled (I : Interpretation) (env : Env) (u : CompiledUnit) (a : Option Term) :
    eval I env (.call (.compiled u) a) =
      evalArgument I env a >>= (Meaning.ofGraph u.graph).apply := by
  rw [eval_call]
  simp only [eval, ok_bind]

theorem type_of_evalArgument {I : Interpretation} {env : Env} {Γ : Context} {a : Option Term}
    {m : Option Meaning} (ha : ArgumentTyped Γ a) (henv : env.Fits Γ)
    (h : evalArgument I env a = .ok m) : m.map (·.type) = a.map type := by
  cases a with
  | none =>
    cases h
    rfl
  | some a =>
    cases hm : eval I env a with
    | error e =>
      rw [evalArgument, hm] at h
      cases h
    | ok v =>
      rw [evalArgument, hm] at h
      cases h
      exact congrArg some (type_of_eval ha henv hm)

/-- Two calls agree when their graphs agree on what the arguments evaluate to. -/
theorem eval_callCompiled_congr {I : Interpretation} {env : Env} {Γ : Context}
    {u u' : CompiledUnit} {a : Option Term} (hu : u.graph.Built) (ha : ArgumentTyped Γ a)
    (hp : u.graph.parameter = a.map type) (hu' : u'.graph.Built)
    (hp' : u'.graph.parameter = a.map type) (henv : env.Fits Γ)
    {k : Meaning → Except Failure Meaning}
    (h : ∀ v, Graph.ArgumentFits u.graph.parameter v →
      Meaning.returned u'.graph.result (u'.graph.resultOn v) =
        Meaning.returned u.graph.result (u.graph.resultOn v) >>= k) :
    eval I env (.call (.compiled u') a) = eval I env (.call (.compiled u) a) >>= k := by
  rw [eval_callCompiled, eval_callCompiled]
  cases hm : evalArgument I env a with
  | error e => rfl
  | ok m =>
    have htype := type_of_evalArgument ha henv hm
    obtain ⟨v, hv, hfits⟩ := Meaning.exists_argument hu.sound (htype.trans hp.symm)
    simp only [ok_bind]
    rw [Meaning.apply_ofGraph hu'.sound (htype.trans hp'.symm) hv,
      Meaning.apply_ofGraph hu.sound (htype.trans hp.symm) hv]
    exact h v hfits

/-- The compiled form of a built graph can be called on what has the type of its
parameter. -/
theorem callGraph_spec {g : Graph} {p : Option Ty} {r : Ty} (hg : g.BuiltAs p r)
    {a : Option Term} (ha : a.map type = p) :
    ∃ u, callGraph g a = .ok (.call (.compiled u) a) ∧ u.graph = g := by
  obtain ⟨u, hu, hgraph⟩ := CompiledUnit.exists_ofGraph hg.built
  refine ⟨u, ?_, hgraph⟩
  have htype := type_compiled u
  rw [hgraph, hg.parameter_eq, ← ha] at htype
  have happly : (Term.compiled u).apply a = .ok (.call (.compiled u) a) := by
    cases a with
    | none => exact apply_none htype
    | some a => exact apply_some htype
  simp only [callGraph, ofGraph, hu, ok_bind, pure_eq_ok, Except.mapError, happly]

theorem loadUnit_eq {u : CompiledUnit} (hu : u.graph.Built) : loadUnit u = .ok u.graph := by
  rw [loadUnit, hu.sound.load]
  rfl

theorem calledGraph?_eq_some {t : Term} {u : CompiledUnit} {a : Option Term}
    (h : t.calledGraph? = some (u, a)) :
    t = .call (.compiled u) a ∧ ∀ b ∈ a, ∃ x type, b = .reference x type := by
  unfold calledGraph? at h
  split at h
  · cases h
    exact ⟨rfl, by simp⟩
  · cases h
    exact ⟨rfl, by simp⟩
  · cases h

end Term

end GraphFusion
