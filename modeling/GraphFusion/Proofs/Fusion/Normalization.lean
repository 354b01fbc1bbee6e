import GraphFusion.Fusion.Pass
import GraphFusion.Proofs.Fusion.Inlining

/-!
The passes in front of fusion. A called lambda means what the block of its result
means, and a data reference what it means passed through an identity; an element
of a literal struct gives what selecting it gives, where that gives anything, for
the other elements are no longer evaluated. None of the passes fails on a typed
term, and each makes a term that refines it.
-/

namespace GraphFusion

namespace Term

variable {Γ : Context} {I : Interpretation} {env : Env} {t : Term}

/-- The name of a lambda without a parameter occurs nowhere below it. -/
theorem notMem_freeNames_of_hidden {x : String} {r : Term}
    (hr : r.Typed (Function.update Γ x none)) : x ∉ r.freeNames := by
  intro hx
  obtain ⟨type, htype⟩ := hr.exists_type hx
  rw [Function.update_self] at htype
  cases htype

theorem calledLambda_same {x : String} {type : Ty} {r a : Term}
    (ht : (Term.call (.lambda x (some type) r) (some a)).Typed Γ) :
    SameMeaning Γ (.call (.lambda x (some type) r) (some a)) (.block [(x, a)] r) := by
  simp only [Typed, Term.type, Ty.function.injEq, Option.some.injEq, exists_and_left,
    exists_eq', and_true] at ht
  obtain ⟨hr, ha, rfl⟩ := ht
  refine ⟨⟨?_, ?_⟩, fun I env henv => ?_⟩
  · rw [typed_block_cons, typed_block_nil]
    exact ⟨ha, hr⟩
  · simp only [Term.type, resultType]
  · simp only [eval, ok_bind]
    rw [evalLocals]
    cases hm : eval I env a with
    | error e => rfl
    | ok m =>
      have hmtype := type_of_eval ha henv hm
      simp only [ok_bind, evalLocals]
      rw [Meaning.apply_function (p := some a.type) (a := some m) (congrArg some hmtype)]
      intro v hv
      exact type_of_eval hr (henv.bind hmtype x) hv

theorem calledThunk_same {x : String} {r : Term}
    (ht : (Term.call (.lambda x none r) none).Typed Γ) :
    SameMeaning Γ (.call (.lambda x none r) none) (.block [] r) := by
  simp only [Typed] at ht
  have hfree := notMem_freeNames_of_hidden ht.1
  have hsame : ∀ {α : Type} (f : String → Option α), ∀ y ∈ r.freeNames,
      Function.update f x none y = f y := by
    intro α f y hy
    refine Function.update_of_ne ?_ ..
    rintro rfl
    exact hfree hy
  refine ⟨⟨?_, ?_⟩, fun I env henv => ?_⟩
  · rw [typed_block_nil]
    exact (typed_congr (hsame Γ)).mp ht.1
  · simp only [Term.type, resultType]
  · simp only [eval, ok_bind, evalLocals]
    rw [Meaning.apply_function (p := none) (a := none) rfl]
    · exact (eval_congr (hsame env)).symm
    · intro v hv
      exact type_of_eval ht.1 (henv.update (a := none) rfl x) hv

theorem calledLambdaToBlock?_same {t t' : Term} (ht : t.Typed Γ)
    (h : t.calledLambdaToBlock? = some t') : SameMeaning Γ t t' := by
  unfold calledLambdaToBlock? at h
  split at h
  · cases h
    exact calledLambda_same ht
  · rename_i x p r a hnot
    cases h
    cases p with
    | none =>
      cases a with
      | none => exact calledThunk_same ht
      | some a => simp [Typed, Term.type] at ht
    | some p =>
      cases a with
      | none => simp [Typed, Term.type] at ht
      | some a => exact (hnot _ _ rfl rfl).elim
  · cases h

/-- The elements of a struct that evaluates, one by one. -/
theorem eval_element {es : List (Label × Term)} {ms : List (Label × Meaning)}
    (h : evalElements I env es = .ok ms) {index : Nat} {label : Label} {t : Term}
    (hindex : es[index]? = some (label, t)) :
    ∃ m, ms[index]? = some (label, m) ∧ eval I env t = .ok m := by
  induction es generalizing ms index with
  | nil => cases hindex
  | cons e es ih =>
    obtain ⟨n, e⟩ := e
    rw [evalElements] at h
    obtain ⟨m, hm, h⟩ := bind_eq_ok.mp h
    obtain ⟨rest, hrest, h⟩ := bind_eq_ok.mp h
    cases h
    cases index with
    | zero =>
      cases hindex
      exact ⟨m, rfl, hm⟩
    | succ index => exact ih hrest hindex

theorem elementOfStruct?_keepsResult {t t' : Term} (ht : t.Typed Γ)
    (h : t.elementOfStruct? = some t') : KeepsResult Γ t t' := by
  unfold elementOfStruct? at h
  split at h
  · rename_i es index
    obtain ⟨⟨label, e⟩, hindex, rfl⟩ := Option.map_eq_some_iff.mp h
    simp only [Typed] at ht
    obtain ⟨hes, type, htype⟩ := ht
    have hetype : type = e.type := by
      obtain ⟨types, label', hstruct, hget⟩ := Ty.element?_eq_some.mp htype
      simp only [Term.type, Ty.struct.injEq] at hstruct
      rw [← hstruct, elementTypes_eq_map, List.getElem?_map, hindex] at hget
      cases hget
      rfl
    refine ⟨⟨?_, ?_⟩, fun I env _ m hm => ?_⟩
    · exact typed_struct.mp (by simpa only [Typed] using hes) _ (List.mem_of_getElem? hindex)
    · rw [Term.type, htype, Option.getD_some, hetype]
    · simp only [eval] at hm
      obtain ⟨s, hs, hm⟩ := bind_eq_ok.mp hm
      obtain ⟨ms, hms, hs⟩ := bind_eq_ok.mp hs
      cases hs
      obtain ⟨v, hv, heval⟩ := eval_element hms hindex
      rw [Meaning.select_struct hv] at hm
      rw [heval, hm]
  · cases h

theorem identityCall_same (h : t.type.isData = true) :
    ∃ u, t.identityCall = .ok (.call (.compiled u) (some t)) ∧
      ∀ Γ, t.Typed Γ → SameMeaning Γ t (.call (.compiled u) (some t)) := by
  obtain ⟨g, hg, hbuilt, hrun⟩ := Graph.identity_spec h
  obtain ⟨u, hu, rfl⟩ := CompiledUnit.exists_ofGraph hbuilt.built
  have hp := hbuilt.parameter_eq
  have hr := hbuilt.result_eq
  refine ⟨u, ?_, fun Γ ht => ⟨⟨?_, ?_⟩, fun I env henv => ?_⟩⟩
  · have happly : (Term.compiled u).apply (some t) = .ok (.call (.compiled u) (some t)) := by
      apply apply_some (r := t.type)
      rw [type_compiled, hp, hr]
    simp only [identityCall, compiledIdentity, hg, ofGraph, hu, ok_bind, pure_eq_ok,
      Except.mapError, happly]
  · exact typed_callCompiled.mpr ⟨hbuilt.built, ht, hp⟩
  · rw [type_callCompiled, hr]
  · rw [eval_callCompiled, evalArgument]
    cases hm : eval I env t with
    | error e => rfl
    | ok m =>
      have hmtype := type_of_eval ht henv hm
      obtain ⟨v, hv⟩ := m.exists_value? (by rw [hmtype, h])
      have hvtype := Meaning.hasType_of_value? hv
      rw [hmtype] at hvtype
      rw [ok_map, ok_bind, Meaning.apply_ofGraph hbuilt.built.sound (v := some v)]
      · rw [hrun v hvtype, hr, ← hmtype]
        exact Meaning.returned_ok hv
      · rw [hp, Option.map_some, hmtype]
      · rw [Meaning.argument?, hv, Option.map_some]

/-- What becomes of a child: a data reference is passed through an identity. -/
def Wraps (Γ : Context) (t t' : Term) : Prop :=
  SameMeaning Γ t t' ∧
    if t.isDataReference then ∃ u, t' = .call (.compiled u) (some t) else t' = t

theorem wrapIfData_spec (t : Term) :
    ∃ t', wrapIfData t = .ok t' ∧ ∀ Γ, t.Typed Γ → Wraps Γ t t' := by
  cases hdata : t.isDataReference with
  | true =>
    have hboth := hdata
    rw [isDataReference, Bool.and_eq_true] at hboth
    obtain ⟨u, hok, hsame⟩ := identityCall_same hboth.2
    refine ⟨_, by rw [wrapIfData, hdata, if_pos rfl, hok], fun Γ ht => ⟨hsame Γ ht, ?_⟩⟩
    rw [hdata]
    exact ⟨u, rfl⟩
  | false =>
    refine ⟨t, by simp [wrapIfData, hdata], fun Γ ht => ⟨.refl ht, ?_⟩⟩
    rw [hdata]
    rfl

theorem overWraps_self (ht : t.Typed Γ) (hnone : t.children.any isDataReference = false) :
    Over Wraps Γ t t := by
  refine .refl (fun c hc Γ hct => ⟨.refl hct, ?_⟩) ht
  rw [List.any_eq_false] at hnone
  rw [if_neg (hnone c hc)]

/-- The children are wrapped, except for what a unit is called on. -/
theorem wrapChildren?_spec (ht : t.Typed Γ) :
    ∃ replacement, t.wrapChildren? = .ok replacement ∧
      SameMeaning Γ t (replacement.getD t) ∧
        ((∃ u a, t = .call (.compiled u) a ∧ replacement = none) ∨
          Over Wraps Γ t (replacement.getD t)) := by
  unfold wrapChildren?
  dsimp only
  split
  · exact ⟨none, rfl, .refl ht, .inl ⟨_, _, rfl, rfl⟩⟩
  · split
    · obtain ⟨parts, hparts, hall⟩ :=
        exists_mapM_eq_ok fun c (_ : c ∈ t.children) => wrapIfData_spec c
      obtain ⟨t', ht', hover⟩ := exists_withChildren (fun _ _ _ h => h.1.1.2) ht hall
      refine ⟨some t', ?_, (hover.mono fun _ _ _ h => h.1).sameMeaning ht, .inr hover⟩
      rw [hparts, ok_bind, ht']
      rfl
    · rename_i hnone
      exact ⟨none, rfl, .refl ht, .inr (overWraps_self ht (by simpa using hnone))⟩

/-- A rewrite that keeps results at every node refines the tree. -/
theorem rewriteAll_refined {rewrite : Term → Except CompileError (Option Term)}
    (hrewrite : ∀ Γ t, t.Typed Γ →
      ∃ replacement, rewrite t = .ok replacement ∧ KeepsResult Γ t (replacement.getD t))
    {t : Term} (ht : t.Typed Γ) :
    ∃ t' n, rewriteAll rewrite t = .ok (t', n) ∧ Refined Γ t t' := by
  refine rewriteAll_keeps (fun _ _ _ h => h.1.2) (fun Γ t t' ht hover => ?_) ht
  have hrefined := hover.refined ht
  obtain ⟨replacement, hok, hkeeps⟩ := hrewrite Γ t' hrefined.1.1
  exact ⟨replacement, hok, hrefined.trans_keepsResult hkeeps⟩

theorem keepsResult_getD {t : Term} (ht : t.Typed Γ) {replacement : Option Term}
    (h : ∀ t', replacement = some t' → KeepsResult Γ t t') :
    KeepsResult Γ t (replacement.getD t) := by
  cases replacement with
  | none => exact .refl ht
  | some t' => exact h t' rfl

end Term

namespace Pass

/-- A pass in front of fusion never fails on a typed term and refines it. -/
theorem run_refined {pass : Pass} (hpass : pass ≠ .fusion) {Γ : Context} {t : Term}
    (ht : t.Typed Γ) (log : CompileLog) :
    ∃ t' rewrites, Yields (pass.run t) log (t', rewrites) log ∧ t.Refined Γ t' := by
  have hlift : ∀ {r : Except CompileError (Term × Nat)},
      (∃ t' n, r = .ok (t', n) ∧ t.Refined Γ t') →
      ∃ t' n, Yields (Compile.lift r) log (t', n) log ∧ t.Refined Γ t' := by
    rintro r ⟨t', n, rfl, h⟩
    exact ⟨t', n, rfl, h⟩
  cases pass with
  | calledLambdasToBlocks =>
    refine hlift (Term.rewriteAll_refined (fun Γ t ht => ?_) ht)
    exact ⟨_, rfl, Term.keepsResult_getD ht fun t' h =>
      (Term.calledLambdaToBlock?_same ht h).keepsResult⟩
  | inlineBlocks => exact hlift (Term.inlineBlocks_refined ht)
  | selectionsFromStructs =>
    refine hlift (Term.rewriteAll_refined (fun Γ t ht => ?_) ht)
    exact ⟨_, rfl, Term.keepsResult_getD ht fun t' h => Term.elementOfStruct?_keepsResult ht h⟩
  | identitiesAtLeaves =>
    refine hlift (Term.rewriteAll_refined (fun Γ t ht => ?_) ht)
    obtain ⟨replacement, hok, hsame, -⟩ := Term.wrapChildren?_spec ht
    exact ⟨replacement, hok, hsame.keepsResult⟩
  | fusion => exact absurd rfl hpass

end Pass

end GraphFusion
