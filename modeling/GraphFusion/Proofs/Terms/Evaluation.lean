import GraphFusion.Proofs.Terms.Meaning
import GraphFusion.Proofs.Terms.Typing

/-!
Evaluation of terms by value. Children are evaluated from left to right and the
first failure ends it; a lambda is the function that evaluates its result, a
compiled unit the function that its graph computes, and intrinsics are given
from outside. A typed term evaluates to a meaning of its type, and its meaning
depends on its free names alone.
-/

namespace GraphFusion

/-- The meanings of intrinsics. -/
abbrev Interpretation := (uri : String) → (type : Ty) → type.Carrier

/-- Intrinsics of which no function gives a result. -/
def Interpretation.failing : Interpretation := fun _ type => type.zero

/-- The meanings of the names in scope. -/
abbrev Env := String → Option Meaning

/-- The environment gives every name of the context a meaning of its type. -/
def Env.Fits (env : Env) (Γ : Context) : Prop :=
  ∀ x type, Γ x = some type → ∃ m, env x = some m ∧ m.type = type

/-- The environment gives each free reference of the term a meaning of its type. -/
def Env.Gives (env : Env) (Γ : Context) (t : Term) : Prop :=
  ∀ x ∈ t.freeNames, ∃ m, env x = some m ∧ Γ x = some m.type

theorem Env.Gives.fits {env : Env} {Γ : Context} {t : Term} (h : env.Gives Γ t) :
    env.Fits (Γ.restrict t) := by
  intro x type hx
  obtain ⟨hfree, hx⟩ := Context.restrict_eq_some.mp hx
  obtain ⟨m, hm, htype⟩ := h x hfree
  exact ⟨m, hm, Option.some.inj (htype.symm.trans hx)⟩

theorem Env.fits_none (env : Env) : env.Fits fun _ => none := by
  intro x type hx
  cases hx

theorem Env.Fits.update {env : Env} {Γ : Context} (h : env.Fits Γ) {a : Option Meaning}
    {p : Option Ty} (ha : a.map (·.type) = p) (x : String) :
    Env.Fits (Function.update env x a) (Function.update Γ x p) := by
  intro y type hy
  by_cases heq : y = x
  · subst heq
    rw [Function.update_self] at hy ⊢
    subst hy
    obtain ⟨m, rfl, hm⟩ := Option.map_eq_some_iff.mp ha
    exact ⟨m, rfl, hm⟩
  · rw [Function.update_of_ne heq] at hy ⊢
    exact h y type hy

theorem Env.Fits.bind {env : Env} {Γ : Context} (h : env.Fits Γ) {m : Meaning} {type : Ty}
    (hm : m.type = type) (x : String) :
    Env.Fits (Function.update env x (some m)) (Function.update Γ x (some type)) :=
  h.update (a := some m) (congrArg some hm) x

namespace Term

mutual

/-- The meaning of a term. A lambda without a parameter hides its name. -/
def eval (I : Interpretation) (env : Env) : Term → Except Failure Meaning
  | .reference x _ =>
    match env x with
    | some m => .ok m
    | none => .error (.unbound x)
  | .lambda x p r => .ok (.function p r.type fun a => eval I (Function.update env x a) r)
  | .call f none => do
    let m ← eval I env f
    m.apply none
  | .call f (some a) => do
    let m ← eval I env f
    let v ← eval I env a
    m.apply (some v)
  | .selection s index => do
    let m ← eval I env s
    m.select index
  | .struct es => do
    let ms ← evalElements I env es
    return .struct ms
  | .block ls r => do
    let inner ← evalLocals I env ls
    eval I inner r
  | .compiled u => .ok (.ofGraph u.graph)
  | .intrinsic uri type => .ok ⟨type, I uri type⟩

def evalElements (I : Interpretation) (env : Env) :
    List (Label × Term) → Except Failure (List (Label × Meaning))
  | [] => .ok []
  | (n, t) :: es => do
    let m ← eval I env t
    let ms ← evalElements I env es
    return (n, m) :: ms

def evalLocals (I : Interpretation) (env : Env) : List (String × Term) → Except Failure Env
  | [] => .ok env
  | (x, t) :: ls => do
    let m ← eval I env t
    evalLocals I (Function.update env x (some m)) ls

end

attribute [local simp] eval evalElements evalLocals type elementTypes

section

variable {I : Interpretation} {env : Env}

theorem eval_reference {x : String} {type : Ty} {m : Meaning} (h : env x = some m) :
    eval I env (.reference x type) = .ok m := by
  simp only [eval, h]

theorem eval_struct_nil : eval I env (.struct []) = .ok (.struct []) := by
  simp only [eval, evalElements, ok_bind, pure_eq_ok]

theorem eval_struct_cons (n : Label) (t : Term) (es : List (Label × Term)) :
    eval I env (.struct ((n, t) :: es)) = (do
      let m ← eval I env t
      let s ← eval I env (.struct es)
      return .cons n m s) := by
  simp only [eval, evalElements]
  cases eval I env t with
  | error e => rfl
  | ok m =>
    cases evalElements I env es with
    | error e => rfl
    | ok ms => simp only [ok_bind, pure_eq_ok, Meaning.cons_struct]

theorem eval_block_nil (r : Term) : eval I env (.block [] r) = eval I env r := by
  simp only [eval, evalLocals, ok_bind]

theorem eval_block_cons (x : String) (t : Term) (ls : List (String × Term)) (r : Term) :
    eval I env (.block ((x, t) :: ls) r) =
      eval I env t >>= fun m => eval I (Function.update env x (some m)) (.block ls r) := by
  simp only [eval, evalLocals]
  cases eval I env t <;> rfl

end

theorem eval_congr {I : Interpretation} {t : Term} {env env' : Env}
    (h : ∀ y ∈ t.freeNames, env y = env' y) : eval I env t = eval I env' t := by
  induction t using inductFront generalizing env env' with
  | reference x type => simp only [eval, h x (mem_freeNames_reference.mpr rfl)]
  | lambda x p r ih =>
    have hbody : (fun a => eval I (Function.update env x a) r) =
        fun a => eval I (Function.update env' x a) r := by
      funext a
      exact ih (agree_update (fun y hne hy => h y (mem_freeNames_lambda.mpr ⟨hne, hy⟩)) a)
    simp only [eval, hbody]
  | thunkCall f ih => simp only [eval, ih fun y hy => h y (mem_freeNames_thunkCall.mpr hy)]
  | call f a hf ha =>
    simp only [eval, hf fun y hy => h y (mem_freeNames_call.mpr (.inl hy)),
      ha fun y hy => h y (mem_freeNames_call.mpr (.inr hy))]
  | selection s index ih =>
    simp only [eval, ih fun y hy => h y (mem_freeNames_selection.mpr hy)]
  | structNil => rw [eval_struct_nil, eval_struct_nil]
  | structCons n t es ht hes =>
    rw [eval_struct_cons, eval_struct_cons,
      ht fun y hy => h y (mem_freeNames_struct_cons.mpr (.inl hy)),
      hes fun y hy => h y (mem_freeNames_struct_cons.mpr (.inr hy))]
  | blockNil r ih =>
    rw [eval_block_nil, eval_block_nil, ih fun y hy => h y (mem_freeNames_block_nil.mpr hy)]
  | blockCons x t ls r ht hr =>
    rw [eval_block_cons, eval_block_cons,
      ht fun y hy => h y (mem_freeNames_block_cons.mpr (.inl hy))]
    congr 1
    funext m
    exact hr (agree_update (fun y hne hy => h y (mem_freeNames_block_cons.mpr (.inr ⟨hne, hy⟩))) _)
  | compiled u => simp only [eval]
  | intrinsic uri type => simp only [eval]

theorem elementTypes_eq_map (es : List (Label × Term)) :
    elementTypes es = es.map fun e => (e.1, e.2.type) := by
  induction es with
  | nil => simp only [elementTypes, List.map_nil]
  | cons e es ih => simp only [elementTypes, List.map_cons, ih]

theorem type_struct_cons (n : Label) (t : Term) (es : List (Label × Term)) :
    (Term.struct ((n, t) :: es)).type = .struct ((n, t.type) :: elementTypes es) := by
  simp only [type, elementTypes]

theorem type_block (ls : List (String × Term)) (r : Term) : (Term.block ls r).type = r.type := by
  simp only [type]

/-- A typed term evaluates to a meaning of its type. -/
theorem type_of_eval {I : Interpretation} {t : Term} {Γ : Context} {env : Env} {m : Meaning}
    (ht : t.Typed Γ) (henv : env.Fits Γ) (h : eval I env t = .ok m) : m.type = t.type := by
  induction t using inductFront generalizing Γ env m with
  | reference x type =>
    rw [Typed] at ht
    obtain ⟨v, hv, htype⟩ := henv x type ht
    rw [eval_reference hv] at h
    cases h
    rw [htype, Term.type]
  | lambda x p r ih =>
    rw [eval] at h
    cases h
    simp only [Meaning.function_type, type]
  | thunkCall f ih =>
    simp only [Typed] at ht
    obtain ⟨ht, result, hf⟩ := ht
    rw [eval] at h
    obtain ⟨v, hv, h⟩ := bind_eq_ok.mp h
    have hv' := ih ht henv hv
    rw [hf] at hv'
    simpa only [type, hf, resultType] using Meaning.type_of_apply hv' h
  | call f a hf ha =>
    simp only [Typed] at ht
    obtain ⟨ht, -, result, hftype⟩ := ht
    rw [eval] at h
    obtain ⟨v, hv, h⟩ := bind_eq_ok.mp h
    obtain ⟨w, -, h⟩ := bind_eq_ok.mp h
    have hv' := hf ht henv hv
    rw [hftype] at hv'
    simpa only [type, hftype, resultType] using Meaning.type_of_apply hv' h
  | selection s index ih =>
    simp only [Typed] at ht
    obtain ⟨ht, etype, hs⟩ := ht
    rw [eval] at h
    obtain ⟨v, hv, h⟩ := bind_eq_ok.mp h
    have hv' := ih ht henv hv
    obtain ⟨es, label, hstruct, hindex⟩ := Ty.element?_eq_some.mp hs
    rw [hstruct] at hv'
    obtain ⟨e, he, htype⟩ := Meaning.exists_select hv' hindex
    rw [he] at h
    cases h
    rw [htype, type, hs, Option.getD_some]
  | structNil =>
    rw [eval_struct_nil] at h
    cases h
    simp only [type, elementTypes]
    rfl
  | structCons n t es ht' hes =>
    rw [typed_struct_cons] at ht
    rw [eval_struct_cons] at h
    obtain ⟨v, hv, h⟩ := bind_eq_ok.mp h
    obtain ⟨s, hs, h⟩ := bind_eq_ok.mp h
    cases h
    have hs' := hes ht.2 henv hs
    rw [type] at hs'
    rw [Meaning.cons_type hs', ht' ht.1 henv hv, type_struct_cons]
  | blockNil r ih =>
    rw [eval_block_nil] at h
    rw [type_block]
    exact ih (typed_block_nil.mp ht) henv h
  | blockCons x t ls r ht' hr =>
    rw [typed_block_cons] at ht
    rw [eval_block_cons] at h
    obtain ⟨v, hv, h⟩ := bind_eq_ok.mp h
    have hfits := henv.bind (ht' ht.1 henv hv) x
    rw [hr ht.2 hfits h, type_block, type_block]
  | compiled u =>
    rw [eval] at h
    cases h
    simp only [Meaning.ofGraph_type, type, CompiledUnit.type]
  | intrinsic uri type =>
    rw [eval] at h
    cases h
    simp only [Term.type]

/-- Locals leave an environment for what stands behind them. -/
theorem fits_of_evalLocals {I : Interpretation} {ls : List (String × Term)} {Γ : Context}
    {env inner : Env} (ht : LocalsTyped Γ ls) (henv : env.Fits Γ)
    (h : evalLocals I env ls = .ok inner) : inner.Fits (Γ.extend ls) := by
  induction ls generalizing Γ env with
  | nil =>
    cases h
    exact henv
  | cons l ls ih =>
    obtain ⟨x, t⟩ := l
    rw [LocalsTyped] at ht
    rw [evalLocals] at h
    obtain ⟨m, hm, h⟩ := bind_eq_ok.mp h
    exact ih ht.2 (henv.bind (type_of_eval ht.1 henv hm) x) h

end Term

end GraphFusion
