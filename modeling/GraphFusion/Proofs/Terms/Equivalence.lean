import GraphFusion.Proofs.Terms.Calls

/-!
Terms with the same meaning: typed alike, with equal values, equal functions and
equal failures in every environment that fits. A node over children with the
same meanings has the same meaning, so a rewrite need only be justified at the
node it replaces.
-/

namespace GraphFusion

namespace Term

/-- The new term is typed as the old one and evaluates to the same outcome. -/
def SameMeaning (Γ : Context) (t t' : Term) : Prop :=
  KeepsType Γ t t' ∧ ∀ I env, env.Fits Γ → eval I env t' = eval I env t

variable {I : Interpretation} {Γ : Context}

theorem SameMeaning.refl {t : Term} (ht : t.Typed Γ) : SameMeaning Γ t t :=
  ⟨⟨ht, rfl⟩, fun _ _ _ => rfl⟩

theorem SameMeaning.trans {t t' t'' : Term} (h : SameMeaning Γ t t')
    (h' : SameMeaning Γ t' t'') : SameMeaning Γ t t'' :=
  ⟨h.1.trans h'.1, fun I env henv => (h'.2 I env henv).trans (h.2 I env henv)⟩

theorem evalElements_of_sameMeaning {es es' : List (Label × Term)} {env : Env}
    (henv : env.Fits Γ)
    (h : List.Forall₂ (fun e e' => e.1 = e'.1 ∧ SameMeaning Γ e.2 e'.2) es es') :
    evalElements I env es' = evalElements I env es := by
  induction h with
  | nil => rfl
  | @cons e e' es es' he _ ih =>
    obtain ⟨n, t⟩ := e
    obtain ⟨n', t'⟩ := e'
    obtain ⟨hn, -, heval⟩ := he
    simp only at hn heval
    simp only [evalElements, hn, heval I env henv, ih]

theorem evalLocals_of_sameMeaning {ls ls' : List (String × Term)} {env : Env}
    (ht : LocalsTyped Γ ls) (henv : env.Fits Γ) (h : OverLocals SameMeaning Γ ls ls') :
    evalLocals I env ls' = evalLocals I env ls := by
  induction h generalizing env with
  | nil => rfl
  | @cons Γ x t t' ls ls' hl _ ih =>
    rw [LocalsTyped] at ht
    simp only [evalLocals, hl.2 I env henv]
    cases hm : eval I env t with
    | error e => rfl
    | ok m =>
      simp only [ok_bind]
      exact ih ht.2 (henv.bind (type_of_eval ht.1 henv hm) x)

/-- A node over children with the same meanings has the same meaning. -/
theorem Over.sameMeaning {t t' : Term} (ht : t.Typed Γ) (h : Over SameMeaning Γ t t') :
    SameMeaning Γ t t' := by
  refine ⟨(h.mono fun _ _ _ h => h.1).keepsType ht, fun I env henv => ?_⟩
  cases h with
  | reference => rfl
  | @lambda x p r r' hr =>
    simp only [eval, hr.1.2]
    rw [Meaning.function_congr fun a ha => hr.2 I _ (henv.update ha x)]
  | thunkCall hf => simp only [eval, hf.2 I env henv]
  | call hf ha => simp only [eval, hf.2 I env henv, ha.2 I env henv]
  | selection hs => simp only [eval, hs.2 I env henv]
  | struct hes => simp only [eval, evalElements_of_sameMeaning henv hes]
  | @block ls ls' r r' hls hr =>
    simp only [Typed] at ht
    simp only [eval, evalLocals_of_sameMeaning ht.1 henv hls]
    cases hinner : evalLocals I env ls with
    | error e => rfl
    | ok inner => exact hr.2 I inner (fits_of_evalLocals ht.1 henv hinner)
  | compiled => rfl
  | intrinsic => rfl

end Term

end GraphFusion
