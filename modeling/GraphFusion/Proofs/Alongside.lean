import GraphFusion.Proofs.Outcome
import Mathlib.Data.List.Forall2

/-!
Two runs side by side. They have the same outcome when both succeed, with values
that correspond, or both fail with the same error. The values of actions with a
state come with the state that they leave; what a failed action leaves behind is
of no account. A run of two actions one after the other has the same outcome as
another such run when the first actions have, and the second ones from there.
-/

namespace GraphFusion

section

variable {ε α β γ δ : Type} {R : α → β → Prop} {Q : γ → δ → Prop}

/-- Both succeed, with related values, or both fail with the same error. -/
inductive SameOutcome (R : α → β → Prop) : Except ε α → Except ε β → Prop
  | ok {a : α} {b : β} : R a b → SameOutcome R (.ok a) (.ok b)
  | error (e : ε) : SameOutcome R (.error e) (.error e)

namespace SameOutcome

variable {x : Except ε α} {y : Except ε β}

theorem refl (x : Except ε α) : SameOutcome Eq x x := by
  cases x with
  | error e => exact .error e
  | ok a => exact .ok rfl

theorem mono {R' : α → β → Prop} (h : SameOutcome R x y) (hR : ∀ a b, R a b → R' a b) :
    SameOutcome R' x y := by
  cases h with
  | ok hab => exact .ok (hR _ _ hab)
  | error e => exact .error e

theorem bind {f : α → Except ε γ} {g : β → Except ε δ} (h : SameOutcome R x y)
    (hfg : ∀ a b, R a b → SameOutcome Q (f a) (g b)) : SameOutcome Q (x >>= f) (y >>= g) := by
  cases h with
  | ok hab => exact hfg _ _ hab
  | error e => exact .error e

/-- In front of both runs stands one and the same computation. -/
theorem bind_eq {f : γ → Except ε α} {g : γ → Except ε β} (z : Except ε γ)
    (hfg : ∀ c, SameOutcome R (f c) (g c)) : SameOutcome R (z >>= f) (z >>= g) :=
  (refl z).bind fun _ _ hab => hab ▸ hfg _

theorem map {f : α → γ} {g : β → δ} (h : SameOutcome R x y)
    (hfg : ∀ a b, R a b → Q (f a) (g b)) : SameOutcome Q (x.map f) (y.map g) := by
  cases h with
  | ok hab => exact .ok (hfg _ _ hab)
  | error e => exact .error e

theorem mapError {ε' : Type} (f : ε → ε') (h : SameOutcome R x y) :
    SameOutcome R (x.mapError f) (y.mapError f) := by
  cases h with
  | ok hab => exact .ok hab
  | error e => exact .error (f e)

theorem mapM {as : List α} {bs : List β} (h : List.Forall₂ R as bs) {f : α → Except ε γ}
    {g : β → Except ε δ} (hfg : ∀ a b, R a b → SameOutcome Q (f a) (g b)) :
    SameOutcome (List.Forall₂ Q) (as.mapM f) (bs.mapM g) := by
  induction h with
  | nil =>
    rw [List.mapM_nil, List.mapM_nil]
    exact .ok .nil
  | cons hab _ ih =>
    rw [List.mapM_cons, List.mapM_cons]
    exact (hfg _ _ hab).bind fun _ _ hcd => ih.bind fun _ _ hall => .ok (.cons hcd hall)

end SameOutcome

end

section

variable {ε σ τ α β γ δ : Type}

/-- How an action run in `s` ends: with its value and the state it leaves, or with
an error. -/
def ending (action : ExceptT ε (StateM σ) α) (s : σ) : Except ε (α × σ) :=
  match action.run.run s with
  | (.ok a, s') => .ok (a, s')
  | (.error e, _) => .error e

theorem ending_of_yields {x : ExceptT ε (StateM σ) α} {s s' : σ} {a : α} (h : Yields x s a s') :
    ending x s = .ok (a, s') := by
  rw [ending, h]

theorem map_fst_ending (x : ExceptT ε (StateM σ) α) (s : σ) :
    (ending x s).map (·.1) = (x.run.run s).1 := by
  rw [ending]
  rcases x.run.run s with ⟨e | a, s'⟩ <;> rfl

theorem ending_bind (x : ExceptT ε (StateM σ) α) (f : α → ExceptT ε (StateM σ) β) (s : σ) :
    ending (x >>= f) s = (ending x s >>= fun p => ending (f p.1) p.2) := by
  simp only [ending, run_bind]
  rcases x.run.run s with ⟨e | a, s'⟩ <;> rfl

/-- Run in `s` and in `t`, the two actions have the same outcome. -/
def SameRun (Q : α × σ → β × τ → Prop) (x : ExceptT ε (StateM σ) α) (s : σ)
    (y : ExceptT ε (StateM τ) β) (t : τ) : Prop :=
  SameOutcome Q (ending x s) (ending y t)

namespace SameRun

variable {P : α × σ → β × τ → Prop} {Q : γ × σ → δ × τ → Prop} {x : ExceptT ε (StateM σ) α}
  {y : ExceptT ε (StateM τ) β} {s : σ} {t : τ}

theorem pure {a : α} {b : β} (h : P (a, s) (b, t)) :
    SameRun P (Pure.pure a : ExceptT ε (StateM σ) α) s (Pure.pure b : ExceptT ε (StateM τ) β) t :=
  .ok h

theorem mono {P' : α × σ → β × τ → Prop} (h : SameRun P x s y t)
    (hP : ∀ p q, P p q → P' p q) : SameRun P' x s y t :=
  SameOutcome.mono h hP

theorem bind {f : α → ExceptT ε (StateM σ) γ} {g : β → ExceptT ε (StateM τ) δ}
    (h : SameRun P x s y t)
    (hfg : ∀ a s b t, P (a, s) (b, t) → SameRun Q (f a) s (g b) t) :
    SameRun Q (x >>= f) s (y >>= g) t := by
  unfold SameRun
  rw [ending_bind, ending_bind]
  exact SameOutcome.bind h fun p q hpq => hfg p.1 p.2 q.1 q.2 hpq

theorem yields_bind {f : α → ExceptT ε (StateM σ) γ} {g : β → ExceptT ε (StateM τ) δ}
    {a : α} {b : β} {s' : σ} {t' : τ} (hx : Yields x s a s') (hy : Yields y t b t')
    (hfg : SameRun Q (f a) s' (g b) t') : SameRun Q (x >>= f) s (y >>= g) t := by
  unfold SameRun
  rw [ending_bind, ending_bind, ending_of_yields hx, ending_of_yields hy]
  exact hfg

/-- Computations that leave the state alone. -/
theorem mk_pure {R : α → β → Prop} {r : Except ε α} {r' : Except ε β} (h : SameOutcome R r r') :
    SameRun (fun p q => R p.1 q.1 ∧ p.2 = s ∧ q.2 = t)
      (ExceptT.mk (Pure.pure r) : ExceptT ε (StateM σ) α) s
      (ExceptT.mk (Pure.pure r') : ExceptT ε (StateM τ) β) t := by
  cases h with
  | ok hab => exact .ok ⟨hab, rfl, rfl⟩
  | error e => exact .error e

theorem modify {f : σ → σ} {g : τ → τ} :
    SameRun (fun p q => p.2 = f s ∧ q.2 = g t)
      (modify f : ExceptT ε (StateM σ) PUnit) s (modify g : ExceptT ε (StateM τ) PUnit) t :=
  .ok ⟨rfl, rfl⟩

end SameRun

end

end GraphFusion
