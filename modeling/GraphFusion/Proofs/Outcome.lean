import Mathlib.Logic.Basic

/-!
Outcomes of actions that may fail, first without a state and then with one that
outlives errors. `Yields` says that an action run in a state succeeds with a
value and leaves a state; `Ensures` says what holds of the value or of the error
in whatever state the action starts.
-/

namespace GraphFusion

section

variable {ε α β : Type}

@[simp] theorem ok_bind (a : α) (f : α → Except ε β) : (Except.ok a >>= f) = f a := rfl

@[simp] theorem error_bind (e : ε) (f : α → Except ε β) :
    ((Except.error e : Except ε α) >>= f) = .error e := rfl

@[simp] theorem pure_eq_ok (a : α) : (pure a : Except ε α) = .ok a := rfl

@[simp] theorem ok_map (f : α → β) (a : α) : (f <$> (Except.ok a : Except ε α)) = .ok (f a) := rfl

theorem bind_eq_ok {x : Except ε α} {f : α → Except ε β} {b : β} :
    (x >>= f) = .ok b ↔ ∃ a, x = .ok a ∧ f a = .ok b := by
  cases x <;> simp

theorem mapError_eq_ok {δ : Type} {x : Except ε α} {f : ε → δ} {a : α} :
    x.mapError f = .ok a ↔ x = .ok a := by
  cases x with
  | error e => exact ⟨nofun, nofun⟩
  | ok b =>
    constructor <;>
    · rintro ⟨⟩
      rfl

theorem of_exists_ok {r : Except ε (α × β)} {P : α → Prop} (h : ∃ a b, r = .ok (a, b) ∧ P a)
    {a : α} {b : β} (hr : r = .ok (a, b)) : P a := by
  obtain ⟨a', b', hr', ha⟩ := h
  rw [hr] at hr'
  cases hr'
  exact ha

theorem run_bind_id (x : ExceptT ε Id α) (f : α → ExceptT ε Id β) :
    (x >>= f).run = (x.run >>= fun a => (f a).run : Except ε β) := by
  change (match x.run with
    | .ok a => (f a).run
    | .error e => .error e : Except ε β) = _
  rcases (x.run : Except ε α) with e | a <;> rfl

theorem run_mk_pure_id (r : Except ε α) : (ExceptT.mk (pure r) : ExceptT ε Id α).run = r := rfl

end

section

variable {ε σ α β : Type}

/-- Run in `s`, the action succeeds with `a` and leaves `s'`. -/
def Yields (action : ExceptT ε (StateM σ) α) (s : σ) (a : α) (s' : σ) : Prop :=
  action.run.run s = (.ok a, s')

theorem Yields.unique {action : ExceptT ε (StateM σ) α} {s t u : σ} {a b : α}
    (h : Yields action s a t) (h' : Yields action s b u) : a = b ∧ t = u := by
  have heq : ((.ok a, t) : Except ε α × σ) = (.ok b, u) := h.symm.trans h'
  cases heq
  exact ⟨rfl, rfl⟩

theorem yields_pure {a b : α} {s s' : σ} :
    Yields (pure a : ExceptT ε (StateM σ) α) s b s' ↔ a = b ∧ s = s' := by
  constructor
  · intro h
    cases h
    exact ⟨rfl, rfl⟩
  · rintro ⟨rfl, rfl⟩
    rfl

theorem Yields.pure (a : α) (s : σ) : Yields (Pure.pure a : ExceptT ε (StateM σ) α) s a s := rfl

theorem run_bind (x : ExceptT ε (StateM σ) α) (f : α → ExceptT ε (StateM σ) β) (s : σ) :
    (x >>= f).run.run s =
      match x.run.run s with
      | (.ok a, s') => (f a).run.run s'
      | (.error e, s') => (.error e, s') := by
  simp only [ExceptT.run_bind, StateT.run_bind]
  change (match x.run.run s with
    | (r, s') => (match r with
      | .ok a => (f a).run
      | .error e => pure (.error e) : StateM σ (Except ε β)).run s') = _
  rcases x.run.run s with ⟨_ | a, s'⟩ <;> rfl

theorem yields_bind {x : ExceptT ε (StateM σ) α} {f : α → ExceptT ε (StateM σ) β}
    {s s'' : σ} {b : β} :
    Yields (x >>= f) s b s'' ↔ ∃ a s', Yields x s a s' ∧ Yields (f a) s' b s'' := by
  unfold Yields
  rw [run_bind]
  rcases x.run.run s with ⟨e | a, s'⟩
  · constructor
    · intro hf
      cases hf
    · rintro ⟨a, t, heq, -⟩
      cases heq
  · constructor
    · intro hf
      exact ⟨a, s', rfl, hf⟩
    · rintro ⟨a', t, heq, hf⟩
      cases heq
      exact hf

theorem Yields.bind {x : ExceptT ε (StateM σ) α} {f : α → ExceptT ε (StateM σ) β}
    {s s' s'' : σ} {a : α} {b : β} (hx : Yields x s a s') (hf : Yields (f a) s' b s'') :
    Yields (x >>= f) s b s'' :=
  yields_bind.mpr ⟨a, s', hx, hf⟩

theorem yields_throw {e : ε} {s s' : σ} {a : α} :
    Yields (throw e : ExceptT ε (StateM σ) α) s a s' ↔ False := by
  constructor
  · intro h
    cases h
  · exact False.elim

theorem yields_get {s s' a : σ} :
    Yields (get : ExceptT ε (StateM σ) σ) s a s' ↔ a = s ∧ s' = s := by
  constructor
  · intro h
    cases h
    exact ⟨rfl, rfl⟩
  · rintro ⟨rfl, rfl⟩
    rfl

theorem yields_mk_pure {r : Except ε α} {s s' : σ} {a : α} :
    Yields (ExceptT.mk (pure r) : ExceptT ε (StateM σ) α) s a s' ↔ r = .ok a ∧ s' = s := by
  constructor
  · intro h
    cases h
    exact ⟨rfl, rfl⟩
  · rintro ⟨rfl, rfl⟩
    rfl

theorem yields_liftM {r : Except ε α} {s s' : σ} {a : α} :
    Yields (liftM r : ExceptT ε (StateM σ) α) s a s' ↔ r = .ok a ∧ s' = s :=
  yields_mk_pure

/-- Started in any state, the action gives a value of `Q` or an error of `E`. -/
def Ensures (action : ExceptT ε (StateM σ) α) (Q : α → Prop) (E : ε → Prop) : Prop :=
  ∀ s, match (action.run.run s).1 with
    | .ok a => Q a
    | .error e => E e

theorem ensures_pure {a : α} {Q : α → Prop} {E : ε → Prop} (h : Q a) :
    Ensures (pure a : ExceptT ε (StateM σ) α) Q E := fun _ => h

theorem Ensures.bind {x : ExceptT ε (StateM σ) α} {f : α → ExceptT ε (StateM σ) β}
    {P : α → Prop} {Q : β → Prop} {E : ε → Prop} (hx : Ensures x P E)
    (hf : ∀ a, P a → Ensures (f a) Q E) : Ensures (x >>= f) Q E := by
  intro s
  have h := hx s
  rw [run_bind]
  rcases hrun : x.run.run s with ⟨e | a, s'⟩
  · rw [hrun] at h
    exact h
  · rw [hrun] at h
    exact hf a h s'

theorem Ensures.mono {x : ExceptT ε (StateM σ) α} {P Q : α → Prop} {D E : ε → Prop}
    (hx : Ensures x P D) (hQ : ∀ a, P a → Q a) (hE : ∀ e, D e → E e) : Ensures x Q E := by
  intro s
  have h := hx s
  rcases hrun : (x.run.run s).1 with e | a
  · rw [hrun] at h
    exact hE e h
  · rw [hrun] at h
    exact hQ a h

theorem Ensures.and {x : ExceptT ε (StateM σ) α} {P Q : α → Prop} {D E : ε → Prop}
    (hP : Ensures x P D) (hQ : Ensures x Q E) :
    Ensures x (fun a => P a ∧ Q a) (fun e => D e ∧ E e) := by
  intro s
  have hp := hP s
  have hq := hQ s
  rcases hrun : (x.run.run s).1 with e | a
  · rw [hrun] at hp hq
    exact ⟨hp, hq⟩
  · rw [hrun] at hp hq
    exact ⟨hp, hq⟩

/-- What holds of the value for each index holds of it for all of them. -/
theorem Ensures.of_forall {ι : Type} {x : ExceptT ε (StateM σ) α} {P : ι → α → Prop}
    {E : ε → Prop} (i : ι) (h : ∀ i, Ensures x (P i) E) : Ensures x (fun a => ∀ i, P i a) E := by
  intro s
  have hi := h i s
  have hall := fun i => h i s
  rcases hrun : (x.run.run s).1 with e | a
  · rw [hrun] at hi
    exact hi
  · simpa only [hrun] using hall

theorem ensures_mk_pure {r : Except ε α} {Q : α → Prop} {E : ε → Prop}
    (hQ : ∀ a, r = .ok a → Q a) (hE : ∀ e, r = .error e → E e) :
    Ensures (ExceptT.mk (pure r) : ExceptT ε (StateM σ) α) Q E := by
  intro s
  cases r with
  | error e => exact hE e rfl
  | ok a => exact hQ a rfl

theorem ensures_bind_ok {r : Except ε α} {a : α} (h : r = .ok a)
    {f : α → ExceptT ε (StateM σ) β} {Q : β → Prop} {E : ε → Prop} (hf : Ensures (f a) Q E) :
    Ensures ((ExceptT.mk (pure r) : ExceptT ε (StateM σ) α) >>= f) Q E := by
  subst h
  intro s
  rw [run_bind]
  exact hf s

theorem ensures_modify {f : σ → σ} {E : ε → Prop} :
    Ensures (modify f : ExceptT ε (StateM σ) PUnit) (fun _ => True) E := fun _ => trivial

theorem Ensures.of_yields {x : ExceptT ε (StateM σ) α} {Q : α → Prop} {E : ε → Prop}
    (hx : Ensures x Q E) {s s' : σ} {a : α} (h : Yields x s a s') : Q a := by
  have hs := hx s
  rw [h] at hs
  exact hs

/-- An action without errors succeeds in every state. -/
theorem Ensures.exists_yields {x : ExceptT ε (StateM σ) α} {Q : α → Prop}
    (hx : Ensures x Q fun _ => False) (s : σ) : ∃ a s', Yields x s a s' ∧ Q a := by
  have h := hx s
  rcases hrun : x.run.run s with ⟨e | a, s'⟩
  · rw [hrun] at h
    exact h.elim
  · rw [hrun] at h
    exact ⟨a, s', hrun, h⟩

end

end GraphFusion
