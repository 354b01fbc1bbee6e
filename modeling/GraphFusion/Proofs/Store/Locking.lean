import GraphFusion.Proofs.Store.Saving

/-!
Threads that each save a value through one store. A version that is being saved is held
by exactly one of them, so what this thread has found and prepared stays as it is while
the others act; and if a thread waits, there is another that can act.
-/

namespace GraphFusion

namespace Store

/-- The threads that each save one value. -/
def saveEach {ι : Type} (s : Store) (value : ι → Value) (version : ι → UInt64) (w : World) :
    Threads ι (Except StoreError Unit) :=
  ⟨w, fun i => (s.save (value i) (version i)).run⟩

/-- What each thread relies on, and who holds the versions that are being saved. -/
structure Guarded {ι : Type} (s : Store) (value : ι → Value) (version : ι → UInt64) (k : Shelf)
    (g : ι → Phase) : Prop where
  fits : ∀ i, s.Fits (value i) (version i) k (g i)
  mem_saving : ∀ u, u ∈ k.saving ↔ ∃ i, (g i).holds = true ∧ version i = u
  unique : ∀ {i j}, (g i).holds = true → (g j).holds = true → version i = version j → i = j

variable {ι : Type} {s : Store} {value : ι → Value} {version : ι → UInt64} {k k' : Shelf}
  {g : ι → Phase} {i : ι} {p' : Phase}

theorem fits_of_not_holds {value : Value} {v : UInt64} {p : Phase} (h : p.holds = false) :
    s.Fits value v k p := by
  cases p <;> trivial

theorem guarded_start (hfree : k.saving = []) : s.Guarded value version k fun _ => .waiting where
  fits _ := trivial
  mem_saving u := by simp [hfree, Phase.holds]
  unique h := by cases h

theorem saveEach_follow {rooted : Prop} {w : World} {inv : Shelf → (ι → Phase) → Prop}
    (hshows : w.Shows rooted k) (hinv : inv k fun _ => .waiting) :
    (s.saveEach value version w).Follow (World.Shows rooted)
      (fun i => s.saver (value i) (version i)) (fun _ r p => p = .finished r) inv :=
  ⟨k, _, hshows, hinv, fun _ => saves_save _ _ _⟩

/-- A thread that waits does so for another that can act. -/
theorem Guarded.awake (h : s.Guarded value version k g)
    (hwaits : (s.saver (value i) (version i)).waits k (g i)) :
    ∃ j, ¬ (s.saver (value j) (version j)).waits k (g j) ∧ ∀ r, g j ≠ .finished r := by
  obtain ⟨j, hholds, -⟩ := (h.mem_saving _).mp hwaits.2
  refine ⟨j, fun hj => ?_, fun r hj => ?_⟩
  · rw [hj.1] at hholds
    cases hholds
  · rw [hj] at hholds
    cases hholds

variable [DecidableEq ι]

theorem Guarded.move (h : s.Guarded value version k g)
    (hmove : s.Move (value i) (version i) k (g i) k' p') :
    s.Guarded value version k' (Function.update g i p') := by
  -- another thread that holds a version holds another version
  have hother : ∀ j, j ≠ i → (g j).holds = true → version j ≠ version i := by
    intro j hj hholds hsame
    rcases hmove.lock with ⟨-, -, hfree, -⟩ | ⟨hi, -⟩ | ⟨hi, -⟩
    · exact hfree ((h.mem_saving _).mpr ⟨j, hholds, hsame⟩)
    · exact hj (h.unique hholds hi hsame)
    · exact hj (h.unique hholds hi hsame)
  refine ⟨fun j => ?_, fun u => ?_, fun {j j'} hj hj' hsame => ?_⟩
  · by_cases hj : j = i
    · subst hj
      rw [Function.update_self]
      exact hmove.fits (h.fits j)
    · rw [Function.update_of_ne hj]
      cases hholds : (g j).holds with
      | false => exact fits_of_not_holds hholds
      | true => exact hmove.fits_other (hother j hj hholds) (h.fits j)
  · have hthreads : (∃ j, (Function.update g i p' j).holds = true ∧ version j = u) ↔
        (p'.holds = true ∧ version i = u) ∨ (u ≠ version i ∧ u ∈ k.saving) := by
      rw [h.mem_saving]
      constructor
      · rintro ⟨j, hholds, rfl⟩
        by_cases hj : j = i
        · subst hj
          rw [Function.update_self] at hholds
          exact .inl ⟨hholds, rfl⟩
        · rw [Function.update_of_ne hj] at hholds
          exact .inr ⟨hother j hj hholds, j, hholds, rfl⟩
      · rintro (⟨hholds, rfl⟩ | ⟨hne, j, hholds, rfl⟩)
        · exact ⟨i, by rwa [Function.update_self], rfl⟩
        · have hj : j ≠ i := fun hj => hne (by rw [hj])
          exact ⟨j, by rwa [Function.update_of_ne hj], rfl⟩
    rw [hthreads]
    rcases hmove.lock with ⟨-, rfl, -, hlock⟩ | ⟨hi, hp', hlock⟩ | ⟨-, hp', hlock⟩
    · rw [hlock, List.mem_cons]
      by_cases hu : u = version i
      · simp [hu, Phase.holds]
      · simp [hu, Ne.symm hu]
    · have hmem : version i ∈ k.saving := (h.mem_saving _).mpr ⟨i, hi, rfl⟩
      rw [hlock, hp']
      by_cases hu : u = version i
      · simp [hu, hmem]
      · simp [hu, Ne.symm hu]
    · rw [hlock, hp', List.mem_filter]
      by_cases hu : u = version i <;> simp [hu]
  · by_cases hi : j = i <;> by_cases hi' : j' = i
    · rw [hi, hi']
    · rw [Function.update_of_ne hi'] at hj'
      exact absurd (hi ▸ hsame.symm) (hother j' hi' hj')
    · rw [Function.update_of_ne hi] at hj
      exact absurd (hi' ▸ hsame) (hother j hi hj)
    · rw [Function.update_of_ne hi] at hj
      rw [Function.update_of_ne hi'] at hj'
      exact h.unique hj hj' hsame

end Store

end GraphFusion
