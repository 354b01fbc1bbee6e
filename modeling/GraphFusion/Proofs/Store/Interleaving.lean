import GraphFusion.Store.Script
import Mathlib.Logic.Hydra
import Mathlib.Tactic.Abel
import Mathlib.Data.Fintype.Basic
import Mathlib.Order.WellFounded

/-!
Scripts that are stopped before their end, and scripts that take turns. A script
is described by a machine: each of its actions is a move, which changes an
abstract state of the world and the phase in which the script is. What the moves
preserve then holds in every world that a script leaves when it is stopped, and in
every world that several scripts reach, in whichever order they act.
-/

namespace GraphFusion

/-- What a stopped write leaves behind: any bytes may be in the file. -/
inductive Action.Tears : Action → World → World → Prop
  | write {path : Path} {content : List UInt8} {w : World} {files : FileTree}
      (part : List UInt8) (h : w.files.write path part = .ok files) :
      Tears (.write path content) w { w with files }

/-- Actions that never wait and happen as a whole or not at all. -/
def Action.plain : Action → Bool
  | .acquire _ | .write .. => false
  | _ => true

namespace Action

variable {action : Action}

theorem ready_of_plain (h : action.plain = true) (w : World) : action.ready w = true := by
  cases action with
  | acquire _ | write _ _ => cases h
  | _ => rfl

theorem not_tears_of_plain (h : action.plain = true) (w w' : World) : ¬ action.Tears w w' := by
  rintro ⟨⟩
  cases h

end Action

/-- How one thread moves between phases `γ` on an abstract state `κ` of the world. -/
structure Machine (κ γ : Type) where
  /-- What a thread relies on in a phase. -/
  fits : κ → γ → Prop
  /-- Whether the thread has to wait. -/
  waits : κ → γ → Prop
  moves : κ → γ → κ → γ → Prop

namespace Machine

variable {κ γ ι : Type}

/-- A move, or none where an action changes nothing that matters. -/
inductive Leads (m : Machine κ γ) (k : κ) (p : γ) : κ → γ → Prop
  | stay : Leads m k p k p
  | move {k' : κ} {p' : γ} (h : m.moves k p k' p') : Leads m k p k' p'

/-- An invariant of a thread that runs alone. -/
structure Keeps (m : Machine κ γ) (inv : κ → γ → Prop) : Prop where
  fits : ∀ {k p}, inv k p → m.fits k p
  awake : ∀ {k p}, inv k p → ¬ m.waits k p
  moves : ∀ {k p k' p'}, inv k p → m.moves k p k' p' → inv k' p'

/-- An invariant of threads that take turns. -/
structure KeepsAll [DecidableEq ι] (m : ι → Machine κ γ) (inv : κ → (ι → γ) → Prop) : Prop where
  fits : ∀ {k g}, inv k g → ∀ i, (m i).fits k (g i)
  moves : ∀ {k g} {i : ι} {k' p'}, inv k g → (m i).moves k (g i) k' p' →
    inv k' (Function.update g i p')

theorem Keeps.leads {m : Machine κ γ} {inv : κ → γ → Prop} (h : m.Keeps inv) {k k' : κ} {p p' : γ}
    (hinv : inv k p) (hleads : m.Leads k p k' p') : inv k' p' := by
  rcases hleads with _ | hmove
  · exact hinv
  · exact h.moves hinv hmove

theorem KeepsAll.leads [DecidableEq ι] {m : ι → Machine κ γ} {inv : κ → (ι → γ) → Prop}
    (h : KeepsAll m inv) {k k' : κ} {g : ι → γ} {i : ι} {p' : γ} (hinv : inv k g)
    (hleads : (m i).Leads k (g i) k' p') : inv k' (Function.update g i p') := by
  rcases hleads with _ | hmove
  · rw [Function.update_eq_self]
    exact hinv
  · exact h.moves hinv hmove

end Machine

namespace Script

variable {κ γ α β : Type}

/-- The worlds in which a script may have been stopped. -/
inductive Stops : Script α → World → World → Prop
  | here {script : Script α} {w : World} : Stops script w w
  | torn {action : Action} {next : action.Answer → Script α} {w w' : World}
      (h : action.Tears w w') : Stops (step action next) w w'
  | act {action : Action} {next : action.Answer → Script α} {w w' : World}
      (hready : action.ready w = true) (h : Stops (next (action.run w).1) (action.run w).2 w') :
      Stops (step action next) w w'

/-- Starting in phase `p`, every action of the script is a move of the machine
between states that the worlds show, and the script ends with a result and a phase
that satisfy `post`. -/
def Follows (shows : κ → World → Prop) (m : Machine κ γ) (post : α → γ → Prop) :
    Script α → γ → Prop
  | done a, p => post a p
  | step action next, p => ∀ k w, shows k w → m.fits k p →
      (action.ready w = false → m.waits k p) ∧
      (∀ w', action.Tears w w' → ∃ k' p', m.moves k p k' p' ∧ shows k' w') ∧
      (action.ready w = true → ∃ k' p', m.Leads k p k' p' ∧ shows k' (action.run w).2 ∧
        Follows shows m post (next (action.run w).1) p')

section

variable {shows : κ → World → Prop} {m : Machine κ γ} {post : α → γ → Prop} {script : Script α}
  {p : γ}

theorem follows_plain {action : Action} {next : action.Answer → Script α}
    (hplain : action.plain = true)
    (h : ∀ k w, shows k w → m.fits k p → ∃ k' p', m.Leads k p k' p' ∧
      shows k' (action.run w).2 ∧ (next (action.run w).1).Follows shows m post p') :
    (step action next).Follows shows m post p := by
  refine fun k w hshows hfits =>
    ⟨fun hready => ?_, fun w' htears => ?_, fun _ => h k w hshows hfits⟩
  · rw [Action.ready_of_plain hplain] at hready
    cases hready
  · exact absurd htears (Action.not_tears_of_plain hplain w w')

theorem Follows.bind {post' : β → γ → Prop} {f : α → Script β} (h : script.Follows shows m post p)
    (hf : ∀ a p', post a p' → (f a).Follows shows m post' p') :
    (script.bind f).Follows shows m post' p := by
  induction script generalizing p with
  | done a => exact hf a p h
  | step action next ih =>
    refine fun k w hshows hfits => ?_
    obtain ⟨hwaits, htears, hact⟩ := h k w hshows hfits
    refine ⟨hwaits, htears, fun hready => ?_⟩
    obtain ⟨k', p', hleads, hshows', hnext⟩ := hact hready
    exact ⟨k', p', hleads, hshows', ih _ hnext⟩

/-- A script that runs alone comes to its end, and the invariant holds there. -/
theorem Follows.run {inv : κ → γ → Prop} (hkeeps : m.Keeps inv) {k : κ} {w : World}
    (h : script.Follows shows m post p) (hshows : shows k w) (hinv : inv k p) :
    ∃ k' p', shows k' (script.run w).2 ∧ inv k' p' ∧ post (script.run w).1 p' := by
  induction script generalizing p k w with
  | done a => exact ⟨k, p, hshows, hinv, h⟩
  | step action next ih =>
    obtain ⟨hwaits, -, hact⟩ := h k w hshows (hkeeps.fits hinv)
    have hready : action.ready w = true := by
      by_contra hnot
      exact hkeeps.awake hinv (hwaits (Bool.not_eq_true _ ▸ hnot))
    obtain ⟨k', p', hleads, hshows', hnext⟩ := hact hready
    exact ih _ hnext hshows' (hkeeps.leads hinv hleads)

end

/-- `After s' s`: one action of `s` is done and `s'` is left to do. -/
inductive After : Script α → Script α → Prop
  | act {action : Action} {next : action.Answer → Script α} (answer : action.Answer) :
      After (next answer) (step action next)

end Script

/-- Scripts that act on one world in turns. -/
structure Threads (ι α : Type) where
  world : World
  scripts : ι → Script α

namespace Threads

variable {κ γ ι α : Type} [DecidableEq ι]

/-- Some thread whose next action is ready acts. -/
inductive Step : Threads ι α → Threads ι α → Prop
  | act {t : Threads ι α} (i : ι) {action : Action} {next : action.Answer → Script α}
      (hscript : t.scripts i = .step action next) (hready : action.ready t.world = true) :
      Step t ⟨(action.run t.world).2,
        Function.update t.scripts i (next (action.run t.world).1)⟩

/-- Any number of actions, by any threads. -/
abbrev Reaches : Threads ι α → Threads ι α → Prop := Relation.ReflTransGen Step

/-- All threads have come to their ends, with the given results. -/
def Ended (t : Threads ι α) (results : ι → α) : Prop := ∀ i, t.scripts i = .done (results i)

/-- Each thread follows its machine, from phases that satisfy the invariant. -/
def Follow (shows : κ → World → Prop) (m : ι → Machine κ γ) (post : ι → α → γ → Prop)
    (inv : κ → (ι → γ) → Prop) (t : Threads ι α) : Prop :=
  ∃ k g, shows k t.world ∧ inv k g ∧ ∀ i, (t.scripts i).Follows shows (m i) (post i) (g i)

section

variable {m : ι → Machine κ γ} {shows : κ → World → Prop} {post : ι → α → γ → Prop}
  {inv : κ → (ι → γ) → Prop} {t t' : Threads ι α}

theorem Follow.step (hkeeps : Machine.KeepsAll m inv)
    (h : t.Follow shows m post inv) (hstep : Step t t') : t'.Follow shows m post inv := by
  obtain ⟨k, g, hworld, hinv, hfollows⟩ := h
  obtain ⟨i, hscript, hready⟩ := hstep
  have hi := hfollows i
  rw [hscript] at hi
  obtain ⟨-, -, hact⟩ := hi k _ hworld (hkeeps.fits hinv i)
  obtain ⟨k', p', hleads, hworld', hnext⟩ := hact hready
  refine ⟨k', _, hworld', hkeeps.leads hinv hleads, fun j => ?_⟩
  by_cases hj : j = i
  · subst hj
    simp only [Function.update_self]
    exact hnext
  · simp only [Function.update_of_ne hj]
    exact hfollows j

theorem Follow.reaches (hkeeps : Machine.KeepsAll m inv)
    (h : t.Follow shows m post inv) (hreaches : Reaches t t') : t'.Follow shows m post inv := by
  induction hreaches with
  | refl => exact h
  | tail _ hstep ih => exact ih.step hkeeps hstep

omit [DecidableEq ι] in
/-- When all threads have ended, each is in a phase that its result tells. -/
theorem Follow.ended {results : ι → α} (h : t.Follow shows m post inv) (hended : t.Ended results) :
    ∃ k g, shows k t.world ∧ inv k g ∧ ∀ i, post i (results i) (g i) := by
  obtain ⟨k, g, hworld, hinv, hfollows⟩ := h
  refine ⟨k, g, hworld, hinv, fun i => ?_⟩
  have hi := hfollows i
  rwa [hended i] at hi

/-- Threads never all wait: if one waits, another can act. -/
theorem Follow.ended_or_step (hkeeps : Machine.KeepsAll m inv)
    (hawake : ∀ k g i, inv k g → (m i).waits k (g i) →
      ∃ j, ¬ (m j).waits k (g j) ∧ ∀ a, ¬ post j a (g j))
    (h : t.Follow shows m post inv) : (∃ results, t.Ended results) ∨ ∃ t', Step t t' := by
  obtain ⟨k, g, hworld, hinv, hfollows⟩ := h
  -- a thread that has not ended and does not wait can act
  have hact : ∀ j, ¬ (m j).waits k (g j) → (∃ a, t.scripts j = .done a) ∨ ∃ t', Step t t' := by
    intro j hwaits
    have hj := hfollows j
    cases hscript : t.scripts j with
    | done a => exact .inl ⟨a, rfl⟩
    | step action next =>
      rw [hscript] at hj
      obtain ⟨hready, -, -⟩ := hj k _ hworld (hkeeps.fits hinv j)
      by_cases hnot : action.ready t.world = true
      · exact .inr ⟨_, .act j hscript hnot⟩
      · exact absurd (hready (Bool.not_eq_true _ ▸ hnot)) hwaits
  by_cases hstep : ∃ t', Step t t'
  · exact .inr hstep
  · refine .inl ?_
    have hdone : ∀ i, ∃ a, t.scripts i = .done a := by
      intro i
      by_cases hwaits : (m i).waits k (g i)
      · obtain ⟨j, hj, hpost⟩ := hawake k g i hinv hwaits
        obtain ⟨a, ha⟩ := (hact j hj).resolve_right hstep
        have hend := hfollows j
        rw [ha] at hend
        exact absurd hend (hpost a)
      · exact (hact i hwaits).resolve_right hstep
    choose results hresults using hdone
    exact ⟨results, hresults⟩

end

theorem Step.after {t t' : Threads ι α} (h : Step t t') :
    ∃ i script, Script.After script (t.scripts i) ∧
      t'.scripts = Function.update t.scripts i script := by
  obtain ⟨i, hscript, -⟩ := h
  exact ⟨i, _, hscript ▸ .act _, rfl⟩

end Threads

end GraphFusion
