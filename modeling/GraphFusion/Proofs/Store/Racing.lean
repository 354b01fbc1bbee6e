import GraphFusion.Proofs.Store.Batches
import GraphFusion.Proofs.Store.Crash
import GraphFusion.Proofs.Store.Locking

/-!
Threads that save different values under one version. While one of them holds the version
nobody else touches the root, so it acts as if it were alone, and what it leaves is what
the ledger tells. The saves therefore come to the same as if they were done one after
another, in the order in which they released the version; and the first of them that is
not refused is the only one that succeeds, if its version is kept.
-/

namespace GraphFusion

/-- Only a release ends a save. -/
theorem Store.Move.ended {s : Store} {value : Value} {v : UInt64} {k k' : Shelf} {p p' : Phase}
    (h : s.Move value v k p k' p') (hp' : p'.holds = false) : ∃ r, p' = .finished r := by
  cases h with
  | release result => exact ⟨result, rfl⟩
  | _ => cases hp'

theorem Phase.ne_finished_of_holds {p : Phase} (h : p.holds = true) (r : Except StoreError Unit) :
    p ≠ .finished r := by
  rintro rfl
  cases h

namespace Ledger

theorem replies_append (l : Ledger) (calls rest : List Call) :
    l.replies (calls ++ rest) = l.replies calls ++ (l.after calls).replies rest := by
  induction calls generalizing l with
  | nil => rfl
  | cons call calls ih => exact congrArg (_ :: ·) (ih _)

variable {ι : Type} {l : Ledger} {value : ι → Value} {v : UInt64} {k k' : Shelf} {g : ι → Phase}
  {i : ι} {p' : Phase} {served : List (ι × Except StoreError Unit)} {saved : Table}
  {view : String → Option Node}

/-- The saves of the given threads, one after another. -/
def savesOf (value : ι → Value) (v : UInt64) (threads : List ι) : List Call :=
  threads.map fun i => .save (value i) v

/-- What is known while threads save under one version. Those of `served` have ended, with the
answers that the ledger gives them in this order, and then the root was as `view` tells. It
is still so, but for what the one thread has done that holds the version, if there is one. -/
structure Serial (l : Ledger) (value : ι → Value) (v : UInt64) (k : Shelf) (g : ι → Phase)
    (served : List (ι × Except StoreError Unit)) (saved : Table) (view : String → Option Node) :
    Prop where
  finished_iff : ∀ i r, g i = .finished r ↔ (i, r) ∈ served
  nodup : (served.map (·.1)).Nodup
  replies : l.replies (savesOf value v (served.map (·.1))) = served.map fun p => .done p.2
  after : l.after (savesOf value v (served.map (·.1))) = { l with saved }
  holds : l.config.Holds saved view
  tidy : l.config.Tidy (fun _ => False) view
  idle : (∀ i, (g i).holds = false) → k.view = view
  alone : ∀ i, (g i).holds = true → Store.Alone ⟨l.config, l.template⟩ (value i) v view
    (saved.insert v (value i).leaves).keys k (g i)

theorem serial_start (hholds : l.config.Holds l.saved view)
    (htidy : l.config.Tidy (fun _ => False) view) :
    l.Serial value v ⟨view, []⟩ (fun _ => .waiting) [] l.saved view where
  finished_iff i r := by simp
  nodup := List.nodup_nil
  replies := rfl
  after := rfl
  holds := hholds
  tidy := htidy
  idle _ := rfl
  alone i h := nomatch h

/-- The thread that acts has the root to itself. -/
theorem Serial.alone_of_move (h : l.Serial value v k g served saved view)
    (hguarded : Store.Guarded ⟨l.config, l.template⟩ value (fun _ => v) k g)
    (hmove : Store.Move ⟨l.config, l.template⟩ (value i) v k (g i) k' p') :
    (∀ j, j ≠ i → (g j).holds = false) ∧ (∀ r, g i ≠ .finished r) ∧
      Store.Alone ⟨l.config, l.template⟩ (value i) v view
        (saved.insert v (value i).leaves).keys k (g i) := by
  have hinside : (g i).holds = true → (∀ j, j ≠ i → (g j).holds = false) ∧
      (∀ r, g i ≠ .finished r) ∧ Store.Alone ⟨l.config, l.template⟩ (value i) v view
        (saved.insert v (value i).leaves).keys k (g i) := by
    intro hi
    refine ⟨fun j hj => ?_, Phase.ne_finished_of_holds hi, h.alone i hi⟩
    by_contra hholds
    exact hj (hguarded.unique (Bool.not_eq_false _ ▸ hholds) hi rfl)
  rcases hmove.lock with ⟨hi, -, hfree, -⟩ | ⟨hi, -⟩ | ⟨hi, -⟩
  · have hnobody : ∀ j, (g j).holds = false := by
      intro j
      by_contra hholds
      exact hfree ((hguarded.mem_saving v).mpr ⟨j, Bool.not_eq_false _ ▸ hholds, rfl⟩)
    refine ⟨fun j _ => hnobody j, fun r hr => ?_, ?_⟩
    · rw [hi] at hr
      cases hr
    · rw [hi]
      exact h.idle hnobody
  · exact hinside hi
  · exact hinside hi

/-- When all have ended, they were served one after another. -/
theorem Serial.ended {results : ι → Except StoreError Unit}
    (h : l.Serial value v k g served saved view)
    (hguarded : Store.Guarded ⟨l.config, l.template⟩ value (fun _ => v) k g)
    (hended : ∀ i, g i = .finished (results i)) :
    k.saving = [] ∧ k.view = view ∧ ∃ order : List ι, order.Nodup ∧ (∀ i, i ∈ order) ∧
      l.replies (savesOf value v order) = order.map (fun i => .done (results i)) ∧
      l.after (savesOf value v order) = { l with saved } := by
  have hnobody : ∀ i, (g i).holds = false := fun i => by
    rw [hended]
    rfl
  have hresults : ∀ p ∈ served, p.2 = results p.1 := by
    intro p hp
    have hfinished := (h.finished_iff p.1 p.2).mpr hp
    rw [hended] at hfinished
    exact (Phase.finished.inj hfinished).symm
  refine ⟨List.eq_nil_iff_forall_not_mem.mpr fun u hu => ?_, h.idle hnobody,
    served.map (·.1), h.nodup, fun i => ?_, ?_, h.after⟩
  · obtain ⟨i, hi, -⟩ := (hguarded.mem_saving u).mp hu
    rw [hnobody] at hi
    cases hi
  · exact List.mem_map.mpr ⟨_, (h.finished_iff i (results i)).mp (hended i), rfl⟩
  · rw [h.replies, List.map_map]
    exact List.map_congr_left fun p hp => congrArg Reply.done (hresults p hp)

variable [DecidableEq ι]

/-- A thread that goes on changes nothing of what the others have been answered. -/
theorem Serial.go_on (h : l.Serial value v k g served saved view)
    (hothers : ∀ j, j ≠ i → (g j).holds = false) (hrunning : ∀ r, g i ≠ .finished r)
    (hp' : p'.holds = true) (halone : Store.Alone ⟨l.config, l.template⟩ (value i) v view
      (saved.insert v (value i).leaves).keys k' p') :
    l.Serial value v k' (Function.update g i p') served saved view where
  finished_iff j r := by
    rw [← h.finished_iff]
    by_cases hj : j = i
    · subst hj
      rw [Function.update_self]
      exact iff_of_false (Phase.ne_finished_of_holds hp' r) (hrunning r)
    · rw [Function.update_of_ne hj]
  nodup := h.nodup
  replies := h.replies
  after := h.after
  holds := h.holds
  tidy := h.tidy
  idle hnobody := by
    have hi := hnobody i
    rw [Function.update_self, hp'] at hi
    cases hi
  alone j hj := by
    by_cases hji : j = i
    · subst hji
      rw [Function.update_self]
      exact halone
    · rw [Function.update_of_ne hji, hothers j hji] at hj
      cases hj

/-- A thread that ends is served next. -/
theorem Serial.serve {r : Except StoreError Unit} (h : l.Serial value v k g served saved view)
    (hothers : ∀ j, j ≠ i → (g j).holds = false) (hrunning : ∀ r, g i ≠ .finished r)
    (hvalue : ∀ t ∈ (value i).leaves, t.WellFormed)
    (halone : Store.Alone ⟨l.config, l.template⟩ (value i) v view
      (saved.insert v (value i).leaves).keys k' (.finished r)) :
    l.Serial value v k' (Function.update g i (.finished r)) (served ++ [(i, r)])
      (save { l with saved } (value i) v).2.saved k'.view := by
  obtain ⟨hresult, hholds, htidy, -⟩ :=
    save_of_alone (l := { l with saved }) h.holds h.tidy hvalue halone
  rw [save_config] at hholds
  have hthreads : savesOf value v ((served ++ [(i, r)]).map (·.1)) =
      savesOf value v (served.map (·.1)) ++ [.save (value i) v] := by
    rw [List.map_append, savesOf, List.map_append]
    rfl
  refine ⟨fun j r' => ?_, ?_, ?_, ?_, hholds, htidy, fun _ => rfl, fun j hj => ?_⟩
  · rw [List.mem_append, ← h.finished_iff, List.mem_singleton]
    by_cases hj : j = i
    · subst hj
      rw [Function.update_self]
      simp [hrunning, eq_comm]
    · rw [Function.update_of_ne hj]
      simp [hj]
  · rw [List.map_append, List.nodup_append]
    refine ⟨h.nodup, List.nodup_singleton i, fun j hj j' hj' hsame => ?_⟩
    obtain ⟨p, hp, rfl⟩ := List.mem_map.mp hj
    obtain rfl := List.mem_singleton.mp hj'
    exact hrunning p.2 (hsame ▸ (h.finished_iff p.1 p.2).mpr hp)
  · rw [hthreads, replies_append, h.replies, h.after, List.map_append, hresult]
    rfl
  · rw [hthreads, after_append, h.after]
    exact save_config _ _ _
  · by_cases hji : j = i
    · subst hji
      rw [Function.update_self] at hj
      cases hj
    · rw [Function.update_of_ne hji, hothers j hji] at hj
      cases hj

/-- What is known of all threads together. -/
def Served (l : Ledger) (value : ι → Value) (v : UInt64) (k : Shelf) (g : ι → Phase) : Prop :=
  Store.Guarded ⟨l.config, l.template⟩ value (fun _ => v) k g ∧
    ∃ served saved view, l.Serial value v k g served saved view

theorem Served.move (hvalue : ∀ i, ∀ t ∈ (value i).leaves, t.WellFormed)
    (h : l.Served value v k g)
    (hmove : Store.Move ⟨l.config, l.template⟩ (value i) v k (g i) k' p') :
    l.Served value v k' (Function.update g i p') := by
  obtain ⟨hguarded, served, saved, view, hserial⟩ := h
  obtain ⟨hothers, hrunning, halone⟩ := hserial.alone_of_move hguarded hmove
  have halone' := hmove.alone (lists_publishing (l := { l with saved }) hserial.holds (hvalue i))
    (hguarded.fits i) halone
  refine ⟨hguarded.move hmove, ?_⟩
  cases hp' : p'.holds with
  | true => exact ⟨served, saved, view, hserial.go_on hothers hrunning hp' halone'⟩
  | false =>
    obtain ⟨r, rfl⟩ := hmove.ended hp'
    exact ⟨_, _, _, hserial.serve hothers hrunning (hvalue i) halone'⟩

/-- Threads that save under one version come to an end from wherever they are, and they have
then been served one after another. -/
theorem Describes.serve {σ : Session} (h : l.Describes (fun _ => False) σ)
    (hvalue : ∀ i, ∀ t ∈ (value i).leaves, t.WellFormed)
    {t : Threads ι (Except StoreError Unit)}
    (hreaches : (σ.store.saveEach value (fun _ => v) σ.world).Reaches t) :
    (∃ t', Threads.Step t t') ∨ ∃ results, t.Ended results ∧ t.world.saving = [] ∧
      (∀ u, t.world.files.present [l.config.stagingName u] = false) ∧
      ∃ order : List ι, order.Nodup ∧ (∀ i, i ∈ order) ∧
        l.replies (savesOf value v order) = order.map (fun i => .done (results i)) ∧
        (l.after (savesOf value v order)).Describes (fun _ => False) ⟨σ.store, t.world⟩ := by
  obtain ⟨s, w⟩ := σ
  obtain ⟨hstore, hroot, hstem, view, hshows, hholds, htidy⟩ := h
  obtain rfl : s = _ := hstore
  have hkeeps : Machine.KeepsAll
      (fun i => Store.saver ⟨l.config, l.template⟩ (value i) v) (l.Served value v) :=
    ⟨fun h => h.1.fits, Served.move hvalue⟩
  have hstart : l.Served value v ⟨view, []⟩ fun _ => .waiting :=
    ⟨Store.guarded_start rfl, _, _, _, serial_start hholds htidy⟩
  have hfollow := (Store.saveEach_follow hshows hstart).reaches hkeeps hreaches
  rcases hfollow.ended_or_step hkeeps fun k g i h => h.1.awake with ⟨results, hended⟩ | hstep
  · obtain ⟨k, g, hworld, ⟨hguarded, served, saved, view', hserial⟩, hfinished⟩ :=
      hfollow.ended hended
    obtain ⟨hsaving, hview, order, hnodup, hall, hreplies, hafter⟩ :=
      hserial.ended hguarded hfinished
    have hidle : World.Shows True ⟨view', []⟩ t.world :=
      ⟨hview ▸ hworld.files, hworld.saving.trans hsaving⟩
    have hserved : Describes { l with saved } (fun _ => False) ⟨⟨l.config, l.template⟩, t.world⟩ :=
      ⟨rfl, hroot, hstem, view', hidle, hserial.holds, hserial.tidy⟩
    exact .inr ⟨results, hended, hidle.saving, fun u => hserved.present_stagingName id, order,
      hnodup, hall, hreplies, hafter ▸ hserved⟩
  · exact .inl hstep

section

variable {threads : List ι} {results : ι → Except StoreError Unit}

omit [DecidableEq ι]

end

end Ledger

end GraphFusion
