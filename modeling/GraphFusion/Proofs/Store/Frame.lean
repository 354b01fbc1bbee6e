import GraphFusion.Proofs.Store.Alone
import GraphFusion.Proofs.Store.Archive
import GraphFusion.Proofs.Store.Footprint

/-!
What the operations of a store leave alone, whatever else stands in the root. Listing and
loading only look. A removal changes what stands under its own version. A save that succeeds
changes what stands under its version and its staging directory, and lets go what retention
does not keep; one that fails changes nothing, unless it fails because the leaves cannot be
archived: by then it has removed a staging directory left over from before.
-/

namespace GraphFusion

namespace Action

/-- Actions that change no file. -/
def looks : Action → Bool
  | report _ | present _ | isDirectory _ | directories _ | read _ => true
  | _ => false

theorem files_of_looks {action : Action} (h : action.looks = true) (w : World) :
    (action.run w).2.files = w.files := by
  cases action <;> first | rfl | cases h

end Action

namespace Script

/-- Every action of the script only looks. -/
inductive Looks {α : Type} : Script α → Prop
  | done (a : α) : Looks (.done a)
  | step {action : Action} {next : action.Answer → Script α} (h : action.looks = true)
      (hnext : ∀ answer, Looks (next answer)) : Looks (.step action next)

variable {α β : Type} {script : Script α}

theorem Looks.bind {f : α → Script β} (h : script.Looks) (hf : ∀ a, (f a).Looks) :
    (script.bind f).Looks := by
  induction h with
  | done a => exact hf a
  | step h _ ih => exact .step h ih

theorem Looks.files (h : script.Looks) (w : World) : (script.run w).2.files = w.files := by
  induction h generalizing w with
  | done a => rfl
  | step h _ ih => exact (ih _ _).trans (Action.files_of_looks h w)

end Script

namespace Store

section

variable {s : Store} {v : UInt64}

theorem looks_bind {α β : Type} {script : StoreScript α} {f : α → StoreScript β}
    (h : script.run.Looks) (hf : ∀ a, (f a).run.Looks) : (script >>= f).run.Looks := by
  refine Script.Looks.bind h fun r => ?_
  cases r with
  | ok a => exact hf a
  | error e => exact .done _

theorem looks_versions : s.versions.run.Looks := by
  rw [versions_eq]
  exact .step rfl fun _ => .done _

theorem looks_load : (s.load v).run.Looks := by
  cases htemplate : s.template with
  | none =>
    rw [load, htemplate]
    exact .done _
  | some template =>
    rw [load_eq htemplate]
    refine .step rfl fun there => ?_
    cases there with
    | false => exact .done _
    | true =>
      refine .step rfl fun answer => ?_
      cases answer with
      | error e => exact .done _
      | ok content =>
        dsimp only
        split
        · exact .done _
        · split
          · exact .done _
          · exact .step rfl fun _ => .done _

theorem looks_loadLatest : s.loadLatest.run.Looks := by
  refine looks_bind looks_versions fun found => ?_
  cases found.bind List.getLast? with
  | none => exact .done _
  | some latest => exact looks_bind looks_load fun _ => .done _

end

section

variable {s : Store} {value : Value} {v : UInt64} {view view' : String → Option Node}
  {k : Shelf} {w : World}

/-- What a save of `value` under `v` does to the root, by its result. -/
def Touches (s : Store) (value : Value) (v : UInt64) (view : String → Option Node) :
    Except StoreError Unit → (String → Option Node) → Prop
  | .ok (), view' => view' (s.config.stagingName v) = none ∧
      ∃ all : List UInt64, all.Pairwise (· < ·) ∧
        (∀ u, u ∈ all ↔ u = v ∨ ∃ es, view (s.config.versionName u) = some (.directory es)) ∧
        ∀ name, name ≠ s.config.versionName v → name ≠ s.config.stagingName v →
          (∀ u ∈ s.config.evicted all, name ≠ s.config.versionName u) → view' name = view name
  | .error e, view' => view' = view ∨
      s.Unarchivable value v e ∧ (∃ es, view (s.config.stagingName v) = some (.directory es)) ∧
        view' = Function.update view (s.config.stagingName v) none

theorem Refuses.touches {e : StoreError} (h : s.Refuses value v view e view')
    (hnames : ∀ name, view name ≠ none → Admissible name) :
    s.Touches value v view (.error e) view' := by
  have hvacant : view (s.config.stagingName v) = none →
      Function.update view (s.config.stagingName v) none = view := fun hnone => by
    rw [← hnone, Function.update_eq_self]
  cases h with
  | taken | obstructed => exact .inl rfl
  | misnamed _ _ hname => exact .inl (hvacant (by_contra fun hview => hname (hnames _ hview)))
  | @unarchivable cause _ hclear _ harchive =>
    cases hview : view (s.config.stagingName v) with
    | none => exact .inl (hvacant hview)
    | some node =>
      cases node with
      | file content => exact absurd hview (hclear content)
      | directory es => exact .inr ⟨⟨cause, harchive, rfl⟩, ⟨es, hview⟩, rfl⟩

theorem Accepts.touches {content : List UInt8} {before all : List UInt64}
    (hbefore : s.config.Lists view before) (hmem : ∀ u, u ∈ all ↔ u = v ∨ u ∈ before)
    (hall : s.config.Lists (s.publishing v view content) all) :
    s.Touches value v view (.ok ())
      (s.config.without (s.config.evicted all) (s.publishing v view content)) := by
  refine ⟨?_, all, hall.ascending, fun u => ?_, fun name hversion hstaging hevicted => ?_⟩
  · simp [StoreConfig.without, publishing]
  · rw [hmem, hbefore.mem]
  · have hkept : name ∉ (s.config.evicted all).map s.config.versionName := by
      rw [List.mem_map]
      rintro ⟨u, hu, rfl⟩
      exact hevicted u hu rfl
    rw [StoreConfig.without, if_neg hkept, publishing, Function.update_of_ne hversion,
      Function.update_of_ne hstaging]

theorem run_save_touches (h : w.Shows True k) (hfree : v ∉ k.saving) (value : Value) :
    ∃ r w' k', (s.save value v).run.run w = (r, w') ∧ w'.Shows True k' ∧
      s.Touches value v k.view r k'.view := by
  rcases accepts_or_refuses s value v k.view with ⟨content, haccepts⟩ | ⟨e, view', hrefuses⟩
  · obtain ⟨before, hbefore, -⟩ := listed_directories h.files (s := s)
    obtain ⟨all, w', hrun, hmem, hall, hshows⟩ := run_save_accepted h hfree hbefore haccepts
    exact ⟨_, w', _, hrun, hshows, Accepts.touches hbefore hmem hall⟩
  · obtain ⟨w', hrun, hshows⟩ := run_save_refused value h hfree hrefuses
    exact ⟨_, w', _, hrun, hshows, hrefuses.touches h.files.admissible⟩

theorem run_remove_touches (h : w.Shows True k) (v : UInt64) :
    ∃ r w' k', (s.remove v).run.run w = (r, w') ∧ w'.Shows True k' ∧
      ∀ name, name ≠ s.config.versionName v → k'.view name = k.view name := by
  by_cases hname : Admissible (s.config.versionName v)
  · cases hview : k.view (s.config.versionName v) with
    | none => exact ⟨_, w, k, run_remove_absent h hname hview, h, fun _ _ => rfl⟩
    | some node =>
      cases node with
      | file content => exact ⟨_, w, k, run_remove_file h hview, h, fun _ _ => rfl⟩
      | directory es =>
        obtain ⟨w', hrun, hshows⟩ := run_remove_directory h hview
        exact ⟨_, w', _, hrun, hshows, fun name hne => Function.update_of_ne hne ..⟩
  · exact ⟨_, w, k, run_remove_refused h hname, h, fun _ _ => rfl⟩

/-- In a root with arbitrary contents each operation touches only what is its own. A save
that fails leaves everything as it was, unless the leaves cannot be archived and a staging
directory of the version was left over: this directory is gone then. A save that succeeds
leaves no staging directory and changes nothing but its version and the versions that
retention lets go; a removal changes nothing but its version; listing and loading change
nothing. -/
theorem touches_own (h : w.Shows True k) (hfree : v ∉ k.saving) :
    (∀ value, ∃ r w' k', (s.save value v).run.run w = (r, w') ∧ w'.Shows True k' ∧
      s.Touches value v k.view r k'.view) ∧
    (∃ r w' k', (s.remove v).run.run w = (r, w') ∧ w'.Shows True k' ∧
      ∀ name, name ≠ s.config.versionName v → k'.view name = k.view name) ∧
    ((s.load v).run.run w).2.files = w.files ∧ (s.versions.run.run w).2.files = w.files ∧
    (s.loadLatest.run.run w).2.files = w.files :=
  ⟨run_save_touches h hfree, run_remove_touches h v, looks_load.files w, looks_versions.files w,
    looks_loadLatest.files w⟩

/-- Paths of leaves that stand side by side all begin with the path of their struct, so the
index is at least as long as the path repeated. -/
theorem le_indexLength_replicate (path : String) (t : Tensor) (index count : Nat) :
    count * path.utf8ByteSize ≤ Archive.indexLength
      (Value.elementLeavesAt path index (List.replicate count (none, .tensor t))) := by
  induction count generalizing index with
  | zero => simp
  | succ count ih =>
    have hpath : path.utf8ByteSize ≤ (Value.extendPath path none index).utf8ByteSize := by
      rw [Value.extendPath, String.utf8ByteSize_append]
      split
      · omega
      · rw [String.utf8ByteSize_append]
        omega
    have hrest := ih (index + 1)
    rw [List.replicate_succ, Value.elementLeavesAt, Value.leavesAt, List.singleton_append]
    rw [Archive.indexLength] at hrest ⊢
    rw [List.map_cons, List.sum_cons, Nat.succ_mul]
    dsimp only
    omega

/-- A struct of empty leaves under one name. -/
def crowded (name : String) (count : Nat) : Value :=
  .struct [(some name, .struct (List.replicate count (none, .tensor ⟨[0], .bool []⟩)))]

theorem ofLeaves_crowded {name : String} {count : Nat}
    (h : UInt32.size ≤ count * name.utf8ByteSize) :
    Archive.ofLeaves (crowded name count).namedLeaves = .error .indexTooLarge := by
  have hname : Value.extendPath "" (some name) 0 = name := by simp [Value.extendPath]
  have hleaves : (crowded name count).namedLeaves =
      Value.elementLeavesAt name 0 (List.replicate count (none, .tensor ⟨[0], .bool []⟩)) := by
    simp only [crowded, Value.namedLeaves, Value.leavesAt, Value.elementLeavesAt, hname,
      List.append_nil]
  have hlong := h.trans (le_indexLength_replicate name ⟨[0], .bool []⟩ 0 count)
  rw [Archive.ofLeaves_eq_error_iff, hleaves, Archive.obstacle?, if_pos hlong]

/-- A failed save may leave a trace: 9600 leaves below a name of 447400 letters do not fit
into an archive, and by then an old staging directory is gone. -/
theorem not_unchanged_of_save_error : ¬ ∀ (s : Store) (value : Value) (v : UInt64) (k : Shelf)
    (w w' : World) (e : StoreError), w.Shows True k → v ∉ k.saving →
      (s.save value v).run.run w = (.error e, w') → w'.Shows True k := by
  intro h
  let s : Store := ⟨⟨"states", "v", 0, false⟩, none⟩
  let w : World := ⟨⟨some (.directory [("v1_temp", .directory [])])⟩, [], []⟩
  let k : Shelf := ⟨fun name => w.files.entries.lookup name, []⟩
  have hview : ∀ name, k.view name = if name = "v1_temp" then some (.directory []) else none :=
    fun name => lookup_cons_ite "v1_temp" name (.directory []) []
  have hshows : w.Shows True k := by
    refine ⟨FileTree.shows_directory (by decide) (fun name hname => ?_) fun _ => rfl, rfl⟩
    rw [hview] at hname
    split at hname
    · rename_i heq
      rw [heq]
      decide
    · exact absurd rfl hname
  obtain ⟨value, harchive⟩ : ∃ value : Value,
      Archive.ofLeaves value.namedLeaves = .error .indexTooLarge := by
    refine ⟨crowded (StoreConfig.letters 447400) 9600, ofLeaves_crowded ?_⟩
    rw [StoreConfig.utf8ByteSize_letters]
    decide
  have hstaging : s.config.stagingName 1 = "v1_temp" := by decide
  have hrefuses : s.Refuses value 1 k.view
      (.archive (s.stagingPath 1 ++ "/" ++ stateFile) .indexTooLarge)
      (Function.update k.view (s.config.stagingName 1) none) :=
    .unarchivable (by decide) (fun c hc => by rw [hstaging, hview] at hc; cases hc) (by decide)
      harchive
  obtain ⟨w', hrun, hcleared⟩ := run_save_refused value hshows (List.not_mem_nil) hrefuses
  have hgone : w'.files.entries.lookup (s.config.stagingName 1) = none := by
    rw [hcleared.files.lookup]
    exact Function.update_self (s.config.stagingName 1) none k.view
  have hkept := (h s value 1 k w w' _ hshows List.not_mem_nil hrun).files.lookup
    (s.config.stagingName 1)
  rw [hgone, hstaging, hview] at hkept
  cases hkept

end

end Store

end GraphFusion
