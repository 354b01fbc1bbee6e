import GraphFusion.Proofs.Lists
import GraphFusion.Proofs.Store.Files
import GraphFusion.Proofs.Store.Retention
import GraphFusion.Store.Basic
import Mathlib.Data.List.Sort

/-!
What the operations of a store other than a save answer, and what they leave, in
terms of the view of the root: which versions are listed, what a load packs into
the template, and which entry a removal takes away.
-/

namespace GraphFusion

/-- The root as names and what stands under them, and the versions being saved. -/
structure Shelf where
  view : String → Option Node
  saving : List UInt64

namespace Shelf

/-- The shelf with something else, or nothing, under a name. -/
def set (k : Shelf) (name : String) (place : Option Node) : Shelf :=
  { k with view := Function.update k.view name place }

variable {k : Shelf} {name other : String} {place : Option Node}

@[simp] theorem set_view : (k.set name place).view other =
    if other = name then place else k.view other := Function.update_apply ..

end Shelf

/-- The root of the world holds what the shelf says; it is there if `rooted`. -/
structure World.Shows (rooted : Prop) (k : Shelf) (w : World) : Prop where
  files : w.files.Shows rooted k.view
  saving : w.saving = k.saving

namespace World.Shows

variable {rooted : Prop} {k : Shelf} {w : World}

theorem withEvents (h : w.Shows rooted k) (events : List StoreEvent) :
    World.Shows rooted k { w with events } := ⟨h.files, h.saving⟩

theorem withFiles {files : FileTree} {name : String} {place : Option Node} (h : w.Shows rooted k)
    (hfiles : files.Shows rooted (Function.update k.view name place)) :
    World.Shows rooted (k.set name place) { w with files } := ⟨hfiles, h.saving⟩

end World.Shows

namespace Script

variable {α β : Type}

theorem run_bind (script : Script α) (f : α → Script β) (w : World) :
    (script.bind f).run w = (f (script.run w).1).run (script.run w).2 := by
  induction script generalizing w with
  | done a => rfl
  | step action next ih => exact ih _ _

end Script

/-- What the listing of no versions is: nothing, and not an empty list. -/
def listing (versions : List UInt64) : Option (List UInt64) :=
  if versions.isEmpty then none else some versions

theorem listing_inj {versions versions' : List UInt64} :
    listing versions = listing versions' ↔ versions = versions' := by
  cases versions <;> cases versions' <;> simp [listing]

/-- The versions, in ascending order, whose names are those of directories in the root. -/
structure StoreConfig.Lists (c : StoreConfig) (view : String → Option Node)
    (versions : List UInt64) : Prop where
  ascending : versions.Pairwise (· < ·)
  mem : ∀ v, v ∈ versions ↔ ∃ es, view (c.versionName v) = some (.directory es)

theorem StoreConfig.Lists.unique {c : StoreConfig} {view : String → Option Node}
    {versions versions' : List UInt64} (h : c.Lists view versions) (h' : c.Lists view versions') :
    versions = versions' := by
  have hperm : versions.Perm versions' :=
    (List.perm_ext_iff_of_nodup (nodup_of_ascending h.ascending)
      (nodup_of_ascending h'.ascending)).mpr fun v => (h.mem v).trans (h'.mem v).symm
  refine hperm.eq_of_pairwise (fun a b _ _ hab hba => ?_) h.ascending h'.ascending
  rw [UInt64.lt_iff_toNat_lt] at hab hba
  omega

namespace Store

theorem run_act_bind {α : Type} (action : Action) (f : action.Answer → StoreScript α) (w : World) :
    (act action >>= f).run.run w = (f (action.run w).1).run.run (action.run w).2 := rfl

theorem run_bind {α β : Type} (script : StoreScript α) (f : α → StoreScript β) (w : World) :
    (script >>= f).run.run w = match script.run.run w with
      | (.ok a, w') => (f a).run.run w'
      | (.error e, w') => (.error e, w') := by
  change Script.run (Script.bind script.run _) w = _
  rw [Script.run_bind]
  rcases script.run.run w with ⟨_ | _, _⟩ <;> rfl

variable {s : Store} {rooted : Prop} {k : Shelf} {w : World} {v : UInt64}

/-- What a listing of the root says of the versions. -/
def listed (s : Store) : Except FileError (List String) → Except StoreError (Option (List UInt64))
  | .error .missing => .ok none
  | .error e => .error (.file s.config.root e)
  | .ok names => .ok <| listing <|
      (names.filterMap s.config.versionOf?).mergeSort fun a b => decide (a ≤ b)

theorem versions_eq (s : Store) : s.versions.run =
    .step (.directories []) fun answer => .done (s.listed answer) := by
  change Script.step _ _ = _
  congr 1
  funext answer
  cases answer with
  | error e => cases e <;> rfl
  | ok names =>
    have hempty : ((names.filterMap s.config.versionOf?).mergeSort
        fun a b => decide (a ≤ b)).isEmpty = (names.filterMap s.config.versionOf?).isEmpty := by
      rw [Bool.eq_iff_iff, List.isEmpty_iff_length_eq_zero, List.length_mergeSort,
        List.isEmpty_iff_length_eq_zero]
    rw [listed, listing, hempty]
    change (if _ then _ else _ : StoreScript _).run = _
    split <;> rfl

theorem listed_entries {t : FileTree} (hroot : ∀ content, t.root ≠ some (.file content))
    (hdistinct : (t.entries.map (·.1)).Nodup) :
    ∃ versions, s.config.Lists (fun name => t.entries.lookup name) versions ∧
      s.listed (t.directories []) = .ok (listing versions) := by
  rcases FileTree.directories_root hroot with ⟨hmissing, hempty⟩ | hnames
  · refine ⟨[], ⟨List.Pairwise.nil, fun v => ?_⟩, by rw [hmissing]; rfl⟩
    simp [hempty]
  · refine ⟨_, ⟨ascending_mergeSort (StoreConfig.nodup_filterMap_versionOf?
      (nodup_directoryNames hdistinct)), fun v => ?_⟩, by rw [hnames]; rfl⟩
    rw [List.mem_mergeSort, StoreConfig.mem_filterMap_versionOf?, mem_directoryNames]
    simp only [mem_iff_lookup hdistinct]

theorem listed_directories {t : FileTree} {view : String → Option Node} (h : t.Shows rooted view) :
    ∃ versions, s.config.Lists view versions ∧
      s.listed (t.directories []) = .ok (listing versions) := by
  rw [← funext h.lookup]
  exact listed_entries h.nofile h.distinct

theorem run_versions {versions : List UInt64} (h : w.Shows rooted k)
    (hlists : s.config.Lists k.view versions) :
    s.versions.run.run w = (.ok (listing versions), w) := by
  obtain ⟨versions', hlists', hlisted⟩ := listed_directories h.files (s := s)
  rw [versions_eq, hlists.unique hlists', ← hlisted]
  rfl

theorem remove_eq (s : Store) (v : UInt64) : (s.remove v).run =
    .step (.removeDirectory [s.config.versionName v]) fun
      | .ok () => .step (.report (.removed (s.versionPath v))) fun () => .done (.ok ())
      | .error .missing => .done (.error (.versionNotFound v))
      | .error e => .done (.error (.file (s.versionPath v) e)) := rfl

theorem run_remove_directory {es : List (String × Node)} (h : w.Shows rooted k)
    (hview : k.view (s.config.versionName v) = some (.directory es)) :
    ∃ w', (s.remove v).run.run w = (.ok (), w') ∧
      w'.Shows rooted (k.set (s.config.versionName v) none) := by
  obtain ⟨files, hfiles, hshows⟩ := FileTree.removeDirectory_directory h.files hview
  refine ⟨_, ?_, (h.withFiles hshows).withEvents (w.events ++ [.removed (s.versionPath v)])⟩
  rw [remove_eq, Script.run, Action.run, hfiles]
  rfl

theorem run_remove_absent (h : w.Shows rooted k) (hname : Admissible (s.config.versionName v))
    (hview : k.view (s.config.versionName v) = none) :
    (s.remove v).run.run w = (.error (.versionNotFound v), w) := by
  rw [remove_eq, Script.run, Action.run, FileTree.removeDirectory_absent h.files hname hview]
  rfl

theorem run_remove_file {content : List UInt8} (h : w.Shows rooted k)
    (hview : k.view (s.config.versionName v) = some (.file content)) :
    (s.remove v).run.run w = (.error (.file (s.versionPath v) .notADirectory), w) := by
  rw [remove_eq, Script.run, Action.run, FileTree.removeDirectory_file h.files hview]
  rfl

theorem run_remove_refused (h : w.Shows True k)
    (hname : ¬ Admissible (s.config.versionName v)) :
    (s.remove v).run.run w = (.error (.file (s.versionPath v) .badName), w) := by
  rw [remove_eq, Script.run, Action.run, FileTree.removeDirectory_inadmissible h.files hname]
  rfl

theorem run_create {c : StoreConfig} (hroot : c.root ≠ "") (hstem : '/' ∉ c.stem.toList)
    (h : w.Shows rooted k) :
    ∃ w', (create c).run.run w = (.ok ⟨c, none⟩, w') ∧ w'.Shows True k := by
  obtain ⟨files, hfiles, hshows⟩ := FileTree.createDirectories_root h.files
  refine ⟨{ w with files }, ?_, ⟨hshows, h.saving⟩⟩
  have hcreate : (create c).run = .step (.createDirectories []) fun
      | .ok () => .done (.ok ⟨c, none⟩)
      | .error e => .done (.error (.file c.root e)) := by
    have hempty : c.root.isEmpty = false := by simpa using hroot
    have hslash : c.stem.toList.contains '/' = false := by simpa using hstem
    rw [create, hempty, hslash]
    change Script.step _ _ = _
    congr 1
    funext answer
    cases answer <;> rfl
  rw [hcreate, Script.run, Action.run, hfiles]
  rfl

/-- The file in which a version's leaves are, alone in the version's directory. -/
def holding (content : List UInt8) : Node := .directory [(stateFile, .file content)]

theorem run_load_unset (h : s.template = none) :
    (s.load v).run.run w = (.error .structureNotConfigured, w) := by
  rw [load, h]
  rfl

theorem mk_ok_bind {α β : Type} (a : α) (f : α → StoreScript β) :
    (ExceptT.mk (pure (.ok a)) >>= f : StoreScript β) = f a := rfl

theorem load_eq {template : Value} (h : s.template = some template) : (s.load v).run =
    .step (.isDirectory [s.config.versionName v]) fun
      | false => .done (.error (.versionNotFound v))
      | true => .step (.read [s.config.versionName v, stateFile]) fun
        | .error _ => .done (.error (.archive (s.versionPath v ++ "/" ++ stateFile) .file))
        | .ok content =>
          match Archive.leaves content with
          | .error e => .done (.error (.archive (s.versionPath v ++ "/" ++ stateFile) e))
          | .ok leaves =>
            match template.pack (leaves.map (·.2)) with
            | .error e => .done (.error (.structureMismatch e))
            | .ok value =>
              .step (.report (.loaded (s.versionPath v))) fun () => .done (.ok value) := by
  rw [load, h]
  change Script.step _ _ = _
  congr 1
  funext there
  cases there with
  | false => rfl
  | true =>
    change Script.step _ _ = _
    congr 1
    funext answer
    cases answer with
    | error e => rfl
    | ok content =>
      dsimp only [Script.bind, Function.comp, ExceptT.bindCont]
      cases Archive.leaves content with
      | error e => rfl
      | ok leaves =>
        simp only [Except.mapError, mk_ok_bind]
        cases template.pack (leaves.map (·.2)) <;> rfl

theorem run_load_absent {template : Value} (htemplate : s.template = some template)
    (h : w.Shows rooted k) (hview : k.view (s.config.versionName v) = none) :
    (s.load v).run.run w = (.error (.versionNotFound v), w) := by
  have hanswer : w.files.isDirectory [s.config.versionName v] = false := by
    rw [FileTree.isDirectory_single h.files, hview]
    rfl
  rw [load_eq htemplate, Script.run, Action.run, hanswer]
  rfl

theorem run_load_holding {template : Value} {content : List UInt8}
    {leaves : List (String × Tensor)} (htemplate : s.template = some template)
    (h : w.Shows rooted k) (hview : k.view (s.config.versionName v) = some (holding content))
    (hleaves : Archive.leaves content = .ok leaves) :
    ∃ w', (s.load v).run.run w =
      ((template.pack (leaves.map (·.2))).mapError .structureMismatch, w') ∧ w'.Shows rooted k := by
  have hanswer : w.files.isDirectory [s.config.versionName v] = true := by
    rw [FileTree.isDirectory_single h.files, hview]
    rfl
  have hread : w.files.read [s.config.versionName v, stateFile] = .ok content :=
    FileTree.read_inside h.files hview (by decide) rfl
  rw [load_eq htemplate, Script.run, Action.run, hanswer]
  dsimp only
  rw [Script.run, Action.run, hread]
  dsimp only
  rw [hleaves]
  dsimp only
  cases template.pack (leaves.map (·.2)) with
  | error e => exact ⟨w, rfl, h⟩
  | ok value => exact ⟨_, rfl, h.withEvents _⟩

end Store

end GraphFusion
