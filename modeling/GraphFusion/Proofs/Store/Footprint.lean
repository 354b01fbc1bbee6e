import GraphFusion.Proofs.Store.Session
import Mathlib.Data.Set.Basic

/-!
Actions and scripts that touch only some of the names in the root. In two worlds that agree
on these names such a script gives the same result and changes the same, and it leaves what
stands under other names as it was. Every operation of a store touches only the names of its
versions and of their staging directories.
-/

namespace GraphFusion

open scoped Classical

namespace Node

/-- The entries under the given names. -/
noncomputable def among (names : Set String) (entries : List (String × Node)) :
    List (String × Node) :=
  entries.filter (·.1 ∈ names)

/-- The entries after some of them were replaced, one after another. -/
def edit (edits : List (String × Option Node)) (entries : List (String × Node)) :
    List (String × Node) :=
  edits.foldl (fun entries e => setEntry e.1 e.2 entries) entries

variable {names names' : Set String} {name : String} {place : Option Node}
  {entries entries' : List (String × Node)} {edits : List (String × Option Node)}

theorem lookup_among (h : name ∈ names) :
    (among names entries).lookup name = entries.lookup name := by
  induction entries with
  | nil => rfl
  | cons e entries ih =>
    obtain ⟨n, node⟩ := e
    rw [lookup_cons_ite, ← ih]
    by_cases hn : n ∈ names
    · rw [among, List.filter_cons_of_pos (by simpa using hn), lookup_cons_ite]
      rfl
    · have hne : name ≠ n := fun heq => hn (heq ▸ h)
      rw [among, List.filter_cons_of_neg (by simpa using hn), if_neg hne]
      rfl

theorem lookup_congr (h : name ∈ names) (hamong : among names entries' = among names entries) :
    entries'.lookup name = entries.lookup name := by
  rw [← lookup_among h, hamong, lookup_among h]

theorem among_among (h : names ⊆ names') :
    among names (among names' entries) = among names entries := by
  rw [among, among, among, List.filter_filter]
  refine List.filter_congr fun e _ => ?_
  by_cases he : e.1 ∈ names
  · simp [he, h he]
  · simp [he]

theorem among_setEntry_of_mem (h : name ∈ names) :
    among names (setEntry name place entries) = setEntry name place (among names entries) := by
  have hothers : (entries.filter (·.1 != name)).filter (·.1 ∈ names) =
      (entries.filter (·.1 ∈ names)).filter (·.1 != name) := by
    rw [List.filter_filter, List.filter_filter]
    simp only [Bool.and_comm]
  rw [among, setEntry, List.filter_append, hothers]
  cases place <;> simp [setEntry, among, h]

theorem among_setEntry_of_not_mem (h : name ∉ names) :
    among names (setEntry name place entries) = among names entries := by
  have hothers : (entries.filter (·.1 != name)).filter (·.1 ∈ names) =
      entries.filter (·.1 ∈ names) := by
    rw [List.filter_filter]
    refine List.filter_congr fun e _ => ?_
    by_cases he : e.1 = name
    · simp [he, h]
    · simp [he]
  rw [among, setEntry, List.filter_append, hothers]
  cases place <;> simp [among, h]

theorem among_edit_congr (hedits : ∀ e ∈ edits, e.1 ∈ names)
    (h : among names entries' = among names entries) :
    among names (edit edits entries') = among names (edit edits entries) := by
  induction edits generalizing entries entries' with
  | nil => exact h
  | cons e edits ih =>
    obtain ⟨he, hedits⟩ := List.forall_mem_cons.mp hedits
    refine ih hedits ?_
    rw [among_setEntry_of_mem he, among_setEntry_of_mem he, h]

theorem among_edit_of_not_mem (hedits : ∀ e ∈ edits, e.1 ∉ names) :
    among names (edit edits entries) = among names entries := by
  induction edits generalizing entries with
  | nil => rfl
  | cons e edits ih =>
    obtain ⟨he, hedits⟩ := List.forall_mem_cons.mp hedits
    exact (ih hedits).trans (among_setEntry_of_not_mem he)

end Node

namespace Node

/-- What a renaming replaces, if `place` stands under the one name and `place'` under the
other. -/
def movement (source target : String) (place place' : Option Node) :
    Except FileError (List (String × Option Node)) :=
  if !fits source || !fits target then .error .badName
  else
    match place with
    | none => .error .missing
    | some node =>
      if source = target then .ok []
      else (node.mayReplace place').map fun _ => [(source, none), (target, some node)]

theorem renameEntry_directory (source target : String) (entries : List (String × Node)) :
    renameEntry source target (some (.directory entries)) =
      (movement source target (entries.lookup source) (entries.lookup target)).map fun edits =>
        some (.directory (edit edits entries)) := by
  rw [renameEntry]
  unfold movement
  split
  · rfl
  · cases entries.lookup source with
    | none => rfl
    | some node =>
      by_cases hsame : source = target
      · simp only [hsame, if_true]
        rfl
      · simp only [hsame, if_false]
        cases node.mayReplace (entries.lookup target) <;> rfl

theorem mem_movement {source target : String} {place place' : Option Node}
    {edits : List (String × Option Node)} (h : movement source target place place' = .ok edits) :
    ∀ e ∈ edits, e.1 = source ∨ e.1 = target := by
  unfold movement at h
  split at h
  · cases h
  · cases place with
    | none => cases h
    | some node =>
      dsimp only at h
      split at h
      · cases h
        exact List.forall_mem_nil _
      · cases hreplace : node.mayReplace place' with
        | error _ =>
          rw [hreplace] at h
          cases h
        | ok _ =>
          rw [hreplace] at h
          cases h
          simp

end Node

/-- Both roots are directories, and they have the same entries under the given names. -/
def FileTree.Agree (names : Set String) (t t' : FileTree) : Prop :=
  ∃ entries entries', t.root = some (.directory entries) ∧ t'.root = some (.directory entries') ∧
    Node.among names entries' = Node.among names entries

namespace FileTree

variable {names : Set String} {t t' : FileTree}

theorem exists_root (h : t.isDirectory [] = true) :
    ∃ entries, t.root = some (.directory entries) := by
  obtain ⟨_ | ⟨content | entries⟩⟩ := t
  · cases h
  · cases h
  · exact ⟨entries, rfl⟩

theorem agree_self {entries : List (String × Node)} (h : t.root = some (.directory entries)) :
    t.Agree names t := ⟨entries, entries, h, h, rfl⟩

theorem Agree.symm (h : t.Agree names t') : t'.Agree names t := by
  obtain ⟨entries, entries', ht, ht', hamong⟩ := h
  exact ⟨entries', entries, ht', ht, hamong.symm⟩

/-- What stands under the first name of a path decides what the path leads to. -/
theorem find_congr {entries entries' : List (String × Node)} {name : String} {rest : Path}
    (h : entries'.lookup name = entries.lookup name) :
    find ⟨some (.directory entries')⟩ (name :: rest) =
      find ⟨some (.directory entries)⟩ (name :: rest) := by
  rw [find, find, Node.find, Node.find, h]

/-- In trees whose roots agree on the given names the operation fails alike or replaces the same
entries, all of them under these names. -/
def Edits (names : Set String) (operation : FileTree → Except FileError FileTree) : Prop :=
  ∀ entries, ∃ outcome : Except FileError (List (String × Option Node)),
    (∀ edits, outcome = .ok edits → ∀ e ∈ edits, e.1 ∈ names) ∧
    ∀ entries', Node.among names entries' = Node.among names entries →
      operation ⟨some (.directory entries')⟩ = outcome.map fun edits =>
        ⟨some (.directory (Node.edit edits entries'))⟩

theorem edits_update {name : String} {rest : Path} (h : name ∈ names)
    (change : Option Node → Except FileError (Option Node)) :
    Edits names fun t => t.update (name :: rest) change := by
  intro entries
  refine ⟨checkNames (name :: rest) >>= fun _ =>
    if Node.fits name then
      (Node.update change rest (entries.lookup name)).map fun place => [(name, place)]
    else .error .badName, fun edits hedits e he => ?_, fun entries' hamong => ?_⟩
  · obtain ⟨_, -, hplace⟩ := bind_eq_ok.mp hedits
    split at hplace
    · cases hupdate : Node.update change rest (entries.lookup name) with
      | error _ =>
        rw [hupdate] at hplace
        cases hplace
      | ok place =>
        rw [hupdate] at hplace
        cases hplace
        rwa [List.mem_singleton.mp he]
    · cases hplace
  · dsimp only
    rw [update, Node.update, Node.lookup_congr h hamong]
    cases checkNames (name :: rest) with
    | error _ => rfl
    | ok _ =>
      rw [ok_bind, ok_bind]
      split
      · cases Node.update change rest (entries.lookup name) <;> rfl
      · rfl

theorem edits_rename {source target : String} (hsource : source ∈ names)
    (htarget : target ∈ names) : Edits names fun t => t.rename [] source target := by
  intro entries
  refine ⟨checkNames [source, target] >>= fun _ =>
    Node.movement source target (entries.lookup source) (entries.lookup target),
    fun edits hedits e he => ?_, fun entries' hamong => ?_⟩
  · obtain ⟨_, -, hmovement⟩ := bind_eq_ok.mp hedits
    rcases Node.mem_movement hmovement e he with hname | hname
    · rwa [hname]
    · rwa [hname]
  · have hnames : checkNames [] = .ok () := rfl
    dsimp only
    rw [rename, update, hnames, ok_bind, Node.update, Node.renameEntry_directory,
      Node.lookup_congr hsource hamong, Node.lookup_congr htarget hamong]
    cases checkNames [source, target] with
    | error _ => rfl
    | ok _ =>
      rw [ok_bind, ok_bind]
      cases Node.movement source target (entries.lookup source) (entries.lookup target) <;> rfl

end FileTree

/-- In worlds whose roots agree on the given names the action answers the same and replaces the
same entries, all of them under these names. -/
def Action.Within (names : Set String) (action : Action) : Prop :=
  ∀ entries, ∃ answer edits, (∀ e ∈ edits, e.1 ∈ names) ∧
    ∀ (w : World) (entries' : List (String × Node)), w.files.root = some (.directory entries') →
      Node.among names entries' = Node.among names entries →
        (action.run w).1 = answer ∧
          (action.run w).2.files.root = some (.directory (Node.edit edits entries'))

namespace Action

variable {names names' : Set String} {name : String} {rest : Path}

theorem Within.mono {action : Action} (h : action.Within names) (hsub : names ⊆ names') :
    action.Within names' := by
  intro entries
  obtain ⟨answer, edits, hedits, hrun⟩ := h entries
  refine ⟨answer, edits, fun e he => hsub (hedits e he), fun w entries' hroot hamong => ?_⟩
  refine hrun w entries' hroot ?_
  rw [← Node.among_among hsub, hamong, Node.among_among hsub]

/-- An action that leaves the files as they are. -/
theorem within_of_files_eq {action : Action}
    (hanswer : ∀ (w w' : World) (entries entries' : List (String × Node)),
      w.files.root = some (.directory entries) → w'.files.root = some (.directory entries') →
        Node.among names entries' = Node.among names entries → (action.run w').1 = (action.run w).1)
    (hfiles : ∀ w, (action.run w).2.files = w.files) : action.Within names := by
  intro entries
  let w : World := ⟨⟨some (.directory entries)⟩, [], []⟩
  refine ⟨(action.run w).1, [], List.forall_mem_nil _, fun w' entries' hroot hamong => ?_⟩
  exact ⟨hanswer w w' entries entries' rfl hroot hamong, by rw [hfiles]; exact hroot⟩

theorem within_acquire (v : UInt64) : (acquire v).Within names :=
  within_of_files_eq (fun _ _ _ _ _ _ _ => rfl) fun _ => rfl

theorem within_release (v : UInt64) : (release v).Within names :=
  within_of_files_eq (fun _ _ _ _ _ _ _ => rfl) fun _ => rfl

theorem within_report (event : StoreEvent) : (report event).Within names :=
  within_of_files_eq (fun _ _ _ _ _ _ _ => rfl) fun _ => rfl

theorem find_of_among {w w' : World} {entries entries' : List (String × Node)} (h : name ∈ names)
    (hroot : w.files.root = some (.directory entries))
    (hroot' : w'.files.root = some (.directory entries'))
    (hamong : Node.among names entries' = Node.among names entries) :
    w'.files.find (name :: rest) = w.files.find (name :: rest) := by
  obtain ⟨⟨_⟩, _, _⟩ := w
  obtain ⟨⟨_⟩, _, _⟩ := w'
  subst hroot hroot'
  exact FileTree.find_congr (Node.lookup_congr h hamong)

theorem within_present (h : name ∈ names) : (present (name :: rest)).Within names := by
  refine within_of_files_eq (fun w w' _ _ hroot hroot' hamong => ?_) fun _ => rfl
  rw [run, run, FileTree.present, FileTree.present, find_of_among h hroot hroot' hamong]

theorem within_isDirectory (h : name ∈ names) : (isDirectory (name :: rest)).Within names := by
  refine within_of_files_eq (fun w w' _ _ hroot hroot' hamong => ?_) fun _ => rfl
  rw [run, run, FileTree.isDirectory, FileTree.isDirectory, find_of_among h hroot hroot' hamong]

theorem within_read (h : name ∈ names) : (read (name :: rest)).Within names := by
  refine within_of_files_eq (fun w w' _ _ hroot hroot' hamong => ?_) fun _ => rfl
  rw [run, run, FileTree.read, FileTree.read, find_of_among h hroot hroot' hamong]

theorem within_settle {operation : FileTree → Except FileError FileTree}
    (h : FileTree.Edits names operation) (entries : List (String × Node)) :
    ∃ answer edits, (∀ e ∈ edits, e.1 ∈ names) ∧
      ∀ (w : World) (entries' : List (String × Node)), w.files.root = some (.directory entries') →
        Node.among names entries' = Node.among names entries →
          (w.settle (operation w.files)).1 = answer ∧
            (w.settle (operation w.files)).2.files.root =
              some (.directory (Node.edit edits entries')) := by
  obtain ⟨outcome, hnames, hoperation⟩ := h entries
  have hsettle : ∀ (w : World) (entries' : List (String × Node)),
      w.files.root = some (.directory entries') →
        Node.among names entries' = Node.among names entries →
          operation w.files = outcome.map fun edits =>
            ⟨some (.directory (Node.edit edits entries'))⟩ := by
    intro w entries' hroot hamong
    have hfiles : w.files = ⟨some (.directory entries')⟩ := congrArg FileTree.mk hroot
    rw [hfiles, hoperation entries' hamong]
  cases outcome with
  | error e =>
    refine ⟨.error e, [], List.forall_mem_nil _, fun w entries' hroot hamong => ?_⟩
    rw [hsettle w entries' hroot hamong]
    exact ⟨rfl, hroot⟩
  | ok edits =>
    refine ⟨.ok (), edits, hnames edits rfl, fun w entries' hroot hamong => ?_⟩
    rw [hsettle w entries' hroot hamong]
    exact ⟨rfl, rfl⟩

theorem within_write (h : name ∈ names) (content : List UInt8) :
    (write (name :: rest) content).Within names :=
  within_settle (FileTree.edits_update h _)

theorem within_removeDirectory (h : name ∈ names) :
    (removeDirectory (name :: rest)).Within names :=
  within_settle (FileTree.edits_update h _)

theorem within_rename {source target : String} (hsource : source ∈ names)
    (htarget : target ∈ names) : (rename [] source target).Within names :=
  within_settle (FileTree.edits_rename hsource htarget)

theorem within_createDirectories (h : name ∈ names) :
    (createDirectories (name :: rest)).Within names := by
  intro entries
  cases hchecked : FileTree.checkNames (name :: rest) with
  | error e =>
    refine ⟨.error e, [], List.forall_mem_nil _, fun w entries' hroot hamong => ?_⟩
    rw [run, FileTree.createDirectories, hchecked]
    exact ⟨rfl, hroot⟩
  | ok _ =>
    by_cases hfits : Node.fits name = true
    · refine ⟨(Node.makeDirectories rest (entries.lookup name)).1,
        [(name, some (Node.makeDirectories rest (entries.lookup name)).2)],
        List.forall_mem_singleton.mpr h, fun w entries' hroot hamong => ?_⟩
      rw [run, FileTree.createDirectories, hchecked, hroot, Node.makeDirectories, if_pos hfits,
        Node.lookup_congr h hamong]
      exact ⟨rfl, rfl⟩
    · refine ⟨.error .badName, [], List.forall_mem_nil _, fun w entries' hroot hamong => ?_⟩
      rw [run, FileTree.createDirectories, hchecked, hroot, Node.makeDirectories, if_neg hfits]
      exact ⟨rfl, rfl⟩

/-- The root is there already. -/
theorem within_createDirectories_root : (createDirectories []).Within names := by
  intro entries
  refine ⟨.ok (), [], List.forall_mem_nil _, fun w entries' hroot hamong => ?_⟩
  have hfiles : w.files = ⟨some (.directory entries')⟩ := congrArg FileTree.mk hroot
  rw [run, hfiles]
  exact ⟨rfl, rfl⟩

/-- The names of the directories in the root, as far as they are among the given ones, depend on
the entries under these alone. -/
theorem directories_of_agree {w w' : World} (h : w.files.Agree names w'.files) :
    ∃ found found', w.files.directories [] = .ok found ∧ w'.files.directories [] = .ok found' ∧
      found'.filter (· ∈ names) = found.filter (· ∈ names) := by
  obtain ⟨entries, entries', hroot, hroot', hamong⟩ := h
  have hdirectories : ∀ {t : FileTree} {entries : List (String × Node)},
      t.root = some (.directory entries) →
        t.directories [] = .ok ((entries.filter (·.2.isDirectory)).map (·.1)) := by
    intro t entries hroot
    simp [FileTree.directories, FileTree.find, FileTree.checkNames, hroot, Node.find]
  have hfilter : ∀ entries : List (String × Node),
      ((entries.filter (·.2.isDirectory)).map (·.1)).filter (· ∈ names) =
        ((Node.among names entries).filter (·.2.isDirectory)).map (·.1) := by
    intro entries
    rw [List.filter_map, Node.among, List.filter_filter, List.filter_filter]
    simp only [Function.comp_apply, Bool.and_comm]
  exact ⟨_, _, hdirectories hroot, hdirectories hroot', by rw [hfilter, hfilter, hamong]⟩

theorem mem_of_filter_eq {found found' : List String}
    (h : found'.filter (· ∈ names) = found.filter (· ∈ names)) (hname : name ∈ names) :
    name ∈ found' ↔ name ∈ found := by
  have hfilter : ∀ found : List String, name ∈ found.filter (· ∈ names) ↔ name ∈ found := by
    simp [hname]
  rw [← hfilter, h, hfilter]

end Action

/-- All actions of the script are within the given names, and of a listing of the root the script
uses only these. -/
inductive Script.Within {α : Type} (names : Set String) : Script α → Prop
  | done (a : α) : Within names (.done a)
  | act {action : Action} {next : action.Answer → Script α} (h : action.Within names)
      (hnext : ∀ answer, Within names (next answer)) : Within names (.step action next)
  | list {next : Except FileError (List String) → Script α}
      (hnext : ∀ answer, Within names (next answer))
      (hcongr : ∀ found found' : List String,
        found'.filter (· ∈ names) = found.filter (· ∈ names) →
          next (.ok found') = next (.ok found)) :
      Within names (.step (.directories []) next)

namespace Script

variable {α β : Type} {names names' others : Set String} {script : Script α} {w w' : World}

theorem Within.mono (h : script.Within names) (hsub : names ⊆ names') : script.Within names' := by
  induction h with
  | done a => exact .done a
  | act h _ ih => exact .act (h.mono hsub) ih
  | list _ hcongr ih =>
    refine .list ih fun found found' hfound => hcongr found found' ?_
    have hfilter : ∀ found : List String, (found.filter (· ∈ names')).filter (· ∈ names) =
        found.filter (· ∈ names) := by
      intro found
      rw [List.filter_filter]
      refine List.filter_congr fun name _ => ?_
      by_cases hname : name ∈ names
      · simp [hname, hsub hname]
      · simp [hname]
    rw [← hfilter, hfound, hfilter]

theorem Within.bind {f : α → Script β} (h : script.Within names)
    (hf : ∀ a, (f a).Within names) : (script.bind f).Within names := by
  induction h with
  | done a => exact hf a
  | act h _ ih => exact .act h ih
  | list _ hcongr ih =>
    exact .list ih fun found found' hfound =>
      congrArg (fun script => script.bind f) (hcongr found found' hfound)

theorem run_step (action : Action) (next : action.Answer → Script α) (w : World) :
    (step action next).run w = (next (action.run w).1).run (action.run w).2 := rfl

/-- In worlds that agree on the names, the script gives the same result, and the worlds that it
leaves agree on them again. -/
theorem Within.run_agree (h : script.Within names) (hagree : w.files.Agree names w'.files) :
    (script.run w').1 = (script.run w).1 ∧
      (script.run w).2.files.Agree names (script.run w').2.files := by
  induction h generalizing w w' with
  | done a => exact ⟨rfl, hagree⟩
  | @act action next h _ ih =>
    obtain ⟨entries, entries', hroot, hroot', hamong⟩ := hagree
    obtain ⟨answer, edits, hedits, hrun⟩ := h entries
    obtain ⟨hanswer, hfiles⟩ := hrun w entries hroot rfl
    obtain ⟨hanswer', hfiles'⟩ := hrun w' entries' hroot' hamong
    subst hanswer
    have hleft : (action.run w).2.files.Agree names (action.run w').2.files :=
      ⟨_, _, hfiles, hfiles', Node.among_edit_congr hedits hamong⟩
    rw [run_step, run_step, hanswer']
    exact ih _ hleft
  | @list next _ hcongr ih =>
    obtain ⟨found, found', hfound, hfound', hnames⟩ := Action.directories_of_agree hagree
    rw [Script.run, Script.run, Action.run, Action.run, hfound, hfound']
    dsimp only
    rw [hcongr found found' hnames]
    exact ih _ hagree

/-- The script leaves what stands under other names as it was. -/
theorem Within.run_frame (h : script.Within names) (hothers : ∀ name ∈ names, name ∉ others)
    (hagree : w.files.Agree others w'.files) :
    (script.run w).2.files.Agree others w'.files := by
  induction h generalizing w with
  | done a => exact hagree
  | @act action next h _ ih =>
    obtain ⟨entries, entries', hroot, hroot', hamong⟩ := hagree
    obtain ⟨answer, edits, hedits, hrun⟩ := h entries
    obtain ⟨-, hfiles⟩ := hrun w entries hroot rfl
    refine ih _ ⟨_, _, hfiles, hroot', hamong.trans (Eq.symm ?_)⟩
    exact Node.among_edit_of_not_mem fun e he => hothers _ (hedits e he)
  | list _ _ ih => exact ih _ hagree

end Script

namespace StoreConfig

/-- The names of versions and of staging directories. -/
def names (c : StoreConfig) : Set String :=
  {name | ∃ v, name = c.versionName v ∨ name = c.stagingName v}

theorem versionName_mem_names (c : StoreConfig) (v : UInt64) : c.versionName v ∈ c.names :=
  ⟨v, .inl rfl⟩

theorem stagingName_mem_names (c : StoreConfig) (v : UInt64) : c.stagingName v ∈ c.names :=
  ⟨v, .inr rfl⟩

end StoreConfig

namespace Store

variable {α β : Type} {names : Set String} {s : Store} {value : Value} {v : UInt64}

theorem within_bind {script : StoreScript α} {f : α → StoreScript β}
    (h : script.run.Within names) (hf : ∀ a, (f a).run.Within names) :
    (script >>= f).run.Within names := by
  refine Script.Within.bind h fun r => ?_
  cases r with
  | ok a => exact hf a
  | error e => exact .done _

theorem within_pure (a : α) : (pure a : StoreScript α).run.Within names := .done _

theorem within_throw (e : StoreError) : (throw e : StoreScript α).run.Within names := .done _

theorem within_lift {script : Script α} (h : script.Within names) :
    (ExceptT.lift script : StoreScript α).run.Within names :=
  Script.Within.bind h fun _ => .done _

theorem within_act {action : Action} (h : action.Within names) :
    (act action).run.Within names :=
  within_lift (.act h fun answer => .done answer)

theorem within_onFiles (path : String) {script : Script (Except FileError Unit)}
    (h : script.Within names) : (onFiles path script).run.Within names := by
  refine within_bind (within_lift h) fun r => ?_
  cases r with
  | ok _ => exact within_pure ()
  | error e => exact within_throw _

/-- A listing shows the names of versions and ignores all others. -/
theorem listed_congr {found found' : List String}
    (h : found'.filter (· ∈ s.config.names) = found.filter (· ∈ s.config.names)) :
    s.listed (.ok found') = s.listed (.ok found) := by
  have hfilter : ∀ found : List String, (found.filter (· ∈ s.config.names)).filterMap
      s.config.versionOf? = found.filterMap s.config.versionOf? := by
    intro found
    rw [List.filterMap_filter]
    refine List.filterMap_congr fun name _ => ?_
    cases hname : s.config.versionOf? name with
    | none => exact ite_self none
    | some u =>
      rw [StoreConfig.versionOf?_eq_some_iff.mp hname]
      simp [StoreConfig.versionName_mem_names]
  rw [listed, listed, ← hfilter, h, hfilter]

theorem within_versions : s.versions.run.Within s.config.names := by
  rw [versions_eq]
  exact .list (fun _ => .done _) fun found found' h => congrArg Script.done (listed_congr h)

theorem within_remove : (s.remove v).run.Within {s.config.versionName v} := by
  rw [remove_eq]
  refine .act (Action.within_removeDirectory rfl) fun answer => ?_
  rcases answer with e | _
  · cases e <;> exact .done _
  · exact .act (Action.within_report _) fun _ => .done _

theorem within_load : (s.load v).run.Within {s.config.versionName v} := by
  cases htemplate : s.template with
  | none =>
    rw [load, htemplate]
    exact within_throw _
  | some template =>
    rw [load_eq htemplate]
    refine .act (Action.within_isDirectory rfl) fun there => ?_
    cases there with
    | false => exact .done _
    | true =>
      refine .act (Action.within_read rfl) fun answer => ?_
      cases answer with
      | error e => exact .done _
      | ok content =>
        dsimp only
        split
        · exact .done _
        · split
          · exact .done _
          · exact .act (Action.within_report _) fun _ => .done _

theorem within_removeAll (versions : List UInt64) :
    (s.removeAll versions).run.Within s.config.names := by
  induction versions with
  | nil => exact within_pure ()
  | cons u rest ih =>
    have hremove := within_remove (s := s) (v := u)
    refine within_bind (within_lift (hremove.mono ?_)) fun r => ?_
    · exact Set.singleton_subset_iff.mpr (s.config.versionName_mem_names u)
    · rcases r with e | _
      · cases e <;> first | exact ih | exact within_throw _
      · exact ih

theorem within_prune : s.prune.run.Within s.config.names := by
  rw [prune]
  split
  · exact within_pure ()
  · refine within_bind within_versions fun found => ?_
    cases found with
    | none => exact within_pure ()
    | some versions => exact within_removeAll _

theorem within_stage : (s.stage v).run.Within s.config.names := by
  have hstaging := s.config.stagingName_mem_names v
  have hcreate : (onFiles (s.stagingPath v)
      (Script.act (.createDirectories [s.config.stagingName v]))).run.Within s.config.names :=
    within_onFiles _ (.act (Action.within_createDirectories hstaging) fun _ => .done _)
  refine within_bind (within_act (Action.within_present hstaging)) fun there => ?_
  cases there with
  | false => exact hcreate
  | true =>
    refine within_bind (within_act (Action.within_report _)) fun _ => ?_
    refine within_bind (within_onFiles _ ?_) fun _ => hcreate
    exact .act (Action.within_removeDirectory hstaging) fun _ => .done _

theorem within_fill (leaves : List (String × Tensor)) :
    (s.fill v leaves).run.Within s.config.names := by
  rw [fill]
  cases Archive.ofLeaves leaves with
  | error e => exact within_throw _
  | ok content =>
    refine within_bind (within_act (Action.within_write (s.config.stagingName_mem_names v) content))
      fun r => ?_
    cases r with
    | ok _ => exact within_pure ()
    | error e => exact within_throw _

theorem within_publish : (s.publish v).run.Within s.config.names := by
  refine within_bind (within_act (Action.within_rename (s.config.stagingName_mem_names v)
    (s.config.versionName_mem_names v))) fun r => ?_
  cases r with
  | ok _ => exact within_pure ()
  | error e =>
    refine within_bind (within_act (Action.within_present (s.config.versionName_mem_names v)))
      fun there => ?_
    cases there <;> exact within_throw _

theorem within_saveAlone : (s.saveAlone value v).run.Within s.config.names := by
  refine within_bind (within_act (Action.within_present (s.config.versionName_mem_names v)))
    fun there => ?_
  cases there with
  | true => exact within_throw _
  | false =>
    refine within_bind within_stage fun _ => ?_
    refine within_bind (within_lift (within_bind (within_fill _) fun _ => within_publish))
      fun r => ?_
    cases r with
    | ok _ => exact within_bind (within_act (Action.within_report _)) fun _ => within_prune
    | error e =>
      exact within_bind (within_act (Action.within_removeDirectory
        (s.config.stagingName_mem_names v))) fun _ => within_throw e

theorem within_save : (s.save value v).run.Within s.config.names := by
  refine within_bind (within_act (Action.within_acquire v)) fun _ => ?_
  refine within_bind (within_lift within_saveAlone) fun r => ?_
  exact within_bind (within_act (Action.within_release v)) fun _ => .done r

theorem within_loadLatest : s.loadLatest.run.Within s.config.names := by
  refine within_bind within_versions fun found => ?_
  cases found.bind List.getLast? with
  | none => exact within_pure _
  | some latest =>
    refine within_bind (within_load.mono ?_) fun _ => within_pure _
    exact Set.singleton_subset_iff.mpr (s.config.versionName_mem_names latest)

theorem within_create (c : StoreConfig) : (create c).run.Within names := by
  rw [create]
  split
  · exact within_throw _
  · split
    · exact within_throw _
    · refine within_bind (within_onFiles _ ?_) fun _ => within_pure _
      exact .act Action.within_createDirectories_root fun _ => .done _

end Store

end GraphFusion
