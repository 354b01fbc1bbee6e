import GraphFusion.Proofs.Store.Names
import GraphFusion.Proofs.Outcome
import Mathlib.Logic.Function.Basic

/-!
The root directory as a function from names to what stands under them. `Shows`
says that a tree has such a view: its root is a directory with distinct, admissible
names, or is not there yet and shows nothing. Each operation on an entry of the
root changes the view at that entry alone.
-/

namespace GraphFusion

section Entries

variable {name other : String} {node : Node} {entries : List (String × Node)}

theorem lookup_cons_ite (name other : String) (node : Node) (entries : List (String × Node)) :
    ((name, node) :: entries).lookup other =
      if other = name then some node else entries.lookup other := by
  rw [List.lookup_cons]
  by_cases h : other = name
  · rw [if_pos h, beq_iff_eq.mpr h]
  · rw [if_neg h, beq_false_of_ne h]

theorem lookup_filter_ne (name other : String) (entries : List (String × Node)) :
    (entries.filter (·.1 != name)).lookup other =
      if other = name then none else entries.lookup other := by
  induction entries with
  | nil => exact (ite_self none).symm
  | cons e entries ih =>
    obtain ⟨n, node⟩ := e
    rw [lookup_cons_ite]
    by_cases hn : n = name
    · subst hn
      rw [List.filter_cons_of_neg (by simp), ih]
      split <;> rfl
    · rw [List.filter_cons_of_pos (by simpa using hn), lookup_cons_ite, ih]
      by_cases hother : other = n
      · rw [if_pos hother, if_neg (hother ▸ hn), if_pos hother]
      · rw [if_neg hother, if_neg hother]

theorem lookup_setEntry (name other : String) (place : Option Node)
    (entries : List (String × Node)) :
    (Node.setEntry name place entries).lookup other =
      if other = name then place else entries.lookup other := by
  rw [Node.setEntry]
  cases place with
  | none => exact lookup_filter_ne name other entries
  | some node =>
    change List.lookup other ((name, node) :: entries.filter (·.1 != name)) = _
    rw [lookup_cons_ite, lookup_filter_ne]
    split <;> rfl

theorem nodup_setEntry (place : Option Node) (h : (entries.map (·.1)).Nodup) :
    ((Node.setEntry name place entries).map (·.1)).Nodup := by
  have hfilter : ((entries.filter (·.1 != name)).map (·.1)).Nodup :=
    h.sublist (List.filter_sublist.map _)
  rw [Node.setEntry]
  cases place with
  | none => exact hfilter
  | some node =>
    refine List.nodup_cons.mpr ⟨fun hmem => ?_, hfilter⟩
    obtain ⟨e, he, hname⟩ := List.mem_map.mp hmem
    have hne := (List.mem_filter.mp he).2
    simp only [bne_iff_ne, ne_eq] at hne
    exact hne hname

theorem mem_iff_lookup (h : (entries.map (·.1)).Nodup) :
    (name, node) ∈ entries ↔ entries.lookup name = some node := by
  induction entries with
  | nil => simp
  | cons e entries ih =>
    obtain ⟨n, m⟩ := e
    rw [List.map_cons, List.nodup_cons] at h
    rw [List.mem_cons, lookup_cons_ite]
    by_cases hname : name = n
    · subst hname
      have hout : ∀ m, (name, m) ∉ entries := fun m hm =>
        h.1 (List.mem_map.mpr ⟨(name, m), hm, rfl⟩)
      simp [hout, eq_comm]
    · simp [hname, ih h.2]

/-- Names of the directories among the entries. -/
def directoryNames (entries : List (String × Node)) : List String :=
  (entries.filter (·.2.isDirectory)).map (·.1)

theorem nodup_directoryNames (h : (entries.map (·.1)).Nodup) : (directoryNames entries).Nodup :=
  h.sublist (List.filter_sublist.map _)

theorem mem_directoryNames :
    name ∈ directoryNames entries ↔ ∃ es, (name, .directory es) ∈ entries := by
  constructor
  · intro hmem
    obtain ⟨⟨n, node⟩, he, rfl⟩ := List.mem_map.mp hmem
    obtain ⟨he, hdirectory⟩ := List.mem_filter.mp he
    cases node with
    | file content => cases hdirectory
    | directory es => exact ⟨es, he⟩
  · rintro ⟨es, he⟩
    exact List.mem_map.mpr ⟨_, List.mem_filter.mpr ⟨he, rfl⟩, rfl⟩

end Entries

namespace FileTree

/-- The entries of the root, none if it is not a directory. -/
def entries (t : FileTree) : List (String × Node) :=
  match t.root with
  | some (.directory es) => es
  | _ => []

/-- The root holds exactly what the view says; it is there if `rooted`. -/
structure Shows (t : FileTree) (rooted : Prop) (view : String → Option Node) : Prop where
  nofile : ∀ content, t.root ≠ some (.file content)
  present : rooted → t.root ≠ none
  distinct : (t.entries.map (·.1)).Nodup
  admissible : ∀ name, view name ≠ none → Admissible name
  lookup : ∀ name, t.entries.lookup name = view name

section

variable {t : FileTree} {rooted : Prop} {view : String → Option Node} {name : String} {node : Node}

theorem Shows.root_cases (h : t.Shows rooted view) :
    t.root = none ∧ t.entries = [] ∨ t.root = some (.directory t.entries) := by
  cases hroot : t.root with
  | none => exact .inl ⟨rfl, by rw [entries, hroot]⟩
  | some node =>
    cases node with
    | file content => exact absurd hroot (h.nofile content)
    | directory es => exact .inr (by rw [entries, hroot])

theorem Shows.root_of_some (h : t.Shows rooted view) (hview : view name = some node) :
    t.root = some (.directory t.entries) := by
  rcases h.root_cases with ⟨-, hempty⟩ | hroot
  · have hlookup := h.lookup name
    rw [hempty, hview] at hlookup
    cases hlookup
  · exact hroot

/-- A view of a tree whose root is a directory with the given entries. -/
theorem shows_directory {es : List (String × Node)} (hdistinct : (es.map (·.1)).Nodup)
    (hadmissible : ∀ name, view name ≠ none → Admissible name)
    (hlookup : ∀ name, es.lookup name = view name) : Shows ⟨some (.directory es)⟩ rooted view :=
  ⟨fun _ h => (nomatch h), fun _ => Option.some_ne_none _, hdistinct, hadmissible, hlookup⟩

theorem checkNames_single (h : Admissible name) : checkNames [name] = .ok () := by
  rw [checkNames, List.any_cons, List.any_nil, h.contains_null]
  rfl

theorem checkNames_pair {other : String} (h : Admissible name) (h' : Admissible other) :
    checkNames [name, other] = .ok () := by
  rw [checkNames, List.any_cons, List.any_cons, List.any_nil, h.contains_null, h'.contains_null]
  rfl

theorem find_single (h : t.Shows rooted view) (hname : Admissible name) :
    t.find [name] = match view name with
      | some node => .ok node
      | none => .error .missing := by
  rw [find, checkNames_single hname, ok_bind, ← h.lookup name]
  rcases h.root_cases with ⟨hroot, hempty⟩ | hroot
  · rw [hroot, hempty]
    rfl
  · rw [hroot, Node.find, if_pos hname.fits]
    cases t.entries.lookup name <;> rfl

theorem error_of_not_admissible {α : Type} {f : Unit → Except FileError α}
    (h : ¬ Admissible name) (hf : Node.fits name = false → f () = .error .badName) :
    (checkNames [name] >>= f) = .error .badName := by
  by_cases hnull : '\x00' ∈ name.toList
  · simp [checkNames, hnull]
  · have hfits : Node.fits name = false := by
      by_contra hfits
      exact h ⟨by simpa using hfits, hnull⟩
    simp [checkNames, hnull, hf hfits]

theorem view_eq_none (h : t.Shows rooted view) (hname : ¬ Admissible name) : view name = none := by
  by_contra hview
  exact hname (h.admissible name hview)

theorem present_single (h : t.Shows rooted view) : t.present [name] = (view name).isSome := by
  by_cases hname : Admissible name
  · rw [present, find_single h hname]
    cases view name <;> rfl
  · have hfind : ∃ e, t.find [name] = .error e := by
      by_cases hroot : t.root = none
      · by_cases hnull : '\x00' ∈ name.toList
        · exact ⟨.badName, by simp [find, checkNames, hnull]⟩
        · exact ⟨.missing, by simp [find, checkNames, hnull, hroot, Node.find]⟩
      · have hdirectory : t.root = some (.directory t.entries) := by
          rcases h.root_cases with ⟨hnone, -⟩ | hdirectory
          · exact absurd hnone hroot
          · exact hdirectory
        refine ⟨.badName, error_of_not_admissible hname fun hfits => ?_⟩
        rw [hdirectory, Node.find, hfits]
        rfl
    obtain ⟨e, he⟩ := hfind
    rw [present, he, view_eq_none h hname]
    rfl

theorem isDirectory_single (h : t.Shows rooted view) :
    t.isDirectory [name] = ((view name).map Node.isDirectory).getD false := by
  have hpresent : t.present [name] = (view name).isSome := present_single h
  cases hview : view name with
  | none =>
    rw [hview, FileTree.present, Option.isSome_none, Option.isSome_eq_false_iff,
      Option.isNone_iff_eq_none] at hpresent
    rw [isDirectory, hpresent, Option.map_none]
  | some node =>
    have hname : Admissible name := h.admissible name (by rw [hview]; exact Option.some_ne_none _)
    rw [isDirectory, find_single h hname, hview]
    rfl

theorem read_inside (h : t.Shows rooted view) {es : List (String × Node)} {file : String}
    {content : List UInt8} (hview : view name = some (.directory es)) (hfile : Admissible file)
    (hlookup : es.lookup file = some (.file content)) : t.read [name, file] = .ok content := by
  have hname : Admissible name := h.admissible name (by rw [hview]; exact Option.some_ne_none _)
  have hfind : t.find [name, file] = .ok (.file content) := by
    rw [find, checkNames_pair hname hfile, ok_bind, h.root_of_some hview, Node.find,
      if_pos hname.fits, h.lookup, hview, Node.find, if_pos hfile.fits, hlookup, Node.find]
  rw [read, hfind]
  rfl

/-- A root that is not a file lists its directories, and is missing if it is not there. -/
theorem directories_root (h : ∀ content, t.root ≠ some (.file content)) :
    t.directories [] = .error .missing ∧ t.entries = [] ∨
      t.directories [] = .ok (directoryNames t.entries) := by
  simp only [directories, find, checkNames, entries]
  cases hroot : t.root with
  | none => exact .inl ⟨rfl, rfl⟩
  | some node =>
    cases node with
    | file content => exact absurd hroot (h content)
    | directory es => exact .inr rfl

/-- The root after an entry of it was replaced. -/
theorem Shows.replace (h : t.Shows rooted view) (hname : Admissible name)
    (place : Option Node) :
    Shows ⟨some (.directory (Node.setEntry name place t.entries))⟩ rooted
      (Function.update view name place) := by
  refine shows_directory (nodup_setEntry place h.distinct) (fun other hother => ?_) fun other => ?_
  · by_cases heq : other = name
    · rw [heq]
      exact hname
    · rw [Function.update_of_ne heq] at hother
      exact h.admissible other hother
  · rw [lookup_setEntry, h.lookup]
    by_cases heq : other = name
    · rw [if_pos heq, heq, Function.update_self]
    · rw [if_neg heq, Function.update_of_ne heq]

theorem createDirectories_absent (h : t.Shows rooted view) (hname : Admissible name)
    (hview : view name = none) :
    ∃ t', t.createDirectories [name] = (.ok (), t') ∧
      t'.Shows rooted (Function.update view name (some (.directory []))) := by
  have hmade := h.replace hname (some (.directory []))
  rw [← h.lookup] at hview
  refine ⟨_, ?_, hmade⟩
  rcases h.root_cases with ⟨hroot, hempty⟩ | hroot
  · rw [createDirectories, checkNames_single hname, hroot, hempty]
    simp [Node.makeDirectories, hname.fits, Node.setEntry]
  · rw [createDirectories, checkNames_single hname, hroot]
    simp [Node.makeDirectories, hname.fits, hview]

theorem createDirectories_inadmissible (h : t.Shows rooted view) (hname : ¬ Admissible name) :
    ∃ t', t.createDirectories [name] = (.error .badName, t') ∧ t'.Shows rooted view := by
  by_cases hnull : '\x00' ∈ name.toList
  · exact ⟨t, by simp [createDirectories, checkNames, hnull], h⟩
  · have hfits : Node.fits name = false := by
      by_contra hfits
      exact hname ⟨by simpa using hfits, hnull⟩
    have hshows : Shows ⟨some (.directory t.entries)⟩ rooted view :=
      shows_directory h.distinct h.admissible h.lookup
    refine ⟨_, ?_, hshows⟩
    rcases h.root_cases with ⟨hroot, hempty⟩ | hroot
    · simp [createDirectories, checkNames, hnull, hroot, hempty, Node.makeDirectories, hfits]
    · rw [createDirectories, hroot]
      simp [checkNames, hnull, Node.makeDirectories, hfits]

theorem createDirectories_root (h : t.Shows rooted view) :
    ∃ t', t.createDirectories [] = (.ok (), t') ∧ t'.Shows True view := by
  have hshows : Shows ⟨some (.directory t.entries)⟩ True view :=
    shows_directory h.distinct h.admissible h.lookup
  refine ⟨_, ?_, hshows⟩
  rcases h.root_cases with ⟨hroot, hempty⟩ | hroot
  · simp [createDirectories, checkNames, hroot, hempty, Node.makeDirectories]
  · rw [createDirectories, hroot]
    simp [checkNames, Node.makeDirectories]

/-- A change of one entry of the root. -/
theorem update_single {change : Option Node → Except FileError (Option Node)}
    (h : t.Shows rooted view) (hname : Admissible name) (hview : view name ≠ none) :
    t.update [name] change = (change (view name)).map fun place =>
      ⟨some (.directory (Node.setEntry name place t.entries))⟩ := by
  obtain ⟨node, hnode⟩ := Option.ne_none_iff_exists'.mp hview
  rw [FileTree.update, checkNames_single hname, ok_bind, h.root_of_some hnode, Node.update,
    if_pos hname.fits, h.lookup, Node.update]
  cases change (view name) <;> rfl

theorem removeDirectory_directory (h : t.Shows rooted view) {es : List (String × Node)}
    (hview : view name = some (.directory es)) :
    ∃ t', t.removeDirectory [name] = .ok t' ∧ t'.Shows rooted (Function.update view name none) := by
  have hsome : view name ≠ none := by
    rw [hview]
    exact Option.some_ne_none _
  have hname := h.admissible name hsome
  refine ⟨_, ?_, h.replace hname _⟩
  rw [removeDirectory, update_single h hname hsome, hview]
  rfl

theorem removeDirectory_file (h : t.Shows rooted view) {content : List UInt8}
    (hview : view name = some (.file content)) :
    t.removeDirectory [name] = .error .notADirectory := by
  have hsome : view name ≠ none := by
    rw [hview]
    exact Option.some_ne_none _
  rw [removeDirectory, update_single h (h.admissible name hsome) hsome, hview]
  rfl

theorem removeDirectory_absent (h : t.Shows rooted view) (hname : Admissible name)
    (hview : view name = none) : t.removeDirectory [name] = .error .missing := by
  rw [← h.lookup] at hview
  rw [removeDirectory, FileTree.update, checkNames_single hname, ok_bind]
  rcases h.root_cases with ⟨hroot, -⟩ | hroot
  · rw [hroot]
    rfl
  · rw [hroot, Node.update, if_pos hname.fits, hview]
    rfl

theorem removeDirectory_inadmissible (h : t.Shows True view) (hname : ¬ Admissible name) :
    t.removeDirectory [name] = .error .badName := by
  have hroot : t.root = some (.directory t.entries) := by
    rcases h.root_cases with ⟨hnone, -⟩ | hroot
    · exact absurd hnone (h.present trivial)
    · exact hroot
  refine error_of_not_admissible hname fun hfits => ?_
  rw [hroot, Node.update, hfits]
  rfl

/-- A new file in an empty directory of the root. -/
theorem write_inside (h : t.Shows rooted view) {file : String} (content : List UInt8)
    (hview : view name = some (.directory [])) (hfile : Admissible file) :
    ∃ t', t.write [name, file] content = .ok t' ∧
      t'.Shows rooted (Function.update view name (some (.directory [(file, .file content)]))) := by
  have hname : Admissible name := h.admissible name (by rw [hview]; exact Option.some_ne_none _)
  refine ⟨_, ?_, h.replace hname _⟩
  rw [write, FileTree.update, checkNames_pair hname hfile, ok_bind, h.root_of_some hview,
    Node.update, if_pos hname.fits, h.lookup, hview, Node.update, if_pos hfile.fits]
  rfl

/-- An entry of the root moves to a name that is free. -/
theorem rename_absent (h : t.Shows rooted view) {source target : String}
    (hsource : view source = some node) (htarget : view target = none)
    (hname : Admissible target) :
    ∃ t', t.rename [] source target = .ok t' ∧
      t'.Shows rooted (Function.update (Function.update view source none) target (some node)) := by
  have hadmissible : Admissible source :=
    h.admissible source (by rw [hsource]; exact Option.some_ne_none _)
  have hne : source ≠ target := by
    rintro rfl
    rw [hsource] at htarget
    cases htarget
  have hroot := h.root_of_some hsource
  rw [← h.lookup] at hsource htarget
  refine ⟨_, ?_, (h.replace hadmissible none).replace hname (some node)⟩
  have hmoved : Node.renameEntry source target (some (.directory t.entries)) =
      .ok (some (.directory
        (Node.setEntry target (some node) (Node.setEntry source none t.entries)))) := by
    simp [Node.renameEntry, hadmissible.fits, hname.fits, hsource, htarget, hne, Node.mayReplace]
  have hnames : checkNames [] = .ok () := rfl
  rw [rename, checkNames_pair hadmissible hname, ok_bind, FileTree.update, hnames, ok_bind, hroot,
    Node.update, hmoved]
  rfl

end

end FileTree

end GraphFusion
