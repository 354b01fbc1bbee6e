import GraphFusion.Proofs.Store.Alone
import GraphFusion.Proofs.Store.Archive
import GraphFusion.Proofs.Values.Leaves

/-!
A save that succeeds is durable as far as retention goes. Retention goes by the
version numbers: among the versions listed before and the new one it keeps the highest
ones, so it may let go the version that was just saved. If it keeps it, the version is
listed and its value can be loaded.
-/

namespace GraphFusion

namespace FileTree

/-- The names at the root are distinct, and names can be what they are. -/
structure WellFormed (t : FileTree) : Prop where
  distinct : (t.entries.map (·.1)).Nodup
  admissible : ∀ e ∈ t.entries, Admissible e.1

variable {t : FileTree}

theorem WellFormed.shows (h : t.WellFormed) (hroot : ∀ content, t.root ≠ some (.file content)) :
    t.Shows False fun name => t.entries.lookup name where
  nofile := hroot
  present := False.elim
  distinct := h.distinct
  admissible name hname := by
    obtain ⟨node, hnode⟩ := Option.ne_none_iff_exists'.mp hname
    exact h.admissible (name, node) ((mem_iff_lookup h.distinct).mpr hnode)
  lookup _ := rfl

end FileTree

namespace Store

variable {s : Store} {value : Value} {v : UInt64} {w : World}

theorem run_save_eq (s : Store) (value : Value) (v : UInt64) (w : World) :
    ((s.save value v).run.run w).1 =
      ((s.saveAlone value v).run.run { w with saving := v :: w.saving }).1 := by
  rw [save, run_act_bind]
  change (Script.run (Script.bind (Script.bind (s.saveAlone value v).run _) _) _).1 = _
  rw [Script.run_bind, Script.run_bind]
  rfl

/-- Nothing is saved where the root is a file. -/
theorem save_error_of_root_file {content : List UInt8}
    (hroot : w.files.root = some (.file content)) :
    ∃ e, ((s.save value v).run.run w).1 = .error e := by
  have hpresent : ∀ name, w.files.present [name] = false := by
    intro name
    by_cases hnull : '\x00' ∈ name.toList
    · simp [FileTree.present, FileTree.find, FileTree.checkNames, hnull, Except.toOption]
    · simp [FileTree.present, FileTree.find, FileTree.checkNames, hnull, hroot, Node.find,
        Except.toOption]
  have hcreate : ∃ e, (w.files.createDirectories [s.config.stagingName v]).1 = .error e := by
    by_cases hnull : '\x00' ∈ (s.config.stagingName v).toList
    · exact ⟨.badName, by simp [FileTree.createDirectories, FileTree.checkNames, hnull]⟩
    · refine ⟨.notADirectory, ?_⟩
      simp [FileTree.createDirectories, FileTree.checkNames, hnull, hroot, Node.makeDirectories]
  obtain ⟨e, he⟩ := hcreate
  refine ⟨.file (s.stagingPath v) e, ?_⟩
  have hstage : ∃ w', (s.stage v).run.run { w with saving := v :: w.saving } =
      (.error (.file (s.stagingPath v) e), w') := by
    rw [stage, run_act_bind, Action.run]
    dsimp only
    rw [hpresent]
    change ∃ w', Script.run (Script.step (.createDirectories _) _) _ = (_, w')
    rw [Script.run, Action.run]
    dsimp only
    rw [he]
    exact ⟨_, rfl⟩
  obtain ⟨w', hstage⟩ := hstage
  rw [run_save_eq, saveAlone, run_act_bind, Action.run]
  dsimp only
  rw [hpresent, if_neg Bool.false_ne_true, run_bind, hstage]

theorem lists_without {c : StoreConfig} {view : String → Option Node} {all : List UInt64}
    (h : c.Lists view all) : c.Lists (c.without (c.evicted all) view)
      (all.filter fun u => decide (c.Keeps all.toFinset u)) := by
  refine ⟨h.ascending.sublist List.filter_sublist, fun u => ?_⟩
  rw [StoreConfig.without_versionName, List.mem_filter, decide_eq_true_eq]
  by_cases hu : u ∈ c.evicted all
  · have hout := (StoreConfig.mem_evicted_iff h.ascending).mp hu
    simp [hu, hout.2]
  · rw [if_neg hu]
    rw [StoreConfig.mem_evicted_iff h.ascending, not_and, not_not] at hu
    exact ⟨fun hin => (h.mem u).mp hin.1, fun hes => ⟨(h.mem u).mpr hes, hu ((h.mem u).mpr hes)⟩⟩

/-- A load of what was archived of a value. -/
theorem run_load_archived {template : Value} {content : List UInt8} {rooted : Prop} {k : Shelf}
    (htemplate : s.template = some template) (hshows : w.Shows rooted k)
    (hview : k.view (s.config.versionName v) = some (holding content))
    (hcontent : Archive.ofLeaves value.namedLeaves = .ok content)
    (hvalue : ∀ t ∈ value.leaves, t.WellFormed) (hnesting : template.SameNesting value) :
    ((s.load v).run.run w).1 = .ok (value.withNamesOf template.type) := by
  have hleaves := Archive.leaves_of_ofLeaves hcontent fun leaf hleaf =>
    hvalue leaf.2 (Value.map_namedLeaves value ▸ List.mem_map_of_mem hleaf)
  obtain ⟨w', hrun, -⟩ := run_load_holding htemplate hshows hview hleaves
  rw [hrun, Value.map_namedLeaves, Value.pack_leaves hnesting]
  rfl

/-- A root that holds the directories of the given versions and nothing else. -/
def shelved (c : StoreConfig) (versions : List UInt64) : FileTree :=
  ⟨some (.directory (versions.map fun v => (c.versionName v, holding [])))⟩

section

variable {c : StoreConfig} {versions : List UInt64}

theorem lookup_shelved (c : StoreConfig) (versions : List UInt64) (name : String) :
    (shelved c versions).entries.lookup name =
      if ∃ v ∈ versions, name = c.versionName v then some (holding []) else none := by
  change (versions.map fun v => (c.versionName v, holding [])).lookup name = _
  induction versions with
  | nil => simp
  | cons v versions ih =>
    rw [List.map_cons, lookup_cons_ite, ih]
    by_cases hname : name = c.versionName v <;> simp [hname]

theorem wellFormed_shelved (hversions : versions.Pairwise (· < ·))
    (hnames : ∀ v ∈ versions, Admissible (c.versionName v)) :
    (shelved c versions).WellFormed where
  distinct := by
    change ((versions.map fun v => (c.versionName v, holding [])).map (·.1)).Nodup
    rw [List.map_map]
    exact (nodup_of_ascending hversions).map fun u v huv => StoreConfig.versionName_inj.mp huv
  admissible e he := by
    obtain ⟨v, hv, rfl⟩ := List.mem_map.mp he
    exact hnames v hv

/-- A save between other versions, unless a name or the size of the file stands in the way. -/
theorem save_shelved (s : Store) (value : Value) (v : UInt64)
    (hversions : versions.Pairwise (· < ·))
    (hnames : ∀ v ∈ versions, Admissible (s.config.versionName v)) (habsent : v ∉ versions)
    (hname : Admissible (s.config.stagingName v))
    (hroom : Archive.obstacle? value.namedLeaves = none) :
    let w : World := ⟨shelved s.config versions, [], []⟩
    ((s.save value v).run.run w).1 = .ok () ∧ (s.versions.run.run w).1 = .ok (listing versions) ∧
      ∃ all : List UInt64, (∀ u, u ∈ all ↔ u = v ∨ u ∈ versions) ∧
        (s.versions.run.run ((s.save value v).run.run w).2).1 =
          .ok (listing (all.filter fun u => decide (s.config.Keeps all.toFinset u))) := by
  intro w
  have hshows : w.Shows False ⟨fun name => w.files.entries.lookup name, []⟩ :=
    ⟨(wellFormed_shelved hversions hnames).shows fun content h => (nomatch h), rfl⟩
  have hlists : s.config.Lists (fun name => w.files.entries.lookup name) versions := by
    refine ⟨hversions, fun u => ?_⟩
    rw [lookup_shelved]
    simp [holding]
  have haccepts : s.Accepts value v (fun name => w.files.entries.lookup name)
      (Archive.content value.namedLeaves) := by
    refine ⟨?_, fun content => ?_, hname, Archive.ofLeaves_eq_ok_iff.mpr ⟨hroom, rfl⟩⟩
    · rw [lookup_shelved]
      simp [habsent]
    · rw [lookup_shelved]
      simp
  obtain ⟨all, w', hrun, hmem, hall, hshows'⟩ :=
    run_save_accepted hshows List.not_mem_nil hlists haccepts
  refine ⟨congrArg Prod.fst hrun, by rw [run_versions hshows hlists], all, hmem, ?_⟩
  rw [hrun, run_versions hshows' (lists_without hall)]

end

/-- After a save that succeeds, the listed versions are those before and the new one, as
far as retention keeps them. If it keeps the new version, a template of the value's
nesting gives the value back, under the template's names; if not, that version is not
found. -/
theorem save_durable (hroot : w.files.WellFormed) (hidle : v ∉ w.saving)
    (hvalue : ∀ t ∈ value.leaves, t.WellFormed)
    (hsave : ((s.save value v).run.run w).1 = .ok ()) :
    ∃ before after : List UInt64, (s.versions.run.run w).1 = .ok (listing before) ∧
      (s.versions.run.run ((s.save value v).run.run w).2).1 = .ok (listing after) ∧
      (∀ u, u ∈ after ↔ (u = v ∨ u ∈ before) ∧ s.config.Keeps (insert v before.toFinset) u) ∧
      ∀ template : Value,
        (v ∈ after → template.SameNesting value →
          (((s.setTemplate template).load v).run.run ((s.save value v).run.run w).2).1 =
            .ok (value.withNamesOf template.type)) ∧
        (v ∈ after → template.SameFrame value →
          (((s.setTemplate template).load v).run.run ((s.save value v).run.run w).2).1 =
            .ok value) ∧
        (v ∉ after →
          (((s.setTemplate template).load v).run.run ((s.save value v).run.run w).2).1 =
            .error (.versionNotFound v)) := by
  have hnofile : ∀ content, w.files.root ≠ some (.file content) := by
    intro content hcontent
    obtain ⟨e, he⟩ : ∃ e, ((s.save value v).run.run w).1 = .error e :=
      save_error_of_root_file hcontent
    rw [hsave] at he
    cases he
  obtain ⟨k, hshows, hfree⟩ : ∃ k, w.Shows False k ∧ v ∉ k.saving :=
    ⟨⟨_, w.saving⟩, ⟨hroot.shows hnofile, rfl⟩, hidle⟩
  obtain ⟨before, hbefore, -⟩ := listed_directories hshows.files (s := s)
  rcases s.accepts_or_refuses value v k.view with
    ⟨content, haccepts⟩ | ⟨e, view', hrefuses⟩
  swap
  · obtain ⟨w', hrun, -⟩ := run_save_refused value hshows hfree hrefuses
    rw [hrun] at hsave
    cases hsave
  obtain ⟨all, w', hrun, hmem, hlists, hshows'⟩ :=
    run_save_accepted hshows hfree hbefore haccepts
  have hset : all.toFinset = insert v before.toFinset := by
    ext u
    simp [hmem]
  have hkept := StoreConfig.mem_evicted_iff (c := s.config) (v := v) hlists.ascending
  have hview : s.config.without (s.config.evicted all) (s.publishing v k.view content)
      (s.config.versionName v) =
        if v ∈ s.config.evicted all then none else some (holding content) := by
    rw [StoreConfig.without_versionName, publishing_versionName, if_pos rfl]
  refine ⟨before, all.filter fun u => decide (s.config.Keeps all.toFinset u),
    by rw [run_versions hshows hbefore], ?_, fun u => ?_, fun template => ?_⟩
  · rw [hrun, run_versions hshows' (lists_without hlists)]
  · rw [List.mem_filter, decide_eq_true_eq, hmem, hset]
  · rw [hrun, List.mem_filter, decide_eq_true_eq]
    have hload : v ∈ all ∧ s.config.Keeps all.toFinset v → template.SameNesting value →
        (((s.setTemplate template).load v).run.run w').1 =
          .ok (value.withNamesOf template.type) := by
      intro hin halike
      rw [if_neg fun h => (hkept.mp h).2 hin.2] at hview
      exact run_load_archived rfl hshows' hview haccepts.archived hvalue halike
    refine ⟨hload, fun hin hframe => ?_, fun hout => ?_⟩
    · rw [hload hin (Value.sameNesting_of_sameFrame hframe), Value.withNamesOf_of_sameFrame hframe]
    · have hin := (hmem v).mpr (.inl rfl)
      rw [if_pos (hkept.mpr ⟨hin, fun h => hout ⟨hin, h⟩⟩)] at hview
      have htemplate : (s.setTemplate template).template = some template := rfl
      exact congrArg Prod.fst (run_load_absent htemplate hshows' hview)

/-- Version 3, saved between the versions 1 and 5. Where one version is kept besides the lowest,
it is let go at once; where the two highest are kept, it is found, and the lowest is not. -/
theorem save_durable_between :
    let value : Value := .struct [(some "step", .tensor ⟨[], .int64 [7]⟩)]
    let one : Store := ⟨⟨"states", "v", 1, true⟩, none⟩
    let two : Store := ⟨⟨"states", "v", 2, false⟩, none⟩
    let w : World := ⟨shelved one.config [1, 5], [], []⟩
    (∃ after : List UInt64,
      (one.versions.run.run ((one.save value 3).run.run w).2).1 = .ok (listing after) ∧
      (∀ u, u ∈ after ↔ u = 1 ∨ u = 5) ∧
      (((one.setTemplate value).load 3).run.run ((one.save value 3).run.run w).2).1 =
        .error (.versionNotFound 3)) ∧
    ∃ after : List UInt64,
      (two.versions.run.run ((two.save value 3).run.run w).2).1 = .ok (listing after) ∧
      (∀ u, u ∈ after ↔ u = 3 ∨ u = 5) ∧
      (((two.setTemplate value).load 3).run.run ((two.save value 3).run.run w).2).1 =
        .ok value := by
  intro value one two w
  have hversions : [1, 5].Pairwise fun u v : UInt64 => u < v := by decide
  have hnames : ∀ u ∈ ([1, 5] : List UInt64), Admissible (one.config.versionName u) :=
    List.forall_mem_cons.mpr ⟨by decide, List.forall_mem_singleton.mpr (by decide)⟩
  have hroot : w.files.WellFormed := wellFormed_shelved hversions hnames
  have hvalue : ∀ t ∈ value.leaves, t.WellFormed := by
    simpa [value, Value.leaves, Value.elementLeaves] using ⟨by decide, by simp⟩
  constructor
  · obtain ⟨hsave, hlisted, -⟩ :=
      save_shelved one value 3 hversions hnames (by decide) (by decide) (by decide)
    obtain ⟨before, after, hbefore, hafter, hmem, hload⟩ :=
      save_durable hroot List.not_mem_nil hvalue hsave
    obtain rfl := listing_inj.mp (Except.ok.inj (hbefore.symm.trans hlisted))
    have hgone : 3 ∉ after := fun h => absurd ((hmem 3).mp h).2 (by decide)
    refine ⟨after, hafter, fun u => ⟨fun hu => ?_, ?_⟩, (hload value).2.2 hgone⟩
    · have hin := ((hmem u).mp hu).1
      simp only [List.mem_cons, List.not_mem_nil, or_false] at hin
      exact hin.resolve_left fun h => hgone (h ▸ hu)
    · rintro (rfl | rfl) <;> exact (hmem _).mpr ⟨by decide, by decide⟩
  · obtain ⟨hsave, hlisted, -⟩ :=
      save_shelved two value 3 hversions hnames (by decide) (by decide) (by decide)
    obtain ⟨before, after, hbefore, hafter, hmem, hload⟩ :=
      save_durable hroot List.not_mem_nil hvalue hsave
    obtain rfl := listing_inj.mp (Except.ok.inj (hbefore.symm.trans hlisted))
    have hframe : value.SameFrame value := by
      simp [value, Value.SameFrame, Value.Alike, Value.ElementsAlike]
    have hkept : 3 ∈ after := (hmem 3).mpr ⟨by decide, by decide⟩
    have hgone : 1 ∉ after := fun h => absurd ((hmem 1).mp h).2 (by decide)
    refine ⟨after, hafter, fun u => ⟨fun hu => ?_, ?_⟩, (hload value).2.1 hkept hframe⟩
    · have hin := ((hmem u).mp hu).1
      simp only [List.mem_cons, List.not_mem_nil, or_false] at hin
      exact hin.imp_right fun h => h.resolve_left fun h => hgone (h ▸ hu)
    · rintro (rfl | rfl) <;> exact (hmem _).mpr ⟨by decide, by decide⟩

/-- Retention may let go the very version that was saved: where version 5 stands and one
version is to be kept, version 3 is saved and let go at once. -/
theorem save_not_listed : ¬ ∀ (s : Store) (w : World) (value : Value) (v : UInt64),
    w.files.WellFormed → v ∉ w.saving → (∀ t ∈ value.leaves, t.WellFormed) →
      ((s.save value v).run.run w).1 = .ok () →
        ∃ versions, (s.versions.run.run ((s.save value v).run.run w).2).1 = .ok (some versions) ∧
          v ∈ versions := by
  intro h
  let s : Store := ⟨⟨"states", "v", 1, false⟩, none⟩
  let value : Value := .tensor ⟨[], .int32 [7]⟩
  let w : World := ⟨shelved s.config [5], [], []⟩
  have hnames : ∀ u ∈ ([5] : List UInt64), Admissible (s.config.versionName u) :=
    List.forall_mem_singleton.mpr (by decide)
  have hroot : w.files.WellFormed := wellFormed_shelved (List.pairwise_singleton _ _) hnames
  have hvalue : ∀ t ∈ value.leaves, t.WellFormed := by
    simp only [value, Value.leaves, List.mem_singleton, forall_eq]
    exact ⟨by decide, by simp⟩
  obtain ⟨hsave, -, all, hmem, hafter⟩ := save_shelved s value 3
    (List.pairwise_singleton _ _) hnames (by decide) (by decide) (by decide)
  obtain ⟨versions, hversions, hin⟩ := h s w value 3 hroot List.not_mem_nil hvalue hsave
  have hset : all.toFinset = {3, 5} := by
    ext u
    simp [hmem]
  rw [hafter, listing] at hversions
  split at hversions
  · cases hversions
  · cases hversions
    rw [List.mem_filter, hset] at hin
    exact absurd hin.2 (by decide)

end Store

end GraphFusion
