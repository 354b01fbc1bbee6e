import GraphFusion.Proofs.Store.Operations

/-!
Versions and the names of their directories. A name is read as a version exactly when it is
the stem followed by the decimal digits of a number below 2^64, so reading names and writing
paths are inverse, and a listing of the root, whatever else stands there, names each version
that has a directory once.
-/

namespace GraphFusion

/-- What stands behind the last slash of a path. -/
def lastName (path : String) : String :=
  String.ofList (path.toList.reverse.takeWhile (· != '/')).reverse

theorem lastName_append {front name : String} (hname : '/' ∉ name.toList)
    (hfront : front.toList.getLast? = some '/') : lastName (front ++ name) = name := by
  obtain ⟨before, hbefore⟩ := List.getLast?_eq_some_iff.mp hfront
  have hletters : ∀ c ∈ name.toList.reverse, (c != '/') = true := by
    intro c hc
    rw [bne_iff_ne]
    rintro rfl
    exact hname (List.mem_reverse.mp hc)
  have hreverse : (front ++ name).toList.reverse =
      name.toList.reverse ++ '/' :: before.reverse := by
    rw [String.toList_append, hbefore, List.reverse_append, List.reverse_append,
      List.reverse_singleton, List.singleton_append]
  rw [lastName, hreverse, List.takeWhile_append_of_pos hletters,
    List.takeWhile_cons_of_neg (by simp), List.append_nil, List.reverse_reverse,
    String.ofList_toList]

namespace StoreConfig

variable {c : StoreConfig}

theorem lastName_pathText {name : String} (hname : '/' ∉ name.toList) :
    lastName (c.pathText name) = name := by
  rw [pathText]
  split
  · rename_i hroot
    exact lastName_append hname hroot
  · exact lastName_append hname (by simp [String.toList_append])

theorem slash_notMem_versionName (hstem : '/' ∉ c.stem.toList) (v : UInt64) :
    '/' ∉ (c.versionName v).toList := by
  rw [toList_versionName, List.mem_append]
  rintro (hslash | hslash)
  · exact hstem hslash
  · exact absurd (Nat.isDigit_of_mem_toDigits (by decide) (by decide) hslash) (by decide)

/-- A name stands for a number exactly when it is the stem and the number in decimal, and
the number has 64 bits. -/
theorem versionOf?_eq_iff_toString {name : String} {n : Nat} :
    (c.versionOf? name).map UInt64.toNat = some n ↔
      n < UInt64.size ∧ name = c.stem ++ toString n := by
  constructor
  · intro h
    obtain ⟨v, hv, rfl⟩ := Option.map_eq_some_iff.mp h
    exact ⟨v.toNat_lt, versionOf?_eq_some_iff.mp hv⟩
  · rintro ⟨hn, rfl⟩
    have htoNat : (UInt64.ofNat n).toNat = n := UInt64.toNat_ofNat_of_lt' hn
    have hv : c.versionOf? (c.stem ++ toString n) = some (UInt64.ofNat n) := by
      rw [versionOf?_eq_some_iff, versionName, htoNat]
    rw [hv, Option.map_some, htoNat]

end StoreConfig

namespace Store

variable {s : Store}

/-- Whatever stands in the root under distinct names, the listing has the versions that have
a directory there, each of them once. -/
theorem exists_run_versions {w : World} (hroot : ∀ content, w.files.root ≠ some (.file content))
    (hdistinct : (w.files.entries.map (·.1)).Nodup) :
    ∃ versions, s.versions.run.run w = (.ok (listing versions), w) ∧ versions.Nodup ∧
      ∀ v, v ∈ versions ↔ ∃ es, (s.config.versionName v, .directory es) ∈ w.files.entries := by
  obtain ⟨versions, hlists, hlisted⟩ := listed_entries hroot hdistinct (s := s)
  refine ⟨versions, ?_, nodup_of_ascending hlists.ascending, fun v => ?_⟩
  · rw [versions_eq, ← hlisted]
    rfl
  · simp only [hlists.mem, mem_iff_lookup hdistinct]

/-- Names of versions are read exactly. A name is read as `n` when it is the stem and `n` in
decimal, and `n` has 64 bits. So the last name of a version's path is read as the version and
a name is read as the version whose path it gives; no two versions have one path, and no
staging name is read as a version. A listing has no version twice: it has those versions of
which there is a directory. -/
theorem versionNames_exact (hstem : '/' ∉ s.config.stem.toList) :
    (∀ name n, (s.config.versionOf? name).map UInt64.toNat = some n ↔
      n < UInt64.size ∧ name = s.config.stem ++ toString n) ∧
    (∀ v, s.config.versionOf? (lastName (s.versionPath v)) = some v) ∧
    (∀ name v, s.config.versionOf? name = some v → s.config.pathText name = s.versionPath v) ∧
    (∀ u v, s.versionPath u = s.versionPath v → u = v) ∧
    (∀ v, s.config.versionOf? (s.config.stagingName v) = none) ∧
    ∀ w : World, (∀ content, w.files.root ≠ some (.file content)) →
      (w.files.entries.map (·.1)).Nodup →
      ∃ versions, s.versions.run.run w = (.ok (listing versions), w) ∧ versions.Nodup ∧
        ∀ v, v ∈ versions ↔ ∃ es, (s.config.versionName v, .directory es) ∈ w.files.entries := by
  have hlast : ∀ v, lastName (s.versionPath v) = s.config.versionName v := fun v =>
    StoreConfig.lastName_pathText (StoreConfig.slash_notMem_versionName hstem v)
  refine ⟨fun name n => StoreConfig.versionOf?_eq_iff_toString, fun v => ?_, fun name v h => ?_,
    fun u v h => ?_, StoreConfig.versionOf?_stagingName s.config,
    fun w => exists_run_versions⟩
  · rw [hlast, StoreConfig.versionOf?_eq_some_iff]
  · rw [StoreConfig.versionOf?_eq_some_iff.mp h, versionPath]
  · rw [← StoreConfig.versionName_inj (c := s.config), ← hlast, ← hlast, h]

/-- A stem that ends in a digit, and names around it that stand for no version. -/
theorem versionNames_exact_digitStem :
    let s : Store := ⟨⟨"states", "v1", 0, false⟩, none⟩
    let w : World := ⟨⟨some (.directory [("v1", .directory []), ("v12_temp", .directory []),
      ("v102", .directory []), ("v12", .directory []), ("v17", .file [])])⟩, [], []⟩
    '/' ∉ s.config.stem.toList ∧ (∀ content, w.files.root ≠ some (.file content)) ∧
      (w.files.entries.map (·.1)).Nodup ∧
      (∃ versions, s.versions.run.run w = (.ok (listing versions), w) ∧ versions.Nodup ∧
        2 ∈ versions ∧ 7 ∉ versions) ∧
      (s.config.versionOf? "v118446744073709551615").map UInt64.toNat =
        some 18446744073709551615 ∧
      s.config.versionOf? (lastName (s.versionPath 12)) = some 12 := by
  intro s w
  have hstem : '/' ∉ s.config.stem.toList := by decide
  have hroot : ∀ content, w.files.root ≠ some (.file content) := nofun
  have hdistinct : (w.files.entries.map (·.1)).Nodup := by decide
  obtain ⟨hread, hpath, -, -, -, hlisting⟩ := versionNames_exact hstem
  obtain ⟨versions, hrun, hnodup, hmem⟩ := hlisting w hroot hdistinct
  have hsaved : s.config.versionName 2 = "v12" := by decide
  have hfile : s.config.versionName 7 = "v17" := by decide
  refine ⟨hstem, hroot, hdistinct, ⟨versions, hrun, hnodup, ?_, ?_⟩, ?_, hpath 12⟩
  · rw [hmem, hsaved]
    exact ⟨[], by simp [w, FileTree.entries]⟩
  · rw [hmem, hfile]
    simp [w, FileTree.entries]
  · exact (hread _ _).mpr ⟨by decide, by decide⟩

end Store

end GraphFusion
