import GraphFusion.Proofs.Store.Session

/-!
A ledger describes a session when the root holds the table's versions and, at most,
staging directories left by saves that were stopped. Each call keeps this so and is
answered alike by both. Hence a client cannot tell the files from the table, whatever
the calls are and in whatever order they come.
-/

namespace GraphFusion

namespace StoreConfig

variable {c : StoreConfig} {saved : Table} {view view' : String → Option Node} {u v : UInt64}

/-- What is kept of a table is what is not let go. -/
theorem retain_eq_without (c : StoreConfig) (saved : Table) :
    c.retain saved = Table.without (c.evicted saved.keys) saved := by
  refine Std.ExtTreeMap.ext_getElem? fun u => ?_
  rw [retain, Std.ExtTreeMap.getElem?_filter', Table.getElem?_without]
  cases hu : saved[u]? with
  | none => simp
  | some leaves =>
    have hmem : u ∈ saved.keys := by
      exact Std.ExtTreeMap.mem_keys.mpr (Table.mem_of_getElem? hu)
    have hevicted := mem_evicted_iff (c := c) (v := u) (Table.ascending_keys saved)
    by_cases hkeeps : c.Keeps saved.keys.toFinset u <;> simp [hevicted, hmem, hkeeps]

/-- Each version of the table is in a directory that holds its leaves. -/
structure Holds (c : StoreConfig) (saved : Table) (view : String → Option Node) : Prop where
  absent : ∀ u, saved[u]? = none → view (c.versionName u) = none
  present : ∀ u leaves, saved[u]? = some leaves → ∃ content named,
    view (c.versionName u) = some (Store.holding content) ∧
      Archive.leaves content = .ok named ∧ named.map (·.2) = leaves

theorem Holds.lists (h : c.Holds saved view) : c.Lists view saved.keys := by
  refine ⟨Table.ascending_keys saved, fun u => ?_⟩
  rw [Std.ExtTreeMap.mem_keys, Table.mem_iff_ne_none]
  cases hu : saved[u]? with
  | none => simp [h.absent u hu]
  | some leaves =>
    obtain ⟨content, -, hview, -⟩ := h.present u leaves hu
    simp [hview, Store.holding]

theorem Holds.congr (h : c.Holds saved view)
    (hview : ∀ u, view' (c.versionName u) = view (c.versionName u)) : c.Holds saved view' :=
  ⟨fun u hu => (hview u).trans (h.absent u hu), fun u leaves hu => by
    rw [hview]
    exact h.present u leaves hu⟩

theorem Holds.view_eq_none_iff (h : c.Holds saved view) :
    view (c.versionName u) = none ↔ saved[u]? = none := by
  refine ⟨fun hview => ?_, h.absent u⟩
  cases hu : saved[u]? with
  | none => rfl
  | some leaves =>
    obtain ⟨content, -, hcontent, -⟩ := h.present u leaves hu
    rw [hview] at hcontent
    cases hcontent

theorem Holds.not_file (h : c.Holds saved view) (u : UInt64) (content : List UInt8) :
    view (c.versionName u) ≠ some (.file content) := by
  intro hfile
  cases hu : saved[u]? with
  | none =>
    rw [h.absent u hu] at hfile
    cases hfile
  | some leaves =>
    obtain ⟨content', -, hcontent, -⟩ := h.present u leaves hu
    rw [hfile] at hcontent
    cases hcontent

/-- Both the table and the root with some versions gone. -/
theorem Holds.mask {saved' : Table} (h : c.Holds saved view) (gone : UInt64 → Prop)
    [DecidablePred gone] (hsaved : ∀ u, saved'[u]? = if gone u then none else saved[u]?)
    (hview : ∀ u, view' (c.versionName u) = if gone u then none else view (c.versionName u)) :
    c.Holds saved' view' := by
  constructor
  · intro u hu
    rw [hsaved] at hu
    rw [hview]
    split
    · rfl
    · rename_i hgone
      rw [if_neg hgone] at hu
      exact h.absent u hu
  · intro u leaves hu
    rw [hsaved] at hu
    rw [hview]
    split
    · rename_i hgone
      rw [if_pos hgone] at hu
      cases hu
    · rename_i hgone
      rw [if_neg hgone] at hu
      exact h.present u leaves hu

theorem Holds.without (h : c.Holds saved view) (gone : List UInt64) :
    c.Holds (Table.without gone saved) (c.without gone view) :=
  h.mask (· ∈ gone) (fun _ => Table.getElem?_without) fun _ => without_versionName

theorem Holds.erase (h : c.Holds saved view) (v : UInt64) :
    c.Holds (saved.erase v) (Function.update view (c.versionName v) none) :=
  h.mask (· = v) (fun _ => Table.getElem?_erase) fun u => by
    simp only [Function.update_apply, versionName_inj]

/-- A version more in the table and at the root. -/
theorem Holds.insert {content : List UInt8} {named : List (String × Tensor)}
    (h : c.Holds saved view) (hnamed : Archive.leaves content = .ok named)
    (hview : ∀ u, view' (c.versionName u) =
      if u = v then some (Store.holding content) else view (c.versionName u)) :
    c.Holds (saved.insert v (named.map (·.2))) view' := by
  constructor
  · intro u hu
    rw [Table.getElem?_insert] at hu
    split at hu
    · cases hu
    · rename_i huv
      rw [hview, if_neg huv]
      exact h.absent u hu
  · intro u leaves hu
    rw [Table.getElem?_insert] at hu
    rw [hview]
    split at hu
    · rename_i huv
      cases hu
      exact ⟨content, named, if_pos huv, hnamed, rfl⟩
    · rename_i huv
      rw [if_neg huv]
      exact h.present u leaves hu

/-- Nothing stands at the root but versions and the staging directories of `debris`. -/
def Tidy (c : StoreConfig) (debris : UInt64 → Prop) (view : String → Option Node) : Prop :=
  ∀ name, view name ≠ none → (∃ u, name = c.versionName u) ∨
    ∃ u es, debris u ∧ name = c.stagingName u ∧ view name = some (.directory es)

variable {debris debris' : UInt64 → Prop}

theorem Tidy.mono (h : c.Tidy debris view) (hsub : ∀ u, debris u → debris' u) :
    c.Tidy debris' view := by
  intro name hname
  rcases h name hname with hversion | ⟨u, es, hu, hstaging⟩
  · exact .inl hversion
  · exact .inr ⟨u, es, hsub u hu, hstaging⟩

theorem Tidy.view_stagingName (h : c.Tidy debris view) (hu : ¬ debris u) :
    view (c.stagingName u) = none := by
  by_contra hview
  rcases h _ hview with ⟨v, hv⟩ | ⟨v, es, hv, hname, -⟩
  · exact stagingName_ne_versionName c u v hv
  · exact hu (stagingName_inj.mp hname ▸ hv)

theorem Tidy.clearable (h : c.Tidy debris view) (v : UInt64) (content : List UInt8) :
    view (c.stagingName v) ≠ some (.file content) := by
  intro hfile
  rcases h (c.stagingName v) (by rw [hfile]; exact Option.some_ne_none _) with
    ⟨u, hu⟩ | ⟨u, es, -, -, hdirectory⟩
  · exact stagingName_ne_versionName c v u hu
  · rw [hfile] at hdirectory
    cases hdirectory

theorem Tidy.update (h : c.Tidy debris view) (v : UInt64) (place : Option Node) :
    c.Tidy debris (Function.update view (c.versionName v) place) := by
  intro name hname
  by_cases hv : name = c.versionName v
  · exact .inl ⟨v, hv⟩
  · rw [Function.update_of_ne hv] at hname ⊢
    exact h name hname

/-- The staging directory of `v` is taken away. -/
theorem Tidy.clear (h : c.Tidy debris view) (v : UInt64) :
    c.Tidy (fun u => debris u ∧ u ≠ v) (Function.update view (c.stagingName v) none) := by
  intro name hname
  by_cases hv : name = c.stagingName v
  · rw [hv, Function.update_self] at hname
    exact absurd rfl hname
  · rw [Function.update_of_ne hv] at hname ⊢
    rcases h name hname with hversion | ⟨u, es, hu, rfl, hview⟩
    · exact .inl hversion
    · exact .inr ⟨u, es, ⟨hu, fun huv => hv (by rw [huv])⟩, rfl, hview⟩

theorem Tidy.without (h : c.Tidy debris view) (gone : List UInt64) :
    c.Tidy debris (c.without gone view) := by
  intro name hname
  rw [StoreConfig.without] at hname ⊢
  split at hname
  · exact absurd rfl hname
  · rename_i hout
    rw [if_neg hout]
    exact h name hname

end StoreConfig

namespace Ledger

/-- The ledger tells what the session's store and files are, but for the staging
directories of `debris`. -/
structure Describes (l : Ledger) (debris : UInt64 → Prop) (σ : Session) : Prop where
  store : σ.store = ⟨l.config, l.template⟩
  root : l.config.root ≠ ""
  stem : '/' ∉ l.config.stem.toList
  shelf : ∃ view, σ.world.Shows True ⟨view, []⟩ ∧ l.config.Holds l.saved view ∧
    l.config.Tidy debris view

variable {l : Ledger} {debris debris' : UInt64 → Prop} {σ : Session}

theorem Describes.mono (h : l.Describes debris σ) (hsub : ∀ u, debris u → debris' u) :
    l.Describes debris' σ := by
  obtain ⟨hstore, hroot, hstem, view, hshows, hholds, htidy⟩ := h
  exact ⟨hstore, hroot, hstem, view, hshows, hholds, htidy.mono hsub⟩

section

variable {s : Store} {value : Value} {v : UInt64} {view : String → Option Node}

theorem refuses_of_refusal? {e : StoreError} (htidy : s.config.Tidy debris view)
    (habsent : view (s.config.versionName v) = none) (h : s.config.refusal? value v = some e) :
    s.Refuses value v view e (Function.update view (s.config.stagingName v) none) := by
  rw [StoreConfig.refusal?] at h
  split at h
  · rename_i hname
    obtain ⟨cause, hcause, rfl⟩ := Option.map_eq_some_iff.mp h
    exact .unarchivable habsent (htidy.clearable v) hname (Archive.ofLeaves_eq_error_iff.mpr hcause)
  · rename_i hname
    cases h
    exact .misnamed habsent (htidy.clearable v) hname

theorem accepts_of_refusal? (htidy : s.config.Tidy debris view)
    (habsent : view (s.config.versionName v) = none) (h : s.config.refusal? value v = none) :
    s.Accepts value v view (Archive.content value.namedLeaves) := by
  rw [StoreConfig.refusal?] at h
  split at h
  · rename_i hname
    have hobstacle := Option.map_eq_none_iff.mp h
    exact ⟨habsent, htidy.clearable v, hname, Archive.ofLeaves_eq_ok_iff.mpr ⟨hobstacle, rfl⟩⟩
  · cases h

end

theorem mem_saved_iff {v : UInt64} {view : String → Option Node}
    (h : l.config.Holds l.saved view) :
    v ∈ l.saved ↔ view (l.config.versionName v) ≠ none := by
  rw [ne_eq, h.view_eq_none_iff, Table.mem_iff_ne_none]

theorem holds_publishing {value : Value} {v : UInt64} {view : String → Option Node}
    {content : List UInt8} (hholds : l.config.Holds l.saved view)
    (hvalue : ∀ t ∈ value.leaves, t.WellFormed)
    (hcontent : Archive.ofLeaves value.namedLeaves = .ok content) :
    l.config.Holds (l.saved.insert v value.leaves)
      (Store.publishing ⟨l.config, l.template⟩ v view content) := by
  have hnamed := Archive.leaves_of_ofLeaves hcontent fun leaf hleaf =>
    hvalue leaf.2 (Value.map_namedLeaves value ▸ List.mem_map_of_mem hleaf)
  have hinsert := hholds.insert (v := v) hnamed
    (Store.publishing_versionName (s := ⟨l.config, l.template⟩))
  rwa [Value.map_namedLeaves] at hinsert

/-- The versions after a save that is accepted, before any are let go. -/
theorem lists_publishing {value : Value} {v : UInt64} {view : String → Option Node}
    (hholds : l.config.Holds l.saved view) (hvalue : ∀ t ∈ value.leaves, t.WellFormed)
    (content : List UInt8) (h : Store.Accepts ⟨l.config, l.template⟩ value v view content) :
    l.config.Lists (Store.publishing ⟨l.config, l.template⟩ v view content)
      (l.saved.insert v value.leaves).keys :=
  (holds_publishing hholds hvalue h.archived).lists

/-- A save that nobody disturbs ends with the answer of the ledger, which tells what the root
then holds. If the version was not there, its staging directory is not there any more. -/
theorem save_of_alone {value : Value} {v : UInt64} {view : String → Option Node} {k : Shelf}
    {r : Except StoreError Unit} (hholds : l.config.Holds l.saved view)
    (htidy : l.config.Tidy debris view) (hvalue : ∀ t ∈ value.leaves, t.WellFormed)
    (h : Store.Alone ⟨l.config, l.template⟩ value v view (l.saved.insert v value.leaves).keys k
      (.finished r)) :
    r = (l.save value v).1 ∧ l.config.Holds (l.save value v).2.saved k.view ∧
      l.config.Tidy debris k.view ∧
      (v ∉ l.saved → l.config.Tidy (fun u => debris u ∧ u ≠ v) k.view) := by
  have hrefused : ∀ {e view'}, Store.Refuses ⟨l.config, l.template⟩ value v view e view' →
      r = .error e ∧ k.view = view' := by
    intro e view' hrefuses
    cases r with
    | ok _ =>
      obtain ⟨content, haccepts, -⟩ := h
      exact absurd haccepts hrefuses.not_accepts
    | error e' =>
      obtain ⟨rfl, hview⟩ := Store.Refuses.unique h hrefuses
      exact ⟨rfl, hview⟩
  rw [Ledger.save]
  by_cases hmem : v ∈ l.saved
  · obtain ⟨rfl, hview⟩ := hrefused (.taken ((mem_saved_iff hholds).mp hmem))
    rw [if_pos hmem, hview]
    exact ⟨rfl, hholds, htidy, absurd hmem⟩
  rw [if_neg hmem]
  have habsent : view (l.config.versionName v) = none := by
    rwa [mem_saved_iff hholds, not_not] at hmem
  cases hrefusal : l.config.refusal? value v with
  | some e =>
    obtain ⟨rfl, hview⟩ :=
      hrefused (refuses_of_refusal? (s := ⟨l.config, l.template⟩) htidy habsent hrefusal)
    rw [hview]
    have hcleared := htidy.clear v
    exact ⟨rfl, hholds.congr fun u => Function.update_of_ne (by simp) ..,
      hcleared.mono fun _ hu => hu.1, fun _ => hcleared⟩
  | none =>
    have haccepts := accepts_of_refusal? (s := ⟨l.config, l.template⟩) htidy habsent hrefusal
    cases r with
    | error e => exact absurd haccepts (Store.Refuses.not_accepts h)
    | ok _ =>
      obtain ⟨content, haccepts', hview⟩ := h
      have hinsert := holds_publishing (v := v) hholds hvalue haccepts'.archived
      have hcleared := ((htidy.clear v).update v (some (Store.holding content))).without
        (l.config.evicted (l.saved.insert v value.leaves).keys)
      rw [hview]
      refine ⟨rfl, ?_, hcleared.mono fun _ hu => hu.1, fun _ => hcleared⟩
      dsimp only
      rw [StoreConfig.retain_eq_without]
      exact hinsert.without _

theorem save_config (l : Ledger) (value : Value) (v : UInt64) :
    (l.save value v).2 = { l with saved := (l.save value v).2.saved } := by
  rw [Ledger.save]
  split
  · rfl
  · split <;> rfl

/-- A save that runs by itself. -/
theorem Describes.run_save (h : l.Describes debris σ) {value : Value} (v : UInt64)
    (hvalue : ∀ t ∈ value.leaves, t.WellFormed) :
    (σ.call (.save value v)).1 = .done (l.save value v).1 ∧
      (l.save value v).2.Describes debris (σ.call (.save value v)).2 ∧
      (v ∉ l.saved →
        (l.save value v).2.Describes (fun u => debris u ∧ u ≠ v) (σ.call (.save value v)).2) := by
  obtain ⟨s, w⟩ := σ
  obtain ⟨hstore, hroot, hstem, view, hshows, hholds, htidy⟩ := h
  obtain rfl : s = _ := hstore
  obtain ⟨r, k', w', hrun, hshows', hsaving, halone⟩ :=
    Store.run_save (s := ⟨l.config, l.template⟩) value _ hshows List.not_mem_nil
      (lists_publishing hholds hvalue)
  obtain ⟨rfl, hholds', htidy', hcleared⟩ := save_of_alone hholds htidy hvalue halone
  have hidle : World.Shows True ⟨k'.view, []⟩ w' := ⟨hshows'.files, hshows'.saving.trans hsaving⟩
  rw [Session.call, Session.perform, hrun, save_config]
  exact ⟨rfl, ⟨rfl, hroot, hstem, k'.view, hidle, hholds', htidy'⟩,
    fun hmem => ⟨rfl, hroot, hstem, k'.view, hidle, hholds', hcleared hmem⟩⟩

theorem Describes.save (h : l.Describes debris σ) {value : Value} (v : UInt64)
    (hvalue : ∀ t ∈ value.leaves, t.WellFormed) :
    (σ.call (.save value v)).1 = .done (l.save value v).1 ∧
      (l.save value v).2.Describes debris (σ.call (.save value v)).2 := by
  obtain ⟨hreply, hdescribes, -⟩ := h.run_save v hvalue
  exact ⟨hreply, hdescribes⟩

/-- A load succeeds with the template's names and nesting and the leaves that were saved. -/
theorem load_eq_ok_iff {v : UInt64} {value : Value} : l.load v = .ok value ↔
    ∃ template leaves, l.template = some template ∧ l.saved[v]? = some leaves ∧
      template.SameFrame value ∧ value.leaves = leaves := by
  rw [Ledger.load]
  cases l.template with
  | none => simp
  | some template =>
    cases l.saved[v]? with
    | none => simp
    | some leaves =>
      have hpack : (template.pack leaves).mapError StoreError.structureMismatch = .ok value ↔
          template.pack leaves = .ok value := by
        cases template.pack leaves <;> simp [Except.mapError]
      rw [hpack, Value.pack_eq_ok_iff]
      constructor
      · exact fun h => ⟨template, leaves, rfl, rfl, h⟩
      · rintro ⟨_, _, ⟨⟩, ⟨⟩, h⟩
        exact h

theorem Describes.load (h : l.Describes debris σ) (v : UInt64) :
    ∃ w', (σ.store.load v).run.run σ.world = (l.load v, w') ∧ l.Describes debris ⟨σ.store, w'⟩ := by
  obtain ⟨s, w⟩ := σ
  obtain ⟨c, template, saved⟩ := l
  obtain ⟨hstore, hroot, hstem, view, hshows, hholds, htidy⟩ := h
  obtain rfl : s = ⟨c, template⟩ := hstore
  cases template with
  | none => exact ⟨w, Store.run_load_unset rfl, rfl, hroot, hstem, view, hshows, hholds, htidy⟩
  | some template =>
    rw [Ledger.load]
    cases hsaved : saved[v]? with
    | none =>
      exact ⟨w, Store.run_load_absent rfl hshows (hholds.absent v hsaved), rfl, hroot, hstem, view,
        hshows, hholds, htidy⟩
    | some leaves =>
      obtain ⟨content, named, hview, hnamed, rfl⟩ := hholds.present v leaves hsaved
      obtain ⟨w', hrun, hshows'⟩ :=
        Store.run_load_holding (s := ⟨c, some template⟩) rfl hshows hview hnamed
      exact ⟨w', hrun, rfl, hroot, hstem, view, hshows', hholds, htidy⟩

theorem Describes.remove (h : l.Describes debris σ) (v : UInt64) :
    (σ.call (.remove v)).1 = .done (l.remove v).1 ∧
      (l.remove v).2.Describes debris (σ.call (.remove v)).2 := by
  obtain ⟨s, w⟩ := σ
  obtain ⟨hstore, hroot, hstem, view, hshows, hholds, htidy⟩ := h
  obtain rfl : s = _ := hstore
  rw [Session.call, Session.perform, Ledger.remove]
  by_cases hmem : v ∈ l.saved
  · rw [if_pos hmem]
    obtain ⟨leaves, hleaves⟩ := Table.mem_iff.mp hmem
    obtain ⟨content, named, hview, -⟩ := hholds.present v leaves hleaves
    obtain ⟨w', hrun, hshows'⟩ :=
      Store.run_remove_directory (s := ⟨l.config, l.template⟩) hshows hview
    rw [hrun]
    exact ⟨rfl, rfl, hroot, hstem, _, hshows', hholds.erase v, htidy.update v none⟩
  · rw [if_neg hmem]
    rw [mem_saved_iff hholds, not_not] at hmem
    by_cases hname : Admissible (l.config.versionName v)
    · rw [if_pos hname, Store.run_remove_absent (s := ⟨l.config, l.template⟩) hshows hname hmem]
      exact ⟨rfl, rfl, hroot, hstem, view, hshows, hholds, htidy⟩
    · rw [if_neg hname, Store.run_remove_refused (s := ⟨l.config, l.template⟩) hshows hname]
      exact ⟨rfl, rfl, hroot, hstem, view, hshows, hholds, htidy⟩

theorem Describes.versions (h : l.Describes debris σ) :
    σ.store.versions.run.run σ.world = (.ok (listing l.saved.keys), σ.world) := by
  obtain ⟨s, w⟩ := σ
  obtain ⟨hstore, -, -, view, hshows, hholds, -⟩ := h
  obtain rfl : s = _ := hstore
  exact Store.run_versions hshows hholds.lists

theorem Describes.loadLatest (h : l.Describes debris σ) :
    ∃ w', σ.store.loadLatest.run.run σ.world = (l.loadLatest, w') ∧
      l.Describes debris ⟨σ.store, w'⟩ := by
  rw [Store.loadLatest, Store.run_bind, h.versions]
  dsimp only
  rw [Table.getLast?_listing_keys, Ledger.loadLatest]
  cases l.saved.maxKey? with
  | none => exact ⟨σ.world, rfl, h⟩
  | some latest =>
    obtain ⟨w', hrun, hdescribes⟩ := h.load latest
    refine ⟨w', ?_, hdescribes⟩
    dsimp only
    rw [Store.run_bind, hrun]
    cases l.load latest <;> rfl

/-- A call is answered as the ledger answers it, and the ledger tells what it leaves. -/
theorem Describes.call (h : l.Describes debris σ) (call : Call) (hcall : call.WellFormed) :
    (σ.call call).1 = (l.call call).1 ∧ (l.call call).2.Describes debris (σ.call call).2 := by
  cases call with
  | save value v => exact h.save v hcall
  | load v =>
    obtain ⟨w', hrun, hdescribes⟩ := h.load v
    rw [Session.call, Session.perform, hrun]
    exact ⟨rfl, hdescribes⟩
  | loadLatest =>
    obtain ⟨w', hrun, hdescribes⟩ := h.loadLatest
    rw [Session.call, Session.perform, hrun]
    exact ⟨rfl, hdescribes⟩
  | versions =>
    rw [Session.call, Session.perform, h.versions]
    exact ⟨rfl, h⟩
  | remove v => exact h.remove v
  | setTemplate template =>
    exact ⟨rfl, by rw [Session.call, h.store]; rfl, h.root, h.stem, h.shelf⟩
  | reopen keepTotal keepFirst =>
    obtain ⟨s, w⟩ := σ
    obtain ⟨hstore, hroot, hstem, view, hshows, hholds, htidy⟩ := h
    obtain rfl : s = _ := hstore
    have hidle : World.Shows True ⟨view, []⟩ { w with saving := [] } := ⟨hshows.files, rfl⟩
    obtain ⟨w', hrun, hshows'⟩ :=
      Store.run_create (c := { l.config with keepTotal, keepFirst }) hroot hstem hidle
    rw [Session.call, hrun]
    exact ⟨rfl, rfl, hroot, hstem, view, hshows', ⟨hholds.absent, hholds.present⟩, htidy⟩

/-- There are no staging directories but the debris. -/
theorem Describes.present_stagingName (h : l.Describes debris σ) {u : UInt64} (hu : ¬ debris u) :
    σ.world.files.present [l.config.stagingName u] = false := by
  obtain ⟨-, -, -, view, hshows, -, htidy⟩ := h
  have hnone := htidy.view_stagingName hu
  rw [FileTree.present_single hshows.files]
  exact Option.isSome_eq_false_iff.mpr (Option.isNone_iff_eq_none.mpr hnone)

/-- Whatever the calls are, the files give the answers of the ledger. -/
theorem Describes.replies (h : l.Describes debris σ) {calls : List Call}
    (hcalls : ∀ call ∈ calls, call.WellFormed) : σ.replies calls = l.replies calls := by
  induction calls generalizing l σ with
  | nil => rfl
  | cons call rest ih =>
    obtain ⟨hreply, hnext⟩ := h.call call (hcalls call List.mem_cons_self)
    rw [Session.replies, Ledger.replies, hreply,
      ih hnext fun call hcall => hcalls call (List.mem_cons_of_mem _ hcall)]

theorem describes_fresh {c : StoreConfig} (hroot : c.root ≠ "") (hstem : '/' ∉ c.stem.toList) :
    Describes ⟨c, none, ∅⟩ (fun _ => False) (Session.fresh c) := by
  refine ⟨rfl, hroot, hstem, fun _ => none, ⟨⟨?_, ?_, List.nodup_nil, ?_, fun _ => rfl⟩, rfl⟩,
    ⟨fun _ _ => rfl, ?_⟩, fun _ h => absurd rfl h⟩
  · exact fun _ h => nomatch h
  · exact fun _ => Option.some_ne_none _
  · exact fun _ h => absurd rfl h
  · intro u leaves hu
    simp at hu

end Ledger

/-- From an empty root on, a store answers all calls as a table from versions to leaves
answers them. What is loaded is the template with exactly the leaves that were saved. -/
theorem Session.replies_eq_ledger (c : StoreConfig) {calls : List Call}
    (hcalls : ∀ call ∈ calls, call.WellFormed) :
    (Session.start c).map (·.replies calls) = (Ledger.start c).map (·.replies calls) ∧
      ∀ (l : Ledger) (v : UInt64) (value : Value), l.load v = .ok value ↔
        ∃ template leaves, l.template = some template ∧ l.saved[v]? = some leaves ∧
          template.SameFrame value ∧ value.leaves = leaves := by
  refine ⟨?_, fun l v value => Ledger.load_eq_ok_iff⟩
  rw [Session.start_eq, Ledger.start]
  split_ifs with hroot hstem
  · rfl
  · rfl
  · exact congrArg Except.ok ((Ledger.describes_fresh hroot hstem).replies hcalls)

theorem Session.replies_eq_ledger_unordered :
    let value : Value := .struct [(some "step", .tensor ⟨[], .int64 [7]⟩)]
    let calls : List Call := [.load 5, .setTemplate value, .save value 5, .save value 2,
      .save value 9, .save value 9, .versions, .loadLatest, .remove 5, .reopen 0 false, .load 9]
    (Session.start ⟨"states", "v", 1, true⟩).map (·.replies calls) =
        (Ledger.start ⟨"states", "v", 1, true⟩).map (·.replies calls) ∧
      ∀ (l : Ledger) (v : UInt64) (value : Value), l.load v = .ok value ↔
        ∃ template leaves, l.template = some template ∧ l.saved[v]? = some leaves ∧
          template.SameFrame value ∧ value.leaves = leaves := by
  refine Session.replies_eq_ledger _ fun call hcall => ?_
  have hleaf : Tensor.WellFormed ⟨[], .int64 [7]⟩ := ⟨by decide, by simp⟩
  simp only [List.mem_cons, List.not_mem_nil, or_false] at hcall
  rcases hcall with rfl | rfl | rfl | rfl | rfl | rfl | rfl | rfl | rfl | rfl | rfl <;>
    simp [Call.WellFormed, Value.leaves, Value.elementLeaves, hleaf]

/-- Not every version that is absent can be saved: with a stem of 250 letters the staging
directory's name is too long for a file system. -/
theorem Session.save_refused_longStem : ¬ ∀ (c : StoreConfig) (σ : Session) (value : Value)
    (v : UInt64), Session.start c = .ok σ → (∀ t ∈ value.leaves, t.WellFormed) →
      (σ.call (.save value v)).1 = .done (.ok ()) := by
  intro h
  obtain ⟨c, hroot, hstem, hname⟩ := StoreConfig.exists_longStemmed
  have hsession : Session.start c = .ok (Session.fresh c) := by
    rw [Session.start_eq, if_neg hroot, if_neg hstem]
  have hvalue : ∀ t ∈ (Value.struct []).leaves, t.WellFormed := by
    simp [Value.leaves, Value.elementLeaves]
  have hreply := h c _ (.struct []) 1 hsession hvalue
  rw [((Ledger.describes_fresh hroot hstem).save 1 hvalue).1, Ledger.save, if_neg (by simp),
    StoreConfig.refusal?, if_neg (hname 1)] at hreply
  cases hreply

end GraphFusion
