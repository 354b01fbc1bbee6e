import GraphFusion.Proofs.Store.Saving

/-!
A save that runs alone. In each phase the root is what it was at first, but for the
staging directory, the version itself and the versions let go so far. So the save either
fails for one of four reasons and leaves the versions as they were, or it succeeds, and
then exactly the versions that retention keeps are left.
-/

namespace GraphFusion

namespace StoreConfig

variable {c : StoreConfig} {view view' : String → Option Node} {versions : List UInt64}

/-- The view without the given versions. -/
def without (c : StoreConfig) (gone : List UInt64) (view : String → Option Node) (name : String) :
    Option Node :=
  if name ∈ gone.map c.versionName then none else view name

theorem without_versionName {gone : List UInt64} {u : UInt64} :
    c.without gone view (c.versionName u) = if u ∈ gone then none else view (c.versionName u) := by
  simp [without]

theorem without_nil : c.without [] view = view := by
  funext name
  simp [without]

theorem without_append_singleton {gone : List UInt64} {u : UInt64} :
    c.without (gone ++ [u]) view =
      Function.update (c.without gone view) (c.versionName u) none := by
  funext name
  by_cases hname : name = c.versionName u
  · simp [without, hname]
  · simp [without, hname]

theorem Lists.congr (h : c.Lists view versions)
    (hview : ∀ u, view' (c.versionName u) = view (c.versionName u)) : c.Lists view' versions :=
  ⟨h.ascending, fun u => by rw [hview]; exact h.mem u⟩

/-- The list of versions after another one was published. -/
theorem Lists.insert {v : UInt64} (h : c.Lists view versions)
    (habsent : view (c.versionName v) = none) :
    ∃ all : List UInt64, (∀ u, u ∈ all ↔ u = v ∨ u ∈ versions) ∧
      ∀ es, c.Lists (Function.update view (c.versionName v) (some (.directory es))) all := by
  have hout : v ∉ versions := by
    rw [h.mem, habsent]
    simp
  have hmem : ∀ u, u ∈ (v :: versions).mergeSort (fun a b => decide (a ≤ b)) ↔
      u = v ∨ u ∈ versions := fun u => by rw [List.mem_mergeSort, List.mem_cons]
  refine ⟨_, hmem, fun es => ⟨ascending_mergeSort ?_, fun u => ?_⟩⟩
  · exact List.nodup_cons.mpr ⟨hout, nodup_of_ascending h.ascending⟩
  · rw [hmem, h.mem, Function.update_apply]
    by_cases hu : u = v <;> simp [hu]

end StoreConfig

namespace Store

/-- What a save needs to succeed, and the content of the file that it writes. -/
structure Accepts (s : Store) (value : Value) (v : UInt64) (view : String → Option Node)
    (content : List UInt8) : Prop where
  absent : view (s.config.versionName v) = none
  clearable : ∀ c, view (s.config.stagingName v) ≠ some (.file c)
  admissible : Admissible (s.config.stagingName v)
  archived : Archive.ofLeaves value.namedLeaves = .ok content

/-- Why a save fails, and the view that it then leaves. -/
inductive Refuses (s : Store) (value : Value) (v : UInt64) (view : String → Option Node) :
    StoreError → (String → Option Node) → Prop
  | taken (h : view (s.config.versionName v) ≠ none) :
      Refuses s value v view (.versionAlreadyExists v) view
  | obstructed {content : List UInt8} (h : view (s.config.versionName v) = none)
      (hfile : view (s.config.stagingName v) = some (.file content)) :
      Refuses s value v view (.file (s.stagingPath v) .notADirectory) view
  | misnamed (h : view (s.config.versionName v) = none)
      (hclear : ∀ c, view (s.config.stagingName v) ≠ some (.file c))
      (hname : ¬ Admissible (s.config.stagingName v)) :
      Refuses s value v view (.file (s.stagingPath v) .badName)
        (Function.update view (s.config.stagingName v) none)
  | unarchivable {e : ArchiveError} (h : view (s.config.versionName v) = none)
      (hclear : ∀ c, view (s.config.stagingName v) ≠ some (.file c))
      (hname : Admissible (s.config.stagingName v))
      (harchive : Archive.ofLeaves value.namedLeaves = .error e) :
      Refuses s value v view (.archive (s.stagingPath v ++ "/" ++ stateFile) e)
        (Function.update view (s.config.stagingName v) none)

/-- The view after the version was published. -/
def publishing (s : Store) (v : UInt64) (view : String → Option Node) (content : List UInt8) :
    String → Option Node :=
  Function.update (Function.update view (s.config.stagingName v) none) (s.config.versionName v)
    (some (holding content))

theorem publishing_versionName {s : Store} {v : UInt64} {view : String → Option Node}
    {content : List UInt8} (u : UInt64) :
    s.publishing v view content (s.config.versionName u) =
      if u = v then some (holding content) else view (s.config.versionName u) := by
  simp [publishing, Function.update_apply]

/-- The view in a phase of a save that began with `view` and lists the versions `all`. -/
def Alone (s : Store) (value : Value) (v : UInt64) (view : String → Option Node)
    (all : List UInt64) (k : Shelf) : Phase → Prop
  | .waiting | .held => k.view = view
  | .absent | .leftover => view (s.config.versionName v) = none ∧ k.view = view
  | .vacant => view (s.config.versionName v) = none ∧
      (∀ c, view (s.config.stagingName v) ≠ some (.file c)) ∧
      k.view = Function.update view (s.config.stagingName v) none
  | .staged => view (s.config.versionName v) = none ∧
      (∀ c, view (s.config.stagingName v) ≠ some (.file c)) ∧
      Admissible (s.config.stagingName v) ∧
      k.view = Function.update view (s.config.stagingName v) (some (.directory []))
  | .torn => ∃ part, k.view = Function.update view (s.config.stagingName v) (some (holding part))
  | .filled => ∃ content, s.Accepts value v view content ∧
      k.view = Function.update view (s.config.stagingName v) (some (holding content))
  | .published | .listing => ∃ content, s.Accepts value v view content ∧
      k.view = s.publishing v view content
  | .pruning rest => ∃ content gone, s.Accepts value v view content ∧
      s.config.evicted all = gone ++ rest ∧
      k.view = s.config.without gone (s.publishing v view content)
  | .failed e | .finished (.error e) => s.Refuses value v view e k.view
  | .finished (.ok ()) => ∃ content, s.Accepts value v view content ∧
      k.view = s.config.without (s.config.evicted all) (s.publishing v view content)

section

variable {s : Store} {value : Value} {v : UInt64} {view : String → Option Node}
  {all : List UInt64} {k k' : Shelf} {p p' : Phase} {rooted : Prop} {w w' : World}

theorem Move.alone (hall : ∀ content, s.Accepts value v view content →
      s.config.Lists (s.publishing v view content) all)
    (h : s.Move value v k p k' p') (hfits : s.Fits value v k p)
    (halone : s.Alone value v view all k p) : s.Alone value v view all k' p' := by
  cases h with
  | acquire => exact halone
  | refuse hname =>
    have hview : k.view = view := halone
    rw [hview] at hname
    show s.Refuses value v view _ k.view
    rw [hview]
    exact .taken hname
  | free hname =>
    have hview : k.view = view := halone
    exact ⟨hview ▸ hname, hview⟩
  | meet => exact halone
  | miss hstaging =>
    obtain ⟨hname, hview⟩ := halone
    rw [hview] at hstaging
    refine ⟨hname, fun c hc => ?_, ?_⟩
    · rw [hstaging] at hc
      cases hc
    · rw [hview, ← hstaging, Function.update_eq_self]
  | clear hstaging =>
    obtain ⟨hname, hview⟩ := halone
    rw [hview] at hstaging
    refine ⟨hname, fun c hc => ?_, by rw [← hview]; rfl⟩
    rw [hstaging] at hc
    cases hc
  | obstruct hfile =>
    obtain ⟨hname, hview⟩ := halone
    rw [hview] at hfile
    show s.Refuses value v view _ k.view
    rw [hview]
    exact .obstructed hname hfile
  | stage hadmissible =>
    obtain ⟨hname, hclear, hview⟩ := halone
    refine ⟨hname, hclear, hadmissible, ?_⟩
    rw [Shelf.set, hview, Function.update_idem]
  | misname hadmissible =>
    obtain ⟨hname, hclear, hview⟩ := halone
    show s.Refuses value v view _ k.view
    rw [hview]
    exact .misnamed hname hclear hadmissible
  | abandon harchive =>
    obtain ⟨hname, hclear, hadmissible, hview⟩ := halone
    show s.Refuses value v view _ (k.set _ none).view
    rw [Shelf.set, hview, Function.update_idem]
    exact .unarchivable hname hclear hadmissible harchive
  | tear part =>
    obtain ⟨-, -, -, hview⟩ := halone
    exact ⟨part, by rw [Shelf.set, hview, Function.update_idem]⟩
  | @fill content harchive =>
    obtain ⟨hname, hclear, hadmissible, hview⟩ := halone
    refine ⟨content, ⟨hname, hclear, hadmissible, harchive⟩, ?_⟩
    rw [Shelf.set, hview, Function.update_idem]
  | @publish node hnode =>
    obtain ⟨content, haccepts, hview⟩ := halone
    have hcontent : holding content = node := by
      rw [hview, Function.update_self] at hnode
      exact Option.some.inj hnode
    refine ⟨content, haccepts, ?_⟩
    rw [Shelf.set, Shelf.set, hview, Function.update_idem, ← hcontent]
    rfl
  | keepAll hzero =>
    obtain ⟨content, haccepts, hview⟩ := halone
    refine ⟨content, [], haccepts, by simp [StoreConfig.evicted, hzero], ?_⟩
    rw [StoreConfig.without_nil]
    exact hview
  | retain => exact halone
  | list hlists =>
    obtain ⟨content, haccepts, hview⟩ := halone
    have hlists' := hall content haccepts
    rw [← hview] at hlists'
    refine ⟨content, [], haccepts, by rw [hlists.unique hlists', List.nil_append], ?_⟩
    rw [StoreConfig.without_nil]
    exact hview
  | @drop u =>
    obtain ⟨content, gone, haccepts, hgone, hview⟩ := halone
    refine ⟨content, gone ++ [u], haccepts, by rw [hgone, List.append_assoc]; rfl, ?_⟩
    rw [StoreConfig.without_append_singleton, ← hview]
    rfl
  | @skip u _ habsent =>
    obtain ⟨content, gone, haccepts, hgone, hview⟩ := halone
    refine ⟨content, gone ++ [u], haccepts, by rw [hgone, List.append_assoc]; rfl, ?_⟩
    rw [StoreConfig.without_append_singleton, ← hview, ← habsent, Function.update_eq_self]
  | @balk u _ file hfile =>
    -- only directories are listed
    obtain ⟨content, gone, haccepts, hgone, hview⟩ := halone
    have hlists := hall content haccepts
    have hu : u ∈ s.config.evicted all := by rw [hgone]; simp
    obtain ⟨es, hes⟩ := (hlists.mem u).mp ((StoreConfig.mem_evicted_iff hlists.ascending).mp hu).1
    rw [hview, StoreConfig.without_versionName, hes] at hfile
    split at hfile <;> cases hfile
  | release result =>
    cases result with
    | error e => exact halone
    | ok _ =>
      obtain ⟨content, gone, haccepts, hgone, hview⟩ := halone
      exact ⟨content, haccepts, by rw [hgone, List.append_nil]; exact hview⟩

/-- Which versions are being saved in a phase of the save. -/
theorem Move.saving {saving : List UInt64} (hfree : v ∉ saving)
    (h : s.Move value v k p k' p') (hsaving : k.saving = if p.holds then v :: saving else saving) :
    k'.saving = if p'.holds then v :: saving else saving := by
  rcases h.lock with ⟨rfl, rfl, -, hlock⟩ | ⟨hp, hp', hlock⟩ | ⟨hp, hp', hlock⟩
  · rw [hlock, hsaving]
    rfl
  · rw [hlock, hsaving, hp, hp']
  · have hfilter : saving.filter (· != v) = saving :=
      List.filter_eq_self.mpr fun u hu => by simpa using fun h : u = v => hfree (h ▸ hu)
    rw [hlock, hsaving, hp, hp']
    simp [hfilter]

/-- What is known of a save that runs alone, in each of its phases. -/
structure Sole (s : Store) (value : Value) (v : UInt64) (start : Shelf) (all : List UInt64)
    (k : Shelf) (p : Phase) : Prop where
  fits : s.Fits value v k p
  saving : k.saving = if p.holds then v :: start.saving else start.saving
  alone : s.Alone value v start.view all k p

theorem keeps_sole {start : Shelf} (hfree : v ∉ start.saving)
    (hall : ∀ content, s.Accepts value v start.view content →
      s.config.Lists (s.publishing v start.view content) all) :
    (s.saver value v).Keeps (s.Sole value v start all) where
  fits h := h.fits
  awake := by
    rintro k p h ⟨rfl, hwaits⟩
    have hsaving := h.saving
    rw [Phase.holds, if_neg (by decide)] at hsaving
    exact hfree (hsaving ▸ hwaits)
  moves h hmove := ⟨hmove.fits h.fits, hmove.saving hfree h.saving, hmove.alone hall h.fits h.alone⟩

/-- The versions after a save, if it succeeds, before any are let go. -/
theorem exists_publishing {versions : List UInt64} (h : s.config.Lists view versions) (v : UInt64) :
    ∃ all : List UInt64, view (s.config.versionName v) = none →
      (∀ u, u ∈ all ↔ u = v ∨ u ∈ versions) ∧
        ∀ content, s.config.Lists (s.publishing v view content) all := by
  by_cases habsent : view (s.config.versionName v) = none
  · have hcleared : s.config.Lists (Function.update view (s.config.stagingName v) none) versions :=
      h.congr fun u => Function.update_of_ne (by simp) ..
    obtain ⟨all, hmem, hlists⟩ := hcleared.insert (v := v)
      ((Function.update_of_ne (by simp) ..).trans habsent)
    exact ⟨all, fun _ => ⟨hmem, fun content => hlists _⟩⟩
  · exact ⟨versions, fun h => absurd h habsent⟩

variable (value all) in
/-- A save that runs alone ends, with a result and a view as its last phase tells. -/
theorem run_save (h : w.Shows rooted k) (hfree : v ∉ k.saving)
    (hall : ∀ content, s.Accepts value v k.view content →
      s.config.Lists (s.publishing v k.view content) all) :
    ∃ r k' w', (s.save value v).run.run w = (r, w') ∧ w'.Shows rooted k' ∧ k'.saving = k.saving ∧
      s.Alone value v k.view all k' (.finished r) := by
  have hstart : s.Sole value v k all k .waiting := ⟨trivial, rfl, rfl⟩
  obtain ⟨k', p', hshows, hsole, hpost⟩ :=
    (saves_save s value v).run (keeps_sole hfree hall) h hstart
  cases hrun : (s.save value v).run.run w with
  | mk r w' =>
    rw [hrun] at hshows hpost
    subst hpost
    exact ⟨r, k', w', rfl, hshows, hsole.saving, hsole.alone⟩

theorem Refuses.not_accepts {e : StoreError} {view' : String → Option Node} {content : List UInt8}
    (h : s.Refuses value v view e view') : ¬ s.Accepts value v view content := by
  rintro ⟨habsent, hclear, hname, harchived⟩
  cases h with
  | taken h => exact h habsent
  | obstructed _ hfile => exact hclear _ hfile
  | misnamed _ _ hname' => exact hname' hname
  | unarchivable _ _ _ harchive =>
    rw [harchived] at harchive
    cases harchive

theorem accepts_or_refuses (s : Store) (value : Value) (v : UInt64)
    (view : String → Option Node) :
    (∃ content, s.Accepts value v view content) ∨ ∃ e view', s.Refuses value v view e view' := by
  by_cases habsent : view (s.config.versionName v) = none
  · by_cases hfile : ∃ content, view (s.config.stagingName v) = some (.file content)
    · obtain ⟨content, hfile⟩ := hfile
      exact .inr ⟨_, _, .obstructed habsent hfile⟩
    · have hclear : ∀ c, view (s.config.stagingName v) ≠ some (.file c) :=
        fun c hc => hfile ⟨c, hc⟩
      by_cases hname : Admissible (s.config.stagingName v)
      · cases harchive : Archive.ofLeaves value.namedLeaves with
        | ok content => exact .inl ⟨content, habsent, hclear, hname, harchive⟩
        | error e => exact .inr ⟨_, _, .unarchivable habsent hclear hname harchive⟩
      · exact .inr ⟨_, _, .misnamed habsent hclear hname⟩
  · exact .inr ⟨_, _, .taken habsent⟩

theorem Refuses.unique {e e' : StoreError} {view' view'' : String → Option Node}
    (h : s.Refuses value v view e view') (h' : s.Refuses value v view e' view'') :
    e = e' ∧ view' = view'' := by
  cases h with
  | taken hpresent =>
    cases h' with
    | taken => exact ⟨rfl, rfl⟩
    | obstructed habsent | misnamed habsent | unarchivable habsent =>
      exact absurd habsent hpresent
  | obstructed habsent hfile =>
    cases h' with
    | taken hpresent => exact absurd habsent hpresent
    | obstructed => exact ⟨rfl, rfl⟩
    | misnamed _ hclear | unarchivable _ hclear => exact absurd hfile (hclear _)
  | misnamed habsent hclear hname =>
    cases h' with
    | taken hpresent => exact absurd habsent hpresent
    | obstructed _ hfile => exact absurd hfile (hclear _)
    | misnamed => exact ⟨rfl, rfl⟩
    | unarchivable _ _ hname' => exact absurd hname' hname
  | unarchivable habsent hclear hname harchive =>
    cases h' with
    | taken hpresent => exact absurd habsent hpresent
    | obstructed _ hfile => exact absurd hfile (hclear _)
    | misnamed _ _ hname' => exact absurd hname hname'
    | unarchivable _ _ _ harchive' =>
      rw [harchive] at harchive'
      cases harchive'
      exact ⟨rfl, rfl⟩

/-- A save that runs alone and is accepted publishes the version and then lets go what
retention does not keep. -/
theorem run_save_accepted {before : List UInt64} {content : List UInt8} (h : w.Shows rooted k)
    (hfree : v ∉ k.saving) (hlists : s.config.Lists k.view before)
    (haccepts : s.Accepts value v k.view content) :
    ∃ all w', (s.save value v).run.run w = (.ok (), w') ∧
      (∀ u, u ∈ all ↔ u = v ∨ u ∈ before) ∧
      s.config.Lists (s.publishing v k.view content) all ∧
      w'.Shows rooted { k with
        view := s.config.without (s.config.evicted all) (s.publishing v k.view content) } := by
  obtain ⟨all, hall⟩ := exists_publishing hlists v
  obtain ⟨hmem, hall⟩ := hall haccepts.absent
  obtain ⟨r, k', w', hrun, hshows, hsaving, halone⟩ :=
    run_save (s := s) value all h hfree fun content _ => hall content
  cases r with
  | error e => exact absurd haccepts (Refuses.not_accepts halone)
  | ok _ =>
    obtain ⟨content', haccepts', hview⟩ := halone
    have hcontent : content' = content :=
      Except.ok.inj (haccepts'.archived.symm.trans haccepts.archived)
    subst hcontent
    refine ⟨all, w', hrun, hmem, hall _, ?_⟩
    rw [← hview, ← hsaving]
    exact hshows

variable (value) in
/-- A save that runs alone and is refused answers why. -/
theorem run_save_refused {e : StoreError} {view' : String → Option Node} (h : w.Shows rooted k)
    (hfree : v ∉ k.saving) (hrefuses : s.Refuses value v k.view e view') :
    ∃ w', (s.save value v).run.run w = (.error e, w') ∧
      w'.Shows rooted { k with view := view' } := by
  obtain ⟨r, k', w', hrun, hshows, hsaving, halone⟩ :=
    run_save (s := s) value [] h hfree
      fun content haccepts => absurd haccepts hrefuses.not_accepts
  cases r with
  | ok _ =>
    obtain ⟨content, haccepts, -⟩ := halone
    exact absurd haccepts hrefuses.not_accepts
  | error e' =>
    obtain ⟨rfl, hview⟩ := hrefuses.unique halone
    refine ⟨w', hrun, ?_⟩
    rw [hview, ← hsaving]
    exact hshows

end

end Store

end GraphFusion
