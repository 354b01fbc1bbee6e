import GraphFusion.Proofs.Store.Interleaving
import GraphFusion.Proofs.Store.Operations

/-!
The phases of a save, and what moves it from one to the next. Each action of a save
is one of these moves, whatever others do in between, as long as nobody else touches
the staging directory of its version or publishes that version.
-/

namespace GraphFusion

/-- What a save has done so far. -/
inductive Phase where
  | waiting
  | held
  /-- The version was not there. -/
  | absent
  /-- Something is in the staging directory's place. -/
  | leftover
  /-- Nothing is in the staging directory's place. -/
  | vacant
  | staged
  | torn
  | filled
  | published
  | listing
  /-- The given versions are left to be removed; if there are none, all is done. -/
  | pruning (rest : List UInt64)
  | failed (error : StoreError)
  | finished (result : Except StoreError Unit)

namespace Phase

/-- Whether the version is acquired and not yet released. -/
def holds : Phase → Bool
  | waiting | finished _ => false
  | _ => true

/-- The phase `p` after a success, and the failed phase after an error. -/
def after (p : Phase) : Except StoreError Unit → Phase
  | .ok () => p
  | .error e => failed e

end Phase

namespace Store

/-- The moves of a save of `value` under the version `v`. -/
inductive Move (s : Store) (value : Value) (v : UInt64) : Shelf → Phase → Shelf → Phase → Prop
  | acquire {k : Shelf} (h : v ∉ k.saving) :
      Move s value v k .waiting { k with saving := v :: k.saving } .held
  | refuse {k : Shelf} (h : k.view (s.config.versionName v) ≠ none) :
      Move s value v k .held k (.failed (.versionAlreadyExists v))
  | free {k : Shelf} (h : k.view (s.config.versionName v) = none) :
      Move s value v k .held k .absent
  | meet {k : Shelf} (h : k.view (s.config.stagingName v) ≠ none) :
      Move s value v k .absent k .leftover
  | miss {k : Shelf} (h : k.view (s.config.stagingName v) = none) :
      Move s value v k .absent k .vacant
  | clear {k : Shelf} {es : List (String × Node)}
      (h : k.view (s.config.stagingName v) = some (.directory es)) :
      Move s value v k .leftover (k.set (s.config.stagingName v) none) .vacant
  | obstruct {k : Shelf} {content : List UInt8}
      (h : k.view (s.config.stagingName v) = some (.file content)) :
      Move s value v k .leftover k (.failed (.file (s.stagingPath v) .notADirectory))
  | stage {k : Shelf} (h : Admissible (s.config.stagingName v)) :
      Move s value v k .vacant (k.set (s.config.stagingName v) (some (.directory []))) .staged
  | misname {k : Shelf} (h : ¬ Admissible (s.config.stagingName v)) :
      Move s value v k .vacant k (.failed (.file (s.stagingPath v) .badName))
  | abandon {k : Shelf} {e : ArchiveError} (h : Archive.ofLeaves value.namedLeaves = .error e) :
      Move s value v k .staged (k.set (s.config.stagingName v) none)
        (.failed (.archive (s.stagingPath v ++ "/" ++ stateFile) e))
  | tear {k : Shelf} (part : List UInt8) :
      Move s value v k .staged (k.set (s.config.stagingName v) (some (holding part))) .torn
  | fill {k : Shelf} {content : List UInt8} (h : Archive.ofLeaves value.namedLeaves = .ok content) :
      Move s value v k .staged (k.set (s.config.stagingName v) (some (holding content))) .filled
  | publish {k : Shelf} {node : Node} (h : k.view (s.config.stagingName v) = some node) :
      Move s value v k .filled
        ((k.set (s.config.stagingName v) none).set (s.config.versionName v) (some node)) .published
  | keepAll {k : Shelf} (h : s.config.keepTotal = 0) :
      Move s value v k .published k (.pruning [])
  | retain {k : Shelf} (h : s.config.keepTotal ≠ 0) : Move s value v k .published k .listing
  | list {k : Shelf} {versions : List UInt64} (h : s.config.Lists k.view versions)
      (hnames : ∀ u ∈ versions, Admissible (s.config.versionName u)) :
      Move s value v k .listing k (.pruning (s.config.evicted versions))
  | drop {k : Shelf} {u : UInt64} {rest : List UInt64} {es : List (String × Node)}
      (h : k.view (s.config.versionName u) = some (.directory es)) :
      Move s value v k (.pruning (u :: rest)) (k.set (s.config.versionName u) none) (.pruning rest)
  | skip {k : Shelf} {u : UInt64} {rest : List UInt64}
      (h : k.view (s.config.versionName u) = none) :
      Move s value v k (.pruning (u :: rest)) k (.pruning rest)
  | balk {k : Shelf} {u : UInt64} {rest : List UInt64} {content : List UInt8}
      (h : k.view (s.config.versionName u) = some (.file content)) :
      Move s value v k (.pruning (u :: rest)) k (.failed (.file (s.versionPath u) .notADirectory))
  | release {k : Shelf} (result : Except StoreError Unit) :
      Move s value v k (Phase.after (.pruning []) result)
        { k with saving := k.saving.filter (· != v) } (.finished result)

/-- What a save relies on in a phase: the version is not there before it is
published, and the staging directory is as the save left it. -/
def Fits (s : Store) (value : Value) (v : UInt64) (k : Shelf) : Phase → Prop
  | .absent => k.view (s.config.versionName v) = none
  | .leftover => k.view (s.config.versionName v) = none ∧ k.view (s.config.stagingName v) ≠ none
  | .vacant => k.view (s.config.versionName v) = none ∧ k.view (s.config.stagingName v) = none
  | .staged => k.view (s.config.versionName v) = none ∧
      k.view (s.config.stagingName v) = some (.directory [])
  | .filled => k.view (s.config.versionName v) = none ∧
      ∃ content, Archive.ofLeaves value.namedLeaves = .ok content ∧
        k.view (s.config.stagingName v) = some (holding content)
  | .pruning rest => ∀ u ∈ rest, Admissible (s.config.versionName u)
  | _ => True

/-- A save as a machine; it waits while its version is being saved by another. -/
def saver (s : Store) (value : Value) (v : UInt64) : Machine Shelf Phase where
  fits := s.Fits value v
  waits k p := p = .waiting ∧ v ∈ k.saving
  moves := s.Move value v

section Following

variable {s : Store} {value : Value} {v : UInt64} {rooted : Prop}

/-- A script follows the save from phase `p`, and `post` holds of its result and the
last phase. -/
abbrev Saves (s : Store) (value : Value) (v : UInt64) (rooted : Prop) {α : Type}
    (post : Except StoreError α → Phase → Prop) (script : StoreScript α) (p : Phase) : Prop :=
  script.run.Follows (World.Shows rooted) (s.saver value v) post p

theorem Saves.bind {α β : Type} {post : Except StoreError α → Phase → Prop}
    {post' : Except StoreError β → Phase → Prop} {script : StoreScript α} {f : α → StoreScript β}
    {p : Phase} (h : Saves s value v rooted post script p)
    (hok : ∀ a p', post (.ok a) p' → Saves s value v rooted post' (f a) p')
    (herror : ∀ e p', post (.error e) p' → post' (.error e) p') :
    Saves s value v rooted post' (script >>= f) p := by
  refine Script.Follows.bind h fun r p' hr => ?_
  cases r with
  | ok a => exact hok a p' hr
  | error e => exact herror e p' hr

theorem saves_lift {α β : Type} {post : α → Phase → Prop}
    {post' : Except StoreError β → Phase → Prop} {script : Script α} {f : α → StoreScript β}
    {p : Phase} (h : script.Follows (World.Shows rooted) (s.saver value v) post p)
    (hf : ∀ a p', post a p' → Saves s value v rooted post' (f a) p') :
    Saves s value v rooted post' (ExceptT.lift script >>= f) p := by
  have hlift : Saves s value v rooted (fun r p' => ∃ a, r = .ok a ∧ post a p')
      (ExceptT.lift script) p := Script.Follows.bind h fun a _ ha => ⟨a, rfl, ha⟩
  refine Saves.bind hlift ?_ ?_
  · rintro a p' ⟨_, ⟨⟩, ha⟩
    exact hf a p' ha
  · rintro e p' ⟨_, ⟨⟩, -⟩

theorem saves_act {β : Type} (action : Action) {f : action.Answer → StoreScript β}
    {post : Except StoreError β → Phase → Prop} {p : Phase} (hplain : action.plain = true)
    (h : ∀ k w, World.Shows rooted k w → s.Fits value v k p → ∃ k' p',
      (s.saver value v).Leads k p k' p' ∧ World.Shows rooted k' (action.run w).2 ∧
        Saves s value v rooted post (f (action.run w).1) p') :
    Saves s value v rooted post (act action >>= f) p :=
  Script.follows_plain hplain h

theorem saves_pure {α : Type} {post : Except StoreError α → Phase → Prop} {a : α} {p : Phase}
    (h : post (.ok a) p) : Saves s value v rooted post (pure a) p := h

theorem saves_throw {α : Type} {post : Except StoreError α → Phase → Prop} {e : StoreError}
    {p : Phase} (h : post (.error e) p) : Saves s value v rooted post (throw e) p := h

/-- A report changes nothing that matters. -/
theorem saves_report {β : Type} {event : StoreEvent} {f : Unit → StoreScript β}
    {post : Except StoreError β → Phase → Prop} {p : Phase}
    (h : Saves s value v rooted post (f ()) p) :
    Saves s value v rooted post (act (.report event) >>= f) p :=
  saves_act _ rfl fun k _ hshows _ => ⟨k, p, .stay, hshows.withEvents _, h⟩

theorem saves_makeStaging : Saves s value v rooted (fun r p => p = Phase.staged.after r)
    (onFiles (s.stagingPath v) (Script.act (.createDirectories [s.config.stagingName v])))
    .vacant := by
  refine saves_act (.createDirectories [s.config.stagingName v]) rfl
    fun k w hshows hfits => ?_
  by_cases hname : Admissible (s.config.stagingName v)
  · obtain ⟨files, hfiles, hshows'⟩ := FileTree.createDirectories_absent hshows.files hname hfits.2
    rw [Action.run, hfiles]
    exact ⟨_, _, .move (.stage hname), hshows.withFiles hshows', rfl⟩
  · obtain ⟨files, hfiles, hshows'⟩ := FileTree.createDirectories_inadmissible hshows.files hname
    rw [Action.run, hfiles]
    exact ⟨_, _, .move (.misname hname), ⟨hshows', hshows.saving⟩, rfl⟩

theorem saves_clearStaging : Saves s value v rooted (fun r p => p = Phase.vacant.after r)
    (onFiles (s.stagingPath v) (Script.act (.removeDirectory [s.config.stagingName v])))
    .leftover := by
  refine saves_act (.removeDirectory [s.config.stagingName v]) rfl fun k w hshows hfits => ?_
  obtain ⟨node, hnode⟩ := Option.ne_none_iff_exists'.mp hfits.2
  cases node with
  | file content =>
    rw [Action.run, FileTree.removeDirectory_file hshows.files hnode]
    exact ⟨k, _, .move (.obstruct hnode), hshows, rfl⟩
  | directory es =>
    obtain ⟨files, hfiles, hshows'⟩ := FileTree.removeDirectory_directory hshows.files hnode
    rw [Action.run, hfiles]
    exact ⟨_, _, .move (.clear hnode), hshows.withFiles hshows', rfl⟩

theorem saves_stage : Saves s value v rooted (fun r p => p = Phase.staged.after r) (s.stage v)
    .absent := by
  refine saves_act _ rfl fun k w hshows hfits => ?_
  have hpresent : (Action.present [s.config.stagingName v]).run w =
      ((k.view (s.config.stagingName v)).isSome, w) :=
    Prod.ext (FileTree.present_single hshows.files) rfl
  rw [hpresent]
  cases hview : k.view (s.config.stagingName v) with
  | none => exact ⟨k, .vacant, .move (.miss hview), hshows, saves_makeStaging⟩
  | some node =>
    have hsome : k.view (s.config.stagingName v) ≠ none := by
      rw [hview]
      exact Option.some_ne_none node
    refine ⟨k, .leftover, .move (.meet hsome), hshows, saves_report ?_⟩
    refine Saves.bind saves_clearStaging ?_ fun _ _ h => h
    rintro - _ rfl
    exact saves_makeStaging

/-- What filling the staging directory fails with, if it does. -/
def Unarchivable (s : Store) (value : Value) (v : UInt64) (e : StoreError) : Prop :=
  ∃ cause, Archive.ofLeaves value.namedLeaves = .error cause ∧
    e = .archive (s.stagingPath v ++ "/" ++ stateFile) cause

/-- The phase `p` after a success; or the leaves cannot be archived, and the staging
directory is still empty. -/
def Filling (s : Store) (value : Value) (v : UInt64) (p : Phase) (r : Except StoreError Unit)
    (p' : Phase) : Prop :=
  r = .ok () ∧ p' = p ∨ ∃ e, s.Unarchivable value v e ∧ r = .error e ∧ p' = .staged

theorem saves_fill : Saves s value v rooted (s.Filling value v .filled)
    (s.fill v value.namedLeaves) .staged := by
  rw [fill]
  cases hcontent : Archive.ofLeaves value.namedLeaves with
  | error cause => exact .inr ⟨_, ⟨cause, hcontent, rfl⟩, rfl, rfl⟩
  | ok content =>
    have hfile : Admissible stateFile := by decide
    refine fun k w hshows hfits => ⟨fun h => (nomatch h), fun w' htears => ?_, fun _ => ?_⟩
    · obtain ⟨part, hpart⟩ := htears
      obtain ⟨files, hfiles, hshows'⟩ :=
        FileTree.write_inside hshows.files part hfits.2 hfile
      rw [hpart] at hfiles
      cases hfiles
      exact ⟨_, _, .tear part, hshows.withFiles hshows'⟩
    · obtain ⟨files, hfiles, hshows'⟩ :=
        FileTree.write_inside hshows.files content hfits.2 hfile
      rw [Action.run, hfiles]
      exact ⟨_, _, .move (.fill hcontent), hshows.withFiles hshows', .inl ⟨rfl, rfl⟩⟩

theorem saves_publish : Saves s value v rooted (s.Filling value v .published) (s.publish v)
    .filled := by
  refine saves_act _ rfl fun k w hshows hfits => ?_
  obtain ⟨habsent, content, -, hstaged⟩ := hfits
  have hstaging : Admissible (s.config.stagingName v) :=
    hshows.files.admissible _ (by rw [hstaged]; exact Option.some_ne_none _)
  obtain ⟨files, hfiles, hshows'⟩ :=
    FileTree.rename_absent hshows.files hstaged habsent hstaging.of_append
  rw [Action.run, hfiles]
  exact ⟨_, _, .move (.publish hstaged), ⟨hshows', hshows.saving⟩, .inl ⟨rfl, rfl⟩⟩

/-- A removal of a version that was listed: it may be gone by now. -/
theorem saves_remove {u : UInt64} {rest : List UInt64} : Saves s value v rooted
    (fun r p => (r = .ok () ∨ r = .error (.versionNotFound u)) ∧ p = .pruning rest ∨
      r = .error (.file (s.versionPath u) .notADirectory) ∧
        p = .failed (.file (s.versionPath u) .notADirectory))
    (s.remove u) (.pruning (u :: rest)) := by
  refine saves_act _ rfl fun k w hshows hfits => ?_
  have hname := hfits u List.mem_cons_self
  cases hview : k.view (s.config.versionName u) with
  | none =>
    rw [Action.run, FileTree.removeDirectory_absent hshows.files hname hview]
    exact ⟨k, _, .move (.skip hview), hshows, .inl ⟨.inr rfl, rfl⟩⟩
  | some node =>
    cases node with
    | file content =>
      rw [Action.run, FileTree.removeDirectory_file hshows.files hview]
      exact ⟨k, _, .move (.balk hview), hshows, .inr ⟨rfl, rfl⟩⟩
    | directory es =>
      obtain ⟨files, hfiles, hshows'⟩ := FileTree.removeDirectory_directory hshows.files hview
      rw [Action.run, hfiles]
      refine ⟨_, .pruning rest, .move (.drop hview), hshows.withFiles hshows', ?_⟩
      exact saves_report (saves_pure (.inl ⟨.inl rfl, rfl⟩))

theorem saves_removeAll (rest : List UInt64) :
    Saves s value v rooted (fun r p => p = (Phase.pruning []).after r) (s.removeAll rest)
      (.pruning rest) := by
  induction rest with
  | nil => exact saves_pure rfl
  | cons u rest ih =>
    refine saves_lift saves_remove fun r p hr => ?_
    rcases hr with ⟨rfl | rfl, rfl⟩ | ⟨rfl, rfl⟩
    · exact ih
    · exact ih
    · exact saves_throw rfl

theorem saves_versions : Saves s value v rooted (fun r p => ∃ versions,
    r = .ok (listing versions) ∧ p = .pruning (s.config.evicted versions)) s.versions .listing := by
  change Script.Follows _ _ _ s.versions.run _
  rw [versions_eq]
  refine Script.follows_plain rfl fun k w hshows _ => ?_
  obtain ⟨versions, hlists, hlisted⟩ := listed_directories hshows.files (s := s)
  have hnames : ∀ u ∈ versions, Admissible (s.config.versionName u) := by
    intro u hu
    obtain ⟨es, hes⟩ := (hlists.mem u).mp hu
    exact hshows.files.admissible _ (by rw [hes]; exact Option.some_ne_none _)
  exact ⟨k, _, .move (.list hlists hnames), hshows, versions, hlisted, rfl⟩

theorem saves_prune : Saves s value v rooted (fun r p => p = (Phase.pruning []).after r) s.prune
    (if s.config.keepTotal = 0 then .pruning [] else .listing) := by
  rw [prune]
  split
  · exact saves_pure rfl
  · refine Saves.bind saves_versions ?_ ?_
    · rintro a p ⟨versions, hr, rfl⟩
      cases hr
      cases versions with
      | nil =>
        have hnone : s.config.evicted [] = [] := by simp [StoreConfig.evicted]
        rw [hnone]
        exact saves_pure rfl
      | cons u rest => exact saves_removeAll _
    · rintro e p ⟨versions, hr, -⟩
      cases hr

theorem saves_fillPublish : Saves s value v rooted (s.Filling value v .published)
    (do s.fill v value.namedLeaves; s.publish v) .staged := by
  refine Saves.bind saves_fill ?_ ?_
  · rintro ⟨⟩ p (⟨-, rfl⟩ | ⟨e, -, hr, -⟩)
    · exact saves_publish
    · cases hr
  · rintro e p (⟨hr, -⟩ | hfailed)
    · cases hr
    · exact .inr hfailed

theorem saves_saveAlone : Saves s value v rooted (fun r p => p = (Phase.pruning []).after r)
    (s.saveAlone value v) .held := by
  refine saves_act _ rfl fun k w hshows _ => ?_
  have hpresent : (Action.present [s.config.versionName v]).run w =
      ((k.view (s.config.versionName v)).isSome, w) :=
    Prod.ext (FileTree.present_single hshows.files) rfl
  rw [hpresent]
  cases hview : k.view (s.config.versionName v) with
  | some node =>
    have hsome : k.view (s.config.versionName v) ≠ none := by
      rw [hview]
      exact Option.some_ne_none node
    exact ⟨k, _, .move (.refuse hsome), hshows, saves_throw rfl⟩
  | none =>
    refine ⟨k, .absent, .move (.free hview), hshows, ?_⟩
    refine Saves.bind saves_stage ?_ fun _ _ h => h
    rintro ⟨⟩ _ rfl
    refine saves_lift saves_fillPublish fun r p hr => ?_
    rcases hr with ⟨rfl, rfl⟩ | ⟨e, ⟨cause, hcause, rfl⟩, rfl, rfl⟩
    · refine saves_act _ rfl fun k w hshows _ => ?_
      refine ⟨k, if s.config.keepTotal = 0 then .pruning [] else .listing, .move ?_,
        hshows.withEvents _, saves_prune⟩
      split
      · exact .keepAll ‹_›
      · exact .retain ‹_›
    · -- the staging directory is taken away again
      refine saves_act _ rfl fun k w hshows hfits => ?_
      obtain ⟨files, hfiles, hshows'⟩ := FileTree.removeDirectory_directory hshows.files hfits.2
      rw [Action.run, hfiles]
      exact ⟨_, _, .move (.abandon hcause), hshows.withFiles hshows', saves_throw rfl⟩

variable (s value v) in
/-- Every action of a save is one of its moves. -/
theorem saves_save : Saves s value v rooted (fun r p => p = .finished r) (s.save value v)
    .waiting := by
  refine fun k w hshows _ => ?_
  have hready : (Action.acquire v).ready w = !k.saving.contains v := by
    rw [Action.ready, hshows.saving]
  refine ⟨fun hnot => ⟨rfl, ?_⟩, fun _ h => (nomatch h), fun hfree => ?_⟩
  · simpa [hready] using hnot
  · refine ⟨_, .held, .move (.acquire (by simpa [hready] using hfree)),
      ⟨hshows.files, congrArg (v :: ·) hshows.saving⟩, ?_⟩
    refine saves_lift saves_saveAlone fun r p hr => ?_
    subst hr
    refine saves_act _ rfl fun k w hshows _ => ?_
    exact ⟨_, .finished r, .move (.release r),
      ⟨hshows.files, congrArg (List.filter (· != v)) hshows.saving⟩, rfl⟩

end Following

section Moves

variable {s : Store} {value value' : Value} {u v : UInt64} {k k' : Shelf} {p p' q : Phase}

theorem Move.fits (h : s.Move value v k p k' p') (hfits : s.Fits value v k p) :
    s.Fits value v k' p' := by
  cases h with
  | acquire | refuse | obstruct | misname | abandon | tear | publish | retain | balk | release =>
    trivial
  | free hview => exact hview
  | meet hview | miss hview => exact ⟨hfits, hview⟩
  | clear | stage => exact ⟨by simpa using hfits.1, by simp⟩
  | fill hcontent => exact ⟨by simpa using hfits.1, _, hcontent, by simp⟩
  | keepAll => exact fun u hu => (nomatch hu)
  | list hlists hnames =>
    exact fun u hu => hnames u ((StoreConfig.mem_evicted_iff hlists.ascending).mp hu).1
  | drop | skip => exact fun u hu => hfits u (List.mem_cons_of_mem _ hu)

/-- A save acquires its version while it is free, keeps it, and releases it. -/
theorem Move.lock (h : s.Move value v k p k' p') :
    (p = .waiting ∧ p' = .held ∧ v ∉ k.saving ∧ k'.saving = v :: k.saving) ∨
      (p.holds = true ∧ p'.holds = true ∧ k'.saving = k.saving) ∨
      (p.holds = true ∧ p'.holds = false ∧ k'.saving = k.saving.filter (· != v)) := by
  cases h with
  | acquire hfree => exact .inl ⟨rfl, rfl, hfree, rfl⟩
  | release result => exact .inr (.inr ⟨by cases result <;> rfl, rfl, rfl⟩)
  | _ => exact .inr (.inl ⟨rfl, rfl, rfl⟩)

/-- A save leaves the staging directories of other versions alone. -/
theorem Move.view_stagingName (h : s.Move value v k p k' p') (hne : u ≠ v) :
    k'.view (s.config.stagingName u) = k.view (s.config.stagingName u) := by
  cases h <;> simp [hne]

/-- A save publishes no version but its own. -/
theorem Move.view_versionName (h : s.Move value v k p k' p') (hne : u ≠ v)
    (habsent : k.view (s.config.versionName u) = none) :
    k'.view (s.config.versionName u) = none := by
  cases h <;> simp [hne, habsent]

/-- What a save relies on is not changed by a save of another version. -/
theorem Move.fits_other (h : s.Move value v k p k' p') (hne : u ≠ v)
    (hfits : s.Fits value' u k q) : s.Fits value' u k' q := by
  have hstaging := h.view_stagingName hne
  have hname := h.view_versionName hne
  cases q with
  | absent => exact hname hfits
  | leftover | vacant | staged | filled => exact ⟨hname hfits.1, hstaging ▸ hfits.2⟩
  | pruning rest => exact hfits
  | waiting | held | torn | published | listing | failed | finished => trivial

end Moves

end Store

end GraphFusion
