import GraphFusion.Proofs.Store.Batches
import GraphFusion.Proofs.Store.Crash
import GraphFusion.Proofs.Store.Locking

/-!
Threads that save under different versions through one store. Each lists the versions at
some moment and later removes those that retention lets go, while others publish new ones.
No such choice is wrong in the end: a version let go among fewer versions is let go among
all, and the last thread to list sees every version that is kept. So the outcome is that
of retention on all versions at once, however the threads take turns.
-/

namespace GraphFusion

namespace Phase

/-- Whether the save's own staging directory is there. -/
def stages : Phase → Bool
  | staged | torn | filled => true
  | _ => false

/-- Whether the save has published its version. -/
def hasPublished : Phase → Bool
  | published | listing | pruning _ | finished (.ok _) => true
  | _ => false

/-- Whether the save has chosen the versions that it lets go. -/
def hasChosen : Phase → Bool
  | pruning _ | finished (.ok _) => true
  | _ => false

/-- The versions that the save is still to remove. -/
def rest : Phase → List UInt64
  | pruning rest => rest
  | _ => []

theorem hasPublished_of_hasChosen {p : Phase} (h : p.hasChosen = true) : p.hasPublished = true := by
  cases p with
  | pruning => rfl
  | finished result =>
    cases result with
    | ok _ => rfl
    | error _ => cases h
  | _ => cases h

end Phase

namespace StoreConfig

/-- What the phase of a save tells of whether the value can be saved under the version. -/
def Course (c : StoreConfig) (value : Value) (v : UInt64) : Phase → Prop
  | .leftover => False
  | .staged | .torn => Admissible (c.stagingName v)
  | .filled | .published | .listing | .pruning _ | .finished (.ok _) => c.refusal? value v = none
  | .failed e | .finished (.error e) => c.refusal? value v = some e
  | .waiting | .held | .absent | .vacant => True

theorem verdict_of_course {c : StoreConfig} {value : Value} {v : UInt64}
    {result : Except StoreError Unit} (h : c.Course value v (.finished result)) :
    result = c.verdict value v := by
  cases result with
  | error e =>
    have hrefusal : c.refusal? value v = some e := h
    rw [verdict, hrefusal]
  | ok _ =>
    have hrefusal : c.refusal? value v = none := h
    rw [verdict, hrefusal]

end StoreConfig

namespace Store

variable {s : Store} {value : Value} {v : UInt64} {k k' : Shelf} {p p' : Phase}

/-- A save that finds nothing in its way takes its course. -/
theorem Move.course (h : s.Move value v k p k' p')
    (habsent : p = .held → k.view (s.config.versionName v) = none)
    (hvacant : p = .absent → k.view (s.config.stagingName v) = none)
    (hdirectories : ∀ u content, k.view (s.config.versionName u) ≠ some (.file content))
    (hcourse : s.config.Course value v p) : s.config.Course value v p' := by
  cases h with
  | acquire | free | miss | clear => trivial
  | refuse hview => exact absurd (habsent rfl) hview
  | meet hview => exact absurd (hvacant rfl) hview
  | obstruct => exact hcourse.elim
  | stage hname => exact hname
  | misname hname => exact if_neg hname
  | @abandon e harchive =>
    have hobstacle := Archive.ofLeaves_eq_error_iff.mp harchive
    exact (if_pos hcourse).trans (by rw [hobstacle]; rfl)
  | tear => exact hcourse
  | @fill content harchive =>
    have hobstacle := (Archive.ofLeaves_eq_ok_iff.mp harchive).1
    exact (if_pos hcourse).trans (by rw [hobstacle]; rfl)
  | publish | keepAll | retain | list | drop | skip => exact hcourse
  | @balk u _ content hview => exact absurd hview (hdirectories u content)
  | release result => cases result <;> exact hcourse

/-- Besides its version and its staging directory, a save adds nothing to the root. -/
theorem Move.tidy {debris : UInt64 → Prop} (h : s.Move value v k p k' p') (hp : p ≠ .leftover)
    (htidy : s.config.Tidy (fun u => debris u ∨ u = v ∧ p.stages = true) k.view) :
    s.config.Tidy (fun u => debris u ∨ u = v ∧ p'.stages = true) k'.view := by
  have hstaged : ∀ es, s.config.Tidy (fun u => debris u ∨ u = v ∧ true = true)
      (Function.update k.view (s.config.stagingName v) (some (.directory es))) := fun es =>
    (htidy.stage v es).mono fun u hu => hu.elim (fun hu => hu.imp_right fun h => ⟨h.1, rfl⟩)
      fun hu => .inr ⟨hu, rfl⟩
  have hcleared : s.config.Tidy (fun u => debris u ∨ u = v ∧ false = true)
      (Function.update k.view (s.config.stagingName v) none) :=
    (htidy.clear v).mono fun u hu => .inl (hu.1.resolve_right fun h => hu.2 h.1)
  cases h with
  | acquire | refuse | free | meet | miss | misname | keepAll | retain | list | skip | balk =>
    exact htidy
  | clear | obstruct => exact absurd rfl hp
  | stage | tear | fill => exact hstaged _
  | abandon => exact hcleared
  | publish => exact hcleared.update v _
  | @drop u => exact htidy.update u none
  | release result => cases result <;> exact htidy

end Store

namespace Ledger

variable {ι : Type} {l : Ledger} {value : ι → Value} {version : ι → UInt64}
  {all final saved : Table} {k k' : Shelf} {g g' : ι → Phase} {i : ι} {p' : Phase}
  {u : UInt64} {leaves : List Tensor}

/-- The version was there before, or a thread has published it. -/
def Arrived (l : Ledger) (version : ι → UInt64) (g : ι → Phase) (u : UInt64) : Prop :=
  u ∈ l.saved ∨ ∃ i, version i = u ∧ (g i).hasPublished = true

/-- What the saves come to: `all` are the versions of before and those that can be saved,
and `final` are those of them that are kept. If none can be saved, none is let go. -/
structure Settles (l : Ledger) (value : ι → Value) (version : ι → UInt64) (all final : Table) :
    Prop where
  all_iff : ∀ u leaves, all[u]? = some leaves ↔ l.saved[u]? = some leaves ∨
    ∃ i, version i = u ∧ l.config.refusal? (value i) u = none ∧ (value i).leaves = leaves
  kept : ∀ i, l.config.refusal? (value i) (version i) = none → final = l.config.retain all
  idle : (∀ i, l.config.refusal? (value i) (version i) ≠ none) → final = all

/-- While the threads act, the root holds the versions of `saved`. -/
structure Partway (l : Ledger) (value : ι → Value) (version : ι → UInt64) (all final : Table)
    (g : ι → Phase) (saved : Table) : Prop where
  sub : ∀ u leaves, saved[u]? = some leaves → all[u]? = some leaves ∧ l.Arrived version g u
  stays : ∀ u ∈ final, l.Arrived version g u → u ∈ saved
  doomed : ∀ i, ∀ u ∈ (g i).rest, u ∉ final
  /-- What is not kept is about to be removed, or some thread is still to list it. -/
  swept : ∀ u ∈ saved, u ∉ final → (∃ i, u ∈ (g i).rest) ∨
    ∃ i, l.config.refusal? (value i) (version i) = none ∧ (g i).hasChosen = false

theorem Settles.sub (h : l.Settles value version all final) (hu : final[u]? = some leaves) :
    all[u]? = some leaves := by
  by_cases hsome : ∃ i, l.config.refusal? (value i) (version i) = none
  · obtain ⟨i, hi⟩ := hsome
    rw [h.kept i hi, StoreConfig.getElem?_retain] at hu
    split at hu
    · exact hu
    · cases hu
  · rwa [h.idle fun i hi => hsome ⟨i, hi⟩] at hu

/-- When all that can be saved are published, all versions that are kept have arrived. -/
theorem Settles.arrived (h : l.Settles value version all final)
    (hpublished : ∀ i, l.config.refusal? (value i) (version i) = none → (g i).hasPublished = true)
    (hu : u ∈ final) : l.Arrived version g u := by
  obtain ⟨leaves, hleaves⟩ := Table.mem_iff.mp hu
  rcases (h.all_iff u leaves).mp (h.sub hleaves) with hsaved | ⟨i, rfl, hi, -⟩
  · exact .inl (Table.mem_of_getElem? hsaved)
  · exact .inr ⟨i, rfl, hpublished i hi⟩

/-- The phases matter only for what they have published, chosen and are to remove. -/
theorem Partway.congr (h : l.Partway value version all final g saved)
    (hphase : ∀ j, (g' j).hasPublished = (g j).hasPublished ∧ (g' j).hasChosen = (g j).hasChosen ∧
      (g' j).rest = (g j).rest) : l.Partway value version all final g' saved := by
  have harrived : ∀ u, l.Arrived version g' u ↔ l.Arrived version g u := fun u => by
    simp only [Arrived, (hphase _).1]
  refine ⟨fun u leaves hu => ?_, fun u hu hu' => h.stays u hu ((harrived u).mp hu'),
    fun j u hu => h.doomed j u ((hphase j).2.2 ▸ hu), fun u hu hout => ?_⟩
  · rw [harrived]
    exact h.sub u leaves hu
  · simp only [(hphase _).2.1, (hphase _).2.2]
    exact h.swept u hu hout

/-- What is known while threads save under different versions. -/
structure Batch (l : Ledger) (value : ι → Value) (version : ι → UInt64) (all final : Table)
    (k : Shelf) (g : ι → Phase) : Prop where
  guarded : Store.Guarded ⟨l.config, l.template⟩ value version k g
  course : ∀ i, l.config.Course (value i) (version i) (g i)
  tidy : l.config.Tidy (fun u => ∃ i, version i = u ∧ (g i).stages = true) k.view
  table : ∃ saved, l.config.Holds saved k.view ∧ l.Partway value version all final g saved

theorem batch_start (hsettles : l.Settles value version all final)
    (hholds : l.config.Holds l.saved k.view)
    (htidy : l.config.Tidy (fun _ => False) k.view) (hfree : k.saving = []) :
    l.Batch value version all final k fun _ => .waiting := by
  refine ⟨Store.guarded_start hfree, fun _ => trivial, htidy.mono fun _ h => h.elim, l.saved,
    hholds, fun u leaves hu =>
      ⟨(hsettles.all_iff u leaves).mpr (.inl hu), .inl (Table.mem_of_getElem? hu)⟩,
    fun u _ harrived => harrived.resolve_right fun ⟨_, _, h⟩ => (nomatch h),
    fun _ u hu => (nomatch hu), fun u hu hout => .inr ?_⟩
  by_contra hnone
  obtain ⟨leaves, hleaves⟩ := Table.mem_iff.mp hu
  refine hout ?_
  rw [hsettles.idle fun i hi => hnone ⟨i, hi, rfl⟩]
  exact Table.mem_of_getElem? ((hsettles.all_iff u leaves).mpr (.inl hleaves))

/-- Nobody but the thread itself publishes its version. -/
theorem not_arrived (hdistinct : Function.Injective version) (habsent : version i ∉ l.saved)
    (hp : (g i).hasPublished = false) : ¬ l.Arrived version g (version i) := by
  rintro (hsaved | ⟨j, hj, hpublished⟩)
  · exact habsent hsaved
  · rw [hdistinct hj, hp] at hpublished
    cases hpublished

/-- When all that can be saved have chosen and nothing is left to be removed, exactly what is
kept is at the root. -/
theorem Partway.ended (h : l.Partway value version all final g saved)
    (hsettles : l.Settles value version all final)
    (hchosen : ∀ i, l.config.refusal? (value i) (version i) = none → (g i).hasChosen = true)
    (hrest : ∀ i, (g i).rest = []) : saved = final := by
  refine Std.ExtTreeMap.ext_getElem? fun u => ?_
  cases hu : final[u]? with
  | some leaves =>
    have hmem : u ∈ final := Table.mem_of_getElem? hu
    have harrived := hsettles.arrived
      (fun i hi => Phase.hasPublished_of_hasChosen (hchosen i hi)) hmem
    obtain ⟨leaves', hleaves⟩ := Table.mem_iff.mp (h.stays u hmem harrived)
    rw [hleaves, ← (h.sub u leaves' hleaves).1, hsettles.sub hu]
  | none =>
    by_contra hne
    have hout : u ∉ final := fun hmem => Table.mem_iff_ne_none.mp hmem hu
    rcases h.swept u (Table.mem_iff_ne_none.mpr hne) hout with ⟨i, hi⟩ | ⟨i, hi, hnot⟩
    · rw [hrest] at hi
      exact List.not_mem_nil hi
    · rw [hchosen i hi] at hnot
      cases hnot

theorem Batch.ended {results : ι → Except StoreError Unit}
    (h : l.Batch value version all final k g) (hsettles : l.Settles value version all final)
    (hended : ∀ i, g i = .finished (results i)) :
    (∀ i, results i = l.config.verdict (value i) (version i)) ∧
      k.saving = [] ∧ l.config.Holds final k.view ∧ l.config.Tidy (fun _ => False) k.view := by
  have hresults : ∀ i, results i = l.config.verdict (value i) (version i) := fun i =>
    StoreConfig.verdict_of_course (hended i ▸ h.course i)
  obtain ⟨saved, hholds, hpartway⟩ := h.table
  have hsaved : saved = final := by
    refine hpartway.ended hsettles (fun i hi => ?_) fun i => by rw [hended]; rfl
    rw [hended, hresults, StoreConfig.verdict, hi]
    rfl
  refine ⟨hresults, List.eq_nil_iff_forall_not_mem.mpr fun u hu => ?_, hsaved ▸ hholds,
    h.tidy.mono fun u hu => ?_⟩
  · obtain ⟨i, hi, -⟩ := (h.guarded.mem_saving u).mp hu
    rw [hended] at hi
    cases hi
  · obtain ⟨i, -, hi⟩ := hu
    rw [hended] at hi
    cases hi

variable [DecidableEq ι]

theorem Partway.quiet (h : l.Partway value version all final g saved)
    (hpublished : p'.hasPublished = (g i).hasPublished) (hchosen : p'.hasChosen = (g i).hasChosen)
    (hrest : p'.rest = (g i).rest) :
    l.Partway value version all final (Function.update g i p') saved := by
  refine h.congr fun j => ?_
  by_cases hj : j = i
  · subst hj
    rw [Function.update_self]
    exact ⟨hpublished, hchosen, hrest⟩
  · rw [Function.update_of_ne hj]
    exact ⟨rfl, rfl, rfl⟩

theorem arrived_update (hp' : p'.hasPublished = true) :
    l.Arrived version (Function.update g i p') u ↔ l.Arrived version g u ∨ version i = u := by
  constructor
  · rintro (hu | ⟨j, hj, hpublished⟩)
    · exact .inl (.inl hu)
    · by_cases hji : j = i
      · exact .inr (hji ▸ hj)
      · rw [Function.update_of_ne hji] at hpublished
        exact .inl (.inr ⟨j, hj, hpublished⟩)
  · rintro ((hu | ⟨j, hj, hpublished⟩) | hi)
    · exact .inl hu
    · refine .inr ⟨j, hj, ?_⟩
      by_cases hji : j = i
      · rw [hji, Function.update_self, hp']
      · rwa [Function.update_of_ne hji]
    · exact .inr ⟨i, hi, by rwa [Function.update_self]⟩

/-- What other threads are to remove is still to be removed. -/
theorem exists_mem_rest_update (hu : ∃ j, u ∈ (g j).rest) (hi : u ∉ (g i).rest ∨ u ∈ p'.rest) :
    ∃ j, u ∈ (Function.update g i p' j).rest := by
  obtain ⟨j, hj⟩ := hu
  by_cases hji : j = i
  · subst hji
    exact ⟨j, by rw [Function.update_self]; exact hi.resolve_left (absurd hj)⟩
  · exact ⟨j, by rwa [Function.update_of_ne hji]⟩

theorem Partway.doomed_update (h : l.Partway value version all final g saved)
    (hp' : ∀ u ∈ p'.rest, u ∉ final) (j : ι) :
    ∀ u ∈ (Function.update g i p' j).rest, u ∉ final := by
  by_cases hj : j = i
  · subst hj
    rwa [Function.update_self]
  · rw [Function.update_of_ne hj]
    exact h.doomed j

/-- A thread publishes its version. -/
theorem Partway.publish (h : l.Partway value version all final g saved)
    (hall : all[version i]? = some leaves)
    (haccepted : l.config.refusal? (value i) (version i) = none) :
    l.Partway value version all final (Function.update g i .published)
      (saved.insert (version i) leaves) where
  sub u leaves' hu := by
    rw [arrived_update rfl]
    rw [Table.getElem?_insert] at hu
    split at hu
    · rename_i huv
      cases hu
      exact ⟨huv ▸ hall, .inr huv.symm⟩
    · exact (h.sub u leaves' hu).imp_right .inl
  stays u hu harrived := by
    rw [Table.mem_insert]
    rcases (arrived_update rfl).mp harrived with harrived | hi
    · exact .inr (h.stays u hu harrived)
    · exact .inl hi.symm
  doomed := h.doomed_update fun u hu => (nomatch hu)
  swept u _ _ := .inr ⟨i, haccepted, by rw [Function.update_self]; rfl⟩

/-- A thread chooses what to let go. -/
theorem Partway.choose {rest : List UInt64} (hsettles : l.Settles value version all final)
    (h : l.Partway value version all final g saved) (hpublished : (g i).hasPublished = true)
    (hdoomed : ∀ u ∈ rest, u ∉ final)
    (hswept : (∀ u ∈ final, u ∈ saved) → ∀ u ∈ saved, u ∉ final → u ∈ rest) :
    l.Partway value version all final (Function.update g i (.pruning rest)) saved where
  sub u leaves hu := by
    rw [arrived_update rfl]
    exact (h.sub u leaves hu).imp_right .inl
  stays u hu harrived := by
    rcases (arrived_update rfl).mp harrived with harrived | hi
    · exact h.stays u hu harrived
    · exact h.stays u hu (.inr ⟨i, hi, hpublished⟩)
  doomed := h.doomed_update hdoomed
  swept u hu hout := by
    by_cases hlast : ∃ j, j ≠ i ∧ l.config.refusal? (value j) (version j) = none ∧
        (g j).hasChosen = false
    · obtain ⟨j, hj, haccepted, hchosen⟩ := hlast
      exact .inr ⟨j, haccepted, by rwa [Function.update_of_ne hj]⟩
    · -- the last thread to choose sees all versions that are kept
      refine .inl ⟨i, ?_⟩
      rw [Function.update_self]
      refine hswept (fun u hu => h.stays u hu (hsettles.arrived (fun j haccepted => ?_) hu))
        u hu hout
      by_cases hj : j = i
      · rw [hj, hpublished]
      · refine Phase.hasPublished_of_hasChosen ?_
        by_contra hchosen
        exact hlast ⟨j, hj, haccepted, by simpa using hchosen⟩

/-- A thread removes a version, or finds that it is gone. -/
theorem Partway.sweep {saved' : Table} {rest : List UInt64}
    (h : l.Partway value version all final g saved) (hi : g i = .pruning (u :: rest))
    (hsaved : ∀ v, saved'[v]? = if v = u then none else saved[v]?) :
    l.Partway value version all final (Function.update g i (.pruning rest)) saved' where
  sub v leaves hv := by
    rw [hsaved] at hv
    split at hv
    · cases hv
    · rw [arrived_update rfl]
      exact (h.sub v leaves hv).imp_right .inl
  stays v hv harrived := by
    have hne : v ≠ u := by
      rintro rfl
      exact h.doomed i v (by rw [hi]; exact List.mem_cons_self) hv
    rw [Table.mem_iff_ne_none, hsaved, if_neg hne, ← Table.mem_iff_ne_none]
    rcases (arrived_update rfl).mp harrived with harrived | hi'
    · exact h.stays v hv harrived
    · exact h.stays v hv (.inr ⟨i, hi', by rw [hi]; rfl⟩)
  doomed := h.doomed_update fun v hv => h.doomed i v (by rw [hi]; exact List.mem_cons_of_mem _ hv)
  swept v hv hout := by
    rw [Table.mem_iff_ne_none, hsaved] at hv
    split at hv
    · exact absurd rfl hv
    · rename_i hne
      rw [← Table.mem_iff_ne_none] at hv
      rcases h.swept v hv hout with hrest | ⟨j, haccepted, hchosen⟩
      · refine .inl (exists_mem_rest_update hrest ?_)
        by_cases hv' : v ∈ rest
        · exact .inr hv'
        · refine .inl fun hin => ?_
          rw [hi] at hin
          exact (List.mem_cons.mp hin).elim hne hv'
      · have hj : j ≠ i := by
          rintro rfl
          rw [hi] at hchosen
          cases hchosen
        exact .inr ⟨j, haccepted, by rwa [Function.update_of_ne hj]⟩

section

variable (hsettles : l.Settles value version all final) (hdistinct : Function.Injective version)
  (habsent : ∀ i, version i ∉ l.saved) (hvalue : ∀ i, ∀ t ∈ (value i).leaves, t.WellFormed)

include hsettles hvalue in
/-- At each move, some versions of the table are at the root. -/
theorem Batch.table_move (h : l.Batch value version all final k g)
    (hmove : Store.Move ⟨l.config, l.template⟩ (value i) (version i) k (g i) k' p') :
    ∃ saved, l.config.Holds saved k'.view ∧
      l.Partway value version all final (Function.update g i p') saved := by
  obtain ⟨saved, hholds, hpartway⟩ := h.table
  have hcourse := h.course i
  have hfits := h.guarded.fits i
  have hsub : ∀ u ∈ saved, u ∈ all := by
    intro u hu
    obtain ⟨leaves, hleaves⟩ := Table.mem_iff.mp hu
    exact Table.mem_of_getElem? (hpartway.sub u leaves hleaves).1
  have hstaging : ∀ place, l.config.Holds saved
      (Function.update k.view (l.config.stagingName (version i)) place) :=
    fun place => hholds.congr fun u => Function.update_of_ne (by simp) ..
  generalize hp : g i = p at hmove
  rw [hp] at hcourse hfits
  have hquiet : p'.hasPublished = p.hasPublished → p'.hasChosen = p.hasChosen → p'.rest = p.rest →
      l.Partway value version all final (Function.update g i p') saved := by
    subst hp
    exact hpartway.quiet
  cases hmove with
  | acquire | refuse | free | meet | miss | obstruct | misname | retain =>
    exact ⟨saved, hholds, hquiet rfl rfl rfl⟩
  | clear | stage | abandon | tear | fill => exact ⟨saved, hstaging _, hquiet rfl rfl rfl⟩
  | @publish node hnode =>
    obtain ⟨-, content, hcontent, hstaged⟩ := hfits
    obtain rfl : Store.holding content = node := Option.some.inj (hstaged.symm.trans hnode)
    have hleaves : all[version i]? = some (value i).leaves :=
      (hsettles.all_iff _ _).mpr (.inr ⟨i, rfl, hcourse, rfl⟩)
    exact ⟨_, holds_publishing (l := { l with saved }) hholds (hvalue i) hcontent,
      hpartway.publish hleaves hcourse⟩
  | keepAll hzero =>
    refine ⟨saved, hholds, hpartway.choose hsettles (by rw [hp]; rfl) (fun u hu => (nomatch hu))
      fun _ u hu hout => absurd ?_ hout⟩
    rw [hsettles.kept i hcourse, StoreConfig.mem_retain]
    exact ⟨hsub u hu, StoreConfig.keeps_of_keepTotal_eq_zero hzero⟩
  | list hlists =>
    obtain rfl := hlists.unique hholds.lists
    refine ⟨saved, hholds, hpartway.choose hsettles (by rw [hp]; rfl) ?_ ?_⟩
    · intro u hu
      rw [hsettles.kept i hcourse]
      exact StoreConfig.notMem_retain_of_mem_evicted hsub hu
    · intro hkept u hu hout
      rw [hsettles.kept i hcourse] at hkept hout
      exact StoreConfig.mem_evicted_of_notMem_retain hsub hkept hu hout
  | @drop u => exact ⟨_, hholds.erase u, hpartway.sweep hp fun _ => Table.getElem?_erase⟩
  | @skip u _ hgone =>
    refine ⟨saved, hholds, hpartway.sweep hp fun v => ?_⟩
    split
    · rename_i hv
      rw [hv]
      exact hholds.view_eq_none_iff.mp hgone
    · rfl
  | @balk u _ content hfile => exact absurd hfile (hholds.not_file u content)
  | release result =>
    cases result with
    | ok _ => exact ⟨saved, hholds, hquiet rfl rfl rfl⟩
    | error e => exact ⟨saved, hholds, hquiet rfl rfl rfl⟩

include hsettles hdistinct habsent hvalue in
theorem Batch.move (h : l.Batch value version all final k g)
    (hmove : Store.Move ⟨l.config, l.template⟩ (value i) (version i) k (g i) k' p') :
    l.Batch value version all final k' (Function.update g i p') := by
  have hversion : g i = .held → k.view (l.config.versionName (version i)) = none := by
    intro hi
    obtain ⟨saved, hholds, hpartway⟩ := h.table
    by_contra hview
    obtain ⟨leaves, hleaves⟩ := Option.ne_none_iff_exists'.mp (mt hholds.view_eq_none_iff.mpr hview)
    exact not_arrived hdistinct (habsent i) (by rw [hi]; rfl) (hpartway.sub _ _ hleaves).2
  have hvacant : g i = .absent → k.view (l.config.stagingName (version i)) = none := by
    intro hi
    refine h.tidy.view_stagingName ?_
    rintro ⟨j, hj, hstages⟩
    rw [hdistinct hj, hi] at hstages
    cases hstages
  have hleftover : g i ≠ .leftover := by
    intro hi
    have hcourse := h.course i
    rwa [hi] at hcourse
  refine ⟨h.guarded.move hmove, fun j => ?_, ?_,
    h.table_move hsettles hvalue hmove⟩
  · by_cases hj : j = i
    · subst hj
      obtain ⟨saved, hholds, -⟩ := h.table
      rw [Function.update_self]
      exact hmove.course hversion hvacant hholds.not_file (h.course j)
    · rw [Function.update_of_ne hj]
      exact h.course j
  · have hothers : l.config.Tidy (fun u => (∃ j, j ≠ i ∧ version j = u ∧ (g j).stages = true) ∨
        u = version i ∧ (g i).stages = true) k.view := by
      refine h.tidy.mono fun u => ?_
      rintro ⟨j, hj, hstages⟩
      by_cases hji : j = i
      · exact .inr ⟨hji ▸ hj.symm, hji ▸ hstages⟩
      · exact .inl ⟨j, hji, hj, hstages⟩
    refine (hmove.tidy hleftover hothers).mono fun u => ?_
    rintro (⟨j, hji, hj, hstages⟩ | ⟨rfl, hstages⟩)
    · exact ⟨j, hj, by rwa [Function.update_of_ne hji]⟩
    · exact ⟨i, rfl, by rwa [Function.update_self]⟩

end

theorem settles_saveAll {saves : List (UInt64 × Value)} (hdistinct : (saves.map (·.1)).Nodup)
    (habsent : ∀ p ∈ saves, p.1 ∉ l.saved) :
    ∃ all, l.Settles (fun i : Fin saves.length => saves[i].2) (fun i => saves[i].1) all
      (l.saveAll saves).saved := by
  have hmem : ∀ p, p ∈ l.savable saves ↔
      ∃ i : Fin saves.length, l.config.refusal? saves[i].2 saves[i].1 = none ∧ saves[i] = p := by
    intro p
    rw [savable, List.mem_filter, List.mem_iff_get, Option.isNone_iff_eq_none]
    constructor
    · rintro ⟨⟨i, rfl⟩, hp⟩
      exact ⟨i, hp, rfl⟩
    · rintro ⟨i, hi, rfl⟩
      exact ⟨⟨i, rfl⟩, hi⟩
  refine ⟨Table.insertAll (l.savable saves) l.saved, fun u leaves => ?_, fun i hi => if_neg ?_,
    fun hnone => ?_⟩
  · have hsavable : ((l.savable saves).map (·.1)).Nodup :=
      (List.filter_sublist.map _).nodup hdistinct
    rw [Table.getElem?_insertAll hsavable fun p hp => habsent p (List.mem_of_mem_filter hp)]
    refine or_congr_right ⟨?_, ?_⟩
    · rintro ⟨p, hp, rfl, hleaves⟩
      obtain ⟨i, hi, rfl⟩ := (hmem p).mp hp
      exact ⟨i, rfl, hi, hleaves⟩
    · rintro ⟨i, rfl, hi, hleaves⟩
      exact ⟨saves[i], (hmem _).mpr ⟨i, hi, rfl⟩, rfl, hleaves⟩
  · rw [Bool.not_eq_true, List.isEmpty_eq_false_iff]
    exact List.ne_nil_of_mem ((hmem _).mpr ⟨i, hi, rfl⟩)
  · have hempty : l.savable saves = [] := by
      rw [List.eq_nil_iff_forall_not_mem]
      intro p hp
      obtain ⟨i, hi, -⟩ := (hmem p).mp hp
      exact hnone i hi
    rw [saveAll, hempty]
    rfl

/-- Threads that save values under different versions come to an end from wherever they are,
and the ledger after these saves tells what they leave. -/
theorem Describes.saveEach {σ : Session} {saves : List (UInt64 × Value)}
    (h : l.Describes (fun _ => False) σ) (hdistinct : (saves.map (·.1)).Nodup)
    (habsent : ∀ p ∈ saves, p.1 ∉ l.saved)
    (hvalues : ∀ p ∈ saves, ∀ t ∈ p.2.leaves, t.WellFormed)
    {t : Threads (Fin saves.length) (Except StoreError Unit)}
    (hreaches : (σ.store.saveEach (fun i : Fin saves.length => saves[i].2) (fun i => saves[i].1)
      σ.world).Reaches t) :
    (∃ t', Threads.Step t t') ∨ ∃ results, t.Ended results ∧
      (∀ i, results i = l.config.verdict saves[i].2 saves[i].1) ∧
      (l.saveAll saves).Describes (fun _ => False) ⟨σ.store, t.world⟩ := by
  obtain ⟨s, w⟩ := σ
  obtain ⟨hstore, hroot, hstem, view, hshows, hholds, htidy⟩ := h
  obtain rfl : s = _ := hstore
  obtain ⟨all, hsettles⟩ := settles_saveAll hdistinct habsent
  have hinjective : Function.Injective fun i : Fin saves.length => saves[i].1 := by
    intro i j hij
    have hne := List.pairwise_iff_get.mp (List.pairwise_map.mp hdistinct)
    rcases lt_trichotomy i j with hlt | heq | hgt
    · exact absurd hij (hne i j hlt)
    · exact heq
    · exact absurd hij.symm (hne j i hgt)
  have hkeeps : Machine.KeepsAll
      (fun i : Fin saves.length => Store.saver ⟨l.config, l.template⟩ saves[i].2 saves[i].1)
      (l.Batch (fun i => saves[i].2) (fun i => saves[i].1) all (l.saveAll saves).saved) :=
    ⟨fun h => h.guarded.fits, fun h => h.move hsettles hinjective
      (fun i => habsent _ (List.getElem_mem _)) fun i => hvalues _ (List.getElem_mem _)⟩
  have hstart := batch_start (k := ⟨view, []⟩) hsettles hholds htidy rfl
  have hfollow := (Store.saveEach_follow hshows hstart).reaches hkeeps hreaches
  rcases hfollow.ended_or_step hkeeps fun k g i h => h.guarded.awake with ⟨results, hended⟩ | hstep
  · obtain ⟨k, g, hworld, hbatch, hfinished⟩ := hfollow.ended hended
    obtain ⟨hresults, hsaving, hfinal, htidied⟩ := hbatch.ended hsettles hfinished
    have hidle : World.Shows True ⟨k.view, []⟩ t.world :=
      ⟨hworld.files, hworld.saving.trans hsaving⟩
    exact .inr ⟨results, hended, hresults, rfl, hroot, hstem, k.view, hidle, hfinal, htidied⟩
  · exact .inl hstep

end Ledger

end GraphFusion
