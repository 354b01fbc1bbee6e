import GraphFusion.Proofs.Store.Footprint

/-!
Two stores with different stems at one root. Their directories are told apart by name
alone, and a name belongs to both exactly when one stem is the other one and the digits of
a number. Stores whose stems are not so related never notice each other; and otherwise only
versions with a shared directory are ever affected.
-/

namespace GraphFusion

/-- Digits in front of the digits of a number are those of a positive number. -/
theorem exists_toDigits_of_append {u v : Nat} {front : List Char}
    (h : Nat.toDigits 10 u = front ++ Nat.toDigits 10 v) (hne : front ≠ []) :
    ∃ n, 0 < n ∧ 10 * n ≤ u ∧ Nat.toDigits 10 n = front := by
  have hlast : 0 < (Nat.toDigits 10 v).length := Nat.length_toDigits_pos
  have hfront : 0 < front.length := List.length_pos_iff.mpr hne
  have hpos : 0 < u := by
    refine Nat.pos_of_ne_zero fun hzero => ?_
    rw [hzero, Nat.toDigits_zero] at h
    have hlength := congrArg List.length h
    rw [List.length_singleton, List.length_append] at hlength
    omega
  have hhead : front.head? ≠ some '0' := by
    rw [← List.head?_append_of_ne_nil front hne, ← h]
    exact head?_toDigits hpos
  have hdigits : ∀ c ∈ front, c.isDigit = true := by
    intro c hc
    have hmem : c ∈ Nat.toDigits 10 u := h ▸ List.mem_append_left _ hc
    exact Nat.isDigit_of_mem_toDigits (by decide) (by decide) hmem
  have hnumber := toDigits_ofDigitChars hdigits hne fun hzero => absurd hzero hhead
  refine ⟨Nat.ofDigitChars 10 front 0, Nat.pos_of_ne_zero fun hzero => ?_, ?_, hnumber⟩
  · rw [hzero, Nat.toDigits_zero] at hnumber
    exact hhead (hnumber ▸ rfl)
  · have hu := congrArg (Nat.ofDigitChars 10 · 0) h
    rw [Nat.ofDigitChars_ten_toDigits, Nat.ofDigitChars_append,
      Nat.ofDigitChars_eq_ofDigitChars_zero, Nat.ofDigitChars_ten_toDigits] at hu
    have hten : 10 ^ 1 ≤ 10 ^ (Nat.toDigits 10 v).length := Nat.pow_le_pow_right (by decide) hlast
    have hmul := Nat.mul_le_mul_right (Nat.ofDigitChars 10 front 0) hten
    omega

namespace StoreConfig

/-- The longer stem is the other one and the digits of a positive number, to which one more
digit can be added. -/
def Extends (stem longer : String) : Prop :=
  ∃ n : Nat, 0 < n ∧ 10 * n < UInt64.size ∧ longer = stem ++ toString n

/-- The stems are the same, or one extends the other. -/
def Overlaps (stem stem' : String) : Prop :=
  stem = stem' ∨ Extends stem stem' ∨ Extends stem' stem

instance (stem longer : String) : Decidable (Extends stem longer) :=
  decidable_of_iff
    ((⟨"", stem, 0, true⟩ : StoreConfig).versionOf? longer |>.any fun v =>
      0 < v.toNat ∧ 10 * v.toNat < UInt64.size) <| by
    rw [Option.any_eq_true]
    simp only [versionOf?_eq_some_iff, decide_eq_true_eq, versionName]
    refine ⟨fun ⟨v, hlonger, hpos, hlt⟩ => ⟨v.toNat, hpos, hlt, hlonger⟩, ?_⟩
    rintro ⟨n, hpos, hlt, hlonger⟩
    have hn : (UInt64.ofNat n).toNat = n := UInt64.toNat_ofNat_of_lt' (by omega)
    exact ⟨.ofNat n, by rwa [hn], by rwa [hn], by rwa [hn]⟩

instance (stem stem' : String) : Decidable (Overlaps stem stem') := instDecidableOr

variable {c c' : StoreConfig} {u v : UInt64}

/-- A name in common whose digits begin inside the other stem. -/
theorem extends_of_versionName_eq {extra : List Char}
    (hstem : c'.stem.toList = c.stem.toList ++ extra)
    (hdigits : Nat.toDigits 10 u.toNat = extra ++ Nat.toDigits 10 v.toNat) :
    c.stem = c'.stem ∨ Extends c.stem c'.stem := by
  by_cases hextra : extra = []
  · rw [hextra, List.append_nil] at hstem
    exact .inl (String.toList_inj.mp hstem).symm
  · obtain ⟨n, hpos, hle, hn⟩ := exists_toDigits_of_append hdigits hextra
    refine .inr ⟨n, hpos, Nat.lt_of_le_of_lt hle u.toNat_lt, ?_⟩
    rw [← String.toList_inj, String.toList_append, Nat.toString_eq_ofList_toDigits,
      String.toList_ofList, hn, hstem]

theorem Extends.exists_versionName_eq (h : Extends c.stem c'.stem) :
    ∃ u v, c.versionName u = c'.versionName v := by
  obtain ⟨n, hpos, hlt, hstem⟩ := h
  refine ⟨.ofNat (10 * n), 0, ?_⟩
  have htens : Nat.toDigits 10 n ++ Nat.toDigits 10 0 = Nat.toDigits 10 (10 * n) :=
    Nat.toDigits_append_toDigits (by decide) hpos (by decide)
  rw [← String.toList_inj, toList_versionName, toList_versionName, hstem, String.toList_append,
    Nat.toString_eq_ofList_toDigits, String.toList_ofList, UInt64.toNat_ofNat_of_lt' hlt, ← htens,
    List.append_assoc]
  rfl

/-- Two stores share the name of a version exactly when their stems overlap. -/
theorem overlaps_iff : Overlaps c.stem c'.stem ↔ ∃ u v, c.versionName u = c'.versionName v := by
  constructor
  · rintro (hstem | hextends | hextends)
    · exact ⟨0, 0, by rw [versionName, versionName, hstem]⟩
    · exact hextends.exists_versionName_eq
    · obtain ⟨u, v, hname⟩ := hextends.exists_versionName_eq
      exact ⟨v, u, hname.symm⟩
  · rintro ⟨u, v, hname⟩
    rw [← String.toList_inj, toList_versionName, toList_versionName,
      List.append_eq_append_iff] at hname
    rcases hname with ⟨extra, hstem, hdigits⟩ | ⟨extra, hstem, hdigits⟩
    · exact (extends_of_versionName_eq hstem hdigits).imp_right .inl
    · exact (extends_of_versionName_eq hstem hdigits).imp Eq.symm .inr

/-- Whatever the stems are, the name of a version ends in a digit and that of a staging directory
in a letter. -/
theorem versionName_ne_stagingName_of (c c' : StoreConfig) (u v : UInt64) :
    c.versionName u ≠ c'.stagingName v := by
  intro h
  have hlast : (c.versionName u).toList.getLast? = some 'p' := by
    rw [h, stagingName, String.toList_append, List.getLast?_append_of_ne_nil _ (by decide)]
    rfl
  rw [toList_versionName, List.getLast?_append_of_ne_nil _ Nat.toDigits_ne_nil] at hlast
  have hdigit := Nat.isDigit_of_mem_toDigits (by decide) (by decide) (List.mem_of_getLast? hlast)
  exact absurd hdigit (by decide)

example : Overlaps "v" "v1" ∧ ¬ Overlaps "v" "v0" ∧ ¬ Overlaps "v" "v1_" := by decide +kernel

theorem notMem_names_of_not_overlaps (h : ¬ Overlaps c.stem c'.stem) :
    ∀ name ∈ c'.names, name ∉ c.names := by
  have hversions : ∀ u v, c.versionName u ≠ c'.versionName v := fun u v hname =>
    h (overlaps_iff.mpr ⟨u, v, hname⟩)
  rintro name ⟨v, rfl | rfl⟩ ⟨u, hname | hname⟩
  · exact hversions u v hname.symm
  · exact versionName_ne_stagingName_of c' c v u hname
  · exact versionName_ne_stagingName_of c c' u v hname.symm
  · exact hversions u v ((String.append_left_inj "_temp").mp hname.symm)

/-- A version whose name the other store does not use. -/
theorem notMem_versionName (h : ∀ u, c'.versionName u ≠ c.versionName v) :
    ∀ name ∈ c'.names, name ∉ ({c.versionName v} : Set String) := by
  rintro name ⟨u, rfl | rfl⟩ hname
  · exact h u hname
  · exact versionName_ne_stagingName_of c c' v u hname.symm

theorem names_congr (h : c.stem = c'.stem) : c.names = c'.names := by
  simp only [names, stagingName, versionName, h]

end StoreConfig

theorem Store.config_of_create {c : StoreConfig} {s : Store} {w w' : World}
    (h : (Store.create c).run.run w = (.ok s, w')) : s.config = c := by
  rw [Store.create] at h
  split at h
  · cases h
  · split at h
    · cases h
    · change ((Store.onFiles c.root (Script.act (.createDirectories [])) >>= fun _ =>
        pure ⟨c, none⟩ : StoreScript Store)).run.run w = _ at h
      rw [Store.run_bind] at h
      split at h
      · cases h
        rfl
      · cases h

/-- The answer lists the version. -/
def Reply.Lists (v : UInt64) : Reply → Prop
  | .listed (.ok (some versions)) => v ∈ versions
  | _ => False

instance (v : UInt64) : DecidablePred (Reply.Lists v)
  | .listed (.ok (some versions)) => inferInstanceAs (Decidable (v ∈ versions))
  | .listed (.ok none) | .listed (.error _) | .done _ | .loaded _ | .latest _ => isFalse id

namespace Session

/-- The session after the given calls. -/
def after (σ : Session) : List Call → Session
  | [] => σ
  | call :: rest => (σ.call call).2.after rest

/-- The answers to the calls on the left, which are made to the session, while those on the right
are made to another store at the same root. -/
def repliesBeside (σ : Session) (other : Store) : List (Call ⊕ Call) → List Reply
  | [] => []
  | .inl call :: rest => (σ.call call).1 :: (σ.call call).2.repliesBeside other rest
  | .inr call :: rest =>
    let beside := ((⟨other, σ.world⟩ : Session).call call).2
    (⟨σ.store, beside.world⟩ : Session).repliesBeside beside.store rest

variable {σ : Session} {w' : World} {names others : Set String} {v : UInt64}

theorem stem_call (σ : Session) (call : Call) :
    (σ.call call).2.store.config.stem = σ.store.config.stem := by
  cases call with
  | reopen keepTotal keepFirst =>
    rw [call]
    split
    · rename_i hcreate
      rw [Store.config_of_create hcreate]
    · rfl
  | _ => rfl

/-- An operation of the store is a script that gives the answer and the store to go on with. -/
theorem exists_script_perform {α : Type} {script : StoreScript α} (h : script.run.Within names)
    (store : Store) (reply : Except StoreError α → Reply) :
    ∃ script' : Script (Reply × Store), script'.Within names ∧ ∀ w : World, ∃ w₀ : World,
      w₀.files = w.files ∧ (⟨store, w⟩ : Session).perform script reply =
        ((script'.run w₀).1.1, ⟨(script'.run w₀).1.2, (script'.run w₀).2⟩) := by
  refine ⟨script.run.bind fun r => .done (reply r, store), h.bind fun _ => .done _,
    fun w => ⟨w, rfl, ?_⟩⟩
  rw [Script.run_bind]
  rfl

/-- A call runs a script that stays within the names of the store. -/
theorem exists_script (store : Store) (call : Call) : ∃ script : Script (Reply × Store),
    script.Within store.config.names ∧ ∀ w : World, ∃ w₀ : World, w₀.files = w.files ∧
      (⟨store, w⟩ : Session).call call =
        ((script.run w₀).1.1, ⟨(script.run w₀).1.2, (script.run w₀).2⟩) := by
  have hversion : ∀ v, {store.config.versionName v} ⊆ store.config.names := fun v =>
    Set.singleton_subset_iff.mpr (store.config.versionName_mem_names v)
  cases call with
  | save value v => exact exists_script_perform Store.within_save store _
  | load v => exact exists_script_perform (Store.within_load.mono (hversion v)) store _
  | loadLatest => exact exists_script_perform Store.within_loadLatest store _
  | versions => exact exists_script_perform Store.within_versions store _
  | remove v => exact exists_script_perform (Store.within_remove.mono (hversion v)) store _
  | setTemplate template =>
    exact ⟨.done (.done (.ok ()), store.setTemplate template), .done _, fun w => ⟨w, rfl, rfl⟩⟩
  | reopen keepTotal keepFirst =>
    refine ⟨(Store.create { store.config with keepTotal, keepFirst }).run.bind fun
        | .ok store' => .done (.done (.ok ()), store')
        | .error e => .done (.done (.error e), store),
      (Store.within_create _).bind fun r => ?_, fun w => ⟨{ w with saving := [] }, rfl, ?_⟩⟩
    · cases r <;> exact .done _
    · rw [Script.run_bind, call]
      dsimp only
      rcases (Store.create { store.config with keepTotal, keepFirst }).run.run
        { w with saving := [] } with ⟨_ | _, _⟩ <;> rfl

/-- In worlds that agree on the names of the store, a call is answered alike, and the worlds that
it leaves agree on them again. -/
theorem call_agree (hagree : σ.world.files.Agree σ.store.config.names w'.files) (call : Call) :
    ((⟨σ.store, w'⟩ : Session).call call).1 = (σ.call call).1 ∧
      ((⟨σ.store, w'⟩ : Session).call call).2.store = (σ.call call).2.store ∧
      (σ.call call).2.world.files.Agree σ.store.config.names
        ((⟨σ.store, w'⟩ : Session).call call).2.world.files := by
  obtain ⟨script, hwithin, hcall⟩ := exists_script σ.store call
  obtain ⟨w₀, hfiles, hrun⟩ := hcall σ.world
  obtain ⟨w₀', hfiles', hrun'⟩ := hcall w'
  rw [← hfiles, ← hfiles'] at hagree
  obtain ⟨hresult, hleft⟩ := hwithin.run_agree hagree
  have hself : σ.call call = ((script.run w₀).1.1, ⟨(script.run w₀).1.2, (script.run w₀).2⟩) := hrun
  rw [hself, hrun', hresult]
  exact ⟨rfl, rfl, hleft⟩

/-- A call leaves what stands under other names as it was. -/
theorem call_frame (hothers : ∀ name ∈ σ.store.config.names, name ∉ others)
    (hagree : σ.world.files.Agree others w'.files) (call : Call) :
    (σ.call call).2.world.files.Agree others w'.files := by
  obtain ⟨script, hwithin, hcall⟩ := exists_script σ.store call
  obtain ⟨w₀, hfiles, hrun⟩ := hcall σ.world
  have hself : σ.call call = ((script.run w₀).1.1, ⟨(script.run w₀).1.2, (script.run w₀).2⟩) := hrun
  rw [← hfiles] at hagree
  rw [hself]
  exact hwithin.run_frame hothers hagree

theorem after_frame (hothers : ∀ name ∈ σ.store.config.names, name ∉ others)
    (hagree : σ.world.files.Agree others w'.files) (calls : List Call) :
    (σ.after calls).world.files.Agree others w'.files := by
  induction calls generalizing σ with
  | nil => exact hagree
  | cons call rest ih =>
    refine ih ?_ (call_frame hothers hagree call)
    rwa [StoreConfig.names_congr (stem_call σ call)]

/-- A store whose stem does not overlap with that of another one does not notice its calls. -/
theorem repliesBeside_eq {other : Store}
    (hstems : ¬ StoreConfig.Overlaps σ.store.config.stem other.config.stem)
    (hagree : σ.world.files.Agree σ.store.config.names w'.files) (calls : List (Call ⊕ Call)) :
    (⟨σ.store, w'⟩ : Session).repliesBeside other calls =
      σ.replies (calls.filterMap Sum.getLeft?) := by
  induction calls generalizing σ other w' with
  | nil => rfl
  | cons call rest ih =>
    cases call with
    | inl call =>
      obtain ⟨hreply, hstore, hleft⟩ := call_agree hagree call
      rw [← StoreConfig.names_congr (stem_call σ call)] at hleft
      rw [← stem_call σ call] at hstems
      rw [repliesBeside, hreply]
      change _ = (σ.call call).1 :: (σ.call call).2.replies (rest.filterMap Sum.getLeft?)
      rw [← ih hstems hleft, ← hstore]
    | inr call =>
      have hothers := StoreConfig.notMem_names_of_not_overlaps hstems
      have hframe := call_frame (σ := ⟨other, w'⟩) hothers hagree.symm call
      rw [← stem_call ⟨other, w'⟩ call] at hstems
      exact ih hstems hframe.symm

/-- A load reads nothing but the version's directory. -/
theorem load_agree (hagree : σ.world.files.Agree {σ.store.config.versionName v} w'.files) :
    ((⟨σ.store, w'⟩ : Session).call (.load v)).1 = (σ.call (.load v)).1 :=
  congrArg Reply.loaded (Store.within_load.run_agree hagree).1

theorem call_versions (σ : Session) :
    (σ.call .versions).1 = .listed (σ.store.listed (σ.world.files.directories [])) := by
  rw [call, perform, Store.versions_eq]
  rfl

/-- The listing shows the version if its directory is in the root. -/
theorem lists_listed_iff {s : Store} {found : List String} :
    (Reply.listed (s.listed (.ok found))).Lists v ↔ s.config.versionName v ∈ found := by
  have hmem : v ∈ (found.filterMap s.config.versionOf?).mergeSort (fun a b => decide (a ≤ b)) ↔
      s.config.versionName v ∈ found := by
    rw [List.mem_mergeSort, List.mem_filterMap]
    simp only [StoreConfig.versionOf?_eq_some_iff, exists_eq_right]
  rw [← hmem, Store.listed]
  cases (found.filterMap s.config.versionOf?).mergeSort fun a b => decide (a ≤ b) <;>
    simp [listing, Reply.Lists]

/-- Whether a version is listed depends on its directory alone. -/
theorem lists_agree (hagree : σ.world.files.Agree {σ.store.config.versionName v} w'.files) :
    ((⟨σ.store, w'⟩ : Session).call .versions).1.Lists v ↔ (σ.call .versions).1.Lists v := by
  obtain ⟨found, found', hfound, hfound', hnames⟩ := Action.directories_of_agree hagree
  rw [call_versions, call_versions, hfound, hfound', lists_listed_iff, lists_listed_iff]
  exact Action.mem_of_filter_eq hnames (Set.mem_singleton _)

/-- Two stores at one root have a version's directory in common exactly when their stems overlap.
If they do not, the one answers all calls as if the other were not there, whatever is asked of
the other in between. In any case a version that has its directory for itself is loaded, and is
listed, as before any calls of the other store. -/
theorem isolated (σ : Session) (other : Store) (hroot : σ.world.files.isDirectory [] = true) :
    (StoreConfig.Overlaps σ.store.config.stem other.config.stem ↔
      ∃ u v, σ.store.config.versionName u = other.config.versionName v) ∧
    (¬ StoreConfig.Overlaps σ.store.config.stem other.config.stem → ∀ calls,
      σ.repliesBeside other calls = σ.replies (calls.filterMap Sum.getLeft?)) ∧
    ∀ (calls : List Call) (v : UInt64),
      (∀ u, other.config.versionName u ≠ σ.store.config.versionName v) →
        let later : Session := ⟨σ.store, (after ⟨other, σ.world⟩ calls).world⟩
        (later.call (.load v)).1 = (σ.call (.load v)).1 ∧
          ((later.call .versions).1.Lists v ↔ (σ.call .versions).1.Lists v) := by
  obtain ⟨entries, hentries⟩ := FileTree.exists_root hroot
  refine ⟨StoreConfig.overlaps_iff, fun hstems calls => ?_, fun calls v hname => ?_⟩
  · exact repliesBeside_eq hstems (FileTree.agree_self hentries) calls
  · have hframe := after_frame (σ := ⟨other, σ.world⟩) (StoreConfig.notMem_versionName hname)
      (FileTree.agree_self hentries) calls
    exact ⟨load_agree hframe.symm, lists_agree hframe.symm⟩

/-- A zero is not the first digit of a version, so that the stems `v0` and `v` do not overlap. The
stems `v1` and `v` do, but only in versions of the second that begin with a one. -/
theorem isolated_zeroStem :
    (∀ calls, (fresh ⟨"/runs", "v0", 0, true⟩).repliesBeside ⟨⟨"/runs", "v", 1, false⟩, none⟩ calls =
      (fresh ⟨"/runs", "v0", 0, true⟩).replies (calls.filterMap Sum.getLeft?)) ∧
    ∀ calls,
      let σ : Session := ⟨⟨⟨"/runs", "v", 0, true⟩, none⟩,
        ⟨⟨some (.directory [("v25", .directory [])])⟩, [], []⟩⟩
      let other : Store := ⟨⟨"/runs", "v1", 1, false⟩, none⟩
      ((⟨σ.store, (after ⟨other, σ.world⟩ calls).world⟩ : Session).call .versions).1.Lists 25 := by
  constructor
  · exact (isolated (fresh ⟨"/runs", "v0", 0, true⟩) ⟨⟨"/runs", "v", 1, false⟩, none⟩ rfl).2.1
      (by decide +kernel)
  · intro calls σ other
    have hname : ∀ u, other.config.versionName u ≠ σ.store.config.versionName 25 := by
      intro u hname
      have hother : other.config.stem.toList = ['v', '1'] := by decide +kernel
      have hown : (σ.store.config.versionName 25).toList = ['v', '2', '5'] := by decide +kernel
      rw [← String.toList_inj, StoreConfig.toList_versionName, hother, hown] at hname
      exact absurd (List.cons_eq_cons.mp (List.cons_eq_cons.mp hname).2).1 (by decide)
    have hlists : (σ.call .versions).1.Lists 25 := by
      rw [call_versions]
      exact lists_listed_iff.mpr (List.mem_singleton_self _)
    exact ((isolated σ other rfl).2.2 calls 25 hname).2.mpr hlists

/-- Stores with different stems need not be isolated: version 2 with the stem `v1` and version 12
with the stem `v` are the same directory. -/
theorem not_isolated_of_extends : ¬ ∀ (c c' : StoreConfig) (calls : List (Call ⊕ Call)),
    c.root = c'.root → c.root ≠ "" → '/' ∉ c.stem.toList → '/' ∉ c'.stem.toList →
      c.stem ≠ c'.stem →
        (fresh c).repliesBeside ⟨c', none⟩ calls =
          (fresh c).replies (calls.filterMap Sum.getLeft?) := by
  intro h
  have hreplies := congrArg (List.map fun reply => decide (reply.Lists 2))
    (h ⟨"/runs", "v1", 0, true⟩ ⟨"/runs", "v", 0, true⟩
      [.inl (.save (.struct []) 2), .inr (.remove 12), .inl .versions] rfl (by decide) (by decide)
      (by decide) (by decide))
  exact absurd hreplies (by decide +kernel)

end Session

end GraphFusion
