import GraphFusion.Proofs.Store.Durability

/-!
What a client asks of a store, and two ways to answer it. A session runs the store on
files; a ledger is a table from versions to leaves and has no files at all.
-/

namespace GraphFusion

/-- What a client asks of a store. -/
inductive Call where
  | save (value : Value) (version : UInt64)
  | load (version : UInt64)
  | loadLatest
  | versions
  | remove (version : UInt64)
  | setTemplate (template : Value)
  /-- Opens the store again, with other settings of what to keep. -/
  | reopen (keepTotal : Nat) (keepFirst : Bool)

/-- The tensors to be saved have as many elements as their extents say. -/
def Call.WellFormed : Call → Prop
  | save value _ => ∀ t ∈ value.leaves, t.WellFormed
  | _ => True

inductive Reply where
  | done (result : Except StoreError Unit)
  | loaded (result : Except StoreError Value)
  | latest (result : Except StoreError (Option (Value × UInt64)))
  | listed (result : Except StoreError (Option (List UInt64)))
  deriving Inhabited

/-- A store and the world in which it runs. -/
structure Session where
  store : Store
  world : World

namespace Session

/-- A store at a root that is not there yet. -/
def start (c : StoreConfig) : Except StoreError Session :=
  match (Store.create c).run.run World.start with
  | (.ok store, world) => .ok ⟨store, world⟩
  | (.error e, _) => .error e

/-- A store at an empty root. -/
def fresh (c : StoreConfig) : Session := ⟨⟨c, none⟩, ⟨⟨some (.directory [])⟩, [], []⟩⟩

theorem start_eq (c : StoreConfig) : start c =
    if c.root = "" then .error .emptyRoot
    else if '/' ∈ c.stem.toList then .error (.separatorInStem c.stem)
    else .ok (fresh c) := by
  rw [start]
  by_cases hroot : c.root = ""
  · have hempty : c.root.isEmpty = true := by simpa using hroot
    rw [if_pos hroot, Store.create, hempty]
    rfl
  have hempty : c.root.isEmpty = false := by simpa using hroot
  rw [if_neg hroot]
  by_cases hstem : '/' ∈ c.stem.toList
  · have hslash : c.stem.toList.contains '/' = true := by simpa using hstem
    rw [if_pos hstem, Store.create, hempty, hslash]
    rfl
  · have hslash : c.stem.toList.contains '/' = false := by simpa using hstem
    rw [if_neg hstem, Store.create, hempty, hslash]
    rfl

def perform {α : Type} (σ : Session) (script : StoreScript α)
    (reply : Except StoreError α → Reply) : Reply × Session :=
  let (result, world) := script.run.run σ.world
  (reply result, ⟨σ.store, world⟩)

/-- One call. Nothing is being saved any more when a store is opened again. -/
def call (σ : Session) : Call → Reply × Session
  | .save value version => σ.perform (σ.store.save value version) .done
  | .load version => σ.perform (σ.store.load version) .loaded
  | .loadLatest => σ.perform σ.store.loadLatest .latest
  | .versions => σ.perform σ.store.versions .listed
  | .remove version => σ.perform (σ.store.remove version) .done
  | .setTemplate template => (.done (.ok ()), ⟨σ.store.setTemplate template, σ.world⟩)
  | .reopen keepTotal keepFirst =>
    match (Store.create { σ.store.config with keepTotal, keepFirst }).run.run
        { σ.world with saving := [] } with
    | (.ok store, world) => (.done (.ok ()), ⟨store, world⟩)
    | (.error e, world) => (.done (.error e), ⟨σ.store, world⟩)

/-- The answers to calls, one after another. -/
def replies (σ : Session) : List Call → List Reply
  | [] => []
  | call :: rest => (σ.call call).1 :: (σ.call call).2.replies rest

end Session

/-- Leaves by version. -/
abbrev Table := Std.ExtTreeMap UInt64 (List Tensor)

namespace StoreConfig

/-- The part of a table that is kept. -/
def retain (c : StoreConfig) (saved : Table) : Table :=
  saved.filter fun version _ => decide (c.Keeps saved.keys.toFinset version)

/-- Why a value cannot be saved under a version that is not there, if it cannot: the
staging directory cannot have its name, or the leaves do not fit into an archive. -/
def refusal? (c : StoreConfig) (value : Value) (version : UInt64) : Option StoreError :=
  if Admissible (c.stagingName version) then
    (Archive.obstacle? value.namedLeaves).map
      (.archive (c.pathText (c.stagingName version) ++ "/" ++ Store.stateFile))
  else some (.file (c.pathText (c.stagingName version)) .badName)

/-- What a save under a version that is not there answers. -/
def verdict (c : StoreConfig) (value : Value) (version : UInt64) : Except StoreError Unit :=
  match c.refusal? value version with
  | some e => .error e
  | none => .ok ()

end StoreConfig

/-- A store without files. -/
structure Ledger where
  config : StoreConfig
  template : Option Value
  saved : Table

namespace Ledger

def start (c : StoreConfig) : Except StoreError Ledger :=
  if c.root = "" then .error .emptyRoot
  else if '/' ∈ c.stem.toList then .error (.separatorInStem c.stem)
  else .ok ⟨c, none, ∅⟩

def save (l : Ledger) (value : Value) (version : UInt64) : Except StoreError Unit × Ledger :=
  if version ∈ l.saved then (.error (.versionAlreadyExists version), l)
  else
    match l.config.refusal? value version with
    | some e => (.error e, l)
    | none => (.ok (), { l with saved := l.config.retain (l.saved.insert version value.leaves) })

def load (l : Ledger) (version : UInt64) : Except StoreError Value :=
  match l.template, l.saved[version]? with
  | none, _ => .error .structureNotConfigured
  | some _, none => .error (.versionNotFound version)
  | some template, some leaves => (template.pack leaves).mapError .structureMismatch

def loadLatest (l : Ledger) : Except StoreError (Option (Value × UInt64)) :=
  match l.saved.maxKey? with
  | none => .ok none
  | some latest => (l.load latest).map fun value => some (value, latest)

def remove (l : Ledger) (version : UInt64) : Except StoreError Unit × Ledger :=
  if version ∈ l.saved then (.ok (), { l with saved := l.saved.erase version })
  else if Admissible (l.config.versionName version) then (.error (.versionNotFound version), l)
  else (.error (.file (l.config.pathText (l.config.versionName version)) .badName), l)

def call (l : Ledger) : Call → Reply × Ledger
  | .save value version => ((.done (l.save value version).1), (l.save value version).2)
  | .load version => (.loaded (l.load version), l)
  | .loadLatest => (.latest l.loadLatest, l)
  | .versions => (.listed (.ok (listing l.saved.keys)), l)
  | .remove version => ((.done (l.remove version).1), (l.remove version).2)
  | .setTemplate template => (.done (.ok ()), { l with template := some template })
  | .reopen keepTotal keepFirst =>
    (.done (.ok ()), { l with config := { l.config with keepTotal, keepFirst }, template := none })

/-- The answers to calls, one after another. -/
def replies (l : Ledger) : List Call → List Reply
  | [] => []
  | call :: rest => (l.call call).1 :: (l.call call).2.replies rest

/-- The ledger after the given calls. -/
def after (l : Ledger) : List Call → Ledger
  | [] => l
  | call :: rest => (l.call call).2.after rest

theorem after_append (l : Ledger) (calls rest : List Call) :
    l.after (calls ++ rest) = (l.after calls).after rest := by
  induction calls generalizing l with
  | nil => rfl
  | cons call calls ih => exact ih _

end Ledger

namespace Table

variable {saved : Table} {u v : UInt64}

/-- The table without the given versions. -/
def without (gone : List UInt64) (saved : Table) : Table :=
  saved.filter fun version _ => decide (version ∉ gone)

theorem mem_iff : u ∈ saved ↔ ∃ leaves, saved[u]? = some leaves := by
  rw [Std.ExtTreeMap.mem_iff_isSome_getElem?, Option.isSome_iff_exists]

theorem mem_iff_ne_none : u ∈ saved ↔ saved[u]? ≠ none := by
  rw [Std.ExtTreeMap.mem_iff_isSome_getElem?, Option.isSome_iff_ne_none]

theorem mem_of_getElem? {leaves : List Tensor} (h : saved[u]? = some leaves) : u ∈ saved :=
  mem_iff.mpr ⟨leaves, h⟩

theorem ascending_keys (saved : Table) : saved.keys.Pairwise (· < ·) :=
  Std.ExtTreeMap.ordered_keys.imp Std.compare_eq_lt.mp

theorem getElem?_insert (leaves : List Tensor) :
    (saved.insert v leaves)[u]? = if u = v then some leaves else saved[u]? := by
  by_cases h : u = v
  · subst h
    simp
  · have hne : compare v u ≠ .eq := fun heq => h (Std.LawfulEqCmp.eq_of_compare heq).symm
    rw [Std.ExtTreeMap.getElem?_insert, if_neg hne, if_neg h]

theorem getElem?_erase : (saved.erase v)[u]? = if u = v then none else saved[u]? := by
  by_cases h : u = v
  · subst h
    simp
  · have hne : compare v u ≠ .eq := fun heq => h (Std.LawfulEqCmp.eq_of_compare heq).symm
    rw [Std.ExtTreeMap.getElem?_erase, if_neg hne, if_neg h]

theorem getElem?_without {gone : List UInt64} :
    (without gone saved)[u]? = if u ∈ gone then none else saved[u]? := by
  rw [without, Std.ExtTreeMap.getElem?_filter']
  by_cases hu : u ∈ gone <;> cases saved[u]? <;> simp [hu]

theorem mem_insert (leaves : List Tensor) : u ∈ saved.insert v leaves ↔ u = v ∨ u ∈ saved := by
  rw [mem_iff_ne_none, mem_iff_ne_none, getElem?_insert]
  by_cases hu : u = v <;> simp [hu]

/-- The last version listed is the highest one. -/
theorem getLast?_listing_keys (saved : Table) :
    (listing saved.keys).bind List.getLast? = saved.maxKey? := by
  have hlisting : (listing saved.keys).bind List.getLast? = saved.keys.getLast? := by
    rw [listing]
    split
    · rename_i hempty
      rw [List.isEmpty_iff.mp hempty]
      rfl
    · rfl
  rw [hlisting]
  cases hlast : saved.keys.getLast? with
  | none =>
    have hempty := List.getLast?_eq_none_iff.mp hlast
    rw [eq_comm, Std.ExtTreeMap.maxKey?_eq_none_iff, ← Std.ExtTreeMap.isEmpty_iff,
      ← Std.ExtTreeMap.isEmpty_keys, hempty]
    rfl
  | some latest =>
    obtain ⟨front, hkeys⟩ := List.getLast?_eq_some_iff.mp hlast
    have hascending := ascending_keys saved
    rw [hkeys, List.pairwise_append] at hascending
    rw [eq_comm, Std.ExtTreeMap.maxKey?_eq_some_iff_mem_and_forall]
    refine ⟨Std.ExtTreeMap.mem_keys.mp (by rw [hkeys]; simp), fun u hu => ?_⟩
    rw [Std.isLE_compare]
    rw [← Std.ExtTreeMap.mem_keys, hkeys, List.mem_append, List.mem_singleton] at hu
    rcases hu with hu | rfl
    · exact UInt64.le_of_lt (hascending.2.2 u hu latest List.mem_cons_self)
    · exact UInt64.le_refl u

end Table

end GraphFusion
