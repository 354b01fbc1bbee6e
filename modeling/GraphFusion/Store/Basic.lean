import GraphFusion.Store.Archive
import GraphFusion.Store.Config
import GraphFusion.Store.Script
import GraphFusion.Values.Leaves

/-!
A store of program states, each saved once under a version number. A save
writes into a staging directory and renames it into place, so a version's
directory is whole or absent; afterwards it lets old versions go. Loading packs
the saved leaves into the template that the store was given.
-/

namespace GraphFusion

inductive StoreError where
  | emptyRoot
  | separatorInStem (stem : String)
  | structureNotConfigured
  | versionNotFound (version : UInt64)
  | versionAlreadyExists (version : UInt64)
  | structureMismatch (mismatch : StructureMismatch)
  | archive (path : String) (error : ArchiveError)
  | file (path : String) (error : FileError)
  deriving DecidableEq, Inhabited

namespace StoreError

/-- Text of an error; none is fixed where a file cannot be used. -/
def message? : StoreError → Option String
  | emptyRoot => some "invalid argument: root_dir must not be empty"
  | separatorInStem stem =>
    some ("invalid argument: prefix '" ++ stem ++ "' must not contain a path separator")
  | structureNotConfigured =>
    some "program state structure is not configured; call set_structure before loading"
  | versionNotFound version => some s!"no program state found for version {version.toNat}"
  | versionAlreadyExists version =>
    some s!"program state for version {version.toNat} already exists"
  | structureMismatch mismatch => some mismatch.message
  | archive path error => (error.message? path).map ("state archive error: " ++ ·)
  | file .. => none

end StoreError

structure Store where
  config : StoreConfig
  /-- Nesting and names for loaded leaves. -/
  template : Option Value

/-- A script that may fail. -/
abbrev StoreScript (α : Type) := ExceptT StoreError Script α

namespace Store

def stateFile : String := "state.bin"

def act (action : Action) : StoreScript action.Answer := ExceptT.lift (Script.act action)

/-- An action on the node at the path written `path`. -/
def onFiles (path : String) (action : Script (Except FileError Unit)) : StoreScript Unit := do
  match ← ExceptT.lift action with
  | .ok () => return ()
  | .error e => throw (.file path e)

/-- A store at an existing or new root. -/
def create (c : StoreConfig) : StoreScript Store := do
  if c.root.isEmpty then throw .emptyRoot
  if c.stem.toList.contains '/' then throw (.separatorInStem c.stem)
  onFiles c.root (Script.act (.createDirectories []))
  return ⟨c, none⟩

def setTemplate (s : Store) (template : Value) : Store := { s with template := some template }

def versionPath (s : Store) (version : UInt64) : String :=
  s.config.pathText (s.config.versionName version)

def stagingPath (s : Store) (version : UInt64) : String :=
  s.config.pathText (s.config.stagingName version)

/-- Saved versions in ascending order; none if there are none. -/
def versions (s : Store) : StoreScript (Option (List UInt64)) := do
  match ← act (.directories []) with
  | .error .missing => return none
  | .error e => throw (.file s.config.root e)
  | .ok names =>
    let found := names.filterMap s.config.versionOf?
    if found.isEmpty then return none
    else return some (found.mergeSort fun a b => decide (a ≤ b))

def remove (s : Store) (version : UInt64) : StoreScript Unit := do
  match ← act (.removeDirectory [s.config.versionName version]) with
  | .ok () => act (.report (.removed (s.versionPath version)))
  | .error .missing => throw (.versionNotFound version)
  | .error e => throw (.file (s.versionPath version) e)

/-- Removes versions, of which some may be gone already. -/
def removeAll (s : Store) : List UInt64 → StoreScript Unit
  | [] => return ()
  | version :: rest => do
    match ← ExceptT.lift (s.remove version).run with
    | .ok () | .error (.versionNotFound _) => s.removeAll rest
    | .error e => throw e

/-- Lets versions go as the configuration says. -/
def prune (s : Store) : StoreScript Unit := do
  if s.config.keepTotal = 0 then return ()
  match ← s.versions with
  | none => return ()
  | some versions => s.removeAll (s.config.evicted versions)

/-- An empty staging directory, after removing a leftover one. -/
def stage (s : Store) (version : UInt64) : StoreScript Unit := do
  let path := s.stagingPath version
  let place := [s.config.stagingName version]
  if ← act (.present place) then
    act (.report (.removingLeftover path))
    onFiles path (Script.act (.removeDirectory place))
  onFiles path (Script.act (.createDirectories place))

/-- Writes the leaves into the staging directory. -/
def fill (s : Store) (version : UInt64) (leaves : List (String × Tensor)) : StoreScript Unit := do
  let path := s.stagingPath version ++ "/" ++ stateFile
  match Archive.ofLeaves leaves with
  | .error e => throw (.archive path e)
  | .ok content =>
    match ← act (.write [s.config.stagingName version, stateFile] content) with
    | .ok () => return ()
    | .error _ => throw (.archive path .file)

/-- Renames the staging directory to the version's directory. -/
def publish (s : Store) (version : UInt64) : StoreScript Unit := do
  match ← act (.rename [] (s.config.stagingName version) (s.config.versionName version)) with
  | .ok () => return ()
  | .error e =>
    if ← act (.present [s.config.versionName version]) then throw (.versionAlreadyExists version)
    else throw (.file (s.versionPath version) e)

/-- A save, between acquiring the version and releasing it. -/
def saveAlone (s : Store) (value : Value) (version : UInt64) : StoreScript Unit := do
  if ← act (.present [s.config.versionName version]) then throw (.versionAlreadyExists version)
  let leaves := value.namedLeaves
  s.stage version
  match ← ExceptT.lift (ExceptT.run do s.fill version leaves; s.publish version) with
  | .ok () => pure ()
  | .error e =>
    let _ ← act (.removeDirectory [s.config.stagingName version])
    throw e
  act (.report (.saved (s.versionPath version) leaves.length))
  s.prune

/-- Saves a value under a version that is not there yet. -/
def save (s : Store) (value : Value) (version : UInt64) : StoreScript Unit := do
  act (.acquire version)
  let outcome ← ExceptT.lift (s.saveAlone value version).run
  act (.release version)
  ExceptT.mk (pure outcome)

/-- The value saved under a version, nested and named like the template. -/
def load (s : Store) (version : UInt64) : StoreScript Value := do
  match s.template with
  | none => throw .structureNotConfigured
  | some template =>
    let name := s.config.versionName version
    if !(← act (.isDirectory [name])) then throw (.versionNotFound version)
    let path := s.versionPath version ++ "/" ++ stateFile
    match ← act (.read [name, stateFile]) with
    | .error _ => throw (.archive path .file)
    | .ok content =>
      let leaves ← ExceptT.mk (pure ((Archive.leaves content).mapError (.archive path)))
      let value ← ExceptT.mk (pure ((template.pack (leaves.map (·.2))).mapError .structureMismatch))
      act (.report (.loaded (s.versionPath version)))
      return value

/-- The value of the highest version, if there is one. -/
def loadLatest (s : Store) : StoreScript (Option (Value × UInt64)) := do
  match (← s.versions).bind List.getLast? with
  | none => return none
  | some latest => return some (← s.load latest, latest)

end Store

end GraphFusion
