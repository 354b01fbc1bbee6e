import GraphFusion.LogLevel
import GraphFusion.Store.FileTree

/-!
Scripts of single actions on files. An action happens at once, and between two
actions of a script others may act or the script may be stopped. Scripts that
save the same version exclude one another by acquiring it.
-/

namespace GraphFusion

/-- What a store reports, with full paths. -/
inductive StoreEvent where
  | removingLeftover (path : String)
  | saved (path : String) (leaves : Nat)
  | loaded (path : String)
  | removed (path : String)
  deriving DecidableEq, Inhabited

namespace StoreEvent

def level (_ : StoreEvent) : LogLevel := .info

def text : StoreEvent → String
  | removingLeftover path => "removing leftover program state directory " ++ path
  | saved path leaves => "program state saved: " ++ path ++ s!" ({leaves} leaves)"
  | loaded path => "program state loaded: " ++ path
  | removed path => "program state removed: " ++ path

end StoreEvent

inductive Action where
  | acquire (version : UInt64)
  | release (version : UInt64)
  | report (event : StoreEvent)
  | present (path : Path)
  | isDirectory (path : Path)
  | directories (path : Path)
  | read (path : Path)
  | createDirectories (path : Path)
  | write (path : Path) (content : List UInt8)
  /-- Renames an entry of the directory at `place`. -/
  | rename (place : Path) (source target : String)
  | removeDirectory (path : Path)

namespace Action

/-- What an action answers. -/
abbrev Answer : Action → Type
  | acquire _ | release _ | report _ => Unit
  | present _ | isDirectory _ => Bool
  | directories _ => Except FileError (List String)
  | read _ => Except FileError (List UInt8)
  | createDirectories _ | write .. | rename .. | removeDirectory _ => Except FileError Unit

end Action

/-- The files, the versions being saved, and the reports, oldest first. -/
structure World where
  files : FileTree
  saving : List UInt64
  events : List StoreEvent

namespace World

def start : World := ⟨.empty, [], []⟩

/-- The files after a change, or the old ones and the reason why it failed. -/
def settle (w : World) : Except FileError FileTree → Except FileError Unit × World
  | .ok files => (.ok (), { w with files })
  | .error e => (.error e, w)

end World

namespace Action

/-- An action waits for its turn only to acquire a version. -/
def ready (w : World) : Action → Bool
  | acquire version => !w.saving.contains version
  | _ => true

def run (w : World) : (action : Action) → action.Answer × World
  | acquire version => ((), { w with saving := version :: w.saving })
  | release version => ((), { w with saving := w.saving.filter (· != version) })
  | report event => ((), { w with events := w.events ++ [event] })
  | present path => (w.files.present path, w)
  | isDirectory path => (w.files.isDirectory path, w)
  | directories path => (w.files.directories path, w)
  | read path => (w.files.read path, w)
  | createDirectories path =>
    let (outcome, files) := w.files.createDirectories path
    (outcome, { w with files })
  | write path content => w.settle (w.files.write path content)
  | rename place source target => w.settle (w.files.rename place source target)
  | removeDirectory path => w.settle (w.files.removeDirectory path)

end Action

/-- Actions each of which may depend on the answers to those before it. -/
inductive Script (α : Type) where
  | done (result : α)
  | step (action : Action) (next : action.Answer → Script α)

namespace Script

def bind {α β : Type} : Script α → (α → Script β) → Script β
  | done a, f => f a
  | step action next, f => step action fun answer => bind (next answer) f

instance : Monad Script where
  pure := done
  bind := bind

/-- A script of one action. -/
def act (action : Action) : Script action.Answer := step action done

/-- Runs a script without interruption. -/
def run {α : Type} : Script α → World → α × World
  | done a, w => (a, w)
  | step action next, w =>
    let (answer, w) := action.run w
    run (next answer) w

end Script

end GraphFusion
