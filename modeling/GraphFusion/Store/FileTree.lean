/-!
A tree of files and directories below one root, which may be absent itself. A
path lists the names below the root. Names are limited to 255 bytes, and no
name can hold a null character.
-/

namespace GraphFusion

inductive Node where
  | file (content : List UInt8)
  | directory (entries : List (String × Node))
  deriving Inhabited

abbrev Path := List String

/-- Why an operation on files fails. -/
inductive FileError where
  | missing
  | notADirectory
  | isADirectory
  | occupied
  | badName
  deriving DecidableEq, Inhabited

namespace Node

def isDirectory : Node → Bool
  | .file _ => false
  | .directory _ => true

def fits (name : String) : Bool := decide (name.utf8ByteSize ≤ 255)

/-- Entries of a directory with `node` in place of what was called `name`. -/
def setEntry (name : String) (node : Option Node) (entries : List (String × Node)) :
    List (String × Node) :=
  (node.map (name, ·)).toList ++ entries.filter (·.1 != name)

/-- The node at a path below a place. -/
def find : Path → Option Node → Except FileError Node
  | [], some node => .ok node
  | [], none => .error .missing
  | _ :: _, none => .error .missing
  | _ :: _, some (.file _) => .error .notADirectory
  | name :: rest, some (.directory entries) =>
    if fits name then find rest (entries.lookup name) else .error .badName

/-- Changes what stands at a path whose parent is a directory. -/
def update (change : Option Node → Except FileError (Option Node)) :
    Path → Option Node → Except FileError (Option Node)
  | [], place => change place
  | _ :: _, none => .error .missing
  | _ :: _, some (.file _) => .error .notADirectory
  | name :: rest, some (.directory entries) =>
    if fits name then do
      let entry ← update change rest (entries.lookup name)
      return some (.directory (setEntry name entry entries))
    else .error .badName

/-- Makes every place on a path a directory. On failure the directories above
the failing one have been made. -/
def makeDirectories : Path → Option Node → Except FileError Unit × Node
  | [], none => (.ok (), .directory [])
  | [], some (.directory entries) => (.ok (), .directory entries)
  | [], some (.file content) => (.error .occupied, .file content)
  | _ :: _, some (.file content) => (.error .notADirectory, .file content)
  | name :: rest, none =>
    if fits name then
      let (outcome, entry) := makeDirectories rest none
      (outcome, .directory [(name, entry)])
    else (.error .badName, .directory [])
  | name :: rest, some (.directory entries) =>
    if fits name then
      let (outcome, entry) := makeDirectories rest (entries.lookup name)
      (outcome, .directory (setEntry name (some entry) entries))
    else (.error .badName, .directory entries)

/-- Whether `node` may take the place of another by being renamed. -/
def mayReplace (node : Node) : Option Node → Except FileError Unit
  | none => .ok ()
  | some (.file _) => if node.isDirectory then .error .notADirectory else .ok ()
  | some (.directory entries) =>
    if !node.isDirectory then .error .isADirectory
    else if entries.isEmpty then .ok () else .error .occupied

/-- Renames an entry of a directory. -/
def renameEntry (source target : String) : Option Node → Except FileError (Option Node)
  | none => .error .missing
  | some (.file _) => .error .notADirectory
  | some (.directory entries) => do
    if !fits source || !fits target then throw .badName
    match entries.lookup source with
    | none => throw .missing
    | some node =>
      if source = target then return some (.directory entries)
      node.mayReplace (entries.lookup target)
      return some (.directory (setEntry target (some node) (setEntry source none entries)))

mutual

/-- Paths of the nodes below a node, written with slashes, below `path`; a
directory ends in a slash. -/
def pathsBelow (path : String) : Node → List String
  | .file _ => []
  | .directory entries => entryPaths path entries

def entryPaths (path : String) : List (String × Node) → List String
  | [] => []
  | (name, node) :: rest =>
    let here := path ++ name ++ (if node.isDirectory then "/" else "")
    here :: (pathsBelow here node ++ entryPaths path rest)

end

end Node

/-- What stands at the root. -/
structure FileTree where
  root : Option Node
  deriving Inhabited

namespace FileTree

def empty : FileTree := ⟨none⟩

/-- Refuses paths with a null character in them. -/
def checkNames (path : Path) : Except FileError Unit :=
  if path.any fun name => name.toList.contains '\x00' then .error .badName else .ok ()

def find (t : FileTree) (path : Path) : Except FileError Node := do
  checkNames path
  Node.find path t.root

def present (t : FileTree) (path : Path) : Bool := (t.find path).toOption.isSome

def isDirectory (t : FileTree) (path : Path) : Bool :=
  ((t.find path).toOption.map Node.isDirectory).getD false

/-- Names of the directories in a directory. -/
def directories (t : FileTree) (path : Path) : Except FileError (List String) := do
  match ← t.find path with
  | .file _ => throw .notADirectory
  | .directory entries => return (entries.filter (·.2.isDirectory)).map (·.1)

def read (t : FileTree) (path : Path) : Except FileError (List UInt8) := do
  match ← t.find path with
  | .file content => return content
  | .directory _ => throw .isADirectory

def update (t : FileTree) (path : Path)
    (change : Option Node → Except FileError (Option Node)) : Except FileError FileTree := do
  checkNames path
  return ⟨← Node.update change path t.root⟩

/-- Creates a file or replaces its content. -/
def write (t : FileTree) (path : Path) (content : List UInt8) : Except FileError FileTree :=
  t.update path fun
    | some (.directory _) => .error .isADirectory
    | _ => .ok (some (.file content))

/-- Removes a directory with all that is in it. -/
def removeDirectory (t : FileTree) (path : Path) : Except FileError FileTree :=
  t.update path fun
    | none => .error .missing
    | some (.file _) => .error .notADirectory
    | some (.directory _) => .ok none

/-- Removes a file or a directory with all that is in it. -/
def remove (t : FileTree) (path : Path) : Except FileError FileTree :=
  t.update path fun
    | none => .error .missing
    | some _ => .ok none

/-- Renames an entry of the directory at `path`. -/
def rename (t : FileTree) (path : Path) (source target : String) : Except FileError FileTree := do
  checkNames [source, target]
  t.update path (Node.renameEntry source target)

def createDirectories (t : FileTree) (path : Path) : Except FileError Unit × FileTree :=
  match checkNames path with
  | .error e => (.error e, t)
  | .ok () =>
    let (outcome, root) := Node.makeDirectories path t.root
    (outcome, ⟨some root⟩)

/-- Paths below the root in ascending order, if the root is a directory. -/
def listing? (t : FileTree) : Option (List String) :=
  match t.root with
  | some (.directory entries) =>
    some ((Node.entryPaths "" entries).mergeSort fun a b => decide (a ≤ b))
  | _ => none

end FileTree

end GraphFusion
