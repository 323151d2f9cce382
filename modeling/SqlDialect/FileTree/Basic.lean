import SqlDialect.FileTree.System

/-!
# Trees of files

A tree of files is the list of its entries, each at a place: the names that lead to it from the
root.  The root is a directory and has no entry.

* `FileTree.locate` : the place that a path leads to.  Every step but the last must lead to a
  directory; what is at the last place is for the operation to judge.
* `FileTree.read`, `FileTree.write`, `FileTree.createDirectories`, `FileTree.filesUnder` : the
  operations, which make `StateM FileTree` a `FileSystem`.
-/

namespace SqlDialect

namespace FileTree

/-- The names that lead to an entry from the root. -/
abbrev Place := List (List Char)

/-- What can be at a place. -/
inductive Entry where
  /-- A directory. -/
  | directory
  /-- A file with its octets. -/
  | file (octets : List UInt8)
deriving Repr, DecidableEq

end FileTree

/-- A tree of files. -/
structure FileTree where
  /-- The entries below the root, one for each place. -/
  entries : List (FileTree.Place × FileTree.Entry)
deriving Repr, DecidableEq

namespace FileTree

/-- The tree with an empty root. -/
def empty : FileTree := ⟨[]⟩

/-- What is at the place. -/
def entry? (tree : FileTree) (place : Place) : Option Entry :=
  if place = [] then some .directory else tree.entries.lookup place

/-- The tree with another entry at the place. -/
def put (tree : FileTree) (place : Place) (entry : Entry) : FileTree :=
  ⟨(place, entry) :: tree.entries.filter (·.1 ≠ place)⟩

/-- The number of octets that a name can have. -/
def nameLimit : Nat := 255

/-- The number of octets that a path can have. -/
def pathLimit : Nat := 4095

/-- The place that one step leads to. -/
def enter (tree : FileTree) (place : Place) (step : Component) : Except FileFault Place :=
  match tree.entry? place with
  | none => .error .notFound
  | some (.file _) => .error .notDirectory
  | some .directory =>
    match step with
    | .root => .ok []
    | .current => .ok place
    | .parent => .ok place.dropLast
    | .name chars =>
      if nameLimit < Text.octets chars then .error .nameTooLong else .ok (place ++ [chars])

/-- The place that the path leads to from the root. -/
def locate (tree : FileTree) (path : Path) : Except FileFault Place :=
  if path.text.contains '\x00' then .error .nullCharacter
  else if path.text.isEmpty then .error .notFound
  else if pathLimit < Text.octets path.text then .error .nameTooLong
  else path.components.foldlM tree.enter []

/-- How the end of a path says that it leads to a directory. -/
inductive Ending where
  /-- It does not. -/
  | plain
  /-- By a slash behind the last step. -/
  | slash
  /-- By a dot behind the last step. -/
  | dot
deriving Repr, DecidableEq

/-- How the end of the path says that it leads to a directory. -/
def ending (path : Path) : Ending :=
  let trimmed := Text.dropEndWhile (· == '/') path.text
  if (Text.takeEndWhile (· != '/') trimmed) = ['.'] then .dot
  else if trimmed.length = path.text.length then .plain
  else .slash

/-- The octets of a file. -/
def read (tree : FileTree) (path : Path) : Except FileFault (List UInt8) := do
  let place ← tree.locate path
  match tree.entry? place with
  | none => .error .notFound
  | some .directory => .error .isDirectory
  | some (.file octets) => if ending path = .plain then .ok octets else .error .notDirectory

/-- The tree after a file has been written. -/
def write (tree : FileTree) (path : Path) (octets : List UInt8) : Except FileFault FileTree := do
  let place ← tree.locate path
  if ending path = .slash then .error .isDirectory
  else match tree.entry? place with
    | some .directory => .error .isDirectory
    | some (.file _) =>
      if ending path = .plain then .ok (tree.put place (.file octets)) else .error .notDirectory
    | none =>
      if ending path = .plain then .ok (tree.put place (.file octets)) else .error .notFound

/-- The tree after one directory has been made. -/
def createDirectory (tree : FileTree) (path : Path) : Except FileFault FileTree := do
  let place ← tree.locate path
  match tree.entry? place with
  | some _ => .error .alreadyThere
  | none => .ok (tree.put place .directory)

/-- Whether the path leads to a directory. -/
def isDirectory (tree : FileTree) (path : Path) : Bool :=
  match tree.locate path with
  | .ok place => tree.entry? place == some .directory
  | .error _ => false

/-- The outcome of making a directory that may be there already. -/
def ensureDirectory (tree : FileTree) (path : Path) : Except FileFault FileTree :=
  match tree.createDirectory path with
  | .ok tree => .ok tree
  | .error fault => if tree.isDirectory path then .ok tree else .error fault

/-- Makes the directory that some steps lead to, the steps being given last one first.  Where
there is nothing to make it in, the directory above is made before it.  Directories that have
been made stay when one of them fails. -/
def createSteps (tree : FileTree) : List Component → Except FileFault Unit × FileTree
  | [] => (.ok (), tree)
  | last :: above =>
    let path := Path.ofComponents (last :: above).reverse
    match tree.ensureDirectory path with
    | .ok tree => (.ok (), tree)
    | .error .notFound =>
      match tree.createSteps above with
      | (.ok (), tree) =>
        match tree.ensureDirectory path with
        | .ok tree => (.ok (), tree)
        | .error fault => (.error fault, tree)
      | failed => failed
    | .error fault => (.error fault, tree)

/-- Makes a directory and those above it. -/
def createDirectories (tree : FileTree) (path : Path) : Except FileFault Unit × FileTree :=
  tree.createSteps path.components.reverse

/-- The files in and below a directory. -/
def filesUnder (tree : FileTree) (path : Path) : Except FileFault (List Path) := do
  let place ← tree.locate path
  match tree.entry? place with
  | none => .error .notFound
  | some (.file _) => if ending path = .plain then .ok [path] else .error .notDirectory
  | some .directory =>
    .ok (tree.entries.filterMap fun (other, entry) =>
      match entry with
      | .directory => none
      | .file _ =>
        if place.isPrefixOf other then some ((other.drop place.length).foldl Path.entry path)
        else none)

instance : FileSystem (StateM FileTree) where
  read path := fun tree => (tree.read path, tree)
  write path octets := fun tree =>
    match tree.write path octets with
    | .ok tree => (.ok (), tree)
    | .error fault => (.error fault, tree)
  createDirectories path := fun tree => tree.createDirectories path
  filesUnder path := fun tree => (tree.filesUnder path, tree)

end FileTree

end SqlDialect
