import SqlDialect.Text.Basic

/-!
# Paths

A path is a text of pieces separated by slashes.  What it means is the list of its components:
empty pieces and pieces that are a single dot do not count, except for the slash that an absolute
path starts with and the dot that a relative path starts with.

* `Path.same` : two paths are the same if they have the same components.
* `Path.le` : paths are ordered by their components.
* `Path.join` : a path seen from a directory; an absolute path is not changed.
-/

namespace SqlDialect

/-- One step of a path. -/
inductive Component where
  /-- To the root of the file system. -/
  | root
  /-- To the directory where one is. -/
  | current
  /-- To the directory above. -/
  | parent
  /-- To an entry of the directory. -/
  | name (chars : List Char)
deriving Repr, DecidableEq

namespace Component

/-- The component that a piece between slashes stands for, unless it does not count. -/
def ofPiece? (piece : List Char) : Option Component :=
  if piece = [] ∨ piece = ['.'] then none
  else if piece = ['.', '.'] then some parent
  else some (name piece)

/-- The entry that the component names. -/
def name? : Component → Option (List Char)
  | name chars => some chars
  | _ => none

/-- The text of the component. -/
def text : Component → List Char
  | root => ['/']
  | current => ['.']
  | parent => ['.', '.']
  | name chars => chars

/-- The place of the kind of component in the order of paths. -/
def rank : Component → Nat
  | root => 0
  | current => 1
  | parent => 2
  | name _ => 3

/-- Whether the first component comes before the second one. -/
def lt (a b : Component) : Bool :=
  match a, b with
  | name x, name y => List.lex x y (· < ·)
  | _, _ => a.rank < b.rank

end Component

/-- A path. -/
structure Path where
  /-- The path as it was given. -/
  text : List Char
deriving Repr, DecidableEq

namespace Path

/-- The path with the given text. -/
def ofString (s : String) : Path := ⟨s.toList⟩

/-- The text of the path. -/
def toString (p : Path) : String := String.ofList p.text

/-- Whether the path starts at the root. -/
def isAbsolute (p : Path) : Bool := p.text.head? == some '/'

/-- The steps of the path. -/
def components (p : Path) : List Component :=
  let counted (pieces : List (List Char)) := pieces.filterMap Component.ofPiece?
  match Text.cutAt '/' p.text with
  | [] => []
  | first :: rest =>
    if p.isAbsolute then .root :: counted (first :: rest)
    else if first = ['.'] then .current :: counted rest
    else counted (first :: rest)

/-- Whether two paths have the same steps. -/
def same (p q : Path) : Bool := p.components == q.components

/-- Whether the first path does not come after the second one. -/
def le (p q : Path) : Bool := !List.lex q.components p.components Component.lt

/-- The path `q` seen from the directory `p`. -/
def join (p q : Path) : Path :=
  if q.isAbsolute then q
  else if p.text.isEmpty || Text.endsWith p.text '/' then ⟨p.text ++ q.text⟩
  else ⟨p.text ++ '/' :: q.text⟩

/-- The entry `chars` of the directory `p`. -/
def entry (p : Path) (chars : List Char) : Path := p.join ⟨chars⟩

/-- The path of some steps. -/
def ofComponents : List Component → Path
  | [] => ⟨[]⟩
  | c :: rest => rest.foldl (fun p c => p.join ⟨c.text⟩) ⟨c.text⟩

/-- The steps to the directory that holds what the path leads to. -/
def parentComponents? (components : List Component) : Option (List Component) :=
  match components.getLast? with
  | none => none
  | some .root => none
  | some _ => some components.dropLast

/-- The directory that holds what the path leads to. -/
def parent? (p : Path) : Option Path :=
  (parentComponents? p.components).map ofComponents

/-- The name of what the steps lead to; none if they end with a step to a root, to a parent, or to
where one is. -/
def lastName? (components : List Component) : Option (List Char) :=
  components.getLast?.bind Component.name?

/-- The name of what the path leads to. -/
def fileName? (p : Path) : Option (List Char) := lastName? p.components

/-- A name as what stands before its last dot and what stands behind it.  A dot at the start of
the name does not count. -/
def splitName (name : List Char) : List Char × Option (List Char) :=
  match (Text.dropEndWhile (· != '.') name).dropLast with
  | [] => (name, none)
  | stem => (stem, some (Text.takeEndWhile (· != '.') name))

/-- The name of what the path leads to without its extension. -/
def stem? (p : Path) : Option (List Char) :=
  p.fileName?.map fun name => (splitName name).1

/-- The extension of the name of what the path leads to. -/
def extension? (p : Path) : Option (List Char) :=
  p.fileName?.bind fun name => (splitName name).2

/-- The steps of `p` behind those of `base`; all steps if `p` does not start with those. -/
def stepsFrom (p base : Path) : List Component :=
  if base.components.isPrefixOf p.components then p.components.drop base.components.length
  else p.components

end Path

end SqlDialect
