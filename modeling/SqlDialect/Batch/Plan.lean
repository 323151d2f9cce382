import SqlDialect.Path

/-!
# Planning a batch

A batch converts the files with a certain extension below a directory, the source root.  Each has
a destination below the destination root: a file directly in the source root keeps its name, and
a deeper one keeps its name and that of the directory that it is in.  Two files can therefore
have the same destination; the first of them claims it.
-/

namespace SqlDialect.Batch

/-- What a batch converts, and where it puts the converted documents. -/
structure Options where
  /-- The directory of the documents to convert. -/
  sourceRoot : Path
  /-- The directory of the converted documents. -/
  destinationRoot : Path
  /-- The extension of the files to convert. -/
  extension : String
  /-- Whether the progress of the batch may be shown. -/
  progress : Bool
deriving Repr, DecidableEq

/-- A file to convert. -/
structure Job where
  /-- The file. -/
  source : Path
  /-- The file that the converted document is written to. -/
  destination : Path
  /-- The earlier file that claims the destination, if there is one. -/
  claimedBy : Option Path
deriving Repr, DecidableEq

/-- Whether the file has the extension, in whatever case.  Dots that the wanted extension starts
with do not count. -/
def hasExtension (wanted : String) (file : Path) : Bool :=
  match file.extension? with
  | none => false
  | some found => Text.sameIgnoringCase found (wanted.toList.dropWhile (· == '.'))

/-- The files with the extension among the given ones, in the order of their paths. -/
def select (wanted : String) (files : List Path) : List Path :=
  (files.filter (hasExtension wanted)).mergeSort Path.le

/-- The destination of a file. -/
def destination (sourceRoot destinationRoot source : Path) : Path :=
  let name : Path := (source.fileName?.map Path.mk).getD source
  let directory := (Path.parentComponents? (source.stepsFrom sourceRoot)).bind Path.lastName?
  match directory with
  | some chars => (destinationRoot.entry chars).join name
  | none => destinationRoot.join name

/-- Destinations that have been claimed, each with the file that claims it. -/
abbrev Claims := List (Path × Path)

/-- The file that claims the destination, if there is one. -/
def Claims.holder? (claims : Claims) (destination : Path) : Option Path :=
  (claims.find? fun claim => claim.1.same destination).map Prod.snd

namespace Options

/-- The destination of a file of the batch. -/
def destination (options : Options) (source : Path) : Path :=
  Batch.destination options.sourceRoot options.destinationRoot source

/-- The jobs for some files, when some destinations have been claimed.  A file claims its
destination unless another one does. -/
def planWith (options : Options) (claims : Claims) : List Path → List Job
  | [] => []
  | source :: rest =>
    let destination := options.destination source
    match claims.holder? destination with
    | some holder => ⟨source, destination, some holder⟩ :: planWith options claims rest
    | none => ⟨source, destination, none⟩ :: planWith options ((destination, source) :: claims) rest

/-- The jobs for some files. -/
def plan (options : Options) (files : List Path) : List Job :=
  options.planWith [] files

end Options

end SqlDialect.Batch
