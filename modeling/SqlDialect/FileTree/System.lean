import SqlDialect.Path

/-!
# File systems

What the program needs of the place that its files are in, and why something cannot be done there.
-/

namespace SqlDialect

/-- Why something cannot be done with a path. -/
inductive FileFault where
  /-- Nothing is there. -/
  | notFound
  /-- Something is there already. -/
  | alreadyThere
  /-- What is there is not a directory. -/
  | notDirectory
  /-- What is there is a directory. -/
  | isDirectory
  /-- The path, or a name in it, is too long. -/
  | nameTooLong
  /-- The path holds a null character. -/
  | nullCharacter
  /-- Any other fault, by its report. -/
  | other (report : String)
deriving Repr, DecidableEq

namespace FileFault

/-- The report of the fault. -/
def report : FileFault → String
  | notFound => "No such file or directory (os error 2)"
  | alreadyThere => "File exists (os error 17)"
  | notDirectory => "Not a directory (os error 20)"
  | isDirectory => "Is a directory (os error 21)"
  | nameTooLong => "File name too long (os error 36)"
  | nullCharacter => "file name contained an unexpected NUL byte"
  | other report => report

/-- Whether the fault means that there is nothing at the path. -/
def isAbsence : FileFault → Bool
  | notFound => true
  | notDirectory => true
  | nameTooLong => true
  | nullCharacter => true
  | _ => false

end FileFault

/-- A place for files.  `m` is the monad in which they are read and written: that of a program that
runs, or that of a tree of files that is passed along. -/
class FileSystem (m : Type → Type) where
  /-- The octets of a file. -/
  read : Path → m (Except FileFault (List UInt8))
  /-- Makes a file of some octets, or replaces those of a file. -/
  write : Path → List UInt8 → m (Except FileFault Unit)
  /-- Makes a directory and those above it, as far as they are missing. -/
  createDirectories : Path → m (Except FileFault Unit)
  /-- The files in and below a directory; a file is the only one below itself. -/
  filesUnder : Path → m (Except FileFault (List Path))

end SqlDialect
