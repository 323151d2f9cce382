/-!
# Failures

What can keep a document, or a whole command, from being converted.  A failure is an internal
error if it comes from the file system, and a bad request if it comes from what was asked for.
-/

namespace SqlDialect

/-- Who is to blame for a failure. -/
inductive FailureKind where
  /-- What was asked for cannot be done. -/
  | badRequest
  /-- The surroundings did not allow it. -/
  | internal
deriving Repr, DecidableEq

/-- A reason not to go on. -/
inductive Failure where
  /-- A file cannot be read. -/
  | fileRead (path cause : String)
  /-- A file cannot be written. -/
  | fileWrite (path cause : String)
  /-- A document is neither in UTF-8 nor in the encoding that is tried next. -/
  | undecodable (path encoding : String)
  /-- The settings cannot be used. -/
  | badSettings (message : String)
  /-- Two documents are to be written to the same file. -/
  | destinationTaken (destination first : String)
deriving Repr, DecidableEq

namespace Failure

/-- The kind of the failure. -/
def kind : Failure → FailureKind
  | fileRead _ _ => .internal
  | fileWrite _ _ => .internal
  | undecodable _ _ => .badRequest
  | badSettings _ => .badRequest
  | destinationTaken _ _ => .badRequest

/-- What happened, in full. -/
def message : Failure → String
  | fileRead path cause => "Failed to read file '" ++ path ++ "': " ++ cause
  | fileWrite path cause => "Failed to write file '" ++ path ++ "': " ++ cause
  | undecodable path encoding =>
    "Failed to decode '" ++ path ++ "': not valid UTF-8 or " ++ encoding
  | badSettings message => message
  | destinationTaken destination first =>
    "Destination '" ++ destination ++ "' is already written by '" ++ first ++ "'"

/-- The short form that summaries and the command line show. -/
def display (failure : Failure) : String :=
  match failure.kind with
  | .badRequest => "Bad request"
  | .internal => "Internal server error"

end Failure

end SqlDialect
