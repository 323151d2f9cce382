import SqlDialect.Document.Converter
import SqlDialect.Encoding.Basic
import SqlDialect.FileTree.System

/-!
# Documents in files

A file holds a document in one of the known encodings; the converted document is in UTF-8, with
a line feed behind each of its lines.
-/

namespace SqlDialect

namespace Document

/-- The document with the given text. -/
def ofText (name : Option String) (text : List Char) : Document :=
  ⟨name, Text.lines '\n' '\r' text⟩

end Document

namespace Conversion

/-- The text of the converted document. -/
def text (conversion : Conversion) : List Char :=
  conversion.texts.flatMap fun line => line ++ ['\n']

/-- The octets of the converted document. -/
def octets (conversion : Conversion) : List UInt8 :=
  Text.toUtf8 conversion.text

end Conversion

/-- The conversion of a document from octets. `label` is what the document is called if it cannot
be decoded. -/
def Converter.convertOctets (c : Converter) (label : String) (name : Option String)
    (octets : List UInt8) : Except Failure (Encoding × Conversion) := do
  let (text, encoding) ← Encoding.decode label octets
  return (encoding, c.convert (.ofText name text))

section Delivery

variable {m : Type → Type} [Monad m] [FileSystem m]

/-- Writes a converted document, and makes the directory that it belongs to. -/
def deliver (destination : Path) (octets : List UInt8) : m (Except Failure Unit) := do
  let failure (fault : FileFault) := Failure.fileWrite destination.toString fault.report
  let made ← match destination.parent? with
    | some directory => FileSystem.createDirectories directory
    | none => pure (.ok ())
  match made with
  | .error fault => return .error (failure fault)
  | .ok () =>
    match ← FileSystem.write destination octets with
    | .error fault => return .error (failure fault)
    | .ok () => return .ok ()

end Delivery

end SqlDialect
