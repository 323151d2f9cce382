import SqlDialect.Document.Converter
import SqlDialect.Failure
import SqlDialect.Text.Utf8

/-!
# Converting a stream of octets

A document can be read line by line from octets, and its lines written as they are finished to a
sink that has room for so many octets only.  The first fault ends the conversion: what has been
written up to then stays.
-/

namespace SqlDialect

/-- Where the lines of a document are written. -/
structure Sink where
  /-- The number of octets that the sink has room for, if that is limited. -/
  room : Option Nat
  /-- Whether the sink fails once everything has been written. -/
  flushFails : Bool
deriving Repr, DecidableEq

namespace Sink

/-- The texts that are written of those given, and whether these are all: a text is written if
the room that is left holds it, and nothing is written after one that does not fit. -/
def deliver : Option Nat → List (List Char) → List (List Char) × Bool
  | none, texts => (texts, true)
  | some _, [] => ([], true)
  | some room, text :: rest =>
    if Text.octets text ≤ room then
      let (written, complete) := deliver (some (room - Text.octets text)) rest
      (text :: written, complete)
    else
      ([], false)

end Sink

/-- The outcome of a conversion from a stream to a sink. -/
structure Transcript where
  /-- What has been written. -/
  written : List Char
  /-- The counters, or what went wrong. -/
  result : Except Failure Report

/-- The lines of a stream up to the first that is not in UTF-8, and whether there is none. -/
def Text.decodeLines : List (List UInt8) → List (List Char) × Bool
  | [] => ([], true)
  | octets :: rest =>
    match Text.ofUtf8? octets with
    | none => ([], false)
    | some line =>
      let (lines, complete) := Text.decodeLines rest
      (line :: lines, complete)

namespace Converter

/-- The texts with a line feed after each of them. -/
def terminated (texts : List (List Char)) : List (List Char) :=
  texts.flatMap fun text => [text, ['\n']]

/-- The conversion of a stream to a sink.  Faults bear the name of the document. -/
def transcribe (c : Converter) (name : Option String) (octets : List UInt8) (sink : Sink) :
    Transcript :=
  let label := name.getD "<input>"
  let (lines, decoded) := Text.decodeLines (Text.lines 0x0A 0x0D octets)
  let run := c.runLines name lines
  let run := if decoded then c.finish run else run
  let (written, complete) := Sink.deliver sink.room (terminated run.texts.reverse)
  { written := written.flatten
    result :=
      if !complete then .error (.fileWrite label "disk full")
      else if !decoded then .error (.fileRead label "stream did not contain valid UTF-8")
      else if sink.flushFails then .error (.fileWrite label "flush failed")
      else .ok run.report }

end Converter

end SqlDialect
