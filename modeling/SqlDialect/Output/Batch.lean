import SqlDialect.Batch.Outcome
import SqlDialect.Output.Style

/-!
# Summaries of batches
-/

namespace SqlDialect

/-! ### As data -/

/-- The name of an encoding in data. -/
def Encoding.key : Encoding → String
  | .utf8 => "utf8"
  | .utf8Marked => "utf8_bom"
  | .shiftJis => "shift_jis"

/-- The counters as data. -/
def Report.data (r : Report) : Data :=
  .record [
    Data.field "lines" (.number r.lines),
    Data.field "changed_lines" (.number r.changedLines),
    Data.field "suppressed_lines" (.number r.suppressedLines),
    Data.field "regions_opened" (.number r.regionsOpened),
    Data.field "regions_closed" (.number r.regionsClosed),
    Data.field "forced_closes" (.number r.forcedCloses),
    Data.field "repeat_limit_hits" (.number r.repeatLimitHits),
    Data.field "rule_hits"
      (.record (r.ruleHits.map fun (id, count) => Data.field id (.number count)))]

namespace Batch

/-- What has come of a document, as data. -/
def Status.data : Status → Data
  | .converted report =>
    .record [Data.field "status" (.ofString "converted"), Data.field "report" report.data]
  | .failed reason =>
    .record [Data.field "status" (.ofString "failed"), Data.field "error" (.ofString reason)]

/-- A document and what has come of it, as data. -/
def Outcome.data (o : Outcome) : Data :=
  .record (
    [Data.field "source" (.text o.source.text),
      Data.field "destination" (.text o.destination.text)] ++
    o.encoding.toList.map (fun e => Data.field "encoding" (.ofString e.key)) ++
    [Data.field "status" o.status.data])

/-- The summary as data. -/
def Summary.data (s : Summary) : Data :=
  .record [
    Data.field "source_root" (.text s.sourceRoot.text),
    Data.field "destination_root" (.text s.destinationRoot.text),
    Data.field "documents" (.list (s.outcomes.map Outcome.data))]

/-! ### As a text -/

/-- The lines about a document. -/
def Outcome.lines (style : Style) (o : Outcome) : String :=
  match o.status with
  | .converted r =>
    let counters :=
      "     " ++ toString r.lines ++ " lines, " ++ toString r.changedLines ++ " changed, " ++
        toString r.suppressedLines ++ " suppressed" ++
        String.join (o.encoding.toList.map fun e => ", " ++ e.label) ++ "\n"
    let warning :=
      "     " ++ toString r.forcedCloses ++
        " suppression region(s) closed at end of document\n"
    style.paint .boldGreen "OK" ++ " " ++ o.source.toString ++ " -> " ++
      o.destination.toString ++ "\n" ++
      (if style.verbose then counters else "") ++
      (if 0 < r.forcedCloses then style.paint .yellow warning else "")
  | .failed reason =>
    style.paint .boldRed "FAILED" ++ " " ++ o.source.toString ++ ": " ++ reason ++ "\n"

/-- The lines about the changes by each rule. -/
def hitLines (hits : RuleHits) : String :=
  if hits.isEmpty then ""
  else
    "\nRule hits:\n" ++ String.join (hits.map fun (id, count) =>
      "  " ++ Text.padEnd 8 id ++ " " ++ toString count ++ "\n")

/-- The summary as a text for people. -/
def Summary.lines (style : Style) (s : Summary) : String :=
  let header := style.paint .bold "=== SQL Conversion ===\n\n"
  if s.outcomes.isEmpty then
    header ++ "No files found under " ++ s.sourceRoot.toString ++ "\n"
  else
    let totals :=
      "\n" ++ toString s.converted ++ " converted, " ++ toString s.failed ++ " failed, " ++
        toString s.total ++ " total\n"
    header ++ String.join (s.outcomes.map (Outcome.lines style)) ++
      (if style.verbose then hitLines s.ruleHits else "") ++
      style.paint (if 0 < s.failed then .red else .green) totals

/-- The summary in the given style. -/
def Summary.printed (style : Style) (s : Summary) : List Char :=
  match style.format with
  | .json => s.data.toJson
  | .yaml => s.data.toYaml
  | .text => (s.lines style).toList

end Batch

end SqlDialect
