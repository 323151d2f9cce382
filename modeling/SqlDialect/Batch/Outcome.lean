import SqlDialect.Document.Report
import SqlDialect.Encoding.Basic
import SqlDialect.Path

/-!
# Outcomes of a batch
-/

namespace SqlDialect.Batch

/-- What has come of a document. -/
inductive Status where
  /-- It has been converted. -/
  | converted (report : Report)
  /-- It has not been converted, for a reason. -/
  | failed (reason : String)
deriving Repr, DecidableEq

/-- A document of a batch and what has come of it. -/
structure Outcome where
  /-- The file of the document. -/
  source : Path
  /-- The file of the converted document. -/
  destination : Path
  /-- The encoding of the document, if that has been found out. -/
  encoding : Option Encoding
  /-- What has come of it. -/
  status : Status
deriving Repr, DecidableEq

namespace Outcome

/-- The counters of a document that has been converted. -/
def report? (outcome : Outcome) : Option Report :=
  match outcome.status with
  | .converted report => some report
  | .failed _ => none

end Outcome

/-- What has come of a batch. -/
structure Summary where
  /-- The directory of the documents. -/
  sourceRoot : Path
  /-- The directory of the converted documents. -/
  destinationRoot : Path
  /-- What has come of each document. -/
  outcomes : List Outcome
deriving Repr, DecidableEq

namespace Summary

/-- The number of documents. -/
def total (summary : Summary) : Nat :=
  summary.outcomes.length

/-- The number of documents that have been converted. -/
def converted (summary : Summary) : Nat :=
  (summary.outcomes.filterMap Outcome.report?).length

/-- The number of documents that have not been converted. -/
def failed (summary : Summary) : Nat :=
  summary.total - summary.converted

/-- The changes by each rule in all converted documents. -/
def ruleHits (summary : Summary) : RuleHits :=
  (summary.outcomes.filterMap Outcome.report?).foldl
    (fun hits report => hits.merge report.ruleHits) []

/-- How a program ends that has run the batch: with 1 if there was no document, with 2 if one has
not been converted, and otherwise with 0. -/
def exitCode (summary : Summary) : Nat :=
  if summary.total = 0 then 1 else if 0 < summary.failed then 2 else 0

end Summary

end SqlDialect.Batch
