/-!
# Reports

The counters of one converted document.
-/

namespace SqlDialect

/-- How often each rule has changed a line, in the order of their first changes. -/
abbrev RuleHits := List (String × Nat)

namespace RuleHits

/-- The hits with `count` more for the rule. -/
def add (hits : RuleHits) (id : String) (count : Nat) : RuleHits :=
  match hits with
  | [] => [(id, count)]
  | (other, n) :: rest =>
    if other == id then (other, n + count) :: rest else (other, n) :: add rest id count

/-- The hits with those of a second list added. -/
def merge (hits more : RuleHits) : RuleHits :=
  more.foldl (fun hits (id, count) => hits.add id count) hits

/-- The hits with exactly `count` for the rule. -/
def set (hits : RuleHits) (id : String) (count : Nat) : RuleHits :=
  match hits with
  | [] => [(id, count)]
  | (other, n) :: rest =>
    if other == id then (other, count) :: rest else (other, n) :: set rest id count

/-- The sum over all rules. -/
def total (hits : RuleHits) : Nat :=
  hits.foldr (fun (_, count) sum => count + sum) 0

end RuleHits

/-- The counters of one document. -/
structure Report where
  /-- Lines read. -/
  lines : Nat := 0
  /-- Lines that are not written as they came. -/
  changedLines : Nat := 0
  /-- Lines inside suppression regions. -/
  suppressedLines : Nat := 0
  /-- Suppression regions opened. -/
  regionsOpened : Nat := 0
  /-- Suppression regions closed, also by the end of the document. -/
  regionsClosed : Nat := 0
  /-- Suppression regions closed by the end of the document. -/
  forcedCloses : Nat := 0
  /-- Lines that repeated rules would have gone on changing. -/
  repeatLimitHits : Nat := 0
  /-- Changes by each rule. -/
  ruleHits : RuleHits := []
deriving Repr, DecidableEq

namespace Report

/-- The report with one more change by each of the rules. -/
def recordHits (report : Report) (ids : List String) : Report :=
  { report with ruleHits := ids.foldl (fun hits id => hits.add id 1) report.ruleHits }

end Report

end SqlDialect
