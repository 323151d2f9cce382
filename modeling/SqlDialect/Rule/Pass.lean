import SqlDialect.Line.Remark
import SqlDialect.Rule.Catalogue

/-!
# Passes of rules over a line

`Pass.run` lets each rule see the line once, until one of them ends the line.
`Repetition.run` lets the rules see the line again and again, until a whole pass changes
nothing or the limit of passes is reached.
-/

namespace SqlDialect

/-- What a list of rules has made of a line. -/
structure Pass where
  /-- The line as it is now. -/
  line : List Char
  /-- The notes of the rules that changed it. -/
  remark : Remark
  /-- The identifiers of those rules, in order. -/
  hits : List String
  /-- What happens next. -/
  control : Control
  /-- Whether a statement of its own was discarded. -/
  discardsStatement : Bool
deriving Repr, DecidableEq

namespace Pass

/-- The pass after the rule has made an edit. -/
def apply (pass : Pass) (rule : Rule) (edit : Edit) : Pass where
  line := edit.line
  remark := pass.remark.push edit.note
  hits := pass.hits ++ [rule.id]
  control := edit.control
  discardsStatement := pass.discardsStatement || edit.discardsStatement

/-- The rules in order, each on the line that the rules before it left, up to the first that does
not let the next one see the line. -/
def run (ctx : Context) (pass : Pass) : List Rule → Pass
  | [] => pass
  | rule :: rest =>
    match rule.edit? ctx pass.line with
    | none => run ctx pass rest
    | some edit =>
      if edit.control = .proceed then run ctx (pass.apply rule edit) rest
      else pass.apply rule edit

end Pass

/-- What a list of rules has made of a line by repeated passes. -/
structure Repetition where
  /-- The line as it is now. -/
  line : List Char
  /-- The notes of the rules that changed it. -/
  remark : Remark
  /-- The identifiers of those rules, once for each change. -/
  hits : List String
  /-- The number of passes. -/
  passes : Nat
  /-- Whether the last pass changed nothing. -/
  converged : Bool
deriving Repr, DecidableEq

namespace Repetition

/-- The largest number of passes over any line. -/
def maxPasses : Nat := 256

/-- The largest number of passes over a line for a number of rules.  Every pass but the last
changes something, and what is changed takes at least one octet for each rule. -/
def passLimit (ruleCount : Nat) (line : List Char) : Nat :=
  if ruleCount == 0 then 0 else min (Text.octets line / ruleCount + 2) maxPasses

/-- The state after every rule has seen the line once. -/
def onePass (ctx : Context) (rules : List Rule) (state : Repetition) : Repetition :=
  rules.foldl
    (fun state rule =>
      match rule.edit? ctx state.line with
      | none => state
      | some edit =>
        { state with
          line := edit.line
          remark := state.remark.push edit.note
          hits := state.hits ++ [rule.id] })
    { state with passes := state.passes + 1 }

/-- Passes until one of them changes nothing, `remaining` of them at most. -/
def passesUpTo (ctx : Context) (rules : List Rule) (remaining : Nat) (state : Repetition) :
    Repetition :=
  match remaining with
  | 0 =>
    { state with
      remark := state.remark.push
        ("repeat limit of ".toList ++ (toString state.passes).toList ++ " passes reached".toList)
      converged := false }
  | remaining + 1 =>
    let next := onePass ctx rules state
    if next.hits.length == state.hits.length then next
    else passesUpTo ctx rules remaining next

/-- Passes until one of them changes nothing, as many as the limit for the line allows. -/
def run (ctx : Context) (rules : List Rule) (line : List Char) (remark : Remark) :
    Repetition :=
  let start : Repetition := ⟨line, remark, [], 0, true⟩
  if rules.isEmpty then start
  else passesUpTo ctx rules (passLimit rules.length line) start

end Repetition

end SqlDialect
