import SqlDialect.Line.Nesting
import SqlDialect.Rule.FunctionCall

/-!
# Calls by their places

The loop that changes the calls of a line, by octets: the places of the calls are found once, in the line
as it came, and the calls are then visited from right to left in the line as it is by then.  Every slice of
the line is checked, so that there is no result if a place has become wrong.

* `CallRewriter` is what a rule makes of a call.  It may keep something from one call to the next.
* `CallTour.run?` is the loop.  It logs its visits.
* `CallRewriter.average`, `CallRewriter.distinctList`, `CallRewriter.singleArgument` and
  `CallRewriter.arrayElement` are what the rules about calls make of one.
-/

namespace SqlDialect

namespace Text

/-- The text with other text in the place of the octets from `start` to before `stop`; nothing if these are
not places of the text in this order. -/
def replaceOctets? (text : List Char) (start stop : Nat) (new : List Char) : Option (List Char) := do
  let before ← slice? text 0 start
  let _ ← slice? text start stop
  let behind ← slice? text stop (octets text)
  return before ++ new ++ behind

end Text

/-- A call within a line, by octets. -/
structure CallSpan where
  /-- The line. -/
  line : List Char
  /-- The number of octets before the name of the function. -/
  start : Nat
  /-- The number of octets before the opening parenthesis. -/
  opening : Nat
  /-- The number of octets before the closing parenthesis. -/
  closing : Nat
deriving Repr, DecidableEq

namespace CallSpan

/-- The call, from its name to its closing parenthesis. -/
def text? (call : CallSpan) : Option (List Char) :=
  Text.slice? call.line call.start (call.closing + 1)

/-- The arguments of the call. -/
def args? (call : CallSpan) : Option (List Char) :=
  Text.slice? call.line (call.opening + 1) call.closing

/-- The line before the call. -/
def before? (call : CallSpan) : Option (List Char) :=
  Text.slice? call.line 0 call.start

/-- The line after the call. -/
def after? (call : CallSpan) : Option (List Char) :=
  Text.slice? call.line (call.closing + 1) (Text.octets call.line)

end CallSpan

/-- What is to be done with a call. -/
structure CallReplacement where
  /-- The new text. -/
  text : List Char
  /-- The number of octets of the line before the end of the text that it replaces, which starts with the
  call. -/
  stop : Nat
deriving Repr, DecidableEq

/-- What a rule makes of a call: it leaves the call alone, or replaces it.  It may keep something of type
`σ` from one call to the next; there is no result if it takes a slice that the line does not have. -/
def CallRewriter (σ : Type) : Type :=
  σ → CallSpan → Option (Option CallReplacement × σ)

/-- Where a call of a line is. -/
structure CallPlace where
  /-- The number of octets before the name of the function. -/
  start : Nat
  /-- The number of octets before the opening parenthesis. -/
  opening : Nat
deriving Repr, DecidableEq

/-- The places of the calls that the pattern finds in the code of the line. -/
def callPlaces (p : Pattern) (line : List Char) : List CallPlace :=
  ((p.matchesIn line).map fun m =>
    ⟨Text.octets (line.take m.start), Text.octets (line.take m.stop) - 1⟩).filter
      fun place => Literal.isCodeAt line place.start

/-- A visit to a call. -/
structure CallTurn where
  /-- The line before the visit. -/
  line : List Char
  /-- Where the call is. -/
  place : CallPlace
  /-- The call, if it was replaced. -/
  note : Option (List Char)
deriving Repr, DecidableEq

/-- The visits to the calls of a line. -/
structure CallTour (σ : Type) where
  /-- The line as it is now. -/
  line : List Char
  /-- What the rule keeps. -/
  kept : σ
  /-- The visits, latest first. -/
  turns : List CallTurn

namespace CallTour

variable {σ : Type}

/-- The call that was replaced last. -/
def note (tour : CallTour σ) : Option (List Char) :=
  tour.turns.findSome? (·.note)

/-- Visits the call at a place; one that is not closed is passed over. -/
def visit? (f : CallRewriter σ) (place : CallPlace) (tour : CallTour σ) : Option (CallTour σ) :=
  match Line.closingPlace tour.line place.opening with
  | .underflow => none
  | .missing => some { tour with turns := ⟨tour.line, place, none⟩ :: tour.turns }
  | .found closing =>
    let call : CallSpan := ⟨tour.line, place.start, place.opening, closing⟩
    (f tour.kept call).bind fun (replacement?, kept) =>
      match replacement? with
      | none => some ⟨tour.line, kept, ⟨tour.line, place, none⟩ :: tour.turns⟩
      | some replacement => do
        let text ← call.text?
        let line ← Text.replaceOctets? tour.line place.start replacement.stop replacement.text
        return ⟨line, kept, ⟨tour.line, place, some (Text.trim text)⟩ :: tour.turns⟩

/-- Visits the calls that the pattern finds in the code of the line, from right to left. -/
def run? (p : Pattern) (f : CallRewriter σ) (kept : σ) (line : List Char) : Option (CallTour σ) :=
  (callPlaces p line).foldrM (visit? f) ⟨line, kept, []⟩

end CallTour

namespace CallRewriter

open Pattern Rule

/-- An average is truncated, unless that has been done or it is a window function. -/
def average : CallRewriter (Option (List Char)) := fun kept call => do
  let before ← call.before?
  let after ← call.after?
  if (truncOpening ++ lineEnd).occursIn before || overClause.occursIn after then
    some (none, kept)
  else
    let text ← call.text?
    some (some ⟨"TRUNC(".toList ++ text ++ [')'], call.closing + 1⟩, kept)

/-- A list of distinct values with an order is made distinct after the aggregation; the first call without
an order is kept. -/
def distinctList : CallRewriter (Option (List Char)) := fun kept call => do
  let args ← call.args?
  match distinctWord.find? args with
  | none => some (none, kept)
  | some distinct =>
    let list ← Text.slice? args (Text.octets (args.take distinct.stop)) (Text.octets args)
    let after ← call.after?
    match withinGroup.find? after with
    | none =>
      let text ← call.text?
      some (none, kept.or (some (Text.trim text)))
    | some within =>
      let groupOpening := call.closing + Text.octets (after.take within.stop)
      match Line.closingPlace call.line groupOpening with
      | .underflow => none
      | .missing => some (none, kept)
      | .found groupClosing =>
        let texts ← Line.argumentTexts? list
        let group ← Text.slice? call.line groupOpening (groupClosing + 1)
        let separator := match texts with
          | _ :: separator :: _ => Text.trim separator
          | _ => "''".toList
        some (some ⟨"f_list_distinct(LISTAGG(".toList ++ Text.trim list ++ ") WITHIN GROUP ".toList ++
          group ++ ", ".toList ++ separator ++ [')'], groupClosing + 1⟩, kept)

/-- A call with a single argument gets `null` for a second one. -/
def singleArgument : CallRewriter (Option (List Char)) := fun kept call => do
  let args ← call.args?
  let texts ← Line.argumentTexts? args
  match texts with
  | [arg] =>
    if Line.isBlank arg then some (none, kept)
    else
      let front ← Text.slice? call.line call.start call.closing
      some (some ⟨front ++ ", null)".toList, call.closing + 1⟩, kept)
  | _ => some (none, kept)

/-- The element of a JSON array is a subscript of the parsed array. -/
def arrayElement : CallRewriter (Option (List Char)) := fun kept call => do
  let args ← call.args?
  let texts ← Line.argumentTexts? args
  match texts with
  | json :: index :: _ =>
    some (some ⟨"PARSE_JSON(".toList ++ Text.trim json ++ ")[".toList ++ Text.trim index ++ [']'],
      call.closing + 1⟩, kept)
  | _ => some (none, kept)

end CallRewriter

end SqlDialect
