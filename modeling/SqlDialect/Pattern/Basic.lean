import SqlDialect.Text.Basic

/-!
# Patterns over one line

A `Pattern` describes stretches of a line, with named groups for the parts that a rule keeps.
Of several ways to match, the preferred one counts: the left side of an alternative, the longer
side of a greedy repetition, the shorter side of a lazy one.

* `Pattern.outcomes` lists every way to match at a place, in order of preference: this is what
  a pattern means.
* `Pattern.run` searches that list depth first and stops at the first success; it never builds
  the list.

Patterns are built with `++` for sequence and `<|>` for alternatives; `Pattern.keyword` reads a
word in either case of its letters.
-/

namespace SqlDialect

/-- A set of characters that a pattern can ask for. -/
inductive CharSet where
  /-- The characters of the list. -/
  | oneOf (chars : List Char)
  /-- The letter `c`, given in lower case, with case ignored. -/
  | caseless (c : Char)
  /-- The characters from `lo` to `hi`. -/
  | between (lo hi : Char)
  /-- White space. -/
  | blank
  /-- Decimal digits of every script. -/
  | digit
  /-- Word characters. -/
  | word
  /-- The characters of either set. -/
  | union (a b : CharSet)
  /-- The characters outside the set. -/
  | except (a : CharSet)
deriving Repr, DecidableEq

namespace CharSet

/-- Whether `c` belongs to the set. -/
def mem : CharSet → Char → Bool
  | oneOf chars, c => chars.contains c
  | caseless x, c => Text.foldCase c == x
  | between lo hi, c => lo ≤ c && c ≤ hi
  | blank, c => Text.isBlank c
  | digit, c => Text.isDigit c
  | word, c => Text.isWordChar c
  | union a b, c => a.mem c || b.mem c
  | except a, c => !a.mem c

instance : Union CharSet := ⟨union⟩

/-- That one character. -/
def exactly (c : Char) : CharSet := oneOf [c]

/-- The characters that do not occur in `chars`. -/
def noneOf (chars : String) : CharSet := except (oneOf chars.toList)

/-- Every character but the line feed. -/
def any : CharSet := except (exactly '\n')

/-- The characters that are not white space. -/
def solid : CharSet := except blank

/-- The ASCII letters. -/
def asciiLetter : CharSet := between 'A' 'Z' ∪ between 'a' 'z'

/-- The ASCII digits. -/
def asciiDigit : CharSet := between '0' '9'

/-- The characters that agree with an ASCII letter when case is ignored. -/
def foldedLetter : CharSet := asciiLetter ∪ oneOf ['\u017F', '\u212A']

end CharSet

namespace CharSet

/-- Whether the line starts with one character of each set, in order. -/
def startOf : List CharSet → List Char → Bool
  | [], _ => true
  | _ :: _, [] => false
  | set :: sets, c :: rest => set.mem c && startOf sets rest

/-- Whether one character of each set, in order, stand side by side somewhere in the line. -/
def within (sets : List CharSet) : List Char → Bool
  | [] => startOf sets []
  | c :: rest => startOf sets (c :: rest) || within sets rest

end CharSet

/-- A place in a line: the character before it, the number of characters before it, and what
follows it. -/
structure Cursor where
  /-- The character before the place; `none` at the start of the line. -/
  previous : Option Char
  /-- The number of characters before the place. -/
  index : Nat
  /-- The characters after the place. -/
  rest : List Char
deriving Repr, DecidableEq

namespace Cursor

/-- The start of a line. -/
def start (line : List Char) : Cursor := ⟨none, 0, line⟩

/-- The text between the place `a` and the later place `b` of the same line. -/
def between (a b : Cursor) : List Char := a.rest.take (b.index - a.index)

/-- The place after one character of each set, in order. -/
def after? : List CharSet → Cursor → Option Cursor
  | [], place => some place
  | set :: sets, place =>
    match place.rest with
    | [] => none
    | c :: rest => if set.mem c then after? sets ⟨some c, place.index + 1, rest⟩ else none

/-- Whether a word starts or ends at the place. -/
def atBoundary (a : Cursor) : Bool :=
  a.previous.any Text.isWordChar != a.rest.head?.any Text.isWordChar

end Cursor

/-- The text that a group of a pattern matched, and where it starts. -/
structure Group where
  /-- The name of the group in its pattern. -/
  name : String
  /-- The number of characters of the line before the group. -/
  start : Nat
  /-- The matched text. -/
  text : List Char
deriving Repr, DecidableEq

/-- A description of stretches of a line. -/
inductive Pattern where
  /-- One character of each set, in order. -/
  | chars (sets : List CharSet)
  /-- The empty stretch at the start of the line. -/
  | lineStart
  /-- The empty stretch at the end of the line. -/
  | lineEnd
  /-- The empty stretch at which a word starts or ends. -/
  | boundary
  /-- A stretch of `a` followed by one of `b`. -/
  | seq (a b : Pattern)
  /-- A stretch of `a`, or else one of `b`. -/
  | alt (a b : Pattern)
  /-- Stretches of `a`, as many as possible if `greedy` and as few as possible if not.  The
  pattern `a` must not match the empty stretch. -/
  | many (greedy : Bool) (a : Pattern)
  /-- A stretch of `a`, remembered under a name. -/
  | group (name : String) (a : Pattern)
deriving Repr, DecidableEq

namespace Pattern

instance : Append Pattern := ⟨seq⟩

instance : OrElse Pattern := ⟨fun a b => alt a (b ())⟩

/-! ### Meaning -/

/-- The outcomes of up to `bound.length` rounds of `step`, in order of preference. -/
def roundOutcomes (greedy : Bool) (step : Cursor → List Group → List (Cursor × List Group)) :
    List Char → Cursor → List Group → List (Cursor × List Group)
  | [], place, groups => [(place, groups)]
  | _ :: bound, place, groups =>
    let more := (step place groups).flatMap fun (place, groups) =>
      roundOutcomes greedy step bound place groups
    if greedy then more ++ [(place, groups)] else (place, groups) :: more

/-- Every way to match from `place` on, in order of preference: the place where the match ends,
and the groups, latest first. -/
def outcomes : Pattern → Cursor → List Group → List (Cursor × List Group)
  | chars sets, place, groups => ((place.after? sets).map (·, groups)).toList
  | lineStart, place, groups => if place.previous.isNone then [(place, groups)] else []
  | lineEnd, place, groups => if place.rest.isEmpty then [(place, groups)] else []
  | boundary, place, groups => if place.atBoundary then [(place, groups)] else []
  | seq a b, place, groups =>
    (a.outcomes place groups).flatMap fun (place, groups) => b.outcomes place groups
  | alt a b, place, groups => a.outcomes place groups ++ b.outcomes place groups
  | many greedy a, place, groups => roundOutcomes greedy a.outcomes place.rest place groups
  | group name a, place, groups =>
    (a.outcomes place groups).map fun (stop, groups) =>
      (stop, ⟨name, place.index, place.between stop⟩ :: groups)

/-! ### Search -/

/-- Depth-first search through the outcomes of up to `bound.length` rounds of `step`. -/
def rounds {α : Type} (greedy : Bool)
    (step : Cursor → List Group → (Cursor → List Group → Option α) → Option α) :
    List Char → Cursor → List Group → (Cursor → List Group → Option α) → Option α
  | [], place, groups, found => found place groups
  | _ :: bound, place, groups, found =>
    if greedy then
      match step place groups fun place groups => rounds greedy step bound place groups found with
      | some result => some result
      | none => found place groups
    else
      match found place groups with
      | some result => some result
      | none => step place groups fun place groups => rounds greedy step bound place groups found

/-- The first result of `found` over the outcomes of the pattern, in order of preference. -/
def run {α : Type} :
    Pattern → Cursor → List Group → (Cursor → List Group → Option α) → Option α
  | chars sets, place, groups, found =>
    match place.after? sets with
    | some place => found place groups
    | none => none
  | lineStart, place, groups, found =>
    if place.previous.isNone then found place groups else none
  | lineEnd, place, groups, found => if place.rest.isEmpty then found place groups else none
  | boundary, place, groups, found => if place.atBoundary then found place groups else none
  | seq a b, place, groups, found =>
    a.run place groups fun place groups => b.run place groups found
  | alt a b, place, groups, found =>
    match a.run place groups found with
    | some result => some result
    | none => b.run place groups found
  | many greedy a, place, groups, found => rounds greedy a.run place.rest place groups found
  | group name a, place, groups, found =>
    a.run place groups fun stop groups =>
      found stop (⟨name, place.index, place.between stop⟩ :: groups)

/-! ### What every match holds -/

/-- Runs of characters that every match of the pattern holds, each as one set for each of its
characters. -/
def required : Pattern → List (List CharSet)
  | chars sets => [sets]
  | seq a b => a.required ++ b.required
  | group _ a => a.required
  | _ => []

/-- Whether the line holds the runs of characters that every match of the pattern holds.  A line
that does not has no match, and need not be searched. -/
def admits (p : Pattern) (line : List Char) : Bool :=
  p.required.all (CharSet.within · line)

/-! ### Building patterns -/

/-- The empty stretch. -/
def empty : Pattern := chars []

/-- One character of the set. -/
def one (set : CharSet) : Pattern := chars [set]

/-- The characters of `text`, as they are. -/
def exactText (text : List Char) : Pattern := chars (text.map .exactly)

/-- The characters of `text`, with the case of letters ignored. -/
def keyword (text : String) : Pattern :=
  chars (text.toList.map fun c => if c.isAlpha then .caseless c.toLower else .exactly c)

/-- That one character. -/
def char (c : Char) : Pattern := one (.exactly c)

/-- As many stretches of `a` as possible. -/
def star (a : Pattern) : Pattern := many true a

/-- At least one stretch of `a`, and as many as possible. -/
def plus (a : Pattern) : Pattern := a ++ star a

/-- A stretch of `a` if there is one. -/
def optional (a : Pattern) : Pattern := alt a empty

/-- White space, possibly none. -/
def blanks : Pattern := star (one .blank)

/-- White space, at least one character of it. -/
def gap : Pattern := plus (one .blank)

/-- At least one digit. -/
def digits : Pattern := plus (one .digit)

/-- The words of `text`, separated there by single spaces, with any white space between them. -/
def phrase (words : List String) : Pattern :=
  match words with
  | [] => empty
  | [w] => keyword w
  | w :: rest => keyword w ++ gap ++ phrase rest

/-- The word `text` on its own, with case ignored. -/
def wholeWord (text : String) : Pattern := boundary ++ keyword text ++ boundary

end Pattern

end SqlDialect
