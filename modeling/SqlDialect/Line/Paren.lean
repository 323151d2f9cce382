import SqlDialect.Line.Comment

/-!
# Parentheses and argument lists

Both scans skip quoted text, with single and double quotes alike.  `matchingParen` finds the
parenthesis that closes a given one; `splitArgs` cuts an argument list at the commas that stand
outside all parentheses.
-/

namespace SqlDialect.Line

/-- The number of characters before the parenthesis that brings `depth` open ones down to none. -/
def closingParen (depth : Nat) (open? : Option Char) (index : Nat) : List Char → Option Nat
  | [] => none
  | c :: rest =>
    let depth' :=
      if open?.isSome then depth
      else if c == '(' then depth + 1 else if c == ')' then depth - 1 else depth
    if open?.isNone && c == ')' && depth' == 0 then some index
    else closingParen depth' (quoteAfter open? c) (index + 1) rest

/-- The place of the parenthesis that closes the one at `index`; none if there is no opening
parenthesis at `index`, or if it stays open. -/
def matchingParen (line : List Char) (index : Nat) : Option Nat :=
  match line.drop index with
  | '(' :: rest => closingParen 1 none (index + 1) rest
  | _ => none

/-- The arguments of a list that starts with `depth` open parentheses inside the given quote.  A
closing parenthesis that closes nothing is passed over. -/
def splitArgsFrom (depth : Nat) (open? : Option Char) : List Char → List (List Char)
  | [] => [[]]
  | c :: rest =>
    if open?.isNone && c == ',' && depth == 0 then [] :: splitArgsFrom depth open? rest
    else
      let depth' :=
        if open?.isSome then depth
        else if c == '(' then depth + 1 else if c == ')' then depth - 1 else depth
      match splitArgsFrom depth' (quoteAfter open? c) rest with
      | [] => [[c]]
      | arg :: args => (c :: arg) :: args

/-- The arguments of an argument list, with the white space around them. -/
def splitArgs (args : List Char) : List (List Char) :=
  splitArgsFrom 0 none args

end SqlDialect.Line
