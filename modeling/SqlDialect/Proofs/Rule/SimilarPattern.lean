import Mathlib.Tactic.SplitIfs
import SqlDialect.Proofs.Text.Regex
import SqlDialect.Rule.Expression
import SqlDialect.Rule.FunctionCall

/-!
# Patterns of `SIMILAR TO` as regular expressions

The two languages have most of their operators in common (`Regex.operator?`).  They differ in the
wildcards, and in the characters that are special in one of them only.  A pattern is read character by
character (`Rule.similarToken`).  A regular expression has escapes of its own (`Regex.tokens?`).  Both
stand in string literals (`Literal.text?`).

Read back through the literal and its own escapes, the translation of a pattern is the pattern with its
wildcards expanded, where `^` and `$` have become anchors (`Rule.tokens?_regexText`).  So it accepts what
the pattern accepts if the pattern has none of them (`Rule.similarToRegex_accepts_iff`).
-/

namespace SqlDialect

open Regex

/-- The operators that patterns and regular expressions have in common. -/
def Regex.operator? : Char → Option Token
  | '|' => some .bar
  | '*' => some (.mark .star)
  | '+' => some (.mark .plus)
  | '?' => some (.mark .opt)
  | '(' => some .opening
  | ')' => some .closing
  | _ => none

/-- What a character of a `SIMILAR TO` pattern stands for. -/
def Rule.similarToken : Char → Token
  | '%' => .atom .anyString
  | '_' => .atom .anyChar
  | c => (operator? c).getD (.atom (.exactly c))

/-- What an unescaped character of a regular expression stands for.  Bracket expressions and bounds are
not read. -/
def Regex.token? (c : Char) : Option Token :=
  if c = '.' then some (.atom .anyChar)
  else if c = '^' then some (.atom .start)
  else if c = '$' then some (.atom .finish)
  else if c ∈ ['[', ']', Rule.openBrace, Rule.closeBrace] then none
  else some ((operator? c).getD (.atom (.exactly c)))

/-- The tokens of a regular expression.  A backslash before a letter or a digit is a class of
characters or a reference, and is not read. -/
def Regex.tokens? : List Char → Option (List Token)
  | [] => some []
  | ['\\'] => none
  | '\\' :: c :: rest =>
    if c.isAlphanum then none else (tokens? rest).map (.atom (.exactly c) :: ·)
  | c :: rest => (token? c).bind fun t => (tokens? rest).map (t :: ·)

/-- The character behind a backslash in a string literal.  Characters given by their numbers are not
read. -/
def Literal.escaped? : Char → Option Char
  | 'b' => some '\x08'
  | 'f' => some '\x0c'
  | 'n' => some '\n'
  | 'r' => some '\r'
  | 't' => some '\t'
  | 'x' | 'u' => none
  | c => if c.isDigit then none else some c

/-- The text of a string literal with the given body. -/
def Literal.text? : List Char → Option (List Char)
  | [] => some []
  | '\'' :: '\'' :: rest => (text? rest).map ('\'' :: ·)
  | '\'' :: _ => none
  | ['\\'] => none
  | '\\' :: c :: rest => (escaped? c).bind fun d => (text? rest).map (d :: ·)
  | c :: rest => (text? rest).map (c :: ·)

/-- `text SIMILAR TO 'body'`, for a body without brackets, braces and backslashes. -/
def Rule.IsSimilar (body text : List Char) : Prop :=
  ∃ pattern, Literal.text? body = some pattern ∧
    Accepts (fun _ => true) (pattern.map similarToken) text

/-- `REGEXP_LIKE(text, 'body')`, where `dot` tells what a point stands for. -/
def Rule.RegexpLike (dot : Char → Bool) (body text : List Char) : Prop :=
  ∃ regex tokens, Literal.text? body = some regex ∧ tokens? regex = some tokens ∧
    Accepts dot tokens text

namespace Rule

/-- What the translation of a character of a pattern is in the regular expression, which is the text of
the literal. -/
def regexText (c : Char) : List Char :=
  if c = '%' then ['.', '*'] else if c = '_' then ['.'] else if c = '.' then ['\\', '.'] else [c]

/-- What a character of a pattern has become in the regular expression. -/
def anchoredToken (c : Char) : Token :=
  if c = '^' then .atom .start else if c = '$' then .atom .finish else similarToken c

/-- The characters of bracket expressions, bounds and escapes. -/
def unreadable : List Char := ['[', ']', openBrace, closeBrace, '\\']

variable {c : Char} {body pattern rest : List Char}

theorem text?_cons (hquote : c ≠ '\'') (hbackslash : c ≠ '\\') :
    Literal.text? (c :: rest) = (Literal.text? rest).map (c :: ·) := by
  rw [Literal.text?.eq_def]
  split <;> simp_all

theorem tokens?_cons (hbackslash : c ≠ '\\') :
    tokens? (c :: rest) = (token? c).bind fun t => (tokens? rest).map (t :: ·) := by
  rw [tokens?.eq_def]
  split <;> simp_all

theorem similarToRegex_cons : similarToRegex (c :: pattern) =
    (if c = '%' then ['.', '*'] else if c = '_' then ['.']
      else if c = '.' then ['\\', '\\', '.'] else [c]) ++ similarToRegex pattern := by
  simp only [similarToRegex, List.flatMap_cons, beq_iff_eq]

/-- What is written for a character is read as its translation. -/
theorem text?_translation (hquote : c ≠ '\'') (hbackslash : c ≠ '\\') :
    Literal.text? ((if c = '%' then ['.', '*'] else if c = '_' then ['.']
      else if c = '.' then ['\\', '\\', '.'] else [c]) ++ rest) =
      (Literal.text? rest).map (regexText c ++ ·) := by
  rw [regexText]
  split_ifs
  · simp [text?_cons, Function.comp_def]
  · simp [text?_cons]
  · simp [Literal.text?, Literal.escaped?, text?_cons, Function.comp_def]
  · simp [text?_cons, hquote, hbackslash]

theorem text?_quote (h : rest.head? ≠ some '\'') : Literal.text? ('\'' :: rest) = none := by
  cases rest with
  | nil => rfl
  | cons c rest =>
    rw [Literal.text?]
    rintro _ ⟨⟩
    exact h rfl

theorem head?_similarToRegex (h : body.head? ≠ some '\'') :
    (similarToRegex body).head? ≠ some '\'' := by
  cases body with
  | nil => simp [similarToRegex]
  | cons c body =>
    rw [similarToRegex_cons]
    split_ifs <;> simp_all

/-- The literal that is written holds the translation of the text of the one that is read. -/
theorem text?_similarToRegex (hplain : '\\' ∉ body) :
    Literal.text? (similarToRegex body) =
      (Literal.text? body).map fun pattern => pattern.flatMap regexText := by
  fun_induction Literal.text? body with
  | case1 => rfl
  | case2 rest ih =>
    have hrest := ih (by simp_all)
    rw [similarToRegex_cons, similarToRegex_cons]
    simp [Literal.text?, hrest, Function.comp_def, regexText]
  | case3 rest hquote =>
    rw [similarToRegex_cons]
    exact text?_quote (head?_similarToRegex (by cases rest <;> simp_all))
  | case4 => simp at hplain
  | case5 => simp at hplain
  | case6 c rest _ hquote _ _ ih =>
    have hbackslash : c ≠ '\\' := by
      rintro rfl
      exact hplain List.mem_cons_self
    rw [similarToRegex_cons, text?_translation hquote hbackslash,
      ih fun h => hplain (List.mem_cons_of_mem c h)]
    simp [Function.comp_def]

/-- A literal without backslashes holds no other characters than its body. -/
theorem subset_of_text? (hplain : '\\' ∉ body) (h : Literal.text? body = some pattern) :
    pattern ⊆ body := by
  fun_induction Literal.text? body generalizing pattern with
  | case1 => simp_all
  | case2 rest ih =>
    obtain ⟨pattern, hrest, rfl⟩ := Option.map_eq_some_iff.1 h
    have hsubset := ih (by simp_all) hrest
    exact List.cons_subset_cons _ (List.subset_cons_of_subset _ hsubset)
  | case3 => cases h
  | case4 => cases h
  | case5 => simp at hplain
  | case6 c rest _ _ _ _ ih =>
    obtain ⟨pattern, hrest, rfl⟩ := Option.map_eq_some_iff.1 h
    exact List.cons_subset_cons c (ih (by simp_all) hrest)

theorem token?_eq (hc : c ∉ unreadable) (hany : c ≠ '%') (hone : c ≠ '_') (hpoint : c ≠ '.') :
    token? c = some (anchoredToken c) := by
  simp only [unreadable, List.mem_cons, not_or] at hc
  rw [token?, anchoredToken, similarToken.eq_def]
  split_ifs <;> simp_all

theorem similarToken_ne (hany : c ≠ '%') : similarToken c ≠ .atom .anyString := by
  rw [similarToken.eq_def]
  split
  · exact absurd rfl hany
  · simp
  · rw [operator?.eq_def]
    split <;> simp

theorem expand_anchoredToken (hany : c ≠ '%') : (anchoredToken c).expand = [anchoredToken c] := by
  refine (Token.expand_eq _).resolve_left fun h => absurd h.1 ?_
  rw [anchoredToken]
  split_ifs
  · simp
  · simp
  · exact similarToken_ne hany

/-- **The translation is the pattern** with its wildcards expanded, and with two anchors in it. -/
theorem tokens?_regexText (hplain : ∀ c ∈ pattern, c ∉ unreadable) :
    tokens? (pattern.flatMap regexText) =
      some ((pattern.map anchoredToken).flatMap Token.expand) := by
  induction pattern with
  | nil => rfl
  | cons c pattern ih =>
    have hc := hplain c List.mem_cons_self
    have hrest := ih fun d hd => hplain d (List.mem_cons_of_mem c hd)
    rw [List.flatMap_cons, List.map_cons, List.flatMap_cons, regexText]
    split_ifs with hany hone hpoint
    · rw [hany, List.cons_append, tokens?_cons (by decide), List.singleton_append,
        tokens?_cons (by decide), hrest]
      rfl
    · rw [hone, List.singleton_append, tokens?_cons (by decide), hrest]
      rfl
    · rw [hpoint, List.cons_append, List.singleton_append, tokens?, hrest]
      rfl
    · have hbackslash : c ≠ '\\' := by
        rintro rfl
        exact hc (by decide)
      rw [expand_anchoredToken hany, List.singleton_append, tokens?_cons hbackslash,
        token?_eq hc hany hone hpoint, hrest]
      rfl

variable {dot : Char → Bool} {text : List Char}

/-- The translation accepts what the pattern accepts, with anchors for `^` and `$`. -/
theorem regexpLike_similarToRegex_iff (hplain : ∀ c ∈ body, c ∉ unreadable) :
    RegexpLike dot (similarToRegex body) text ↔
      ∃ pattern, Literal.text? body = some pattern ∧
        Accepts dot (pattern.map anchoredToken) text := by
  have hbackslash : '\\' ∉ body := fun h => hplain _ h (by decide)
  rw [RegexpLike, text?_similarToRegex hbackslash]
  have hread {pattern : List Char} (h : Literal.text? body = some pattern) :
      tokens? (pattern.flatMap regexText) =
        some ((pattern.map anchoredToken).flatMap Token.expand) :=
    tokens?_regexText fun c hc => hplain c (subset_of_text? hbackslash h hc)
  constructor
  · rintro ⟨regex, tokens, hregex, htokens, haccepts⟩
    obtain ⟨pattern, hpattern, rfl⟩ := Option.map_eq_some_iff.1 hregex
    rw [hread hpattern] at htokens
    cases htokens
    exact ⟨pattern, hpattern, accepts_expand_iff.1 haccepts⟩
  · rintro ⟨pattern, hpattern, haccepts⟩
    exact ⟨_, _, Option.map_eq_some_iff.2 ⟨pattern, hpattern, rfl⟩, hread hpattern,
      accepts_expand_iff.2 haccepts⟩

theorem map_anchoredToken (hstart : '^' ∉ pattern) (hfinish : '$' ∉ pattern) :
    pattern.map anchoredToken = pattern.map similarToken := by
  refine List.map_congr_left fun c hc => ?_
  have hc' : c ≠ '^' := by
    rintro rfl
    exact hstart hc
  have hc'' : c ≠ '$' := by
    rintro rfl
    exact hfinish hc
  rw [anchoredToken, if_neg hc', if_neg hc'']

/-- **A translated pattern accepts what the pattern accepts**, if no character of it has become an
anchor and the point stands for every character of the text.  Otherwise `^` and `$` are anchors, and the
wildcards stand for what the point stands for. -/
theorem similarToRegex_accepts_iff (dot : Char → Bool) (body text : List Char)
    (hplain : ∀ c ∈ body, c ∉ unreadable) :
    (RegexpLike dot (similarToRegex body) text ↔
      ∃ pattern, Literal.text? body = some pattern ∧
        Accepts dot (pattern.map anchoredToken) text) ∧
    ('^' ∉ body → '$' ∉ body → (∀ c ∈ text, dot c) →
      (RegexpLike dot (similarToRegex body) text ↔ IsSimilar body text)) := by
  refine ⟨regexpLike_similarToRegex_iff hplain, fun hstart hfinish hdot => ?_⟩
  rw [regexpLike_similarToRegex_iff hplain]
  refine exists_congr fun pattern => and_congr_right fun hpattern => ?_
  have hsubset := subset_of_text? (fun h => hplain _ h (by decide)) hpattern
  rw [map_anchoredToken (fun h => hstart (hsubset h)) fun h => hfinish (hsubset h)]
  exact accepts_congr hdot

/-- A pattern with a point, as it is written and as it is read. -/
theorem similarToRegex_accepts_iff_point :
    (∀ c ∈ "%.b".toList, c ∉ unreadable) ∧
      RegexpLike (· != '\n') (similarToRegex "%.b".toList) "a.b".toList := by
  have hplain : ∀ c ∈ "%.b".toList, c ∉ unreadable := by
    simp [unreadable, openBrace, closeBrace]
  have hiff := (similarToRegex_accepts_iff (· != '\n') "%.b".toList "a.b".toList hplain).2
    (by decide) (by decide) (by simp)
  refine ⟨hplain, hiff.2 ⟨"%.b".toList, rfl, ?_⟩⟩
  refine ⟨.seq (.seq (.seq .empty (.atom .anyString)) (.atom (.exactly '.'))) (.atom (.exactly 'b')),
    (((Parses.empty.seq (.atom _)).seq (.atom _)).seq (.atom _)).branch, ?_⟩
  -- any string up to the first place, the point up to the second
  refine ⟨2, ⟨1, ⟨0, rfl, by decide, fun k _ hk => ?_⟩, rfl, rfl⟩, rfl, rfl⟩
  obtain rfl : k = 0 := by omega
  rfl

/-- A dollar sign stands for itself in a pattern, and for the end of the text in its translation. -/
theorem similarToRegex_dollar :
    (∀ c ∈ "a$".toList, c ∉ unreadable) ∧
      RegexpLike (fun _ => true) (similarToRegex "a$".toList) "a".toList ∧
      ¬ IsSimilar "a$".toList "a".toList := by
  have hplain : ∀ c ∈ "a$".toList, c ∉ unreadable := by
    simp [unreadable, openBrace, closeBrace]
  refine ⟨hplain, (regexpLike_similarToRegex_iff hplain).2 ⟨"a$".toList, rfl, ?_⟩, ?_⟩
  · exact ⟨.seq (.seq .empty (.atom (.exactly 'a'))) (.atom .finish),
      ((Parses.empty.seq (.atom _)).seq (.atom _)).branch, 1, ⟨0, rfl, rfl, rfl⟩, rfl, rfl⟩
  · rintro ⟨pattern, hpattern, haccepts⟩
    cases hpattern
    have hself := eq_of_accepts_exactly (s := "a$".toList) haccepts
    revert hself
    decide

end Rule

end SqlDialect
