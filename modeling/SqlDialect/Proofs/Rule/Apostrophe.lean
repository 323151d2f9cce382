import SqlDialect.Proofs.Line.Literal
import SqlDialect.Proofs.Rule.Discard

/-!
# Apostrophes in quoted names

Two scans read the quotes of a line.  Comments are looked for outside single and double quotes
alike, the end of a statement outside single quotes only: there an apostrophe in a double-quoted
name opens a literal.  The scans agree as long as there is an even number of such apostrophes.

* `Line.count_quote_mod_two` : the single quotes of a text whose quotes are closed, up to parity, are
  the apostrophes in its double quotes.
* `Line.codeContains_of_ends` : what that means for a text that ends with a semicolon.
* `Rule.endLine_iff_of_ends` : **when a discarded statement ends with its line**.
-/

namespace SqlDialect

namespace Line

/-- The number of single quotes that stand inside double quotes, in a text that starts inside the
given quote. -/
def apostrophesFrom (open? : Option Char) : List Char → Nat
  | [] => 0
  | c :: rest =>
    (if open? = some '"' ∧ c = '\'' then 1 else 0) + apostrophesFrom (quoteAfter open? c) rest

/-- The number of single quotes that stand inside double quotes. -/
def apostrophes (text : List Char) : Nat := apostrophesFrom none text

/-- The single quote that is still to come if a literal is open. -/
def pendingQuote (open? : Option Char) : Nat := if open? = some '\'' then 1 else 0

/-- A single quote opens or closes a literal, or it is an apostrophe. -/
theorem count_quote_add_pendingQuote {open? : Option Char} (text : List Char)
    (hopen : open? = none ∨ open? = some '\'' ∨ open? = some '"') :
    (text.count '\'' + pendingQuote open?) % 2 =
      (apostrophesFrom open? text + pendingQuote (quoteBehind open? text)) % 2 := by
  induction text generalizing open? with
  | nil => simp [apostrophesFrom, quoteBehind]
  | cons c text ih =>
    have hbehind : quoteBehind open? (c :: text) = quoteBehind (quoteAfter open? c) text := rfl
    rw [List.count_cons, apostrophesFrom, hbehind]
    have hafter : quoteAfter open? c = none ∨ quoteAfter open? c = some '\'' ∨
        quoteAfter open? c = some '"' := by
      rcases hopen with rfl | rfl | rfl
      · by_cases hsingle : c = '\'' <;> by_cases hdouble : c = '"' <;>
          simp [quoteAfter, hsingle, hdouble]
      · by_cases hsingle : c = '\'' <;> simp [quoteAfter, hsingle]
      · by_cases hdouble : c = '"' <;> simp [quoteAfter, hdouble]
    have hrest := @ih (quoteAfter open? c) hafter
    -- a single quote changes both counts, and any other character neither of them
    by_cases hsingle : c = '\''
    · subst hsingle
      rcases hopen with rfl | rfl | rfl
      all_goals
        simp [quoteAfter, pendingQuote] at hrest ⊢
        omega
    · have hcount : (if (c == '\'') = true then 1 else 0) = 0 := by simp [hsingle]
      have hapostrophe : (if open? = some '"' ∧ c = '\'' then 1 else 0) = 0 := by simp [hsingle]
      have hpending : pendingQuote (quoteAfter open? c) = pendingQuote open? := by
        rcases hopen with rfl | rfl | rfl
        · by_cases hdouble : c = '"' <;> simp [quoteAfter, pendingQuote, hsingle, hdouble]
        · simp [quoteAfter, pendingQuote, hsingle]
        · by_cases hdouble : c = '"' <;> simp [quoteAfter, pendingQuote, hdouble]
      rw [hcount, hapostrophe, Nat.add_zero, Nat.zero_add, ← hrest, hpending]

/-- Where all quotes are closed, the literals take an even number of single quotes. -/
theorem count_quote_mod_two {text : List Char} (h : quoteBehind none text = none) :
    text.count '\'' % 2 = apostrophes text % 2 := by
  have hparity := count_quote_add_pendingQuote text (.inl rfl)
  rw [h] at hparity
  exact hparity

/-- A text that ends with a semicolon outside all quotes has a semicolon outside single quotes if it
has an even number of apostrophes, or another such semicolon. -/
theorem codeContains_of_ends {body blanks : List Char} (hblanks : isBlank blanks = true)
    (hquote : quoteBehind none body = none) :
    Literal.codeContains ';' (body ++ ';' :: blanks) = true ↔
      apostrophes body % 2 = 0 ∨ Literal.codeContains ';' body = true := by
  have hregroup : body ++ ';' :: blanks = (body ++ [';']) ++ blanks := by simp
  have htrim : Text.trimEnd (body ++ ';' :: blanks) = body ++ [';'] := by
    rw [hregroup, Text.trimEnd_append_blank (isBlank_iff.1 hblanks), Text.trimEnd_concat (by decide)]
  rw [← Literal.codeContains_trimEnd (by decide), htrim, Literal.codeContains_concat (by decide),
    Bool.or_eq_true, Literal.isClosed, beq_iff_eq, count_quote_mod_two hquote, or_comm]

end Line

namespace Rule

/-- The rules whose statements start their lines. -/
def discardingLines : List Rule := [alterTable, grant, sessionSet]

theorem mem_discarding_of_mem_discardingLines {rule : Rule} (h : rule ∈ discardingLines) :
    rule ∈ discarding ∧ rule.id ≠ createIndex.id := by
  simp only [discardingLines, List.mem_cons, List.not_mem_nil, or_false] at h
  rcases h with rfl | rfl | rfl
  all_goals exact ⟨by simp [discarding, openings], by decide⟩

/-- Such a rule ends the line if there is a semicolon outside single quotes, and opens a region if
there is none. -/
theorem control_eq_of_mem_discardingLines {rule : Rule} (hrule : rule ∈ discardingLines)
    {ctx : Context} {line : List Char} {edit : Edit} (h : rule.edit? ctx line = some edit) :
    edit.control =
      if Literal.codeContains ';' line = true then .endLine else .suppress .statement := by
  obtain ⟨hdiscarding, hid⟩ := mem_discarding_of_mem_discardingLines hrule
  obtain ⟨lead, clause, rfl, rfl, hblank⟩ := exists_cut_of_discarding hdiscarding h
  -- the white space before the statement holds neither semicolons nor quotes
  have hlead := hblank hid
  have hquote : '\'' ∉ lead := fun hmem => absurd (Line.isBlank_iff.1 hlead _ hmem) (by decide)
  have hsemicolon : ';' ∉ lead := fun hmem => absurd (Line.isBlank_iff.1 hlead _ hmem) (by decide)
  have hclause : Literal.codeContains ';' (lead ++ clause) = Literal.codeContains ';' clause := by
    rw [Literal.codeContains_append, Literal.codeContains_eq, Literal.codeContains_eq,
      Literal.occursFrom_of_not_mem hsemicolon, List.count_eq_zero.2 hquote]
    rfl
  rw [hclause]
  rfl

/-- **When a discarded statement ends with its line.**  Let the code of a line, that is what stands
before its comment, end with a semicolon outside single and double quotes.  A rule that discards the
statement of the line ends the line if the double quotes before the semicolon hold an even number
of apostrophes, or if there is another semicolon outside single quotes.  Otherwise, and only then, it
opens a region that takes the following lines along. -/
theorem endLine_iff_of_ends {rule : Rule} (hrule : rule ∈ [alterTable, grant, sessionSet])
    {ctx : Context} {line body blanks : List Char} {edit : Edit}
    (hcode : (Line.splitComment line).1 = body ++ ';' :: blanks)
    (hblanks : Line.isBlank blanks = true) (hquote : Line.quoteBehind none body = none)
    (h : rule.edit? ctx (Line.splitComment line).1 = some edit) :
    (edit.control = .endLine ↔
      Line.apostrophes body % 2 = 0 ∨ Literal.codeContains ';' body = true) ∧
    (edit.control = .suppress .statement ↔
      ¬(Line.apostrophes body % 2 = 0 ∨ Literal.codeContains ';' body = true)) := by
  have hcontrol := control_eq_of_mem_discardingLines hrule h
  rw [← Line.codeContains_of_ends hblanks hquote, ← hcode, hcontrol]
  split
  · rename_i hends
    exact ⟨iff_of_true rfl hends, iff_of_false nofun (not_not_intro hends)⟩
  · rename_i hopen
    exact ⟨iff_of_false nofun hopen, iff_of_true rfl hopen⟩

/-- A name with two apostrophes does not hide the semicolon. -/
theorem endLine_quotedName :
    let line := "GRANT SELECT ON \"o''brien\" TO bob; -- sales".toList
    ∃ edit, grant.edit? (.start none) (Line.splitComment line).1 = some edit ∧
      edit.control = .endLine := by
  intro line
  obtain ⟨edit, hedit⟩ : ∃ edit,
      grant.edit? (.start none) (Line.splitComment line).1 = some edit :=
    Option.isSome_iff_exists.1 (by decide)
  have hends := @endLine_iff_of_ends grant (by simp) (.start none) line
    "GRANT SELECT ON \"o''brien\" TO bob".toList [' '] edit
    (by decide) (by decide) (by decide) hedit
  exact ⟨edit, hedit, hends.1.2 (.inl (by decide))⟩

/-- A name with one apostrophe hides the semicolon at the end of the line, and the next statement
goes with the discarded one. -/
theorem suppress_quotedName :
    let line := "GRANT SELECT ON \"o'brien\" TO bob;".toList
    let c : Converter := ⟨.standard, true⟩
    (Line.splitComment line).1 = "GRANT SELECT ON \"o'brien\" TO bob".toList ++ [';'] ∧
    Line.quoteBehind none "GRANT SELECT ON \"o'brien\" TO bob".toList = none ∧
    (grant.edit? (.start none) (Line.splitComment line).1).map Edit.control =
      some (.suppress .statement) ∧
    (c.convert ⟨none, [line, "SELECT 1;".toList]⟩).texts =
      ["\t\t--// GRANT SELECT ON \"o'brien\" TO bob;".toList, "\t\t--// SELECT 1;".toList] := by
  decide

end Rule

end SqlDialect
