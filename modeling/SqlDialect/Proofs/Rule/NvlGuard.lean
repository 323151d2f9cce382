import SqlDialect.Proofs.Line.Paren
import SqlDialect.Proofs.Pattern.Piecewise
import SqlDialect.Proofs.Rule.PlusSign
import SqlDialect.Proofs.Rule.Settled.Call
import SqlDialect.Proofs.Rule.Settled.Statement

/-!
# Plus signs in calls of `NVL`

The rule about plus signs leaves a line alone if a plus sign and a closing parenthesis stand behind the
opening parenthesis of an `NVL` in the same stretch of code (`codeMatches_nvlWithPlus_iff`).  That need
not be the parenthesis that closes the call, which `plusInNvl` looks for.

`stringConcat_guarded` says what becomes of the line, and on which lines the two agree.  They do not if a
literal stands between the plus sign and one of the parentheses, or if there is a plus sign behind the
call and a closing parenthesis behind that.
-/

namespace SqlDialect.Rule

open Pattern

variable {before behind : Option Char} {a b s t text v w x y line : List Char}

/-- The name `NVL`, which is followed by the parenthesis of the call. -/
def nvlName : Pattern := boundary ++ keyword "NVL"

theorem isOpening_nvlName : IsOpening nvlName :=
  ⟨by decide, by decide, by decide, by decide⟩

/-- A call of `NVL` starts in the code of the line, and `b` stands behind its opening parenthesis. -/
def CallsNvl (line b : List Char) : Prop :=
  ∃ a w, line = a ++ (w ++ '(' :: b) ∧ Found nvlName a w

/-- A plus sign and a closing parenthesis further on come before the next single quote. -/
def PlusAhead (b : List Char) : Prop :=
  ∃ s t v, b = s ++ '+' :: (t ++ ')' :: v) ∧ '\'' ∉ s ∧ '\'' ∉ t

/-- A plus sign comes before the parenthesis that closes the one in front. -/
def PlusWithin (b : List Char) : Prop :=
  ∃ x y, b = x ++ ')' :: y ∧ Line.Closes 0 none x ∧ '+' ∈ x

/-- The parenthesis may be read along with the name. -/
theorem reads_nvlOpening_iff : (boundary ++ keyword "NVL(").Reads before text behind ↔
    (nvlName ++ char '(').Reads before text behind := by
  have hsets : keyword "NVL(" =
      chars ([.caseless 'n', .caseless 'v', .caseless 'l'] ++ [.exactly '(']) := rfl
  rw [hsets]
  constructor
  · rintro ⟨_, text, rfl, ⟨rfl, hboundary⟩, h⟩
    rw [← List.take_append_drop 3 text, List.head?_append, Option.or_assoc] at hboundary
    exact ⟨text.take 3, text.drop 3, (List.take_append_drop 3 text).symm,
      ⟨[], text.take 3, rfl, ⟨rfl, hboundary⟩, List.forall₂_take 3 h⟩, List.forall₂_drop 3 h⟩
  · rintro ⟨_, t, rfl, ⟨_, s, rfl, ⟨rfl, hboundary⟩, hs⟩, ht⟩
    rw [← Option.or_assoc, ← List.head?_append] at hboundary
    exact ⟨[], s ++ t, rfl, ⟨rfl, hboundary⟩, List.rel_append hs ht⟩

theorem reads_nvlWithPlus_iff : nvlWithPlus.Reads before text behind ↔
    ∃ w s t, text = w ++ '(' :: (s ++ '+' :: (t ++ [')'])) ∧
      (nvlName ++ char '(').Reads before (w ++ ['(']) none ∧ '\n' ∉ s ∧ '\n' ∉ t := by
  constructor
  · rintro ⟨_, _, rfl, ⟨_, t, rfl, ⟨_, _, rfl, ⟨_, s, rfl, hopening, hs⟩, hplus⟩, ht⟩, hclose⟩
    rw [reads_nvlOpening_iff] at hopening
    obtain ⟨w, rfl, -⟩ := exists_of_reads_concat isOpening_nvlName.avoids_paren hopening
    rw [reads_char_iff.1 hplus, reads_char_iff.1 hclose]
    exact ⟨w, s, t, by simp, reads_behind hopening, reads_many_any_iff.1 hs, reads_many_any_iff.1 ht⟩
  · rintro ⟨w, s, t, rfl, hopening, hs, ht⟩
    refine ⟨w ++ '(' :: (s ++ '+' :: t), [')'], by simp, ?_, reads_char_iff.2 rfl⟩
    refine ⟨w ++ '(' :: (s ++ ['+']), t, by simp, ?_, reads_many_any_iff.2 ht⟩
    refine ⟨w ++ '(' :: s, ['+'], by simp, ?_, reads_char_iff.2 rfl⟩
    refine ⟨w ++ ['('], s, by simp, ?_, reads_many_any_iff.2 hs⟩
    exact reads_nvlOpening_iff.2 (reads_behind hopening)

/-! ### The guard -/

/-- **The guard looks for a plus sign and a closing parenthesis behind the name**, within one stretch of
code. -/
theorem codeMatches_nvlWithPlus_iff (hline : '\n' ∉ line) :
    Literal.codeMatches nvlWithPlus line = true ↔ ∃ b, CallsNvl line b ∧ PlusAhead b := by
  rw [codeMatches_iff (by decide) (by decide)]
  constructor
  · rintro ⟨u, text, v, rfl, hclosed, htext, hreads⟩
    obtain ⟨w, s, t, rfl, hopening, -, -⟩ := reads_nvlWithPlus_iff.1 hreads
    refine ⟨s ++ '+' :: (t ++ ')' :: v), ⟨u, w, by simp, hopening, beq_iff_eq.1 hclosed⟩,
      s, t, v, rfl, ?_, ?_⟩ <;> simp_all
  · rintro ⟨_, ⟨a, w, rfl, hfound⟩, s, t, v, rfl, hs, ht⟩
    have hw : '\'' ∉ w ++ ['('] := not_mem_of_avoids isOpening_nvlName.avoids_quote hfound.reads
    refine ⟨a, w ++ '(' :: (s ++ '+' :: (t ++ [')'])), v, by simp, beq_iff_eq.2 hfound.even, ?_,
      reads_nvlWithPlus_iff.2 ⟨w, s, t, rfl, hfound.reads, ?_, ?_⟩⟩ <;> simp_all

/-! ### The calls -/

/-- Whether a call of `NVL` in the code of the line has a plus sign between its parentheses. -/
def plusInNvl (line : List Char) : Bool :=
  (calls nvlName line).any fun m => (Line.matchingParen line (m.stop - 1)).any fun closing =>
    ((line.take closing).drop m.stop).contains '+'

theorem any_matchingParen_iff (a b : List Char) :
    ((Line.matchingParen (a ++ '(' :: b) a.length).any fun closing =>
      (((a ++ '(' :: b).take closing).drop (a.length + 1)).contains '+') = true ↔ PlusWithin b := by
  have hargs (x y : List Char) :
      ((a ++ '(' :: (x ++ ')' :: y)).take (a.length + 1 + x.length)).drop (a.length + 1) = x := by
    have hline : a ++ '(' :: (x ++ ')' :: y) = (a ++ ['('] ++ x) ++ ')' :: y := by simp
    rw [hline, List.take_left' (by simp; omega), List.drop_left' (by simp)]
  rw [Option.any_eq_true]
  constructor
  · rintro ⟨closing, hclosing, hplus⟩
    obtain ⟨x, y, rfl, rfl, hx⟩ := Line.matchingParen_eq_some_iff.1 hclosing
    rw [hargs] at hplus
    exact ⟨x, y, rfl, hx, by simpa using hplus⟩
  · rintro ⟨x, y, rfl, hx, hplus⟩
    refine ⟨a.length + 1 + x.length, Line.matchingParen_eq_some_iff.2 ⟨x, y, rfl, rfl, hx⟩, ?_⟩
    rw [hargs]
    simpa using hplus

theorem plusInNvl_iff : plusInNvl line = true ↔ ∃ b, CallsNvl line b ∧ PlusWithin b := by
  rw [plusInNvl, List.any_eq_true]
  constructor
  · rintro ⟨m, hm, hplus⟩
    obtain ⟨a, w, b, rfl, -, hstop, hfound⟩ := exists_found_of_mem_calls isOpening_nvlName hm
    refine ⟨b, ⟨a, w, rfl, hfound⟩, (any_matchingParen_iff (a ++ w) b).1 ?_⟩
    rwa [List.append_assoc, List.length_append, ← hstop, ← Nat.add_sub_cancel (a.length + w.length) 1,
      ← hstop]
  · rintro ⟨b, ⟨a, w, rfl, hfound⟩, hplus⟩
    obtain ⟨m, hm, hstart⟩ := exists_mem_calls_of_found isOpening_nvlName hfound rfl
    obtain ⟨a', w', b', hline, hstart', hstop, hfound'⟩ :=
      exists_found_of_mem_calls isOpening_nvlName hm
    obtain ⟨rfl, rfl, -⟩ :=
      hfound.eq_of_append_eq isOpening_nvlName hfound' hline (hstart.symm.trans hstart')
    refine ⟨m, hm, ?_⟩
    have := (any_matchingParen_iff (a ++ w) b).2 hplus
    rwa [List.append_assoc, List.length_append, ← hstop, ← Nat.add_sub_cancel (a.length + w.length) 1,
      ← hstop] at this

/-! ### The guard and the calls -/

/-- No single quote stands in a call with a plus sign. -/
def NvlUnquoted (line : List Char) : Prop :=
  ∀ x y, CallsNvl line (x ++ ')' :: y) → Line.Closes 0 none x → '+' ∈ x → '\'' ∉ x

/-- All calls are closed, and no plus sign behind one has a closing parenthesis behind it. -/
def NvlClosesLast (line : List Char) : Prop :=
  ∀ b, CallsNvl line b → ∃ x y, b = x ++ ')' :: y ∧ Line.Closes 0 none x ∧
    ∀ s t, y = s ++ '+' :: t → ')' ∉ t

theorem PlusWithin.plusAhead (h : PlusWithin b) (hcall : CallsNvl line b) (hline : NvlUnquoted line) :
    PlusAhead b := by
  obtain ⟨x, y, rfl, hx, hplus⟩ := h
  have hquote := hline x y hcall hx hplus
  obtain ⟨s, t, rfl⟩ := List.append_of_mem hplus
  exact ⟨s, t, y, by simp, by simp_all, by simp_all⟩

theorem PlusAhead.plusWithin (h : PlusAhead b) (hcall : CallsNvl line b) (hline : NvlClosesLast line) :
    PlusWithin b := by
  obtain ⟨s, t, v, hb, -, -⟩ := h
  obtain ⟨x, y, rfl, hx, hy⟩ := hline b hcall
  refine ⟨x, y, rfl, hx, ?_⟩
  rcases List.append_eq_append_iff.1 hb with ⟨d, rfl, hd⟩ | ⟨d, rfl, hd⟩
  · cases d with
    | nil => simp at hd
    | cons e d =>
      obtain ⟨rfl, rfl⟩ := List.cons_eq_cons.1 hd
      exact absurd (List.mem_append_right t List.mem_cons_self) (hy d _ rfl)
  · cases d with
    | nil => simp at hd
    | cons e d =>
      obtain ⟨rfl, -⟩ := List.cons_eq_cons.1 hd
      simp

/-- **What the guard keeps from the rule.**  The line stays if a call of `NVL` has a plus sign ahead and a
closing parenthesis behind that, before any quote; otherwise the plus signs with no number next to them
are replaced, those in calls of `NVL` as well.  If no call with a plus sign holds a quote, lines with a
plus sign in a call stay; if all calls are closed and no plus sign behind one has a closing parenthesis
behind it, no others do. -/
theorem stringConcat_guarded (ctx : Context) (line : List Char) (hline : '\n' ∉ line)
    (hliteral : Literal.literalContains '+' line = false) :
    (Literal.codeMatches nvlWithPlus line = true ↔ ∃ b, CallsNvl line b ∧ PlusAhead b) ∧
      ((∃ b, CallsNvl line b ∧ PlusAhead b) → stringConcat.edit? ctx line = none) ∧
      ((¬∃ b, CallsNvl line b ∧ PlusAhead b) →
        (stringConcat.edit? ctx line = none ↔
          ∀ u v, line = u ++ '+' :: v → EndsWithNumber u ∨ StartsWithNumber v) ∧
        ∀ edit, stringConcat.edit? ctx line = some edit →
          edit = .changed edit.line ['+'] ∧ ∀ new, Concatenated line new ↔ new = edit.line) ∧
      (NvlUnquoted line → plusInNvl line = true → Literal.codeMatches nvlWithPlus line = true) ∧
      (NvlClosesLast line → Literal.codeMatches nvlWithPlus line = true → plusInNvl line = true) := by
  have hguard := codeMatches_nvlWithPlus_iff hline
  have hrule : stringConcat.edit? ctx line =
      if Literal.codeMatches nvlWithPlus line then none
      else if !Literal.codeContains '+' line then none else joinedAtCuts (cutAtJoins [] line) := by
    change (if !Literal.codeContains '+' line || Literal.literalContains '+' line ||
      Literal.codeMatches nvlWithPlus line then none else joinedAtCuts (cutAtJoins [] line)) = _
    rw [hliteral, Bool.or_false]
    cases Literal.codeMatches nvlWithPlus line <;> simp
  refine ⟨hguard, fun h => ?_, fun h => ?_, fun hquote hplus => ?_, fun hends h => ?_⟩
  · rw [hrule, hguard.2 h, if_pos rfl]
  · rw [← hguard, Bool.not_eq_true] at h
    refine joinedAtCuts_spec hliteral ?_
    rw [hrule, h, if_neg Bool.false_ne_true]
  · obtain ⟨b, hcall, hwithin⟩ := plusInNvl_iff.1 hplus
    exact hguard.2 ⟨b, hcall, hwithin.plusAhead hcall hquote⟩
  · obtain ⟨b, hcall, hahead⟩ := hguard.1 h
    exact plusInNvl_iff.2 ⟨b, hcall, hahead.plusWithin hcall hends⟩

theorem stringConcat_guarded_call :
    let line := "SELECT NVL(a + b, c) FROM t;".toList
    '\n' ∉ line ∧ Literal.literalContains '+' line = false ∧ plusInNvl line = true ∧
      (∃ b, CallsNvl line b ∧ PlusAhead b) ∧ stringConcat.edit? (.start none) line = none := by
  intro line
  have hline : '\n' ∉ line := by decide
  have hliteral : Literal.literalContains '+' line = false := by decide
  obtain ⟨hguard, hstays, -⟩ := stringConcat_guarded (.start none) line hline hliteral
  have hahead := hguard.1 (by decide)
  exact ⟨hline, hliteral, by decide, hahead, hstays hahead⟩

/-- A plus sign behind the call keeps the line from being changed, and one in a call does not if a literal
follows it. -/
theorem stringConcat_unguarded :
    let behind := "SELECT NVL(a, b) + f(c) FROM t;".toList
    let within := "SELECT NVL(a + b, 'x') FROM t;".toList
    (Literal.codeContains '+' behind = true ∧ Literal.literalContains '+' behind = false ∧
      plusInNvl behind = false ∧ Literal.codeMatches nvlWithPlus behind = true ∧
      stringConcat.edit? (.start none) behind = none ∧
      (stringConcat.edit? (.start none) "SELECT NVL(a, b) + c FROM t;".toList).map Edit.line =
        some "SELECT NVL(a, b) || c FROM t;".toList) ∧
    (Literal.codeContains '+' within = true ∧ Literal.literalContains '+' within = false ∧
      plusInNvl within = true ∧ Literal.codeMatches nvlWithPlus within = false ∧
      (stringConcat.edit? (.start none) within).map Edit.line =
        some "SELECT NVL(a || b, 'x') FROM t;".toList) := by
  decide

end SqlDialect.Rule
