import SqlDialect.Proofs.Pattern.Length
import SqlDialect.Proofs.Rule.Ceiling
import SqlDialect.Proofs.Rule.DroppedDefault
import SqlDialect.Proofs.Rule.LeftOperand
import SqlDialect.Proofs.Rule.Regular
import SqlDialect.Proofs.Rule.Settled.Catalogue
import SqlDialect.Proofs.Rule.SingleLine

/-!
# What it means that a rule fires

An edit tells that something has been done: its note shows something, and the line is another one
(`RuleSet.fires_of_mem_standard`).  The one exception is the warning about a list of distinct values
without an order.

A rule that leaves alone what it has made of a line must have changed the line (`Rule.Settles.changes`),
and a repeated rule leaves fewer prospects.  The rules that remain edit their own output now and then.
They make the line shorter or longer, or else put a text in the place of another that starts with
another letter.
-/

namespace SqlDialect

/-- The rule edits no line without changing it. -/
def Rule.Changes (rule : Rule) : Prop :=
  ∀ {ctx : Context} {line : List Char} {edit : Edit}, '\n' ∉ line →
    rule.edit? ctx line = some edit → edit.line ≠ line

/-- What is left alone is not what has been edited. -/
theorem Rule.Settles.changes {rule : Rule} (h : rule.Settles) : rule.Changes := by
  intro ctx line edit hline hedit heq
  have hnone := h ctx line edit hline hedit
  rw [heq, hedit] at hnone
  cases hnone

/-! ### Calls -/

namespace CallVisit

open Pattern

variable {p : Pattern} {f : Call → CallEdit} {line note : List Char}

/-- The call that is replaced last starts where it started in the line as it came. -/
theorem exists_replaced {calls : List Match} (hcalls : ∀ m ∈ calls, m.text ≠ [])
    (h : (Rule.visitAll f line calls).note = some note) :
    ∃ m ∈ calls, ∃ call new stop rest, f call = .replace new stop ∧ m.start ≤ call.line.length ∧
      (Rule.visitAll f line calls).line = call.line.take m.start ++ (new ++ rest) := by
  induction calls with
  | nil => cases h
  | cons m calls ih =>
    obtain ⟨hne, hcalls⟩ := List.forall_mem_cons.1 hcalls
    -- a visit that changes nothing leaves the call that was replaced before it
    have further (h : (Rule.visitAll f line calls).note = some note) :
        ∃ m' ∈ m :: calls, ∃ call new stop rest, f call = .replace new stop ∧
          m'.start ≤ call.line.length ∧
          (Rule.visitAll f line calls).line = call.line.take m'.start ++ (new ++ rest) := by
      obtain ⟨m', hm', hfound⟩ := ih hcalls h
      exact ⟨m', List.mem_cons_of_mem m hm', hfound⟩
    have hvisit : Rule.visitAll f line (m :: calls) =
        (Rule.visitAll f line calls).visit f m.start (m.stop - 1) := rfl
    rw [hvisit] at h ⊢
    generalize Rule.visitAll f line calls = seen at h further ⊢
    rw [visit] at h ⊢
    split at h
    · exact further h
    · rename_i closing hclosing
      dsimp only at h ⊢
      split at h
      · exact further h
      · exact further h
      · rename_i new stop hnew
        have hstart : m.start ≤ seen.line.length := by
          obtain ⟨rest, hrest⟩ := Line.drop_of_matchingParen hclosing
          have hlength := congrArg List.length hrest
          have hpos := List.length_pos_of_ne_nil hne
          rw [List.length_drop, List.length_cons, Match.stop] at hlength
          omega
        exact ⟨m, List.mem_cons_self, _, new, stop, seen.line.drop stop, hnew, hstart,
          List.append_assoc _ _ _⟩

/-- A call whose replacement starts with another letter makes another line. -/
theorem line_run_ne {x : Char}
    (hp : ∀ before text behind, p.Reads before text behind →
      ∃ c rest, text = c :: rest ∧ Text.foldCase c = x)
    (hf : ∀ call new stop, f call = .replace new stop →
      ∃ d rest, new = d :: rest ∧ Text.foldCase d ≠ x)
    (h : (run p f line).note = some note) : (run p f line).line ≠ line := by
  obtain ⟨m, hm, call, new, stop, rest, hnew, hstart, hline⟩ := exists_replaced
    (fun m hm => (matches_of_mem_matchesIn (List.mem_filter.1 hm).1).2) h
  change (run p f line).line = _ at hline
  obtain ⟨a, b, rfl, hmatch, -⟩ := exists_matchAt_of_mem_matchesIn (List.mem_filter.1 hm).1
  obtain ⟨behind, hrest, hreads⟩ := reads_of_matchAt hmatch
  have hb : b = m.text ++ behind := hrest
  obtain ⟨c, old, htext, hc⟩ := hp _ _ _ hreads
  obtain ⟨d, more, rfl, hd⟩ := hf call new stop hnew
  rw [hline, hb, htext]
  intro heq
  have hlength : (call.line.take m.start).length = a.length := by
    rw [List.length_take, Nat.min_eq_left hstart]
    exact start_eq_of_matchAt hmatch
  obtain ⟨rfl, -⟩ := List.cons.inj (List.append_inj heq hlength).2
  exact hd hc

end CallVisit

namespace Rule

open Pattern

variable {rule : Rule} {p : Pattern} {line : List Char}

/-- A call starts with the first letter of the name of the function. -/
theorem exists_cons_of_reads_callOf {name : String} {x : Char} (hname : name.toList.head? = some x)
    (before : Option Char) (text : List Char) (behind : Option Char)
    (h : (callOf name).Reads before text behind) :
    ∃ c rest, text = c :: rest ∧ Text.foldCase c = Text.foldCase x := by
  obtain ⟨_, close, rfl, ⟨_, gap, rfl, ⟨_, word, rfl, ⟨rfl, -⟩, hword⟩, -⟩, -⟩ := h
  obtain ⟨c, rest, rfl, hc⟩ :=
    Similarity.exists_cons_of_reads_keyword hname (reads_of_isFree rfl hword none none)
  exact ⟨c, _, rfl, hc⟩

theorem jsonArrayElement_changes : jsonArrayElement.Changes := by
  intro ctx line edit _ h
  obtain ⟨note, hnote, rfl⟩ := Option.map_eq_some_iff.1 h
  refine CallVisit.line_run_ne (exists_cons_of_reads_callOf (x := 'J') rfl) ?_ hnote
  intro call new stop hnew
  rw [subscriptElement] at hnew
  split at hnew
  · obtain ⟨rfl, -⟩ := CallEdit.replace.inj hnew
    exact ⟨'P', _, rfl, by decide⟩
  · cases hnew

/-- The edit leaves the line as it is, and its note says that a list of distinct values on it lacks an
order. -/
def WarnsOfMissingOrder (line : List Char) (edit : Edit) : Prop :=
  ∃ call, (CallVisit.run (callOf "LISTAGG") distinctListEdit line).flagged = some call ∧
    edit = .changed line ("WARNING: ".toList ++ call ++ " without WITHIN GROUP left as is".toList)

theorem distinctList_cases {ctx : Context} {edit : Edit} (h : distinctList.edit? ctx line = some edit) :
    edit.line ≠ line ∨ WarnsOfMissingOrder line edit := by
  rw [distinctList] at h
  dsimp only at h
  split at h
  · rename_i note hnote
    obtain rfl := Option.some.inj h
    refine .inl (CallVisit.line_run_ne (exists_cons_of_reads_callOf (x := 'L') rfl) ?_ hnote)
    intro call new stop hnew
    rw [distinctListEdit] at hnew
    split at hnew
    · cases hnew
    · dsimp only at hnew
      split at hnew
      · cases hnew
      · split at hnew
        · cases hnew
        · obtain ⟨rfl, -⟩ := CallEdit.replace.inj hnew
          exact ⟨'f', _, rfl, by decide⟩
  · obtain ⟨call, hcall, rfl⟩ := Option.map_eq_some_iff.1 h
    exact .inr ⟨call, hcall, rfl⟩

/-! ### Shorter and longer lines -/

theorem ne_of_length_lt {a b : List Char} (h : a.length < b.length) : a ≠ b := by
  rintro rfl
  exact Nat.lt_irrefl _ h

theorem changes_of_constant {text : List Char}
    (h : ∀ ctx line, rule.edit? ctx line = substitute p (fun _ => text) line)
    (htext : text.length < p.leastLength) : rule.Changes :=
  fun _ hedit => ne_of_length_lt (length_lt_of_leastLength (fun _ => htext) (h _ _ ▸ hedit))

theorem unboundedFrame_changes : unboundedFrame.Changes := by
  intro ctx line edit _ h
  rw [unboundedFrame] at h
  dsimp only at h
  split at h
  · cases h
  · refine ne_of_length_lt (length_lt_of_leastLength (fun m => ?_) h)
    split <;> decide

theorem autoIncrement_changes : autoIncrement.Changes := by
  intro ctx line edit _ h
  rcases Option.or_eq_some_iff.1 h with h | ⟨-, h⟩
  · exact ne_of_length_lt (length_lt_of_leastLength (fun _ => by decide) h)
  · exact ne_of_length_lt (length_lt_of_leastLength (fun _ => by decide) h)

/-- The parentheses behind the type are dropped. -/
theorem scaledFloat_changes : scaledFloat.Changes := by
  intro ctx line edit _ h
  refine ne_of_length_lt (length_lt_of_substitute (fun m hm _ => ?_) h)
  have hle := hm.length_textOf_add_le "type" rfl
  refine Nat.lt_of_lt_of_le (Nat.lt_add_of_pos_right ?_) hle
  decide

theorem binaryDefault_changes : binaryDefault.Changes := by
  intro ctx line edit _ h
  obtain ⟨m, hm, rfl⟩ := Option.map_eq_some_iff.1 h
  change binaryColumn.find? line = some m at hm
  have hshorter : ∀ m ∈ binaryColumn.matchesIn line,
      (m.textOf "type" ++ m.textOf "modifiers").length < m.text.length := by
    intro m hm
    obtain ⟨a, b, -, hmatch, -⟩ := exists_matchAt_of_mem_matchesIn hm
    obtain ⟨rest, hrest, -⟩ := reads_of_matchAt hmatch
    obtain ⟨k, htext, hkept, -, -⟩ := BinaryDefault.exists_of_matchAt hmatch hrest
    have hword := Pattern.leastLength_le k.reads_word
    have hleast : 0 < defaultWord.leastLength := by decide
    rw [hkept, htext, List.length_append, BinaryDefault.dropped, List.length_append]
    omega
  have hne : m.text ≠ [] := by
    obtain ⟨place, hmatch⟩ := matches_of_find? hm
    exact text_ne_nil_of_matchAt (by decide) hmatch
  obtain ⟨more, hmatches⟩ := exists_matchesIn_of_find? hm hne
  have hmem : m ∈ binaryColumn.matchesIn line := by
    rw [hmatches]
    exact List.mem_cons_self
  exact ne_of_length_lt (length_replaceIn_lt hmem hshorter)

theorem japanTimeZone_changes : japanTimeZone.Changes := by
  intro ctx line edit _ h
  obtain ⟨m, hm, rfl⟩ := Option.map_eq_some_iff.1 h
  have hlength {m : Match} (hm : (keyword "'JST'").Matches m) : m.text.length = 5 := by
    obtain ⟨before, behind, hreads⟩ := hm.stretch.exists_reads
    exact hreads.length_eq.symm
  have hne : m.text ≠ [] := by
    rintro hnil
    have := hlength (matches_of_find? hm)
    rw [hnil] at this
    cases this
  obtain ⟨more, hmatches⟩ := exists_matchesIn_of_find? hm hne
  refine (ne_of_length_lt (length_lt_replaceIn (m := m) ?_ fun m hm => ?_)).symm
  · rw [hmatches]
    exact List.mem_cons_self
  · rw [hlength (matches_of_mem_matchesIn hm).1]
    decide

/-! ### Views -/

/-- The groups cut the line in three. -/
theorem append_textOf_viewHead {m : Match} (h : viewHead.find? line = some m) :
    m.textOf "pre" ++ (m.textOf "name" ++ m.textOf "post") = line := by
  obtain ⟨o, ho, hgroups⟩ := exists_outcome_of_find? (by rfl) h
  obtain ⟨stop, t, ho, hend, hreads⟩ := exists_of_mem_outcomes_append (b := lineEnd) rfl ho
  obtain ⟨third, own, post, ho, hpost, -, hthird⟩ := exists_of_mem_outcomes_append_group rfl ho
  obtain ⟨second, own', name, ho, hname, -, hsecond⟩ := exists_of_mem_outcomes_append_group rfl ho
  obtain ⟨first, own'', pre, ho, hpre, -, hfirst⟩ := exists_of_mem_outcomes_append_group rfl ho
  dsimp only at hthird hsecond hfirst hpost hname hpre
  obtain ⟨rfl, rfl⟩ : first = .start line ∧ own'' = [] := by
    simpa [outcomes, Cursor.start] using ho
  obtain ⟨rfl, hrest⟩ := hreads
  have hline : line = pre ++ (name ++ (post ++ ([] ++ o.1.rest))) := by
    rw [← hend.rest_eq, ← hpost.rest_eq, ← hname.rest_eq, ← hpre.rest_eq]
    rfl
  have hnil : o.1.rest = [] := List.head?_eq_none_iff.1 hrest
  rw [hnil, List.append_nil, List.append_nil] at hline
  have hall : m.groups = [⟨"post", third.index, post⟩, ⟨"name", second.index, name⟩,
      ⟨"pre", 0, pre⟩] := by
    rw [hgroups, hthird, hsecond, hfirst]
    rfl
  simp [Match.textOf, Match.group?, hall, hline]

theorem viewSchema_changes : viewSchema.Changes := by
  intro ctx line edit _ h
  obtain ⟨document, -, h⟩ := Option.bind_eq_some_iff.1 h
  obtain ⟨m, hm, h⟩ := Option.bind_eq_some_iff.1 h
  obtain rfl := Option.some.inj h
  refine (ne_of_length_lt ?_).symm
  have hline := congrArg List.length (append_textOf_viewHead hm)
  simp only [List.length_append] at hline
  simp only [Edit.changed, List.length_append, List.length_cons, List.length_nil]
  omega

end Rule

/-! ### Comparisons -/

namespace Similarity

/-- Whether the character is no parenthesis. -/
def isParenFree (c : Char) : Bool := c != '(' && c != ')'

theorem text_append (k : Similarity) (rest : List Char) : k.text ++ rest =
    k.name ++ (k.args ++ (k.words ++ ('\'' :: (k.pattern ++ ['\'']) ++ rest))) := by
  simp [text, operand]

/-- The name of the operand would be that of the function, and its parentheses would hold one more. -/
theorem call_append_ne_of_plain (k : Similarity) (hnegated : k.negated = false)
    (new rest : List Char) : k.call ++ new ≠ k.text ++ rest := by
  intro heq
  have hname := k.run_name ('\'' :: (k.pattern ++ ['\'']) ++ rest)
  have hhead := k.isNameChar_head_words ('\'' :: (k.pattern ++ ['\'']) ++ rest)
  rw [text_append] at heq
  generalize '\'' :: (k.pattern ++ ['\'']) ++ rest = behind at heq hname hhead
  have hcall : k.call ++ new = "REGEXP_LIKE".toList ++ '(' :: (k.name ++
      (k.args ++ (", '".toList ++ Rule.similarToRegex k.pattern ++ "')".toList ++ new))) := by
    simp [call, hnegated, operand]
  rw [hcall] at heq
  have hfunction {tail : List Char} : Text.Run isNameChar "REGEXP_LIKE".toList ('(' :: tail) :=
    ⟨List.all_eq_true.1 (by decide), fun c hc => by obtain rfl := Option.some.inj hc; decide⟩
  obtain ⟨hsame, hbehind⟩ := hfunction.eq_of_append_eq hname heq
  rcases k.args_eq with hargs | ⟨x, hargs, hopen, hclose⟩
  · rw [hargs, List.nil_append, List.nil_append] at hbehind
    exact (hhead '(' (by rw [← hbehind]; rfl)).2 rfl
  · rw [hargs, ← hsame] at hbehind
    have hwithin : "REGEXP_LIKE".toList ++ '(' :: (x ++ [')'] ++ (", '".toList ++
        Rule.similarToRegex k.pattern ++ "')".toList ++ new)) =
        x ++ ')' :: (k.words ++ behind) := by
      simpa using hbehind
    have hfirst {tail : List Char} : Text.Run isParenFree "REGEXP_LIKE".toList ('(' :: tail) :=
      ⟨List.all_eq_true.1 (by decide), fun c hc => by obtain rfl := Option.some.inj hc; decide⟩
    have hsecond {tail : List Char} : Text.Run isParenFree x (')' :: tail) := by
      refine ⟨fun c hc => ?_, fun c hc => by obtain rfl := Option.some.inj hc; decide⟩
      rw [isParenFree, Bool.and_eq_true, bne_iff_ne, bne_iff_ne]
      exact ⟨fun h => hopen (h ▸ hc), fun h => hclose (h ▸ hc)⟩
    obtain ⟨hparen, -⟩ := List.cons.inj (hfirst.eq_of_append_eq hsecond hwithin).2
    exact absurd hparen (by decide)

/-- The name of the operand would be `NOT`, and behind it and white space the operator would have
another letter than the function. -/
theorem call_append_ne_of_negated (k : Similarity) (hnegated : k.negated = true)
    (new rest : List Char) : k.call ++ new ≠ k.text ++ rest := by
  intro heq
  have hname := k.run_name ('\'' :: (k.pattern ++ ['\'']) ++ rest)
  rw [text_append] at heq
  generalize '\'' :: (k.pattern ++ ['\'']) ++ rest = behind at heq hname
  have hcall : k.call ++ new = "NOT".toList ++ ' ' :: ("REGEXP_LIKE(".toList ++ (k.operand ++
      (", '".toList ++ Rule.similarToRegex k.pattern ++ "')".toList ++ new))) := by
    simp [call, hnegated]
  rw [hcall] at heq
  have hnot {tail : List Char} : Text.Run isNameChar "NOT".toList (' ' :: tail) :=
    ⟨List.all_eq_true.1 (by decide), fun c hc => by obtain rfl := Option.some.inj hc; decide⟩
  obtain ⟨-, hbehind⟩ := hnot.eq_of_append_eq hname heq
  rcases k.args_eq with hargs | ⟨x, hargs, -, -⟩
  · obtain ⟨c, blank, d, tail, hwords, hrun, hd⟩ := exists_run_of_reads_link k.reads_words
    rw [hargs, hwords, List.nil_append, List.append_assoc (c :: blank)] at hbehind
    have hspace {tail : List Char} : Text.Run Text.isBlank [' '] ('R' :: tail) :=
      ⟨List.all_eq_true.1 (by decide), fun c hc => by obtain rfl := Option.some.inj hc; decide⟩
    have hrun' : Text.Run Text.isBlank (c :: blank) (d :: tail ++ behind) :=
      ⟨hrun.all, fun e he => hrun.stops e he⟩
    obtain ⟨rfl, -⟩ := List.cons.inj (hspace.eq_of_append_eq hrun' hbehind).2
    rw [hnegated] at hd
    exact absurd hd (by decide)
  · rw [hargs] at hbehind
    exact absurd (List.cons.inj hbehind).1 (by decide)

/-- The call is another text than the comparison, whatever stands behind either. -/
theorem call_append_ne (k : Similarity) (new rest : List Char) : k.call ++ new ≠ k.text ++ rest := by
  cases hnegated : k.negated with
  | false => exact k.call_append_ne_of_plain hnegated new rest
  | true => exact k.call_append_ne_of_negated hnegated new rest

end Similarity

namespace Moves

variable {front rest new : List Char} {moved : List (List Char × Similarity)}

/-- A line in which something is moved is not the line as it came. -/
theorem ne_of_moved (h : Moves front rest new moved) (hmoved : moved ≠ []) : new ≠ rest := by
  induction h with
  | nil => exact absurd rfl hmoved
  | keep _ _ ih => exact fun heq => ih hmoved (List.cons.inj heq).2
  | stay k _ _ ih => exact fun heq => ih hmoved (List.append_cancel_left heq)
  | move k _ _ _ => exact k.call_append_ne _ _

end Moves

namespace Rule

open Pattern

theorem similarTo_changes : similarTo.Changes := by
  intro ctx line edit _ h
  obtain ⟨new, moved, hmoves⟩ := Moves.exists_moves [] line
  obtain ⟨hnew, hmoved⟩ := hmoves.piecesFrom_eq (List.nil_append line).symm
  have hreplaced : comparison.replaceIn (Moves.replacement line) line = new :=
    (replaceIn_eq_editedFrom comparison (fun m => some (Moves.replacement line m))
      line).trans hnew
  rw [similarTo_edit?, hreplaced, matchesIn, pieces_eq] at h
  change List.Forall₂ _ (List.filter _ (List.filterMap _
    (comparison.piecesFrom 0 none 0 line))) _ at hmoved
  generalize List.filter _ _ = found at hmoved h
  cases hmoved with
  | nil => cases h
  | cons _ _ =>
    obtain rfl := Option.some.inj h
    exact hmoves.ne_of_moved (List.cons_ne_nil _ _)

/-! ### The catalogue -/

/-- The rules that may edit their own output change the line all the same; the rule about lists of
distinct values has a warning for some lines that it does not change. -/
theorem changes_of_mem_unsettled : ∀ rule ∈ unsettled,
    rule.id ≠ distinctList.id → rule.Changes := by
  simp only [unsettled, List.forall_mem_cons, List.not_mem_nil,
    IsEmpty.forall_iff, implies_true, and_true]
  exact ⟨
    fun _ => changes_of_constant (fun _ _ => rfl) (by decide), -- defaultSysdate
    fun _ => changes_of_constant (fun _ _ => rfl) (by decide), -- catalogQualifier
    fun _ => unboundedFrame_changes,
    fun _ => changes_of_constant (fun _ _ => rfl) (by decide), -- distkey
    fun _ => changes_of_constant (fun _ _ => rfl) (by decide), -- sortkey
    fun _ => changes_of_constant (fun _ _ => rfl) (by decide), -- charset
    fun _ => autoIncrement_changes,
    fun _ => binaryDefault_changes,
    fun _ => scaledFloat_changes,
    fun _ => changes_of_constant (fun _ _ => rfl) (by decide), -- arrayLiteral
    fun _ => viewSchema_changes,
    fun _ => similarTo_changes,
    fun _ => japanTimeZone_changes,
    fun hid => absurd rfl hid, -- distinctList
    fun _ => jsonArrayElement_changes⟩

end Rule

namespace RuleSet

open Rule

theorem changes_of_mem_standard {rule : Rule} (hrule : rule ∈ standard.all)
    (hid : rule.id ≠ distinctList.id) : rule.Changes := by
  rcases List.mem_append.1 hrule with hrule | hrule
  · rcases mem_settled_or_unsettled rule hrule with h | h
    · exact (settles_of_mem_settled rule h).changes
    · exact changes_of_mem_unsettled rule h hid
  · intro ctx line edit _ h heq
    have := Prospect.count_lt_of_edit hrule h
    rw [heq] at this
    exact Nat.lt_irrefl _ this

/-- **What every edit of the catalogue says and does**, in every context: where neither the line nor the
name of the document has a line feed, neither the new line nor the note has one; the note shows something;
and the new line is another one, except for the warning about a list of distinct values that lacks an
order, and only for that. -/
theorem fires_of_mem_standard {rule : Rule} (hrule : rule ∈ standard.all) {ctx : Context}
    {line : List Char} {edit : Edit} (hline : '\n' ∉ line)
    (hdocument : ∀ name ∈ ctx.document, '\n' ∉ name.toList) (h : rule.edit? ctx line = some edit) :
    Line.isBlank edit.note = false ∧ '\n' ∉ edit.line ∧ '\n' ∉ edit.note ∧
      (edit.line = line ↔ rule.id = "FUNC012" ∧ WarnsOfMissingOrder line edit) := by
  have hsingle := singleLine_of_mem_standard hrule hline hdocument h
  have hvisible : Line.isBlank edit.note = false := by
    rcases List.mem_append.1 hrule with hrule | hrule
    · exact (standard_once_regular rule hrule h).note_visible
    · exact (standard_repeated_regular rule hrule h).note_visible
  refine ⟨hvisible, hsingle.line, hsingle.note, fun heq => ?_, ?_⟩
  · by_cases hid : rule.id = distinctList.id
    · have hlist : distinctList ∈ standard.all := by simp [all, standard]
      obtain rfl := eq_of_id_eq hrule hlist hid
      exact ⟨rfl, (distinctList_cases h).resolve_left (not_not_intro heq)⟩
    · exact absurd heq (changes_of_mem_standard hrule hid hline h)
  · rintro ⟨-, call, -, rfl⟩
    rfl

/-- The warning, and an edit of the same rule that is none. -/
theorem fires_distinctList :
    let line := "SELECT LISTAGG(DISTINCT a, ',') FROM t;".toList
    let ordered := "SELECT LISTAGG(DISTINCT a, ',') WITHIN GROUP (ORDER BY a) FROM t;".toList
    standard.all.length = 57 ∧
      (∃ edit, distinctList.edit? (.start none) line = some edit ∧ WarnsOfMissingOrder line edit) ∧
      ∃ edit, distinctList.edit? (.start none) ordered = some edit ∧
        ¬WarnsOfMissingOrder ordered edit := by
  intro line ordered
  have hrule : distinctList ∈ standard.all := by simp [all, standard]
  have hdocument : ∀ name ∈ (Context.start none).document, '\n' ∉ name.toList := by simp [Context.start]
  have hkept : (distinctList.edit? (.start none) line).map Edit.line = some line := by decide
  have hchanged : (distinctList.edit? (.start none) ordered).map Edit.line =
      some "SELECT f_list_distinct(LISTAGG(a, ',') WITHIN GROUP (ORDER BY a), ',') FROM t;".toList := by
    decide +kernel
  obtain ⟨edit, hedit, hsame⟩ := Option.map_eq_some_iff.1 hkept
  obtain ⟨other, hother, hnew⟩ := Option.map_eq_some_iff.1 hchanged
  have hfires := fires_of_mem_standard hrule (by decide) hdocument hedit
  have hfires' := fires_of_mem_standard hrule (by decide) hdocument hother
  refine ⟨by decide, ⟨edit, hedit, (hfires.2.2.2.1 hsame).2⟩, other, hother, fun hwarns => ?_⟩
  have hsame' : other.line = ordered := hfires'.2.2.2.2 ⟨rfl, hwarns⟩
  exact absurd (hnew.symm.trans hsame') (by decide)

end RuleSet

end SqlDialect
