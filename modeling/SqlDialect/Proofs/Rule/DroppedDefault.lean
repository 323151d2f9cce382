import Mathlib.Algebra.Ring.Int.Defs
import Mathlib.Algebra.Ring.Nat
import SqlDialect.Proofs.Line.Paren
import SqlDialect.Proofs.Pattern.Scan
import SqlDialect.Proofs.Rule.LiteralText
import SqlDialect.Proofs.Text.Run

/-!
# Dropped defaults of binary columns

The rule about binary columns takes the default out of the line, and nothing else (`Drops.count_eq`).
What it takes for the value of the default is a literal, or all that comes up to a blank or a comma
(`BinaryDefault.EndsAt`).  So the value may hold more than the default: behind the default of the last
column, the parenthesis of the column list and the end of the statement.

`Drops` follows the scan of the line, with the quote that is open at each place, and counts parentheses
along the way: they stay balanced as long as each dropped default closes what it opens
(`Rule.binaryDefault_drops`).
-/

namespace SqlDialect

open Pattern

/-- A binary type and a default behind it, in their parts. -/
structure BinaryDefault where
  /-- The name of the type. -/
  type : List Char
  /-- What stands between the type and the default. -/
  modifiers : List Char
  /-- The word `DEFAULT` and the white space around it. -/
  word : List Char
  /-- The value. -/
  value : List Char
  type_eq : type.map Text.foldCase = "binary".toList ∨ type.map Text.foldCase = "varbinary".toList
  comma_modifiers : ',' ∉ modifiers
  reads_word : Rule.defaultWord.Reads none word none

namespace BinaryDefault

/-- What stays in the line. -/
def kept (k : BinaryDefault) : List Char := k.type ++ k.modifiers

/-- What is taken out of the line. -/
def dropped (k : BinaryDefault) : List Char := k.word ++ k.value

/-- Whether a value goes on over the character. -/
def isValueChar (c : Char) : Bool := !Text.isBlank c && c != ','

/-- The value is a literal, or else all that comes up to a blank or a comma. -/
def EndsAt (k : BinaryDefault) (rest : List Char) : Prop :=
  (∃ body, k.value = '\'' :: (body ++ ['\'']) ∧ '\'' ∉ body) ∨
    (∀ body more, k.value ++ rest = '\'' :: (body ++ '\'' :: more) → '\'' ∈ body) ∧
      k.value ≠ [] ∧ Text.Run isValueChar k.value rest

variable {place : Cursor} {groups : List Group} {o : Cursor × List Group} {rest text : List Char}

theorem foldCase_of_reads_binaryType {before behind : Option Char}
    (h : Rule.binaryType.Reads before text behind) :
    text.map Text.foldCase = "binary".toList ∨ text.map Text.foldCase = "varbinary".toList := by
  obtain ⟨_, _, rfl, ⟨_, word, rfl, ⟨_, front, rfl, ⟨rfl, -⟩, hfront⟩, hword⟩, rfl, -⟩ := h
  have hbinary : word.map Text.foldCase = "binary".toList := map_foldCase_of_reads_keyword hword
  rw [List.append_nil, List.nil_append, List.map_append, hbinary]
  rcases hfront with hfront | hfront
  · rw [map_foldCase_of_reads_keyword hfront]
    exact .inr rfl
  · rw [List.forall₂_nil_left_iff.1 hfront]
    exact .inl rfl

/-- A literal for a value. -/
def literalValue : Pattern := char '\'' ++ star (one (.noneOf "'")) ++ char '\''

theorem reads_literalValue_iff {before behind : Option Char} :
    literalValue.Reads before text behind ↔
      ∃ body, text = '\'' :: (body ++ ['\'']) ∧ '\'' ∉ body :=
  reads_enclosed_iff.trans
    (exists_congr fun _ => and_congr_right fun _ => forall_not_mem_marks_iff rfl)

/-- What a value is followed by. -/
theorem endsAt_of_outcomes {k : BinaryDefault}
    (h : (Rule.defaultValue.outcomes place groups).head? = some o)
    (hvalue : place.Spans o.1 k.value) : k.EndsAt o.1.rest := by
  have hset (c : Char) : (CharSet.except (.blank ∪ .exactly ',')).mem c = isValueChar c := by
    change (!(Text.isBlank c || [','].contains c)) = (!Text.isBlank c && c != ',')
    rw [Bool.eq_iff_iff]
    simp
  change (literalValue.outcomes place groups ++ _).head? = _ at h
  cases hfound : literalValue.outcomes place groups with
  | cons first others =>
    left
    rw [hfound] at h
    obtain rfl := Option.some.inj h
    have hmem : first ∈ literalValue.outcomes place groups := hfound ▸ List.mem_cons_self
    exact reads_literalValue_iff.1 (reads_of_mem_outcomes hmem hvalue)
  | nil =>
    right
    rw [hfound, List.nil_append] at h
    obtain ⟨hne, hall⟩ := reads_plus_one_iff.1 (reads_of_mem_outcomes (List.mem_of_mem_head? h) hvalue)
    refine ⟨fun body more hline => ?_, hne, fun c hc => hset c ▸ hall c hc,
      fun c hc => hset c ▸ mem_eq_false_of_outcomes (by decide) h hc⟩
    by_contra hquote
    have hrest : place.rest = '\'' :: (body ++ ['\'']) ++ more := by
      rw [hvalue.rest_eq, hline]
      simp
    obtain ⟨o', ho', -⟩ := exists_outcome_of_reads groups
      (reads_literalValue_iff.2 ⟨body, rfl, hquote⟩) hrest
    rw [hfound] at ho'
    cases ho'

/-- The type with its length, and what stands behind it. -/
theorem exists_of_mem_outcomes_kept {stop : Cursor} {own : List Group}
    (h : (stop, own) ∈ (group "type" (Rule.binaryType ++ Rule.binaryLength) ++
      group "modifiers" (many false (one (.noneOf ",")))).outcomes place []) :
    ∃ (type length x : List Char) (index : Nat), place.Spans stop (type ++ length ++ x) ∧
      own = [⟨"modifiers", index, x⟩, ⟨"type", place.index, type ++ length⟩] ∧
      (type.map Text.foldCase = "binary".toList ∨ type.map Text.foldCase = "varbinary".toList) ∧
      ',' ∉ length ++ x := by
  obtain ⟨middle, own', x, htype, hspans, hx, rfl⟩ := exists_of_mem_outcomes_append_group rfl h
  obtain ⟨t, hspans', hreads, rfl⟩ :=
    exists_of_mem_outcomes_group (a := Rule.binaryType ++ Rule.binaryLength) rfl htype
  obtain ⟨type, length, rfl, htypeReads, hlength⟩ := hreads
  have hcomma : ',' ∉ length := not_mem_of_avoids (p := Rule.binaryLength) (by decide) hlength
  refine ⟨type, length, x, middle.index, hspans'.trans hspans, rfl,
    foldCase_of_reads_binaryType htypeReads, fun hmem => ?_⟩
  exact (List.mem_append.1 hmem).elim hcomma ((Rule.reads_noneOf_comma_iff false).1 hx)

/-- The word and the value behind it. -/
theorem exists_of_outcomes_default {own : List Group}
    (h : ((group "default" (Rule.defaultWord ++ Rule.defaultValue)).outcomes place own).head? =
      some o) :
    ∃ word value, place.Spans o.1 (word ++ value) ∧
      o.2 = ⟨"default", place.index, word ++ value⟩ :: own ∧
      Rule.defaultWord.Reads none word none ∧
      ∀ k : BinaryDefault, k.value = value → k.EndsAt o.1.rest := by
  have hgroup : (group "default" (Rule.defaultWord ++ Rule.defaultValue)).outcomes place own =
      ((Rule.defaultWord ++ Rule.defaultValue).outcomes place own).map fun o =>
        (o.1, ⟨"default", place.index, place.between o.1⟩ :: o.2) := rfl
  rw [hgroup, List.head?_map] at h
  obtain ⟨⟨stop, groups⟩, ho, rfl⟩ := Option.map_eq_some_iff.1 h
  obtain rfl := groups_eq_of_isPlain (p := Rule.defaultWord ++ Rule.defaultValue) rfl
    (List.mem_of_mem_head? ho)
  obtain ⟨⟨middle, own⟩, hword, hvalue⟩ := exists_head?_of_append ho
  obtain ⟨word, hspans⟩ := spans_of_mem_outcomes hword
  obtain ⟨value, hspans'⟩ := spans_of_mem_outcomes (List.mem_of_mem_head? hvalue)
  refine ⟨word, value, hspans.trans hspans', by rw [(hspans.trans hspans').between_eq],
    reads_of_isFree rfl (reads_of_mem_outcomes hword hspans) none none, ?_⟩
  rintro k rfl
  exact endsAt_of_outcomes (o := (stop, groups)) hvalue hspans'

/-- **A match is a type with a default**, and its groups are the parts of it. -/
theorem exists_of_matchAt {m : Match} (h : Rule.binaryColumn.matchAt place = some m)
    (hrest : place.rest = m.text ++ rest) :
    ∃ k : BinaryDefault, m.text = k.kept ++ k.dropped ∧
      m.textOf "type" ++ m.textOf "modifiers" = k.kept ∧ m.textOf "default" = k.dropped ∧
      k.EndsAt rest := by
  rw [matchAt_eq] at h
  obtain ⟨o, ho, rfl⟩ := Option.map_eq_some_iff.1 h
  obtain ⟨⟨stop, own⟩, hkept, hdefault⟩ := exists_head?_of_append ho
  obtain ⟨type, length, x, index, hspans, rfl, hfold, hcomma⟩ := exists_of_mem_outcomes_kept hkept
  obtain ⟨word, value, hspans', hgroups, hword, hends⟩ := exists_of_outcomes_default hdefault
  have htext := (hspans.trans hspans').between_eq
  let k : BinaryDefault := ⟨type, length ++ x, word, value, hfold, hcomma, hword⟩
  refine ⟨k, ?_, ?_, ?_, ?_⟩
  · change place.between o.1 = _
    rw [htext]
    simp [k, kept, dropped]
  · simp [k, Match.textOf, Match.group?, hgroups, kept]
  · simp [k, Match.textOf, Match.group?, hgroups, dropped]
  · have hstop : o.1.rest = rest := by
      change place.rest = place.between o.1 ++ rest at hrest
      rw [htext] at hrest
      exact List.append_cancel_left ((hspans.trans hspans').rest_eq.symm.trans hrest)
    exact hstop ▸ hends k rfl

end BinaryDefault

open BinaryDefault

/-! ### The scan of a line -/

/-- How the rest of a line, behind a text that leaves `open?` open, and the rest of the new line go
together.  The list has the quote that is open before each dropped default. -/
inductive Drops : Option Char → List Char → List Char → List (Option Char × BinaryDefault) → Prop
  | nil (open? : Option Char) : Drops open? [] [] []
  /-- A character that stays. -/
  | keep {open? : Option Char} {c : Char} {rest new : List Char}
      {dropped : List (Option Char × BinaryDefault)}
      (more : Drops (Line.quoteAfter open? c) rest new dropped) :
      Drops open? (c :: rest) (c :: new) dropped
  /-- A default that is dropped. -/
  | drop {open? : Option Char} {rest new : List Char}
      {dropped : List (Option Char × BinaryDefault)} (k : BinaryDefault) (ends : k.EndsAt rest)
      (more : Drops (Line.quoteBehind open? (k.kept ++ k.dropped)) rest new dropped) :
      Drops open? (k.kept ++ (k.dropped ++ rest)) (k.kept ++ new)
        ((Line.quoteBehind open? k.kept, k) :: dropped)

namespace Drops

variable {open? : Option Char} {rest new : List Char} {dropped : List (Option Char × BinaryDefault)}

/-- The search of a line goes the same way, and finds the first default that is dropped. -/
theorem exists_drops (open? before : Option Char) (index : Nat) (rest : List Char) :
    ∃ dropped, Drops open? rest
        (Rule.binaryColumn.editedFrom (fun m => some (Rule.withoutDefault m)) before index rest) dropped ∧
      (Rule.binaryColumn.findFrom before index rest).map (·.textOf "default") =
        dropped.head?.map (·.2.dropped) := by
  -- the search goes on behind a match of any length, and so the induction is on the length
  induction hlength : rest.length using Nat.strong_induction_on
    generalizing open? before index rest with
  | _ n ih =>
    subst hlength
    cases hmatch : Rule.binaryColumn.matchAt ⟨before, index, rest⟩ with
    | none =>
      cases rest with
      | nil => exact ⟨[], .nil open?, congrArg _ hmatch⟩
      | cons c rest =>
        obtain ⟨dropped, hdrops, hfirst⟩ := ih rest.length (Nat.lt_succ_self _)
          (Line.quoteAfter open? c) (some c) (index + 1) rest rfl
        rw [editedFrom_cons hmatch, findFrom, hmatch]
        exact ⟨dropped, .keep hdrops, hfirst⟩
    | some m =>
      obtain ⟨rest', hrest, hreads⟩ := reads_of_matchAt hmatch
      have hline : rest = m.text ++ rest' := hrest
      have hne : m.text ≠ [] := fun hnil => by
        rw [hnil] at hreads
        exact not_reads_nil (p := Rule.binaryColumn) (by decide) _ _ hreads
      subst hline
      have hshort : rest'.length < (m.text ++ rest').length := by
        rw [List.length_append]
        exact Nat.lt_add_of_pos_left (List.length_pos_of_ne_nil hne)
      obtain ⟨k, htext, hkept, hdefault, hends⟩ :=
        BinaryDefault.exists_of_matchAt hmatch rfl
      obtain ⟨dropped, hdrops, -⟩ := ih rest'.length hshort
        (Line.quoteBehind open? (k.kept ++ k.dropped)) (m.text.getLast?.or before)
        (index + m.text.length) rest' rfl
      refine ⟨(Line.quoteBehind open? k.kept, k) :: dropped, ?_, ?_⟩
      · rw [editedFrom_append hmatch hne, Option.getD_some, Rule.withoutDefault, hkept]
        generalize Rule.binaryColumn.editedFrom _ _ _ rest' = new at hdrops
        rw [htext, List.append_assoc]
        exact .drop k hends hdrops
      · rw [findFrom_of_matchAt hmatch]
        exact congrArg some hdefault

/-- **Nothing is missing but the dropped defaults.** -/
theorem count_eq (h : Drops open? rest new dropped) (c : Char) :
    rest.count c = new.count c + (dropped.map (·.2.dropped.count c)).sum := by
  induction h with
  | nil => rfl
  | keep _ ih =>
    rw [List.count_cons, List.count_cons, ih]
    omega
  | drop k _ _ ih =>
    rw [List.count_append, List.count_append, List.count_append, ih, List.map_cons, List.sum_cons]
    dsimp only
    omega

/-- Whether the default leaves the quotes as they are in front of it. -/
def KeepsQuotes (d : Option Char × BinaryDefault) : Prop :=
  Line.quoteBehind d.1 d.2.dropped = d.1

/-- How many more parentheses the default opens than it closes. -/
def net (d : Option Char × BinaryDefault) : Int :=
  Line.netDepth d.1 d.2.dropped

/-- Without defaults that open and close as much, as many parentheses are open as before. -/
theorem depthBehind_eq (h : Drops open? rest new dropped)
    (hquote : ∀ d ∈ dropped, KeepsQuotes d) (hnet : ∀ d ∈ dropped, net d = 0) {depth depth' : Nat}
    (hdepth : Line.depthBehind depth open? rest = some depth') :
    Line.depthBehind depth open? new = some depth' := by
  induction h generalizing depth with
  | nil => exact hdepth
  | @keep open? c rest new dropped _ ih =>
    rw [Line.depthBehind] at hdepth ⊢
    split at hdepth
    · cases hdepth
    · rename_i hstay
      rw [if_neg hstay]
      exact ih hquote hnet hdepth
  | @drop open? rest new dropped k _ _ ih =>
    rw [List.forall_mem_cons] at hquote hnet
    have hsame : Line.quoteBehind (Line.quoteBehind open? k.kept) k.dropped =
      Line.quoteBehind open? k.kept := hquote.1
    have hzero : Line.netDepth (Line.quoteBehind open? k.kept) k.dropped = 0 := hnet.1
    rw [Line.depthBehind_append] at hdepth ⊢
    obtain ⟨inner, hinner, hbehind⟩ := Option.bind_eq_some_iff.1 hdepth
    rw [Line.depthBehind_append, hsame] at hbehind
    obtain ⟨outer, houter, hmore⟩ := Option.bind_eq_some_iff.1 hbehind
    have hadd := Line.eq_add_netDepth houter
    rw [hzero] at hadd
    have houter : outer = inner := by omega
    rw [houter] at hmore
    rw [Line.quoteBehind_append, hsame] at ih
    rw [hinner]
    exact ih hquote.2 hnet.2 hmore

/-- What the line opens more than it closes is what the new line does, and the dropped defaults. -/
theorem netDepth_eq (h : Drops open? rest new dropped) (hquote : ∀ d ∈ dropped, KeepsQuotes d) :
    Line.netDepth open? rest = Line.netDepth open? new + (dropped.map net).sum := by
  induction h with
  | nil => rfl
  | keep _ ih =>
    rw [Line.netDepth, Line.netDepth, ih hquote, Int.add_assoc]
  | @drop open? rest new dropped k _ _ ih =>
    rw [List.forall_mem_cons] at hquote
    have hsame : Line.quoteBehind (Line.quoteBehind open? k.kept) k.dropped =
      Line.quoteBehind open? k.kept := hquote.1
    rw [Line.quoteBehind_append, hsame] at ih
    rw [Line.netDepth_append, Line.netDepth_append, Line.netDepth_append, hsame, ih hquote.2,
      List.map_cons, List.sum_cons, net]
    dsimp only
    omega

end Drops

namespace Rule

/-- Parentheses outside quotes are closed in turn, and none stays open. -/
def Balanced (line : List Char) : Prop :=
  Line.depthBehind 0 none line = some 0

instance (line : List Char) : Decidable (Balanced line) :=
  inferInstanceAs (Decidable (_ = _))

/-- **What the rule takes out of a line**: defaults of binary columns, each of which is a literal or all
that comes up to a blank or a comma, and nothing else.  A balanced line stays balanced if each of them
closes what it opens, and it does not if, taken together, they open more than they close or less. -/
theorem binaryDefault_drops (ctx : Context) (line : List Char) (edit : Edit)
    (h : binaryDefault.edit? ctx line = some edit) :
    ∃ dropped, Drops none line edit.line dropped ∧
      (∃ d ∈ dropped.head?, edit.note = Text.trim d.2.dropped) ∧
      (∀ c, line.count c = edit.line.count c + (dropped.map (·.2.dropped.count c)).sum) ∧
      ((∀ d ∈ dropped, Drops.KeepsQuotes d) →
        ((∀ d ∈ dropped, Drops.net d = 0) → Balanced line → Balanced edit.line) ∧
        (Balanced line → Balanced edit.line → (dropped.map Drops.net).sum = 0)) := by
  have hrule : binaryDefault.edit? ctx line = (Rule.binaryColumn.find? line).map fun m =>
    .changed (Rule.binaryColumn.replaceIn Rule.withoutDefault line) (Text.trim (m.textOf "default")) := rfl
  rw [hrule] at h
  obtain ⟨m, hm, rfl⟩ := Option.map_eq_some_iff.1 h
  obtain ⟨dropped, hdrops, hfirst⟩ := Drops.exists_drops none none 0 line
  rw [find?_eq] at hm
  rw [hm] at hfirst
  have hline : Rule.binaryColumn.replaceIn Rule.withoutDefault line =
      Rule.binaryColumn.editedFrom (fun m => some (Rule.withoutDefault m)) none 0 line :=
    replaceIn_eq_editedFrom Rule.binaryColumn (fun m => some (Rule.withoutDefault m)) line
  rw [← hline] at hdrops
  refine ⟨dropped, hdrops, ?_, hdrops.count_eq, fun hquote => ⟨fun hnet hbalanced =>
    hdrops.depthBehind_eq hquote hnet hbalanced, fun hbefore hbehind => ?_⟩⟩
  · obtain ⟨d, hd, hdefault⟩ := Option.map_eq_some_iff.1 hfirst.symm
    exact ⟨d, hd, congrArg Text.trim hdefault.symm⟩
  · have hold := Line.eq_add_netDepth hbefore
    have hnew : ((0 : Nat) : Int) =
        (0 : Nat) + Line.netDepth none (Rule.binaryColumn.replaceIn Rule.withoutDefault line) :=
      Line.eq_add_netDepth hbehind
    have hsum := hdrops.netDepth_eq hquote
    omega

/-- The column of a binary type with a flag for its default. -/
theorem binaryDefault_drops_flag :
    let line := "  flag BINARY(1) NOT NULL DEFAULT 0,".toList
    ∃ edit, binaryDefault.edit? (.start none) line = some edit ∧
      edit.line = "  flag BINARY(1) NOT NULL,".toList ∧
      ∃ dropped, Drops none line edit.line dropped ∧
        ∀ c, line.count c = edit.line.count c + (dropped.map (·.2.dropped.count c)).sum := by
  intro line
  obtain ⟨edit, hedit⟩ := Option.isSome_iff_exists.1
    (show (binaryDefault.edit? (.start none) line).isSome = true by decide)
  have hline : (binaryDefault.edit? (.start none) line).map Edit.line =
      some "  flag BINARY(1) NOT NULL,".toList := by decide
  rw [hedit] at hline
  obtain ⟨dropped, hdrops, -, hcount, -⟩ := binaryDefault_drops (.start none) line edit hedit
  exact ⟨edit, hedit, Option.some.inj hline, dropped, hdrops, hcount⟩

/-- The default of the last column takes the end of the statement along. -/
theorem binaryDefault_lastColumn :
    let line := "CREATE TABLE t (flag BINARY(1) DEFAULT 0);".toList
    let new := "CREATE TABLE t (flag BINARY(1)".toList
    Balanced line ∧ binaryDefault.edit? (.start none) line = some (.changed new "DEFAULT 0);".toList) ∧
      ¬Balanced new ∧ line.count ';' = 1 ∧ new.count ';' = 0 := by
  decide

end Rule

end SqlDialect
