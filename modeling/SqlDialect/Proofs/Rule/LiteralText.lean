import SqlDialect.Proofs.Pattern.Piecewise
import SqlDialect.Proofs.Rule.FirstChange
import SqlDialect.Proofs.Rule.Settled.Statement
import SqlDialect.Rule.ColumnAttribute

/-!
# What the text of literals decides

Some rules search the whole line and look only afterwards whether the match that they found is code, or
do not look at all.

* A rule that discards a clause looks at the first one that it finds.  It fires if and only if the first
  piece of the line that holds the beginning of the clause is code, so that a clause that is text of a
  literal hides the ones behind it.
* The rule about the default of a binary column takes a literal for code throughout.
-/

namespace SqlDialect

namespace Pattern

open Rule (clause)

variable {front : Pattern} {before behind : Option Char} {text line s t : List Char} {m : Match}

/-! ### Clauses -/

/-- The first clause of a line is in code if and only if the first piece that holds the beginning of one
is. -/
theorem firstInCode_of_clause (hfront : (front ++ boundary).IsPiecewise) (hfeed : '\n' ∉ s ++ t)
    (h : (clause front).Reads s.getLast? t none)
    (hfirst : ∀ u v, s ++ t = u ++ v → u.length < s.length →
      ¬(clause front).Reads u.getLast? v none) :
    firstInCode (front ++ boundary) (s ++ t) = Literal.inCode (s ++ t) s.length := by
  obtain ⟨f, r, rfl, hf, -⟩ := reads_append_restOfLine_iff.1 h
  rw [hfront.firstInCode_of_first hf]
  · obtain ⟨c, f, rfl⟩ : ∃ c f', f = c :: f' := List.exists_cons_of_ne_nil (by
      rintro rfl
      exact not_reads_nil hfront.visible _ _ hf)
    have hc : c ≠ '\'' := by
      rintro rfl
      exact not_mem_of_avoids hfront.avoids hf List.mem_cons_self
    rw [Bool.eq_iff_iff, List.cons_append, Rule.inCode_append_cons]
    exact ⟨fun hs => ⟨hc, hs⟩, And.right⟩
  · intro u text' v hline hlt hreads
    refine hfirst u (text' ++ v) hline hlt (reads_append_restOfLine_iff.2 ⟨text', v, rfl, hreads, ?_⟩)
    intro hmem
    rw [hline] at hfeed
    exact hfeed (List.mem_append_right _ (List.mem_append_right _ hmem))

theorem firstInCode_of_no_clause (hfront : (front ++ boundary).IsPiecewise) (hfeed : '\n' ∉ line)
    (hnone : ∀ u v, line = u ++ v → ¬(clause front).Reads u.getLast? v none) :
    firstInCode (front ++ boundary) line = false := by
  refine hfront.firstInCode_of_none fun u text v hline hreads => ?_
  refine hnone u (text ++ v) hline (reads_append_restOfLine_iff.2 ⟨text, v, rfl, hreads, fun hmem => ?_⟩)
  rw [hline] at hfeed
  exact hfeed (List.mem_append_right _ (List.mem_append_right _ hmem))

end Pattern

namespace Rule

open Pattern

variable {ctx : Context} {line : List Char}

theorem isPiecewise_changesOwner : (changesOwner ++ boundary).IsPiecewise :=
  ⟨by decide, by decide, by decide⟩

theorem isPiecewise_createsIndex : (createsIndex ++ boundary).IsPiecewise :=
  ⟨by decide, by decide, by decide⟩

/-- **An owner is changed** if the first piece that says so is code. -/
theorem isSome_ownerTo (hfeed : '\n' ∉ line) :
    (ownerTo.edit? ctx line).isSome = firstInCode (changesOwner ++ boundary) line := by
  have hrule : ownerTo.edit? ctx line =
      ((clause changesOwner ++ lineEnd).find? line).bind fun m =>
        if Literal.inCode line m.start then
          some (.changed (line.take m.start) (Text.trim m.text))
        else none := rfl
  rw [hrule]
  cases hm : (clause changesOwner ++ lineEnd).find? line with
  | none =>
    refine (firstInCode_of_no_clause isPiecewise_changesOwner hfeed fun u v hline hreads => ?_).symm
    have hoccurs := occursIn_iff.2 ⟨u, v, [], by simpa using hline, reads_append_lineEnd_iff.2 ⟨hreads, rfl⟩⟩
    rw [occursIn, hm] at hoccurs
    cases hoccurs
  | some m =>
    obtain ⟨a, b, rfl, hstart, hmatch, hfirst⟩ := exists_first_of_find? hm
    obtain ⟨rest, hrest, hreads⟩ := reads_of_matchAt hmatch
    obtain ⟨hreads, hnil⟩ := reads_append_lineEnd_iff.1 hreads
    obtain rfl : b = m.text := by simpa [List.head?_eq_none_iff.1 hnil] using hrest
    have hcode := firstInCode_of_clause isPiecewise_changesOwner hfeed hreads
      fun u v hline hlt hreads => hfirst u v [] (by simpa using hline) hlt
        (reads_append_lineEnd_iff.2 ⟨hreads, rfl⟩)
    rw [hcode, Option.bind_some, hstart]
    cases Literal.inCode (a ++ m.text) a.length <;> rfl

/-- **An index is created** if the first piece that says so is code. -/
theorem isSome_createIndex (hfeed : '\n' ∉ line) :
    (createIndex.edit? ctx line).isSome = firstInCode (createsIndex ++ boundary) line := by
  have hrule : createIndex.edit? ctx line = (indexLine.find? line).bind fun m =>
      (m.group? "clause").bind fun g =>
        if Literal.inCode line g.start then some (discardStatement m) else none := rfl
  rw [hrule]
  cases hm : indexLine.find? line with
  | none =>
    refine (firstInCode_of_no_clause isPiecewise_createsIndex hfeed fun u v hline hreads => ?_).symm
    have hoccurs : indexLine.occursIn line = true := by
      refine occursIn_iff.2 ⟨[], u ++ v, [], by simpa using hline, reads_append_lineEnd_iff.2 ⟨?_, rfl⟩⟩
      have hpre : (many false (one .any)).Reads none u (v.head?.or none) :=
        reads_many_any_iff.2 fun hmem => hfeed (hline ▸ List.mem_append_left _ hmem)
      exact ⟨u, v, rfl, ⟨[], u, rfl, ⟨rfl, rfl⟩, hpre⟩, by simpa [Reads] using hreads⟩
    rw [occursIn, hm] at hoccurs
    cases hoccurs
  | some m =>
    obtain ⟨s, t, rfl, -, hgroup, hreads, hfirst⟩ :=
      exists_first_of_lazy (by decide) rfl (by decide) hm
    have hcode := firstInCode_of_clause isPiecewise_createsIndex hfeed hreads hfirst
    rw [hcode, Option.bind_some, hgroup, Option.bind_some]
    cases Literal.inCode (s ++ t) s.length <;> rfl

/-! ### The default of a binary column -/

/-- A binary type, and behind it a default with no comma before its first character. -/
def binaryWithDefault : Pattern :=
  binaryType ++ star (one (.noneOf ",")) ++ defaultWord ++ one (.except (.blank ∪ .exactly ','))

theorem isPiecewise_binaryType : binaryType.IsPiecewise := ⟨by decide, by decide, by decide⟩

theorem isPiecewise_defaultWord : defaultWord.IsPiecewise := ⟨by decide, by decide, by decide⟩

theorem reads_noneOf_comma_iff (greedy : Bool) {before behind : Option Char} {text : List Char} :
    (many greedy (one (.noneOf ","))).Reads before text behind ↔ ',' ∉ text :=
  reads_many_noneOf_iff_not_mem rfl

/-- The parts of a binary type with a default, and where each of them is read. -/
theorem reads_typed_iff {greedy : Bool} {last : Pattern} {before behind : Option Char}
    {text : List Char} :
    (binaryType ++ many greedy (one (.noneOf ",")) ++ defaultWord ++ last).Reads before text behind ↔
      ∃ type x word e, text = type ++ (x ++ (word ++ e)) ∧
        binaryType.Reads before type ((x ++ (word ++ e)).head?.or behind) ∧ ',' ∉ x ∧
        defaultWord.Reads ((type ++ x).getLast?.or before) word (e.head?.or behind) ∧
        last.Reads ((type ++ x ++ word).getLast?.or before) e behind := by
  constructor
  · rintro ⟨_, e, rfl, ⟨_, word, rfl, ⟨type, x, rfl, htype, hx⟩, hword⟩, hlast⟩
    refine ⟨type, x, word, e, by simp only [List.append_assoc], ?_,
      (reads_noneOf_comma_iff greedy).1 hx, hword, hlast⟩
    simpa only [List.head?_append, Option.or_assoc] using htype
  · rintro ⟨type, x, word, e, rfl, htype, hx, hword, hlast⟩
    refine ⟨type ++ x ++ word, e, by simp only [List.append_assoc],
      ⟨type ++ x, word, rfl, ⟨type, x, rfl, ?_, (reads_noneOf_comma_iff greedy).2 hx⟩, hword⟩,
      hlast⟩
    simpa only [List.head?_append, Option.or_assoc] using htype

theorem exists_cons_of_reads_defaultValue {before behind : Option Char} {text : List Char}
    (h : defaultValue.Reads before text behind) : ∃ c rest, text = c :: rest ∧
      (CharSet.except (.blank ∪ .exactly ',')).mem c = true := by
  rcases h with ⟨_, _, rfl, ⟨_, _, rfl, hquote, -⟩, -⟩ | hplain
  · obtain rfl := reads_char_iff.1 hquote
    exact ⟨'\'', _, rfl, by decide⟩
  · obtain ⟨hne, hall⟩ := reads_plus_one_iff.1 hplain
    obtain ⟨c, rest, rfl⟩ := List.exists_cons_of_ne_nil hne
    exact ⟨c, rest, rfl, hall c List.mem_cons_self⟩

/-- **The default of a binary column** is dropped wherever a binary type has a default behind it, in
code or in a literal: the length of the type and the rest of the default do not matter. -/
theorem isSome_binaryDefault :
    (binaryDefault.edit? ctx line).isSome = binaryWithDefault.occursIn line := by
  have hrule : (binaryDefault.edit? ctx line).isSome = binaryColumn.occursIn line :=
    Option.isSome_map
  rw [hrule, Bool.eq_iff_iff, occursIn_iff, occursIn_iff]
  constructor
  · rintro ⟨u, _, v, rfl, _, _, rfl, ⟨_, x, rfl, ⟨type, length, rfl, htype, hlength⟩, hx⟩,
      word, e, rfl, hword, hvalue⟩
    obtain ⟨c, rest, rfl, hc⟩ := exists_cons_of_reads_defaultValue hvalue
    refine ⟨u, type ++ ((length ++ x) ++ (word ++ [c])), rest ++ v, by simp, ?_⟩
    refine reads_typed_iff.2 ⟨type, length ++ x, word, [c], rfl, ?_, ?_, ?_, .cons hc .nil⟩
    · simpa only [List.head?_append, List.head?_cons, Option.or_assoc, Option.some_or] using htype
    · have hlength : ',' ∉ length := not_mem_of_avoids (p := binaryLength) (by decide) hlength
      exact fun hmem => (List.mem_append.1 hmem).elim hlength ((reads_noneOf_comma_iff false).1 hx)
    · simpa only [List.append_assoc, List.head?_cons, Option.some_or] using hword
  · rintro ⟨u, _, v, rfl, hreads⟩
    obtain ⟨type, x, word, e, rfl, htype, hx, hword, hlast⟩ := reads_typed_iff.1 hreads
    refine ⟨u, _, v, rfl, type ++ x, word ++ e, by simp,
      ⟨type, x, rfl, ⟨type, [], by simp, ?_, .inr .nil⟩, (reads_noneOf_comma_iff false).2 hx⟩,
      word, e, rfl, hword, .inr ?_⟩
    · simpa [List.head?_append, Option.or_assoc] using htype
    · obtain ⟨c, rest, hc, hrest, rfl⟩ := List.forall₂_cons_left_iff.1 hlast
      obtain rfl := List.forall₂_nil_left_iff.1 hrest
      exact reads_plus_one_iff.2 ⟨List.cons_ne_nil c [], by simpa using hc⟩

/-! ### Lines with the same code -/

/-- Whether the literals of the line hold no part of a binary type with a default: neither the type nor
the word for the default, and no comma, which would keep the two apart. -/
structure NoDefaultInLiterals (line : List Char) : Prop where
  type : OutsideLiterals binaryType line
  word : OutsideLiterals defaultWord line
  comma : Literal.literalContains ',' line = false

/-- Then a binary type and the word for its default are code. -/
theorem NoDefaultInLiterals.isClosed {u type x word v : List Char}
    (h : NoDefaultInLiterals (u ++ (type ++ (x ++ (word ++ v)))))
    (htype : binaryType.Reads u.getLast? type (x ++ (word ++ v)).head?)
    (hword : defaultWord.Reads (u ++ (type ++ x)).getLast? word v.head?) :
    Literal.isClosed u = true ∧ Literal.isClosed x = true := by
  have hu := isPiecewise_binaryType.isClosed_of_reads htype h.type
  have hux := isPiecewise_defaultWord.isClosed_of_reads hword (by simpa using h.word)
  have htypeQuote : '\'' ∉ type := not_mem_of_avoids isPiecewise_binaryType.avoids htype
  refine ⟨hu, ?_⟩
  simp only [Literal.isClosed, beq_iff_eq, List.count_append, List.count_eq_zero.2 htypeQuote]
    at hu hux ⊢
  omega

theorem occursIn_binaryWithDefault {a b : List Char} (h : Literal.SameCode a b)
    (ha : NoDefaultInLiterals a) (hb : Literal.literalContains ',' b = false)
    (hoccurs : binaryWithDefault.occursIn a = true) : binaryWithDefault.occursIn b = true := by
  obtain ⟨u, _, v, rfl, hreads⟩ := occursIn_iff.1 hoccurs
  obtain ⟨type, x, word, e, rfl, htype, hx, hword, hlast⟩ := reads_typed_iff.1 hreads
  obtain ⟨c, rest, hc, hrest, rfl⟩ := List.forall₂_cons_left_iff.1 hlast
  obtain rfl := List.forall₂_nil_left_iff.1 hrest
  have htypeQuote : '\'' ∉ type := not_mem_of_avoids isPiecewise_binaryType.avoids htype
  have hwordQuote : '\'' ∉ word := not_mem_of_avoids isPiecewise_defaultWord.avoids hword
  obtain ⟨hu, hxClosed⟩ : Literal.isClosed u = true ∧ Literal.isClosed x = true := by
    have hline : u ++ (type ++ (x ++ (word ++ [c])) ++ v) =
        u ++ (type ++ (x ++ (word ++ (c :: v)))) := by simp
    rw [hline] at ha
    refine ha.isClosed ?_ ?_
    · simpa [List.head?_append] using htype
    · rwa [List.getLast?_append]
  -- the other line has them too, with the same code between them
  obtain ⟨u', t, rfl, huu', htail, hbefore, -⟩ := h.exists_append hu
  rw [List.append_assoc] at htail
  obtain ⟨t, rfl, htail, htypeBehind⟩ := htail.exists_append_of_not_mem htypeQuote
  rw [List.append_assoc] at htail
  obtain ⟨x', t, rfl, hxx', htail, hxLast, -⟩ := htail.exists_append hxClosed
  rw [List.append_assoc] at htail
  obtain ⟨t, rfl, -, hwordBehind⟩ := htail.exists_append_of_not_mem hwordQuote
  obtain ⟨v', rfl⟩ : ∃ v', t = c :: v' := by
    rw [List.singleton_append, List.head?_cons] at hwordBehind
    exact ⟨t.tail, (List.cons_head?_tail hwordBehind).symm⟩
  have hx' : ',' ∉ x' := by
    refine hxx'.not_mem hx ?_ (by decide)
    rw [Literal.literalContains_append ',' (huu'.isClosed_eq ▸ hu),
      Literal.literalContains_append ',' (Literal.isClosed_of_not_mem htypeQuote),
      Literal.literalContains_append ',' (hxx'.isClosed_eq ▸ hxClosed)] at hb
    simp only [Bool.or_eq_false_iff] at hb
    exact hb.2.2.1
  refine occursIn_iff.2 ⟨u', type ++ (x' ++ (word ++ [c])), v', by simp,
    reads_typed_iff.2 ⟨type, x', word, [c], rfl, ?_, hx', ?_, .cons hc .nil⟩⟩
  · rw [hbefore]
    rw [← List.head?_append] at htype ⊢
    have hnext : (x' ++ (word ++ [c]) ++ v').head? = (x ++ (word ++ [c]) ++ v).head? := by
      simpa using htypeBehind
    exact hnext ▸ htype
  · rw [List.getLast?_append, hxLast, hbefore, ← List.getLast?_append]
    exact hword

/-- **What literals decide.**  A discarded clause counts if the first piece that holds its beginning is
code, and the default of a binary column counts in literals as well as in code.  So two lines with the
same code go through these rules alike if their literals hold no beginning of a clause, and no part of a
binary type with a default. -/
theorem literalText_spec (ctx : Context) {a b : List Char} (ha : '\n' ∉ a) (hb : '\n' ∉ b)
    (h : Literal.SameCode a b) :
    ((ownerTo.edit? ctx a).isSome = firstInCode (changesOwner ++ boundary) a ∧
      (OutsideLiterals (changesOwner ++ boundary) a → OutsideLiterals (changesOwner ++ boundary) b →
        (ownerTo.edit? ctx a).isSome = (ownerTo.edit? ctx b).isSome)) ∧
    ((createIndex.edit? ctx a).isSome = firstInCode (createsIndex ++ boundary) a ∧
      (OutsideLiterals (createsIndex ++ boundary) a → OutsideLiterals (createsIndex ++ boundary) b →
        (createIndex.edit? ctx a).isSome = (createIndex.edit? ctx b).isSome)) ∧
    ((binaryDefault.edit? ctx a).isSome = binaryWithDefault.occursIn a ∧
      (NoDefaultInLiterals a → NoDefaultInLiterals b →
        (binaryDefault.edit? ctx a).isSome = (binaryDefault.edit? ctx b).isSome)) := by
  refine ⟨⟨isSome_ownerTo ha, fun houtA houtB => ?_⟩, ⟨isSome_createIndex ha, fun houtA houtB => ?_⟩,
    isSome_binaryDefault, fun houtA houtB => ?_⟩
  · rw [isSome_ownerTo ha, isSome_ownerTo hb, isPiecewise_changesOwner.firstInCode_eq_codeMatches houtA,
      isPiecewise_changesOwner.firstInCode_eq_codeMatches houtB, h.codeMatches_eq]
  · rw [isSome_createIndex ha, isSome_createIndex hb,
      isPiecewise_createsIndex.firstInCode_eq_codeMatches houtA,
      isPiecewise_createsIndex.firstInCode_eq_codeMatches houtB, h.codeMatches_eq]
  · rw [isSome_binaryDefault, isSome_binaryDefault, Bool.eq_iff_iff]
    exact ⟨occursIn_binaryWithDefault h houtA houtB.comma,
      occursIn_binaryWithDefault h.symm houtB houtA.comma⟩

theorem literalText_spec_quoted :
    let a := "'old' BINARY DEFAULT 1 CREATE INDEX i OWNER TO bob".toList
    let b := "'new' BINARY DEFAULT 1 CREATE INDEX i OWNER TO bob".toList
    ('\n' ∉ a ∧ '\n' ∉ b ∧ Literal.SameCode a b) ∧
      (ownerTo.edit? (.start none) a).isSome = (ownerTo.edit? (.start none) b).isSome ∧
      (createIndex.edit? (.start none) a).isSome = (createIndex.edit? (.start none) b).isSome ∧
      (binaryDefault.edit? (.start none) a).isSome = (binaryDefault.edit? (.start none) b).isSome := by
  intro a b
  have ha : '\n' ∉ a := by decide
  have hb : '\n' ∉ b := by decide
  have h : Literal.SameCode a b := ⟨by decide, by decide⟩
  obtain ⟨⟨-, howner⟩, ⟨-, hindex⟩, -, hdefault⟩ := literalText_spec (.start none) ha hb h
  exact ⟨⟨ha, hb, h⟩, howner (by decide) (by decide), hindex (by decide) (by decide),
    hdefault ⟨by decide, by decide, by decide⟩ ⟨by decide, by decide, by decide⟩⟩

/-- A literal hides a clause behind it, and is taken for the default of a column. -/
theorem literalText_hides :
    (∃ a b, Literal.SameCode a b ∧ ownerTo.edit? (.start none) a = none ∧
      (ownerTo.edit? (.start none) b).isSome = true) ∧
    (∃ a b, Literal.SameCode a b ∧ createIndex.edit? (.start none) a = none ∧
      (createIndex.edit? (.start none) b).isSome = true) ∧
    (∃ a b, Literal.SameCode a b ∧ binaryDefault.edit? (.start none) a = none ∧
      (binaryDefault.edit? (.start none) b).isSome = true) := by
  refine ⟨⟨"SELECT 'owner to' FROM t; ALTER VIEW v OWNER TO bob;".toList,
      "SELECT 'owner is' FROM t; ALTER VIEW v OWNER TO bob;".toList, ⟨by decide, by decide⟩, ?_, ?_⟩,
    ⟨"INSERT INTO log VALUES ('create index i'); CREATE INDEX i ON t (a);".toList,
      "INSERT INTO log VALUES ('created i'); CREATE INDEX i ON t (a);".toList,
      ⟨by decide, by decide⟩, ?_, ?_⟩,
    ⟨"COMMENT ON TABLE t IS 'no default';".toList,
      "COMMENT ON TABLE t IS 'binary default x';".toList, ⟨by decide, by decide⟩, ?_, ?_⟩⟩
  all_goals decide

end Rule

end SqlDialect
