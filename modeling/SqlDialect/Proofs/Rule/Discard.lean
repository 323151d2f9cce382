import Mathlib.Data.List.Nodup
import SqlDialect.Proofs.Line.Code
import SqlDialect.Proofs.Pattern.Group
import SqlDialect.Proofs.Pattern.Preference
import SqlDialect.Proofs.Rule.FirstChange
import SqlDialect.Proofs.Rule.Pass

/-!
# Rules that discard statements

Four rules discard a statement.  They work on lines: what they discard goes from the first word of
the statement to the end of the line, whatever stands there.

* `Rule.exists_cut_of_opening` : the edit of such a rule cuts the line in two where the first words of
  the statement stand, and keeps the front.
* `Converter.exists_cut_of_hit` : **the pass of a line ends with the cut**, since no rule sees the
  line behind it.
-/

namespace SqlDialect

/-! ### Edits that cut a line -/

/-- The edit that keeps `lead` and discards `clause`, the statement that starts there. -/
def Edit.cut (lead clause : List Char) : Edit where
  line := lead
  note := Text.trim clause
  control := if Terminator.statement.occursIn clause then .endLine else .suppress .statement
  discardsStatement := true

theorem Edit.control_cut_ne_proceed (lead clause : List Char) :
    (cut lead clause).control ≠ .proceed := by
  rw [cut]
  dsimp only
  split
  · exact nofun
  · exact nofun

/-- A shorter front of the same text ends within the longer one. -/
theorem Text.exists_cons_of_length_lt {u v s t : List Char} (h : s ++ t = u ++ v)
    (hlt : u.length < s.length) : ∃ c w, s = u ++ c :: w := by
  obtain ⟨w, rfl⟩ : u <+: s := List.prefix_of_prefix_length_le ⟨_, h.symm⟩ ⟨_, rfl⟩ hlt.le
  cases w with
  | nil => simp at hlt
  | cons c w => exact ⟨c, w, rfl⟩

namespace Pattern

/-- Behind its beginning, a text goes on up to the end of the line. -/
theorem reads_append_restOfLine_iff {opening : Pattern} {before : Option Char} {text : List Char} :
    (opening ++ Rule.restOfLine).Reads before text none ↔ ∃ words more, text = words ++ more ∧
      opening.Reads before words more.head? ∧ '\n' ∉ more := by
  constructor
  · rintro ⟨words, more, rfl, hwords, hmore⟩
    rw [Option.or_none] at hwords
    exact ⟨words, more, rfl, hwords, reads_many_any_iff.1 hmore⟩
  · rintro ⟨words, more, rfl, hwords, hmore⟩
    rw [← Option.or_none (o := more.head?)] at hwords
    exact ⟨words, more, rfl, hwords, reads_many_any_iff.2 hmore⟩

/-- Behind a front that is as short as it can be, the second half starts as far left as it can. -/
theorem exists_first_of_lazy {b : Pattern} {first second : String} {line : List Char} {m : Match}
    (hne : first ≠ second) (hb : b.isPlain = true) (hgroups : b.groupsNamed first = [])
    (h : (lineStart ++ group first (many false (one .any)) ++ group second b ++ lineEnd).find? line =
      some m) :
    ∃ s t, line = s ++ t ∧ m.textOf first = s ∧ m.group? second = some ⟨second, s.length, t⟩ ∧
      b.Reads s.getLast? t none ∧
      ∀ u v, s ++ t = u ++ v → u.length < s.length → ¬b.Reads u.getLast? v none := by
  obtain ⟨s, t, rfl, hfirst, hsecond, -, hreads⟩ := exists_halves_of_find? hne rfl hb h
  refine ⟨s, t, rfl, hfirst, hsecond, hreads, fun u v hline hlt hearlier => ?_⟩
  obtain ⟨c, w, rfl⟩ := Text.exists_cons_of_length_lt hline hlt
  have hnone : (group second b).groupsNamed first = [] := by
    rw [groupsNamed, hgroups]
    simp [hne.symm]
  exact not_reads_of_lazy hnone rfl h hfirst hline (reads_append_lineEnd_iff.2 ⟨hearlier, rfl⟩)

end Pattern

namespace Rule

open Pattern

/-- The rules that discard statements, each with what such a statement starts with. -/
def openings : List (Rule × Pattern) :=
  [(alterTable, altersTable), (grant, changesPrivilege), (sessionSet, setsSession),
    (createIndex, createsIndex ++ boundary)]

/-- The rules that discard statements. -/
def discarding : List Rule := openings.map Prod.fst

/-- The line is cut in two where the first statement starts that `opening` is the beginning of. -/
structure Cuts (opening : Pattern) (line lead clause : List Char) : Prop where
  /-- Nothing of the line is lost. -/
  append_eq : lead ++ clause = line
  /-- Behind the cut, the first words of the statement come first. -/
  starts : ∃ words more, clause = words ++ more ∧ opening.Reads lead.getLast? words more.head?
  /-- No such statement starts further left. -/
  first : ∀ u v, line = u ++ v → u.length < lead.length →
    ¬(opening ++ restOfLine).Reads u.getLast? v none
  /-- The statement starts in code. -/
  isClosed : Literal.isClosed lead = true

variable {line lead clause : List Char} {edit : Edit} {opening : Pattern}

/-- The statement goes on up to the end of the line. -/
theorem Cuts.reads (h : Cuts opening line lead clause) (hclause : '\n' ∉ clause) :
    (opening ++ restOfLine).Reads lead.getLast? clause none := by
  obtain ⟨words, more, rfl, hwords⟩ := h.starts
  rw [List.mem_append, not_or] at hclause
  exact reads_append_restOfLine_iff.2 ⟨words, more, rfl, hwords, hclause.2⟩

/-- What a statement has to start with so that it does not start with white space. -/
structure IsWordFirst (opening : Pattern) : Prop where
  plain : opening.isPlain = true
  heads : opening.heads.all Side.isWord = true
  visible : opening.readsEmpty = false

theorem IsWordFirst.exists_cons (h : IsWordFirst opening) {before behind : Option Char}
    {words : List Char} (hreads : opening.Reads before words behind) :
    ∃ c rest, words = c :: rest ∧ Text.isWordChar c = true := by
  obtain ⟨c, rest, rfl⟩ : ∃ c rest, words = c :: rest := List.exists_cons_of_ne_nil (by
    rintro rfl
    exact not_reads_nil h.visible _ _ hreads)
  have hside := List.all_eq_true.1 h.heads _ (side_mem_heads hreads)
  rw [Side.isWord_of] at hside
  exact ⟨c, rest, rfl, by simpa using hside⟩

/-- Behind the white space that a line starts with, the whole line is discarded. -/
theorem exists_cut_of_discardIndented (hopening : IsWordFirst opening)
    (h : discardIndented opening line = some edit) :
    ∃ lead clause, edit = .cut lead clause ∧ Cuts opening line lead clause ∧
      Line.isBlank lead = true := by
  obtain ⟨m, hm, rfl⟩ := Option.map_eq_some_iff.1 h
  have hplain : (opening ++ restOfLine).isPlain = true :=
    (Bool.and_eq_true _ _).mpr ⟨hopening.plain, rfl⟩
  obtain ⟨lead, clause, rfl, hpre, hgroup, hblanks, hreads⟩ :=
    exists_halves_of_find? (a := blanks) (by decide) rfl hplain hm
  obtain ⟨words, more, rfl, hwords, -⟩ := reads_append_restOfLine_iff.1 hreads
  have hblank : ∀ c ∈ lead, Text.isBlank c = true := reads_star_one_iff.1 hblanks
  have hquote : '\'' ∉ lead := fun hmem => absurd (hblank _ hmem) (by decide)
  refine ⟨lead, words ++ more, ?_, ⟨rfl, ⟨words, more, rfl, hwords⟩, ?_,
    Literal.isClosed_of_not_mem hquote⟩, Line.isBlank_iff.2 hblank⟩
  · have hclause : m.textOf "clause" = words ++ more := by rw [Match.textOf, hgroup]; rfl
    rw [← hpre, ← hclause]
    rfl
  · -- further left there is only white space
    intro u v hline hlt hreads
    obtain ⟨words', more', rfl, hwords', -⟩ := reads_append_restOfLine_iff.1 hreads
    obtain ⟨c, rest, rfl, hc⟩ := hopening.exists_cons hwords'
    obtain ⟨d, front, rfl⟩ := Text.exists_cons_of_length_lt hline hlt
    rw [List.append_assoc] at hline
    obtain ⟨rfl, -⟩ := List.cons_eq_cons.1 (List.append_cancel_left hline)
    rw [Text.isWordChar_of_isBlank (hblank d (by simp))] at hc
    cases hc

/-- The statement that creates an index may stand behind other code, and the first one is found. -/
theorem exists_cut_of_createIndex {ctx : Context} (h : createIndex.edit? ctx line = some edit) :
    ∃ lead clause, edit = .cut lead clause ∧ Cuts (createsIndex ++ boundary) line lead clause := by
  obtain ⟨m, hm, h⟩ := Option.bind_eq_some_iff.1 h
  obtain ⟨lead, clause, rfl, hpre, hgroup, hreads, hfirst⟩ :=
    exists_first_of_lazy (by decide) rfl (by decide) hm
  obtain ⟨discarded, hdiscarded, h⟩ := Option.bind_eq_some_iff.1 h
  obtain rfl := Option.some.inj (hgroup.symm.trans hdiscarded)
  split at h
  · rename_i hcode
    obtain rfl := Option.some.inj h
    obtain ⟨words, more, hclause, hwords, -⟩ := reads_append_restOfLine_iff.1 hreads
    refine ⟨lead, clause, ?_, ⟨rfl, ⟨words, more, hclause, hwords⟩, hfirst, ?_⟩⟩
    · have hclause : m.textOf "clause" = clause := by rw [Match.textOf, hgroup]; rfl
      rw [← hpre, ← hclause]
      rfl
    · obtain ⟨c, rest, rfl⟩ := List.exists_cons_of_ne_nil (l := clause) (by
        rintro rfl
        simp [Literal.inCode] at hcode)
      exact (inCode_append_cons.1 hcode).2
  · cases h

/-- **The edit of a rule that discards statements cuts the line in two**, where the first of them starts.
Only an index may be created behind other code of the line. -/
theorem exists_cut_of_opening {rule : Rule} (hrule : (rule, opening) ∈ openings) {ctx : Context}
    (h : rule.edit? ctx line = some edit) :
    ∃ lead clause, edit = .cut lead clause ∧ Cuts opening line lead clause ∧
      (rule.id ≠ createIndex.id → Line.isBlank lead = true) := by
  simp only [openings, List.mem_cons, Prod.mk.injEq, List.not_mem_nil, or_false] at hrule
  rcases hrule with ⟨rfl, rfl⟩ | ⟨rfl, rfl⟩ | ⟨rfl, rfl⟩ | ⟨rfl, rfl⟩
  · obtain ⟨lead, clause, hedit, hcuts, hblank⟩ :=
      exists_cut_of_discardIndented ⟨rfl, by decide, by decide⟩ h
    exact ⟨lead, clause, hedit, hcuts, fun _ => hblank⟩
  · obtain ⟨lead, clause, hedit, hcuts, hblank⟩ :=
      exists_cut_of_discardIndented ⟨rfl, by decide, by decide⟩ h
    exact ⟨lead, clause, hedit, hcuts, fun _ => hblank⟩
  · rw [sessionSet] at h
    dsimp only at h
    split at h
    · obtain ⟨lead, clause, hedit, hcuts, hblank⟩ :=
        exists_cut_of_discardIndented ⟨rfl, by decide, by decide⟩ h
      exact ⟨lead, clause, hedit, hcuts, fun _ => hblank⟩
    · cases h
  · obtain ⟨lead, clause, hedit, hcuts⟩ := exists_cut_of_createIndex h
    exact ⟨lead, clause, hedit, hcuts, fun hid => absurd rfl hid⟩

theorem exists_cut_of_discarding {rule : Rule} (hrule : rule ∈ discarding) {ctx : Context}
    (h : rule.edit? ctx line = some edit) :
    ∃ lead clause, lead ++ clause = line ∧ edit = .cut lead clause ∧
      (rule.id ≠ createIndex.id → Line.isBlank lead = true) := by
  obtain ⟨⟨_, opening⟩, hopening, rfl⟩ := List.mem_map.1 hrule
  obtain ⟨lead, clause, hedit, hcuts, hblank⟩ := exists_cut_of_opening hopening h
  exact ⟨lead, clause, hcuts.append_eq, hedit, hblank⟩

end Rule

/-! ### Identifiers -/

namespace RuleSet

theorem nodup_ids_standard : standard.ids.Nodup := by
  decide +kernel

/-- The identifier of a rule tells it from all others. -/
theorem eq_of_id_eq {a b : Rule} (ha : a ∈ standard.all) (hb : b ∈ standard.all)
    (h : a.id = b.id) : a = b :=
  List.inj_on_of_nodup_map nodup_ids_standard ha hb h

theorem mem_standard_of_discarding {rule : Rule} (h : rule ∈ Rule.discarding) :
    rule ∈ standard.once := by
  simp only [Rule.discarding, Rule.openings, List.map_cons, List.map_nil, List.mem_cons,
    List.not_mem_nil, or_false] at h
  rcases h with rfl | rfl | rfl | rfl
  all_goals simp [standard]

end RuleSet

namespace Converter

variable {disabled : List String} {showRemarks : Bool} {ctx : Context} {code : List Char}
  {remark : Remark} {rule : Rule} {opening : Pattern}

/-- No repeated rule has the identifier of a rule that discards statements. -/
theorem mem_hits_oncePass_of_discarding (hrule : rule ∈ Rule.discarding)
    (h : rule.id ∈
      ((⟨.without disabled, showRemarks⟩ : Converter).applyRules ctx code remark).1.hits) :
    rule.id ∈ ((⟨.without disabled, showRemarks⟩ : Converter).oncePass ctx code remark).hits := by
  rw [applyRules_eq_ite] at h
  split at h
  · refine (List.mem_append.1 h).resolve_right fun hid => ?_
    obtain ⟨own, hown, hownId⟩ := List.mem_map.1 (Repetition.mem_ids_of_mem_hits hid)
    have hstandard : own ∈ RuleSet.standard.repeated := (List.mem_filter.1 hown).1
    have hdistinct : ∀ id ∈ Rule.discarding.map Rule.id,
        id ∉ RuleSet.standard.repeated.map Rule.id := by decide
    exact hdistinct _ (List.mem_map_of_mem hrule) (hownId ▸ List.mem_map_of_mem hstandard)
  · exact h

/-- **A discarded statement ends the pass**: the rules before it have made a line of the code, the
rule has cut that line in two, and no rule has seen what was left. -/
theorem exists_cut_of_hit (hrule : (rule, opening) ∈ Rule.openings)
    (h : rule.id ∈
      ((⟨.without disabled, showRemarks⟩ : Converter).applyRules ctx code remark).1.hits) :
    ∃ before after lead clause,
      (RuleSet.without disabled).once = before ++ rule :: after ∧
      Rule.Cuts opening (Pass.run ctx ⟨code, remark, [], .proceed, false⟩ before).line lead clause ∧
      (rule.id ≠ Rule.createIndex.id → Line.isBlank lead = true) ∧
      Line.isBlank clause = false ∧
      ((⟨.without disabled, showRemarks⟩ : Converter).applyRules ctx code remark).1 =
        (Pass.run ctx ⟨code, remark, [], .proceed, false⟩ before).apply rule
          (.cut lead clause) := by
  set c : Converter := ⟨.without disabled, showRemarks⟩
  have hdiscarding : rule ∈ Rule.discarding := List.mem_map_of_mem (f := Prod.fst) hrule
  obtain ⟨before, own, after, edit, hrules, hid, hedit, hlast⟩ :=
    Pass.exists_of_mem_hits (mem_hits_oncePass_of_discarding hdiscarding h) List.not_mem_nil
  have hmem : own ∈ (RuleSet.without disabled).all := by
    have hown : own ∈ (RuleSet.without disabled).once := hrules ▸ by simp
    exact List.mem_append_left _ hown
  obtain rfl : own = rule :=
    RuleSet.eq_of_id_eq (RuleSet.mem_standard_of_mem_without hmem)
      (List.mem_append_left _ (RuleSet.mem_standard_of_discarding hdiscarding)) hid
  obtain ⟨lead, clause, rfl, hcuts, hblank⟩ := Rule.exists_cut_of_opening hrule hedit
  have hpass := hlast (Edit.control_cut_ne_proceed lead clause)
  have hclause : Line.isBlank (Text.trim clause) = false :=
    (RuleSet.regular_of_mem_without hmem hedit).note_visible
  rw [Line.isBlank_trim] at hclause
  refine ⟨before, after, lead, clause, hrules, hcuts, hblank, hclause, ?_⟩
  rw [applyRules_eq_ite, if_neg]
  · exact hpass
  · have hcontrol : (c.oncePass ctx code remark).control = (Edit.cut lead clause).control :=
      congrArg Pass.control hpass
    rw [hcontrol]
    exact Edit.control_cut_ne_proceed lead clause

end Converter

end SqlDialect
