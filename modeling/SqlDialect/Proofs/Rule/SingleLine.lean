import SqlDialect.Proofs.Line.Paren
import SqlDialect.Proofs.Line.Place
import SqlDialect.Proofs.Rule.Discard
import SqlDialect.Proofs.Rule.FirstChange
import SqlDialect.Proofs.Rule.PlusSign
import SqlDialect.Proofs.Rule.PriorPeriod
import SqlDialect.Rule.Catalogue

/-!
# Edits that stay on their line

No rule breaks a line: where neither the line nor the name of the document has a line feed, neither the
new line nor the note has one (`RuleSet.singleLine_of_mem_standard`).

What a rule writes is its own text, text of the line, or the name of the document.  The shapes of rules
have one lemma each; a rule then says of its own text that it has no line feed.
-/

namespace SqlDialect

namespace Line

theorem subset_of_mem_splitArgsFrom {depth : Nat} {open? : Option Char} {args arg : List Char}
    (h : arg ∈ splitArgsFrom depth open? args) : arg ⊆ args := by
  induction args generalizing depth open? arg with
  | nil => exact List.mem_singleton.1 h ▸ List.Subset.refl _
  | cons c rest ih =>
    cases hc : separates depth open? c with
    | true =>
      rw [splitArgsFrom_of_separates hc] at h
      rcases List.mem_cons.1 h with rfl | h
      · exact List.nil_subset _
      · exact List.subset_cons_of_subset c (ih h)
    | false =>
      obtain ⟨first, more, hrest, hcut⟩ := exists_splitArgsFrom hc rest
      rw [hcut] at h
      rcases List.mem_cons.1 h with rfl | h
      · exact List.cons_subset_cons c (ih (hrest ▸ List.mem_cons_self))
      · exact List.subset_cons_of_subset c (ih (hrest ▸ List.mem_cons_of_mem _ h))

theorem subset_of_mem_splitArgs {args arg : List Char} (h : arg ∈ splitArgs args) : arg ⊆ args :=
  subset_of_mem_splitArgsFrom h

end Line

namespace Literal

/-- Changed code brings a character into a line only where it brings it into a stretch of code. -/
theorem not_mem_mapCode {f : List Char → List Char} {line : List Char} {c : Char} (hc : c ≠ '\'')
    (hline : c ∉ line) (hf : ∀ code, c ∉ code → c ∉ f code) : c ∉ mapCode f line := by
  intro h
  have hpieces : ∀ piece ∈ pieces line, c ∉ piece := by
    intro piece hpiece hmem
    have := Literal.subset_joinWith ['\''] hpiece hmem
    rw [joinWith_pieces] at this
    exact hline this
  obtain ⟨piece, hpiece, hmem⟩ := (Literal.mem_joinWith h).resolve_left (by simpa using hc)
  refine not_mem_of_mem_mapEveryOther hpieces (fun piece hpiece => ?_) piece hpiece hmem
  rw [changed]
  split
  · exact List.not_mem_nil
  · exact hf piece (hpieces piece (mem_of_mem_everyOther hpiece))

theorem subset_of_mem_codePieces {line code : List Char} (h : code ∈ codePieces line) :
    code ⊆ line := by
  have hpiece := mem_of_mem_everyOther (List.mem_filter.1 h).1
  have := Literal.subset_joinWith ['\''] hpiece
  rwa [joinWith_pieces] at this

end Literal

/-! ### Matches and edits without line feeds -/

/-- Neither the match nor any of its groups has a line feed. -/
structure Match.SingleLine (m : Match) : Prop where
  text : '\n' ∉ m.text
  textOf : ∀ name, '\n' ∉ m.textOf name

/-- Neither the new line nor the note has a line feed. -/
structure Edit.SingleLine (edit : Edit) : Prop where
  line : '\n' ∉ edit.line
  note : '\n' ∉ edit.note

/-- The rule makes a single line of a single line, as long as the name of the document is one. -/
def Rule.SingleLine (rule : Rule) : Prop :=
  ∀ {ctx : Context} {line : List Char} {edit : Edit}, '\n' ∉ line →
    (∀ name ∈ ctx.document, '\n' ∉ name.toList) → rule.edit? ctx line = some edit → edit.SingleLine

namespace Rule

open Pattern

variable {p : Pattern} {m : Match} {line code : List Char} {edit : Edit}

theorem singleLine_of_subset (hline : '\n' ∉ line) (htext : m.text ⊆ line)
    (hgroups : ∀ g ∈ m.groups, g.text ⊆ line) : m.SingleLine where
  text h := hline (htext h)
  textOf name := by
    rw [Match.textOf, Match.group?]
    cases hfind : m.groups.find? (·.name == name) with
    | none => exact List.not_mem_nil
    | some g => exact fun h => hline (hgroups g (List.mem_of_find?_eq_some hfind) h)

theorem singleLine_of_mem_matchesIn (hline : '\n' ∉ line) (h : m ∈ p.matchesIn line) :
    m.SingleLine :=
  singleLine_of_subset hline (subset_of_mem_matchesIn h).1 (subset_of_mem_matchesIn h).2

theorem singleLine_of_find? (hline : '\n' ∉ line) (h : p.find? line = some m) : m.SingleLine := by
  obtain ⟨place, a, hspans, hmatch⟩ := exists_place_of_find? h
  obtain ⟨htext, hgroups⟩ := subset_of_matchAt hmatch
  have hrest : place.rest ⊆ line := by
    have hline : line = a ++ place.rest := hspans.rest_eq
    rw [hline]
    exact List.subset_append_right a _
  exact singleLine_of_subset hline (List.Subset.trans htext hrest)
    fun g hg => List.Subset.trans (hgroups g hg) hrest

theorem not_mem_trim {text : List Char} (h : '\n' ∉ text) : '\n' ∉ Text.trim text :=
  fun hmem => h (Text.trim_subset text hmem)

theorem not_mem_replaceIn_of_singleLine {f : Match → List Char} (hline : '\n' ∉ line)
    (hf : ∀ m, m.SingleLine → '\n' ∉ f m) : '\n' ∉ p.replaceIn f line := by
  intro h
  obtain ⟨m, hm, hmem⟩ := (mem_replaceIn h).resolve_left hline
  exact hf m (singleLine_of_mem_matchesIn hline hm) hmem

/-! ### Shapes of rules -/

theorem substituteSome_singleLine {f : Match → Option (List Char)} (hline : '\n' ∉ line)
    (hf : ∀ m text, m.SingleLine → f m = some text → '\n' ∉ text)
    (h : substituteSome p f line = some edit) : edit.SingleLine := by
  obtain ⟨⟨new, note⟩, hcode, rfl⟩ := Option.map_eq_some_iff.1 h
  constructor
  · obtain rfl := Literal.line_of_editCode hcode
    refine Literal.not_mem_mapCode (by decide) hline fun code hcode => ?_
    refine not_mem_replaceIn_of_singleLine hcode fun m hm => ?_
    cases htext : f m with
    | none => exact hm.text
    | some text => exact hf m text hm htext
  · rw [Literal.editCode] at hcode
    split at hcode
    · cases hcode
    · rename_i first rest hfirst
      obtain ⟨piece, hpiece, haccepted⟩ := List.mem_flatMap.1 (hfirst ▸ List.mem_cons_self)
      have hpiece : '\n' ∉ piece := fun h => hline (Literal.subset_of_mem_codePieces hpiece h)
      have hm := singleLine_of_mem_matchesIn hpiece (List.mem_filter.1 haccepted).1
      obtain rfl : Text.trim first.text = note := congrArg Prod.snd (Option.some.inj hcode)
      exact not_mem_trim hm.text

theorem substitute_singleLine {f : Match → List Char} (hline : '\n' ∉ line)
    (hf : ∀ m, m.SingleLine → '\n' ∉ f m) (h : substitute p f line = some edit) :
    edit.SingleLine :=
  substituteSome_singleLine (f := fun m => some (f m)) hline
    (fun m _ hm htext => Option.some.inj htext ▸ hf m hm) h

theorem replaceAnywhere_singleLine {f note : Match → List Char} (hline : '\n' ∉ line)
    (hf : ∀ m, m.SingleLine → '\n' ∉ f m) (hnote : ∀ m, m.SingleLine → '\n' ∉ note m)
    (h : replaceAnywhere p f note line = some edit) : edit.SingleLine := by
  obtain ⟨m, hm, rfl⟩ := Option.map_eq_some_iff.1 h
  exact ⟨not_mem_replaceIn_of_singleLine hline hf, hnote m (singleLine_of_find? hline hm)⟩

theorem replaceFirst_singleLine {f : Match → Option (List Char)} (hline : '\n' ∉ line)
    (hf : ∀ m text, m.SingleLine → f m = some text → '\n' ∉ text)
    (h : replaceFirst p f line = some edit) : edit.SingleLine := by
  obtain ⟨a, m, b, new, rfl, -, -, hm, -, hnew, rfl, -⟩ := exists_mem_of_replaceFirst h
  have hmatch := singleLine_of_mem_matchesIn hline hm
  refine ⟨?_, not_mem_trim hmatch.text⟩
  simp only [List.mem_append, not_or] at hline
  simp [Edit.changed, hline.1, hline.2.2, hf m new hmatch hnew]

end Rule

namespace CallVisit

/-- Neither the line nor what has been noted of its calls has a line feed. -/
structure SingleLine (seen : CallVisit) : Prop where
  line : '\n' ∉ seen.line
  noted : ∀ text, seen.note = some text ∨ seen.flagged = some text → '\n' ∉ text

variable {f : Call → CallEdit} {seen : CallVisit}

theorem visit_singleLine
    (hf : ∀ call new stop, '\n' ∉ call.line → f call = .replace new stop → '\n' ∉ new)
    (start opening : Nat) (h : seen.SingleLine) : (seen.visit f start opening).SingleLine := by
  rw [visit]
  split
  · exact h
  · rename_i closing _
    have htext : '\n' ∉ Text.trim (Call.text ⟨seen.line, start, opening, closing⟩) :=
      Rule.not_mem_trim fun hmem => h.line (List.mem_of_mem_take (List.mem_of_mem_drop hmem))
    dsimp only
    split
    · exact h
    · refine ⟨h.line, ?_⟩
      rintro text (hnote | hflagged)
      · exact h.noted text (.inl hnote)
      · rcases Option.or_eq_some_iff.1 hflagged with hflagged | ⟨-, hflagged⟩
        · exact h.noted text (.inr hflagged)
        · exact Option.some.inj hflagged ▸ htext
    · rename_i new stop hnew
      constructor
      · have hbefore : '\n' ∉ seen.line.take start := fun hmem => h.line (List.mem_of_mem_take hmem)
        have hbehind : '\n' ∉ seen.line.drop stop := fun hmem => h.line (List.mem_of_mem_drop hmem)
        simp [Call.before, hbefore, hbehind, hf _ _ _ h.line hnew]
      · rintro text (hnote | hflagged)
        · exact Option.some.inj hnote ▸ htext
        · exact h.noted text (.inr hflagged)

theorem run_singleLine {p : Pattern} {line : List Char} (hline : '\n' ∉ line)
    (hf : ∀ call new stop, '\n' ∉ call.line → f call = .replace new stop → '\n' ∉ new) :
    (run p f line).SingleLine := by
  rw [run]
  generalize ((p.matchesIn line).filter fun m => Literal.inCode line m.start) = calls
  induction calls with
  | nil => exact ⟨hline, by rintro text (h | h) <;> cases h⟩
  | cons m calls ih => exact visit_singleLine hf _ _ ih

end CallVisit

namespace Rule

open Pattern

variable {p : Pattern} {rule : Rule}

theorem editCalls_singleLine {f : Call → CallEdit} {line : List Char} {edit : Edit}
    (hline : '\n' ∉ line)
    (hf : ∀ call new stop, '\n' ∉ call.line → f call = .replace new stop → '\n' ∉ new)
    (h : editCalls p f line = some edit) : edit.SingleLine := by
  obtain ⟨note, hnote, rfl⟩ := Option.map_eq_some_iff.1 h
  have hrun := CallVisit.run_singleLine (p := p) hline hf
  exact ⟨hrun.line, hrun.noted note (.inl hnote)⟩

theorem singleLine_of_substitute {f : Match → List Char}
    (h : ∀ ctx line, rule.edit? ctx line = substitute p f line)
    (hf : ∀ m, m.SingleLine → '\n' ∉ f m) : rule.SingleLine :=
  fun hline _ hedit => substitute_singleLine hline hf (h _ _ ▸ hedit)

theorem singleLine_of_constant {text : List Char}
    (h : ∀ ctx line, rule.edit? ctx line = substitute p (fun _ => text) line)
    (htext : '\n' ∉ text) : rule.SingleLine :=
  singleLine_of_substitute h fun _ _ => htext

theorem singleLine_of_substituteSome {f : Match → Option (List Char)}
    (h : ∀ ctx line, rule.edit? ctx line = substituteSome p f line)
    (hf : ∀ m text, m.SingleLine → f m = some text → '\n' ∉ text) : rule.SingleLine :=
  fun hline _ hedit => substituteSome_singleLine hline hf (h _ _ ▸ hedit)

theorem singleLine_of_replaceAnywhere {f note : Match → List Char}
    (h : ∀ ctx line, rule.edit? ctx line = replaceAnywhere p f note line)
    (hf : ∀ m, m.SingleLine → '\n' ∉ f m) (hnote : ∀ m, m.SingleLine → '\n' ∉ note m) :
    rule.SingleLine :=
  fun hline _ hedit => replaceAnywhere_singleLine hline hf hnote (h _ _ ▸ hedit)

/-- A rule that declines some lines makes single lines if it does so of the others. -/
theorem singleLine_of_guard {guard : Context → List Char → Bool} {f : List Char → Option Edit}
    (h : ∀ ctx line, rule.edit? ctx line = if guard ctx line then none else f line)
    (hf : ∀ line edit, '\n' ∉ line → f line = some edit → edit.SingleLine) : rule.SingleLine := by
  intro ctx line edit hline _ hedit
  rw [h] at hedit
  split at hedit
  · cases hedit
  · exact hf line edit hline hedit

theorem singleLine_of_discarding (hrule : rule ∈ discarding) : rule.SingleLine := by
  intro ctx line edit hline _ hedit
  obtain ⟨lead, clause, rfl, rfl, -⟩ := exists_cut_of_discarding hrule hedit
  rw [List.mem_append, not_or] at hline
  exact ⟨hline.1, not_mem_trim hline.2⟩

/-! ### The rules -/

theorem charLengthUnit_singleLine : charLengthUnit.SingleLine :=
  singleLine_of_substitute (fun _ _ => rfl) fun m hm => by simp [hm.textOf]

theorem deleteFrom_singleLine : deleteFrom.SingleLine := by
  intro ctx line edit hline _ h
  obtain ⟨m, hm, h⟩ := Option.bind_eq_some_iff.1 h
  have hmatch := singleLine_of_find? hline hm
  split at h
  · cases h
  · obtain rfl := Option.some.inj h
    refine ⟨?_, not_mem_trim (hmatch.textOf "lead")⟩
    have hbehind (n : Nat) : '\n' ∉ line.drop n := fun hmem => hline (List.mem_of_mem_drop hmem)
    simp [Edit.changed, hmatch.textOf, hbehind]

theorem unboundedFrame_singleLine : unboundedFrame.SingleLine := by
  refine singleLine_of_guard (fun _ _ => rfl) fun line edit hline h => ?_
  refine substitute_singleLine hline (fun m _ => ?_) h
  split
  · decide
  · exact List.not_mem_nil

theorem ownerTo_singleLine : ownerTo.SingleLine := by
  intro ctx line edit hline _ h
  obtain ⟨m, hm, h⟩ := Option.bind_eq_some_iff.1 h
  split at h
  · obtain rfl := Option.some.inj h
    exact ⟨fun hmem => hline (List.mem_of_mem_take hmem),
      not_mem_trim (singleLine_of_find? hline hm).text⟩
  · cases h

theorem createTable_singleLine : createTable.SingleLine :=
  singleLine_of_guard (fun _ _ => rfl) fun _ _ hline h =>
    substitute_singleLine hline (fun _ _ => by decide) h

theorem sortkeyBlock_singleLine : sortkeyBlock.SingleLine := by
  intro ctx line edit hline _ h
  obtain ⟨m, hm, h⟩ := Option.bind_eq_some_iff.1 h
  obtain ⟨clause, hclause, h⟩ := Option.bind_eq_some_iff.1 h
  have hmatch := singleLine_of_find? hline hm
  have htext : m.textOf "clause" = clause.text := by rw [Match.textOf, hclause]; rfl
  split at h
  · obtain rfl := Option.some.inj h
    exact ⟨hmatch.textOf "pre", not_mem_trim (htext ▸ hmatch.textOf "clause")⟩
  · cases h

theorem autoIncrement_singleLine : autoIncrement.SingleLine := by
  intro ctx line edit hline _ h
  rcases Option.or_eq_some_iff.1 h with h | ⟨-, h⟩
  · exact substitute_singleLine hline (fun _ _ => List.not_mem_nil) h
  · exact substitute_singleLine hline (fun _ _ => by decide) h

theorem decimalPrecision_singleLine : decimalPrecision.SingleLine := by
  refine singleLine_of_substituteSome (fun _ _ => rfl) fun m text hm h => ?_
  obtain ⟨precision, -, h⟩ := Option.bind_eq_some_iff.1 h
  split at h
  · cases h
  · obtain rfl := Option.some.inj h
    have hlargest : '\n' ∉ (toString maxPrecision).toList := by decide
    generalize (toString maxPrecision).toList = largest at hlargest
    simp [hm.textOf, hlargest]

theorem numericScale_singleLine : numericScale.SingleLine := by
  refine singleLine_of_substituteSome (fun _ _ => rfl) fun m text hm h => ?_
  obtain ⟨scale, -, h⟩ := Option.bind_eq_some_iff.1 h
  split at h
  · obtain rfl := Option.some.inj h
    decide
  · cases h

theorem truncTimestamp_singleLine : truncTimestamp.SingleLine := by
  refine singleLine_of_substitute (fun _ _ => rfl) ?_
  intro m hm
  have hvalue := not_mem_trim (hm.textOf "value")
  unfold dayOf
  rw [List.mem_append, List.mem_append, not_or, not_or]
  exact ⟨⟨by decide, hvalue⟩, by decide⟩

theorem mem_joinPieces {pieces : List (List Char)} {c : Char} (h : c ∈ joinPieces pieces) :
    c ∈ " || ".toList ∨ ∃ piece ∈ pieces, c ∈ piece := by
  induction pieces using joinPieces.induct with
  | case1 => cases h
  | case2 piece => exact .inr ⟨piece, List.mem_singleton_self _, h⟩
  | case3 piece rest hne ih =>
    rw [joinPieces_cons piece hne, List.mem_append, List.mem_append] at h
    rcases h with h | h | h
    · exact .inr ⟨piece, List.mem_cons_self, Text.trimEnd_subset piece h⟩
    · exact .inl h
    · exact (ih h).imp_right fun ⟨own, hown, h⟩ => ⟨own, List.mem_cons_of_mem _ hown, h⟩

theorem stringConcat_singleLine : stringConcat.SingleLine := by
  refine singleLine_of_guard (fun _ _ => rfl) fun line edit hline h => ?_
  have hpieces : ∀ piece ∈ cutAtJoins [] line, '\n' ∉ piece := fun piece hpiece hmem => by
    have := Literal.subset_joinWith ['+'] hpiece hmem
    rw [(isCut_cutAtJoins line).joinWith_eq] at this
    exact hline this
  split at h
  · rename_i first second rest hcut
    obtain rfl := Option.some.inj h
    refine ⟨fun hmem => ?_, by simp [Edit.changed]⟩
    obtain ⟨piece, hpiece, hfeed⟩ :=
      (mem_joinPieces (show '\n' ∈ joinPieces _ from hmem)).resolve_left (by decide)
    rw [hcut] at hpieces
    rcases List.mem_cons.1 hpiece with rfl | hpiece
    · exact hpieces piece List.mem_cons_self hfeed
    · obtain ⟨own, hown, rfl⟩ := List.mem_map.1 hpiece
      exact hpieces own (List.mem_cons_of_mem _ hown) (Text.trimStart_subset own hfeed)
  · cases h

theorem toUpper_eq_lineFeed_iff {c : Char} : c.toUpper = '\n' ↔ c = '\n' := by
  refine Text.toUpper_induction (motive := fun c d => d = '\n' ↔ c = '\n') ?_ ?_ c
  · decide
  · exact fun _ _ => Iff.rfl

theorem not_mem_map_toUpper {text : List Char} (h : '\n' ∉ text) :
    '\n' ∉ text.map Char.toUpper := by
  simpa [toUpper_eq_lineFeed_iff] using h

theorem viewSchema_singleLine : viewSchema.SingleLine := by
  intro ctx line edit hline hdocument h
  obtain ⟨document, hname, h⟩ := Option.bind_eq_some_iff.1 h
  obtain ⟨m, hm, h⟩ := Option.bind_eq_some_iff.1 h
  obtain rfl := Option.some.inj h
  have hmatch := singleLine_of_find? hline hm
  refine ⟨?_, hmatch.textOf "name"⟩
  have hschema := not_mem_map_toUpper (hdocument document hname)
  simp only [Edit.changed, List.mem_append, hmatch.textOf, hschema, false_or, or_false]
  decide

theorem qualifiedNameCase_singleLine : qualifiedNameCase.SingleLine := by
  refine singleLine_of_guard (fun _ _ => rfl) fun line edit hline h => ?_
  refine substituteSome_singleLine hline (fun m text hm htext => ?_) h
  obtain ⟨chain, hchain, htext⟩ := Option.bind_eq_some_iff.1 htext
  have hgroup : m.textOf "chain" = chain.text := by rw [Match.textOf, hchain]; rfl
  split at htext
  · obtain rfl := Option.some.inj htext
    exact not_mem_map_toUpper (hgroup ▸ hm.textOf "chain")
  · cases htext

theorem not_mem_similarToRegex {pattern : List Char} (h : '\n' ∉ pattern) :
    '\n' ∉ similarToRegex pattern := by
  intro hmem
  obtain ⟨c, hc, hmem⟩ := List.mem_flatMap.1 hmem
  split at hmem
  · exact absurd hmem (by decide)
  · split at hmem
    · exact absurd hmem (by decide)
    · split at hmem
      · exact absurd hmem (by decide)
      · exact h (List.mem_singleton.1 hmem ▸ hc)

theorem similarTo_singleLine : similarTo.SingleLine := by
  intro ctx line edit hline _ h
  rw [similarTo] at h
  dsimp only at h
  split at h
  · cases h
  · rename_i first rest hfirst
    obtain rfl := Option.some.inj h
    constructor
    · refine not_mem_replaceIn_of_singleLine hline fun m hm => ?_
      split
      · have hregex := not_mem_similarToRegex (hm.textOf "pattern")
        rw [regexpLike]
        split <;> simp [hm.textOf, hregex]
      · exact hm.text
    · have hmem := List.mem_filter.1 (hfirst ▸ List.mem_cons_self : first ∈ _)
      exact not_mem_trim (singleLine_of_mem_matchesIn hline hmem.1).text

theorem not_mem_of_call {call : Call} (h : '\n' ∉ call.line) :
    '\n' ∉ call.text ∧ '\n' ∉ call.args :=
  ⟨fun hmem => h (List.mem_of_mem_take (List.mem_of_mem_drop hmem)),
    fun hmem => h (List.mem_of_mem_take (List.mem_of_mem_drop hmem))⟩

theorem truncatedAverage_singleLine : truncatedAverage.SingleLine := by
  refine singleLine_of_guard (fun _ _ => rfl) fun line edit hline h => ?_
  refine editCalls_singleLine hline (fun call new stop hcall hnew => ?_) h
  rw [truncateAverage] at hnew
  split at hnew
  · cases hnew
  · obtain ⟨rfl, -⟩ := CallEdit.replace.inj hnew
    simp [(not_mem_of_call hcall).1]

theorem distinctListEdit_singleLine {call : Call} {new : List Char} {stop : Nat}
    (hcall : '\n' ∉ call.line) (h : distinctListEdit call = .replace new stop) : '\n' ∉ new := by
  rw [distinctListEdit] at h
  split at h
  · cases h
  · rename_i distinct _
    dsimp only at h
    split at h
    · cases h
    · split at h
      · cases h
      · obtain ⟨rfl, -⟩ := CallEdit.replace.inj h
        have hargs : '\n' ∉ call.args.drop distinct.stop := fun hmem =>
          (not_mem_of_call hcall).2 (List.mem_of_mem_drop hmem)
        have hgroup (a b : Nat) : '\n' ∉ (call.line.take a).drop b := fun hmem =>
          hcall (List.mem_of_mem_take (List.mem_of_mem_drop hmem))
        simp only [List.append_assoc, List.mem_append, not_or]
        refine ⟨by decide, not_mem_trim hargs, by decide, hgroup _ _, by decide, ?_, by decide⟩
        -- the separator is the second argument of the call, if there is one
        split
        · rename_i hsplit
          refine not_mem_trim fun hmem => hargs (Line.subset_of_mem_splitArgs ?_ hmem)
          rw [hsplit]
          simp
        · decide

theorem distinctList_singleLine : distinctList.SingleLine := by
  intro ctx line edit hline _ h
  have hrun := CallVisit.run_singleLine (p := callOf "LISTAGG") hline
    fun _ _ _ hcall hnew => distinctListEdit_singleLine hcall hnew
  rw [distinctList] at h
  dsimp only at h
  split at h
  · rename_i note hnote
    obtain rfl := Option.some.inj h
    exact ⟨hrun.line, hrun.noted note (.inl hnote)⟩
  · obtain ⟨call, hcall, rfl⟩ := Option.map_eq_some_iff.1 h
    refine ⟨hline, ?_⟩
    simp [Edit.changed, hrun.noted call (.inr hcall)]

theorem padSingleArgument_singleLine {call : Call} {new : List Char} {stop : Nat}
    (hcall : '\n' ∉ call.line) (h : padSingleArgument call = .replace new stop) : '\n' ∉ new := by
  rw [padSingleArgument] at h
  split at h
  · split at h
    · cases h
    · obtain ⟨rfl, -⟩ := CallEdit.replace.inj h
      rw [List.mem_append, not_or]
      exact ⟨fun hmem => hcall (List.mem_of_mem_take (List.mem_of_mem_drop hmem)), by decide⟩
  · cases h

theorem coalesce_singleLine : coalesce.SingleLine := fun hline _ h =>
  editCalls_singleLine hline (fun _ _ _ hcall hnew => padSingleArgument_singleLine hcall hnew) h

theorem nvl_singleLine : nvl.SingleLine :=
  singleLine_of_guard (fun _ _ => rfl) fun _ _ hline h =>
    editCalls_singleLine hline (fun _ _ _ hcall hnew => padSingleArgument_singleLine hcall hnew) h

theorem jsonArrayElement_singleLine : jsonArrayElement.SingleLine := by
  intro ctx line edit hline _ h
  refine editCalls_singleLine hline (fun call new stop hcall hnew => ?_) h
  rw [subscriptElement] at hnew
  split at hnew
  · rename_i json index rest hsplit
    obtain ⟨rfl, -⟩ := CallEdit.replace.inj hnew
    have harg : ∀ arg ∈ json :: index :: rest, '\n' ∉ Text.trim arg := by
      intro arg harg
      rw [← hsplit] at harg
      exact not_mem_trim fun hmem =>
        (not_mem_of_call hcall).2 (Line.subset_of_mem_splitArgs harg hmem)
    simp [harg json, harg index]
  · cases hnew

theorem danglingComma_singleLine : danglingComma.SingleLine := by
  intro ctx line edit hline _ h
  rw [danglingComma] at h
  dsimp only at h
  split at h
  · obtain rfl := Option.some.inj h
    exact ⟨fun hmem => hline ((List.takeWhile_prefix _).subset hmem), by simp [Edit.changed]⟩
  · cases h

theorem priorPeriod_singleLine : priorPeriod.SingleLine := by
  intro ctx line edit hline _ h
  refine replaceFirst_singleLine hline (fun m text hm htext => ?_) h
  obtain ⟨offset, -, htext⟩ := Option.bind_eq_some_iff.1 htext
  obtain rfl := Option.some.inj htext
  have hoffset : '\n' ∉ (toString offset).toList := by
    intro hmem
    rcases PeriodOffset.isDigit_of_mem_toString offset hmem with h | h
    · cases h
    · cases h
  have hcolumn := not_mem_trim (hm.textOf "column")
  generalize (toString offset).toList = number at hoffset
  simp [hm.textOf, hoffset, hcolumn]

theorem sysdate_singleLine : sysdate.SingleLine := by
  intro ctx line edit hline _ h
  refine replaceFirst_singleLine hline (fun m text _ htext => ?_) h
  split at htext
  · cases htext
  · obtain rfl := Option.some.inj htext
    decide

end Rule

namespace RuleSet

open Rule

theorem standard_once_singleLine : ∀ rule ∈ standard.once, rule.SingleLine := by
  simp only [standard, List.forall_mem_cons, List.not_mem_nil, IsEmpty.forall_iff, implies_true,
    and_true]
  exact ⟨
    charLengthUnit_singleLine,
    singleLine_of_constant (fun _ _ => rfl) (by decide), -- defaultSysdate
    singleLine_of_constant (fun _ _ => rfl) (by decide), -- nvarchar
    singleLine_of_constant (fun _ _ => rfl) (by decide), -- nchar
    singleLine_of_constant (fun _ _ => rfl) (by decide), -- dateAdd
    singleLine_of_constant (fun _ _ => rfl) (by decide), -- dateDiff
    singleLine_of_constant (fun _ _ => rfl) (by decide), -- datePart
    singleLine_of_constant (fun _ _ => rfl) (by decide), -- catalogQualifier
    singleLine_of_constant (fun _ _ => rfl) (by decide), -- ceiling
    singleLine_of_constant (fun _ _ => rfl) (by decide), -- now
    deleteFrom_singleLine,
    unboundedFrame_singleLine,
    singleLine_of_discarding (by simp [discarding, openings]), -- alterTable
    ownerTo_singleLine,
    singleLine_of_discarding (by simp [discarding, openings]), -- grant
    singleLine_of_constant (fun _ _ => rfl) (by decide), -- sizedFloat
    createTable_singleLine,
    singleLine_of_constant (fun _ _ => rfl) (by decide), -- distkey
    sortkeyBlock_singleLine,
    singleLine_of_constant (fun _ _ => rfl) (by decide), -- sortkey
    singleLine_of_constant (fun _ _ => rfl) (by decide), -- charset
    autoIncrement_singleLine,
    singleLine_of_constant (fun _ _ => rfl) (by decide), -- unsigned
    singleLine_of_replaceAnywhere (fun _ _ => rfl) (fun _ _ => by decide) fun _ hm =>
      hm.text, -- defaultZero
    singleLine_of_replaceAnywhere (fun _ _ => rfl) (fun _ hm => by simp [addCast, hm.textOf])
      fun _ hm => hm.textOf "clause", -- defaultZeroDate
    singleLine_of_replaceAnywhere (fun _ _ => rfl) (fun _ hm => by simp [addCast, hm.textOf])
      fun _ hm => hm.textOf "clause", -- defaultZeroTimestamp
    singleLine_of_replaceAnywhere (fun _ _ => rfl) (fun _ hm => by simp [withoutDefault, hm.textOf])
      fun _ hm => not_mem_trim (hm.textOf "default"), -- binaryDefault
    decimalPrecision_singleLine,
    singleLine_of_substitute (fun _ _ => rfl) fun _ hm => hm.textOf "type", -- scaledFloat
    singleLine_of_constant (fun _ _ => rfl) (by decide), -- longText
    singleLine_of_discarding (by simp [discarding, openings]), -- sessionSet
    singleLine_of_constant (fun _ _ => rfl) (by decide), -- encode
    singleLine_of_constant (fun _ _ => rfl) (by decide), -- diststyle
    singleLine_of_replaceAnywhere (fun _ _ => rfl) (fun _ _ => by decide) fun _ hm =>
      hm.text, -- nowLiteral
    singleLine_of_constant (fun _ _ => rfl) (by decide), -- paddedChar
    singleLine_of_constant (fun _ _ => rfl) (by decide), -- characterVarying
    singleLine_of_replaceAnywhere (fun _ _ => rfl) (fun _ hm => by simp [hm.textOf]) fun _ hm =>
      not_mem_trim hm.text, -- identity
    truncTimestamp_singleLine,
    singleLine_of_constant (fun _ _ => rfl) (by decide), -- intDisplayWidth
    singleLine_of_constant (fun _ _ => rfl) (by decide), -- integer
    numericScale_singleLine,
    singleLine_of_constant (fun _ _ => rfl) (by decide), -- arrayLiteral
    stringConcat_singleLine,
    viewSchema_singleLine,
    qualifiedNameCase_singleLine,
    similarTo_singleLine,
    singleLine_of_replaceAnywhere (fun _ _ => rfl) (fun _ _ => by decide) fun _ hm =>
      hm.text, -- japanTimeZone
    truncatedAverage_singleLine,
    distinctList_singleLine,
    singleLine_of_discarding (by simp [discarding, openings]), -- createIndex
    coalesce_singleLine,
    nvl_singleLine,
    jsonArrayElement_singleLine,
    singleLine_of_substitute (fun _ _ => rfl) fun _ hm => by simp [hm.textOf], -- json
    danglingComma_singleLine⟩

/-- **No rule of the catalogue breaks a line.** -/
theorem singleLine_of_mem_standard {rule : Rule} (h : rule ∈ standard.all) : rule.SingleLine := by
  rcases List.mem_append.1 h with h | h
  · exact standard_once_singleLine rule h
  · rcases List.mem_pair.1 h with rfl | rfl
    · exact priorPeriod_singleLine
    · exact sysdate_singleLine

end RuleSet

end SqlDialect
