import SqlDialect.Proofs.Line.Scan
import SqlDialect.Proofs.Pattern.Stretch
import SqlDialect.Rule.Catalogue

/-!
# The edits of the catalogue

Whatever rule of the catalogue changes a line, its note shows something, and a rule that asks for
the following lines to be suppressed asks so up to the end of the statement
(`RuleSet.regular_of_mem_without`).

The rules come in a few shapes, with one lemma for each: replacing in code
(`Rule.substituteSome_regular`), replacing anywhere (`Rule.replaceAnywhere_regular`), replacing
the first match (`Rule.replaceFirst_regular`), editing calls (`Rule.editCalls_regular`) and
discarding a statement (`Rule.discardStatement_regular`).  The rules of the catalogue differ in
their patterns, about which `Pattern.isVisible` decides.
-/

namespace SqlDialect

/-- The note of the edit shows something, and the lines that the edit suppresses end with the
statement. -/
structure Edit.Regular (edit : Edit) : Prop where
  note_visible : Line.isBlank edit.note = false
  terminator_eq : ∀ {t : Terminator}, edit.control = .suppress t → t = .statement

/-- All edits of the rule are regular. -/
def Rule.Regular (rule : Rule) : Prop :=
  ∀ {ctx : Context} {line : List Char} {edit : Edit}, rule.edit? ctx line = some edit →
    edit.Regular

namespace Rule

open Pattern

variable {p : Pattern} {line : List Char} {edit : Edit}

theorem changed_regular {note : List Char} (h : Line.isBlank note = false) :
    (Edit.changed line note).Regular where
  note_visible := h
  terminator_eq := by intro t ht; cases ht

theorem visible_text (hp : p.isVisible = true) {m : Match} (hm : p.Matches m) :
    Line.isBlank m.text = false :=
  visible_of_stretch hp hm.stretch

/-- The patterns inside the groups of that name match visible text only. -/
def visibleGroup (name : String) (p : Pattern) : Bool :=
  (p.groupsNamed name).all Pattern.isVisible

theorem visible_textOf {name : String} (hbinds : p.binds name = true)
    (hp : visibleGroup name p = true) {m : Match} (hm : p.Matches m) :
    Line.isBlank (m.textOf name) = false := by
  obtain ⟨a, ha, hstretch⟩ := hm.stretch_textOf hbinds
  exact visible_of_stretch (List.all_eq_true.1 hp a ha) hstretch

/-! ### Replacing -/

theorem substituteSome_regular {f : Match → Option (List Char)} (hp : p.isVisible = true)
    (h : substituteSome p f line = some edit) : edit.Regular := by
  rw [substituteSome, Option.map_eq_some_iff] at h
  obtain ⟨⟨new, note⟩, hcode, rfl⟩ := h
  rw [Literal.editCode] at hcode
  split at hcode
  · cases hcode
  · rename_i first rest hfirst
    have hmem : first ∈ first :: rest := List.mem_cons_self
    rw [← hfirst] at hmem
    obtain ⟨piece, -, haccepted⟩ := List.mem_flatMap.1 hmem
    have hm := (matches_of_mem_matchesIn (List.mem_filter.1 haccepted).1).1
    obtain rfl : Text.trim first.text = note := congrArg Prod.snd (Option.some.inj hcode)
    exact changed_regular (by rw [Line.isBlank_trim, visible_text hp hm])

theorem substitute_regular {f : Match → List Char} (hp : p.isVisible = true)
    (h : substitute p f line = some edit) : edit.Regular :=
  substituteSome_regular (f := fun m => some (f m)) hp h

theorem replaceAnywhere_regular {f note : Match → List Char}
    (hnote : ∀ m, p.Matches m → Line.isBlank (note m) = false)
    (h : replaceAnywhere p f note line = some edit) : edit.Regular := by
  rw [replaceAnywhere, Option.map_eq_some_iff] at h
  obtain ⟨m, hm, rfl⟩ := h
  exact changed_regular (hnote m (matches_of_find? hm))

theorem replaceFirst_regular {f : Match → Option (List Char)} (hp : p.isVisible = true)
    (h : replaceFirst p f line = some edit) : edit.Regular := by
  rw [replaceFirst] at h
  obtain ⟨m, hm, h⟩ := List.exists_of_findSome?_eq_some h
  split at h
  · obtain ⟨new, -, rfl⟩ := Option.map_eq_some_iff.1 h
    have hmatch := (matches_of_mem_matchesIn hm).1
    exact changed_regular (by rw [Line.isBlank_trim, visible_text hp hmatch])
  · cases h

/-! ### Discarding -/

theorem discardStatement_regular {m : Match} (h : Line.isBlank (m.textOf "clause") = false) :
    (discardStatement m).Regular where
  note_visible := by rw [discardStatement, Line.isBlank_trim, h]
  terminator_eq := by
    intro t ht
    simp only [discardStatement] at ht
    split at ht
    · cases ht
    · exact (Control.suppress.inj ht).symm

theorem discard_regular (hbinds : p.binds "clause" = true)
    (hp : visibleGroup "clause" p = true)
    (h : (p.find? line).map discardStatement = some edit) : edit.Regular := by
  obtain ⟨m, hm, rfl⟩ := Option.map_eq_some_iff.1 h
  exact discardStatement_regular (visible_textOf hbinds hp (matches_of_find? hm))

end Rule

/-! ### Editing calls -/

namespace CallVisit

open Rule

/-- What has been noted of the calls of a line shows something. -/
def Regular (seen : CallVisit) : Prop :=
  ∀ text, seen.note = some text ∨ seen.flagged = some text → Line.isBlank text = false

/-- The text of a call holds its opening parenthesis. -/
theorem isBlank_text {line : List Char} {start opening closing : Nat} (hle : start ≤ opening)
    (h : Line.matchingParen line opening = some closing) :
    Line.isBlank (Call.text ⟨line, start, opening, closing⟩) = false := by
  obtain ⟨rest, hrest⟩ := Line.drop_of_matchingParen h
  have hlt := Line.lt_of_matchingParen h
  have hchar : (line.drop opening).head? = some '(' := by rw [hrest]; rfl
  refine Line.isBlank_eq_false_iff.2 ⟨'(', List.mem_iff_getElem?.2 ⟨opening - start, ?_⟩, rfl⟩
  simp only [Call.text]
  rw [List.getElem?_drop, List.getElem?_take, if_pos (by omega), Nat.add_sub_cancel' hle,
    ← List.head?_drop]
  exact hchar

theorem visit_regular {edit : Call → CallEdit} {start opening : Nat} {seen : CallVisit}
    (hle : start ≤ opening) (h : seen.Regular) : (seen.visit edit start opening).Regular := by
  rw [visit]
  split
  · exact h
  · rename_i closing hclosing
    have visible : Line.isBlank (Text.trim (Call.text ⟨seen.line, start, opening, closing⟩)) =
        false := by
      rw [Line.isBlank_trim]
      exact isBlank_text hle hclosing
    dsimp only
    split
    · exact h
    · rintro text (hnote | hflagged)
      · exact h text (.inl hnote)
      · rcases Option.or_eq_some_iff.1 hflagged with hflagged | ⟨-, hflagged⟩
        · exact h text (.inr hflagged)
        · exact Option.some.inj hflagged ▸ visible
    · rintro text (hnote | hflagged)
      · exact Option.some.inj hnote ▸ visible
      · exact h text (.inr hflagged)

theorem run_regular (p : Pattern) (edit : Call → CallEdit) (line : List Char) :
    (run p edit line).Regular := by
  have within : ∀ m ∈ (p.matchesIn line).filter fun m => Literal.inCode line m.start,
      m.start ≤ m.stop - 1 := by
    intro m hm
    have hne := (Pattern.matches_of_mem_matchesIn (List.mem_filter.1 hm).1).2
    have := List.length_pos_of_ne_nil hne
    rw [Match.stop]
    omega
  rw [run]
  generalize ((p.matchesIn line).filter fun m => Literal.inCode line m.start) = calls at within ⊢
  induction calls with
  | nil => rintro text (h | h) <;> cases h
  | cons m calls ih =>
    exact visit_regular (within m List.mem_cons_self)
      (ih fun m' hm' => within m' (List.mem_cons_of_mem _ hm'))

end CallVisit

theorem Rule.editCalls_regular {p : Pattern} {f : Call → CallEdit} {line : List Char} {edit : Edit}
    (h : editCalls p f line = some edit) : edit.Regular := by
  obtain ⟨note, hnote, rfl⟩ := Option.map_eq_some_iff.1 h
  exact changed_regular (CallVisit.run_regular p f line note (.inl hnote))

/-! ### The rules of the catalogue -/

namespace Rule

open Pattern

theorem regular_of_substitute {rule : Rule} {p : Pattern} {f : Match → List Char}
    (h : ∀ ctx line, rule.edit? ctx line = substitute p f line) (hp : p.isVisible = true) :
    rule.Regular :=
  fun hedit => substitute_regular hp (h _ _ ▸ hedit)

theorem regular_of_substituteSome {rule : Rule} {p : Pattern} {f : Match → Option (List Char)}
    (h : ∀ ctx line, rule.edit? ctx line = substituteSome p f line) (hp : p.isVisible = true) :
    rule.Regular :=
  fun hedit => substituteSome_regular hp (h _ _ ▸ hedit)

theorem regular_of_replaceAnywhere {rule : Rule} {p : Pattern} {f : Match → List Char}
    (h : ∀ ctx line, rule.edit? ctx line = replaceAnywhere p f Match.text line)
    (hp : p.isVisible = true) : rule.Regular :=
  fun hedit => replaceAnywhere_regular (fun _ hm => visible_text hp hm) (h _ _ ▸ hedit)

theorem regular_of_editCalls {rule : Rule} {p : Pattern} {f : Call → CallEdit}
    (h : ∀ ctx line, rule.edit? ctx line = editCalls p f line) : rule.Regular :=
  fun hedit => editCalls_regular (h _ _ ▸ hedit)

/-- A rule that declines some lines is regular if it is on the others. -/
theorem regular_of_guard {rule : Rule} {guard : Context → List Char → Bool}
    {f : List Char → Option Edit}
    (h : ∀ ctx line, rule.edit? ctx line = if guard ctx line then none else f line)
    (hf : ∀ {line edit}, f line = some edit → edit.Regular) : rule.Regular := by
  intro ctx line edit hedit
  rw [h] at hedit
  split at hedit
  · cases hedit
  · exact hf hedit

theorem alterTable_regular : alterTable.Regular :=
  fun h => discard_regular (by decide) (by decide) h

theorem grant_regular : grant.Regular :=
  fun h => discard_regular (by decide) (by decide) h

theorem sessionSet_regular : sessionSet.Regular := by
  intro ctx line edit h
  rw [sessionSet] at h
  dsimp only at h
  split at h
  · exact discard_regular (by decide) (by decide) h
  · cases h

theorem createIndex_regular : createIndex.Regular := by
  intro ctx line edit h
  obtain ⟨m, hm, h⟩ := Option.bind_eq_some_iff.1 h
  obtain ⟨clause, -, h⟩ := Option.bind_eq_some_iff.1 h
  split at h
  · obtain rfl := Option.some.inj h
    exact discardStatement_regular
      (visible_textOf (by decide) (by decide) (matches_of_find? hm))
  · cases h

theorem sortkeyBlock_regular : sortkeyBlock.Regular := by
  intro ctx line edit h
  obtain ⟨m, hm, h⟩ := Option.bind_eq_some_iff.1 h
  obtain ⟨clause, hclause, h⟩ := Option.bind_eq_some_iff.1 h
  split at h
  · obtain rfl := Option.some.inj h
    obtain ⟨a, ha, hstretch⟩ := (matches_of_find? hm).stretch_of_group? hclause
    have visible : a.isVisible = true :=
      List.all_eq_true.1 (show visibleGroup "clause" _ = true by decide) a ha
    refine ⟨?_, fun ht => (Control.suppress.inj ht).symm⟩
    rw [Line.isBlank_trim]
    exact visible_of_stretch visible hstretch
  · cases h

theorem ownerTo_regular : ownerTo.Regular := by
  intro ctx line edit h
  obtain ⟨m, hm, h⟩ := Option.bind_eq_some_iff.1 h
  split at h
  · obtain rfl := Option.some.inj h
    exact changed_regular (by
      rw [Line.isBlank_trim]
      exact visible_text (by decide) (matches_of_find? hm))
  · cases h

theorem viewSchema_regular : viewSchema.Regular := by
  intro ctx line edit h
  obtain ⟨document, -, h⟩ := Option.bind_eq_some_iff.1 h
  obtain ⟨m, hm, h⟩ := Option.bind_eq_some_iff.1 h
  obtain rfl := Option.some.inj h
  exact changed_regular (visible_textOf (by decide) (by decide) (matches_of_find? hm))

theorem deleteFrom_regular : deleteFrom.Regular := by
  intro ctx line edit h
  obtain ⟨m, hm, h⟩ := Option.bind_eq_some_iff.1 h
  split at h
  · cases h
  · obtain rfl := Option.some.inj h
    exact changed_regular (by
      rw [Line.isBlank_trim]
      exact visible_textOf (by decide) (by decide) (matches_of_find? hm))

theorem autoIncrement_regular : autoIncrement.Regular := by
  intro ctx line edit h
  rcases Option.or_eq_some_iff.1 h with h | ⟨-, h⟩
  · exact substitute_regular (by decide) h
  · exact substitute_regular (by decide) h

theorem defaultZeroDate_regular : defaultZeroDate.Regular :=
  fun h => replaceAnywhere_regular (fun _ hm => visible_textOf (by decide) (by decide) hm) h

theorem defaultZeroTimestamp_regular : defaultZeroTimestamp.Regular :=
  fun h => replaceAnywhere_regular (fun _ hm => visible_textOf (by decide) (by decide) hm) h

theorem binaryDefault_regular : binaryDefault.Regular :=
  fun h => replaceAnywhere_regular (fun _ hm => by
    rw [Line.isBlank_trim]
    exact visible_textOf (by decide) (by decide) hm) h

theorem identity_regular : identity.Regular :=
  fun h => replaceAnywhere_regular (fun _ hm => by
    rw [Line.isBlank_trim]
    exact visible_text (by decide) hm) h

theorem similarTo_regular : similarTo.Regular := by
  intro ctx line edit h
  rw [similarTo] at h
  dsimp only at h
  split at h
  · cases h
  · rename_i first rest hfirst
    have hmem : first ∈ first :: rest := List.mem_cons_self
    rw [← hfirst] at hmem
    have hm := (matches_of_mem_matchesIn (List.mem_filter.1 hmem).1).1
    obtain rfl := Option.some.inj h
    exact changed_regular (by
      rw [Line.isBlank_trim]
      exact visible_text (by decide +kernel) hm)

theorem stringConcat_regular : stringConcat.Regular := by
  refine regular_of_guard (fun _ _ => rfl) fun {line edit} h => ?_
  split at h
  · obtain rfl := Option.some.inj h
    exact changed_regular rfl
  · cases h

theorem danglingComma_regular : danglingComma.Regular := by
  intro ctx line edit h
  rw [danglingComma] at h
  dsimp only at h
  split at h
  · obtain rfl := Option.some.inj h
    exact changed_regular rfl
  · cases h

theorem distinctList_regular : distinctList.Regular := by
  intro ctx line edit h
  have seen := CallVisit.run_regular (callOf "LISTAGG") distinctListEdit line
  rw [distinctList] at h
  dsimp only at h
  split at h
  · rename_i note hnote
    obtain rfl := Option.some.inj h
    exact changed_regular (seen note (.inl hnote))
  · obtain ⟨call, -, rfl⟩ := Option.map_eq_some_iff.1 h
    exact changed_regular (by rw [Line.isBlank_append, Line.isBlank_append]; rfl)

end Rule

namespace RuleSet

open Rule

theorem standard_once_regular : ∀ rule ∈ standard.once, rule.Regular := by
  simp only [standard, List.forall_mem_cons, List.not_mem_nil, IsEmpty.forall_iff, implies_true,
    and_true]
  exact ⟨
    regular_of_substitute (fun _ _ => rfl) (by decide), -- charLengthUnit
    regular_of_substitute (fun _ _ => rfl) (by decide), -- defaultSysdate
    regular_of_substitute (fun _ _ => rfl) (by decide), -- nvarchar
    regular_of_substitute (fun _ _ => rfl) (by decide), -- nchar
    regular_of_substitute (fun _ _ => rfl) (by decide), -- dateAdd
    regular_of_substitute (fun _ _ => rfl) (by decide), -- dateDiff
    regular_of_substitute (fun _ _ => rfl) (by decide), -- datePart
    regular_of_substitute (fun _ _ => rfl) (by decide), -- catalogQualifier
    regular_of_substitute (fun _ _ => rfl) (by decide), -- ceiling
    regular_of_substitute (fun _ _ => rfl) (by decide), -- now
    deleteFrom_regular,
    regular_of_guard (fun _ _ => rfl) (substitute_regular (by decide)), -- unboundedFrame
    alterTable_regular,
    ownerTo_regular,
    grant_regular,
    regular_of_substitute (fun _ _ => rfl) (by decide), -- sizedFloat
    regular_of_guard (fun _ _ => rfl) (substitute_regular (by decide)), -- createTable
    regular_of_substitute (fun _ _ => rfl) (by decide), -- distkey
    sortkeyBlock_regular,
    regular_of_substitute (fun _ _ => rfl) (by decide), -- sortkey
    regular_of_substitute (fun _ _ => rfl) (by decide), -- charset
    autoIncrement_regular,
    regular_of_substitute (fun _ _ => rfl) (by decide), -- unsigned
    regular_of_replaceAnywhere (fun _ _ => rfl) (by decide), -- defaultZero
    defaultZeroDate_regular,
    defaultZeroTimestamp_regular,
    binaryDefault_regular,
    regular_of_substituteSome (fun _ _ => rfl) (by decide), -- decimalPrecision
    regular_of_substitute (fun _ _ => rfl) (by decide), -- scaledFloat
    regular_of_substitute (fun _ _ => rfl) (by decide), -- longText
    sessionSet_regular,
    regular_of_substitute (fun _ _ => rfl) (by decide), -- encode
    regular_of_substitute (fun _ _ => rfl) (by decide), -- diststyle
    regular_of_replaceAnywhere (fun _ _ => rfl) (by decide), -- nowLiteral
    regular_of_substitute (fun _ _ => rfl) (by decide), -- paddedChar
    regular_of_substitute (fun _ _ => rfl) (by decide), -- characterVarying
    identity_regular,
    regular_of_substitute (fun _ _ => rfl) (by decide), -- truncTimestamp
    regular_of_substitute (fun _ _ => rfl) (by decide), -- intDisplayWidth
    regular_of_substitute (fun _ _ => rfl) (by decide), -- integer
    regular_of_substituteSome (fun _ _ => rfl) (by decide), -- numericScale
    regular_of_substitute (fun _ _ => rfl) (by decide), -- arrayLiteral
    stringConcat_regular,
    viewSchema_regular,
    regular_of_guard (fun _ _ => rfl) (substituteSome_regular (by decide)), -- qualifiedNameCase
    similarTo_regular,
    regular_of_replaceAnywhere (fun _ _ => rfl) (by decide), -- japanTimeZone
    regular_of_guard (fun _ _ => rfl) editCalls_regular, -- truncatedAverage
    distinctList_regular,
    createIndex_regular,
    regular_of_editCalls fun _ _ => rfl, -- coalesce
    regular_of_guard (fun _ _ => rfl) editCalls_regular, -- nvl
    regular_of_editCalls fun _ _ => rfl, -- jsonArrayElement
    regular_of_substitute (fun _ _ => rfl) (by decide), -- json
    danglingComma_regular⟩

theorem standard_repeated_regular : ∀ rule ∈ standard.repeated, rule.Regular := by
  simp only [standard, List.forall_mem_cons, List.not_mem_nil, IsEmpty.forall_iff, implies_true,
    and_true]
  exact ⟨fun h => replaceFirst_regular (by decide) h, fun h => replaceFirst_regular (by decide) h⟩

/-- The rules that are not disabled are rules of the catalogue. -/
theorem mem_standard_of_mem_without {disabled : List String} {rule : Rule}
    (h : rule ∈ (without disabled).all) : rule ∈ standard.all := by
  rcases List.mem_append.1 h with h | h
  · exact List.mem_append_left _ (List.mem_filter.1 h).1
  · exact List.mem_append_right _ (List.mem_filter.1 h).1

/-- **Every rule of a rule set is regular**, whichever rules are disabled. -/
theorem regular_of_mem_without {disabled : List String} {rule : Rule}
    (h : rule ∈ (without disabled).all) : rule.Regular := by
  rcases List.mem_append.1 (mem_standard_of_mem_without h) with h | h
  · exact standard_once_regular rule h
  · exact standard_repeated_regular rule h

end RuleSet

end SqlDialect
