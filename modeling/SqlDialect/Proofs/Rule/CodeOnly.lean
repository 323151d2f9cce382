import Mathlib.Data.Option.Basic
import SqlDialect.Proofs.Line.SameCode
import SqlDialect.Proofs.Rule.Discard
import SqlDialect.Proofs.Text.Case

/-!
# Rules that see nothing but code

Most rules look at the code of a line alone, and change nothing else (`Rule.SeesCode`): of two lines
with the same code they edit both or neither, with the same note, and both still have the same code
behind the edit, each with the literals that it had.

`RuleSet.seesCode_of_mem_codeOnly` says so of the rules listed in `Rule.codeOnly`.  All of them
replace the matches of a pattern by text without quotes, where some condition on the code of the
line holds.
-/

namespace SqlDialect

/-! ### Edits of two lines with the same code -/

/-- The edit changes no quote of the line and no literal. -/
structure Edit.KeepsLiterals (edit : Edit) (line : List Char) : Prop where
  quotes_eq : edit.line.count '\'' = line.count '\''
  literals_eq : Literal.literalPieces edit.line = Literal.literalPieces line

/-- The same edit of the code of two lines, each of which keeps its literals. -/
structure Edit.Parallel (a b : List Char) (e f : Edit) : Prop where
  note_eq : e.note = f.note
  control_eq : e.control = f.control
  discardsStatement_eq : e.discardsStatement = f.discardsStatement
  sameCode : Literal.SameCode e.line f.line
  left_keeps : e.KeepsLiterals a
  right_keeps : f.KeepsLiterals b

namespace Rule

/-- Of two lines with the same code, the rule edits both in parallel or neither, in every
context. -/
def SeesCode (rule : Rule) : Prop :=
  ∀ (ctx : Context) {a b : List Char}, Literal.SameCode a b →
    Option.Rel (Edit.Parallel a b) (rule.edit? ctx a) (rule.edit? ctx b)

section Shapes

variable {p : Pattern} {a b : List Char}

theorem rel_substituteSome {edit : Match → Option (List Char)}
    (hedit : ∀ m text, m.Unquoted → edit m = some text → '\'' ∉ text)
    (h : Literal.SameCode a b) :
    Option.Rel (Edit.Parallel a b) (substituteSome p edit a) (substituteSome p edit b) := by
  have hrel := Literal.rel_editCode (p := p) hedit h
  rw [substituteSome, substituteSome]
  revert hrel
  generalize Literal.editCode p edit a = x
  generalize Literal.editCode p edit b = y
  rintro (⟨hnote, hcode, ha, hb⟩ | _)
  · exact .some ⟨hnote, rfl, rfl, hcode, ⟨ha.1, ha.2⟩, ⟨hb.1, hb.2⟩⟩
  · exact .none

theorem rel_substitute {replacement : Match → List Char}
    (hreplacement : ∀ m, m.Unquoted → '\'' ∉ replacement m) (h : Literal.SameCode a b) :
    Option.Rel (Edit.Parallel a b) (substitute p replacement a) (substitute p replacement b) :=
  rel_substituteSome (fun m _ hm htext => Option.some.inj htext ▸ hreplacement m hm) h

/-- A condition on the code of the line decides for both lines alike. -/
theorem rel_ite_none {condition : Prop} [Decidable condition] {x y : Option Edit}
    (h : Option.Rel (Edit.Parallel a b) x y) :
    Option.Rel (Edit.Parallel a b) (if condition then none else x)
      (if condition then none else y) := by
  split
  · exact .none
  · exact h

theorem rel_or {x y x' y' : Option Edit} (h : Option.Rel (Edit.Parallel a b) x y)
    (h' : Option.Rel (Edit.Parallel a b) x' y') :
    Option.Rel (Edit.Parallel a b) (x.or x') (y.or y') := by
  cases h with
  | some hxy => exact .some hxy
  | none => exact h'

theorem nearOrderBy_eq (ctx : Context) (h : Literal.SameCode a b) :
    nearOrderBy ctx a = nearOrderBy ctx b := by
  rw [nearOrderBy, nearOrderBy, h.codeMatches_eq]

end Shapes

/-! ### The rules -/

/-- The rules that put a fixed text, or none, in the place of the matches of a pattern. -/
theorem seesCode_of_constant {rule : Rule} (p : Pattern) (text : List Char) (htext : '\'' ∉ text)
    (h : ∀ ctx line, rule.edit? ctx line = substitute p (fun _ => text) line) :
    rule.SeesCode := by
  intro ctx a b hab
  rw [h, h]
  exact rel_substitute (fun _ _ => htext) hab

theorem constant_seesCode : ∀ rule ∈ [nvarchar, nchar, sizedFloat, unsigned, longText, paddedChar,
    characterVarying, intDisplayWidth, integer, defaultSysdate, distkey, sortkey, charset, encode,
    diststyle, dateAdd, dateDiff, datePart, catalogQualifier, ceiling, now, arrayLiteral],
    rule.SeesCode := by
  simp only [List.forall_mem_cons, List.not_mem_nil, IsEmpty.forall_iff, implies_true, and_true]
  refine ⟨?_, ?_, ?_, ?_, ?_, ?_, ?_, ?_, ?_, ?_, ?_, ?_, ?_, ?_, ?_, ?_, ?_, ?_, ?_, ?_, ?_, ?_⟩
  all_goals exact seesCode_of_constant _ _ (by decide) fun _ _ => rfl

theorem charLengthUnit_seesCode : charLengthUnit.SeesCode := by
  intro ctx a b hab
  refine rel_substitute (fun m hm => ?_) hab
  simp [hm.textOf]

theorem decimalPrecision_seesCode : decimalPrecision.SeesCode := by
  intro ctx a b hab
  refine rel_substituteSome (fun m text hm htext => ?_) hab
  obtain ⟨precision, -, htext⟩ := Option.bind_eq_some_iff.1 htext
  split at htext
  · cases htext
  · obtain rfl := Option.some.inj htext
    have hprecision : '\'' ∉ (toString maxPrecision).toList := by decide
    generalize (toString maxPrecision).toList = precision at hprecision
    simp [hm.textOf, hprecision]

theorem scaledFloat_seesCode : scaledFloat.SeesCode := by
  intro ctx a b hab
  exact rel_substitute (fun m hm => hm.textOf "type") hab

theorem numericScale_seesCode : numericScale.SeesCode := by
  intro ctx a b hab
  refine rel_substituteSome (fun m text hm htext => ?_) hab
  obtain ⟨scale, -, htext⟩ := Option.bind_eq_some_iff.1 htext
  split at htext
  · obtain rfl := Option.some.inj htext
    decide
  · cases htext

theorem json_seesCode : json.SeesCode := by
  intro ctx a b hab
  refine rel_substitute (fun m hm => ?_) hab
  simp [hm.textOf]

theorem createTable_seesCode : createTable.SeesCode := by
  intro ctx a b hab
  dsimp only [createTable]
  rw [hab.codeMatches_eq]
  exact rel_ite_none (rel_substitute (fun _ _ => by decide) hab)

theorem autoIncrement_seesCode : autoIncrement.SeesCode := by
  intro ctx a b hab
  exact rel_or (rel_substitute (fun _ _ => List.not_mem_nil) hab)
    (rel_substitute (fun _ _ => by decide) hab)

theorem unboundedFrame_seesCode : unboundedFrame.SeesCode := by
  intro ctx a b hab
  dsimp only [unboundedFrame]
  rw [nearOrderBy_eq ctx hab]
  refine rel_ite_none (rel_substitute (fun m _ => ?_) hab)
  split
  · decide
  · exact List.not_mem_nil

theorem toUpper_eq_quote_iff {c : Char} : c.toUpper = '\'' ↔ c = '\'' := by
  refine Text.toUpper_induction (motive := fun c d => d = '\'' ↔ c = '\'') ?_ ?_ c
  · decide
  · exact fun _ _ => Iff.rfl

theorem qualifiedNameCase_seesCode : qualifiedNameCase.SeesCode := by
  intro ctx a b hab
  dsimp only [qualifiedNameCase]
  rw [nearOrderBy_eq ctx hab]
  refine rel_ite_none (rel_substituteSome (fun m text hm htext => ?_) hab)
  obtain ⟨chain, hchain, htext⟩ := Option.bind_eq_some_iff.1 htext
  have hquote := hm.group chain (List.mem_of_find?_eq_some hchain)
  split at htext
  · obtain rfl := Option.some.inj htext
    simpa [toUpper_eq_quote_iff] using hquote
  · cases htext

/-- The rules that see nothing but code. -/
def codeOnly : List Rule := [
  charLengthUnit, nvarchar, nchar, sizedFloat, unsigned, decimalPrecision, scaledFloat, longText,
  paddedChar, characterVarying, intDisplayWidth, integer, numericScale, json, defaultSysdate,
  createTable, distkey, sortkey, charset, autoIncrement, encode, diststyle, dateAdd, dateDiff,
  datePart, catalogQualifier, ceiling, now, unboundedFrame, arrayLiteral, qualifiedNameCase]

/-- Their identifiers. -/
def codeOnlyIds : List String := [
  "TYPE001", "TYPE002", "TYPE003", "TYPE004", "TYPE005", "TYPE006", "TYPE007", "TYPE008", "TYPE009",
  "TYPE010", "TYPE011", "TYPE012", "TYPE013", "TYPE014", "DDL001", "DDL005", "DDL006", "DDL008",
  "DDL009", "DDL010", "DDL016", "DDL017", "FUNC001", "FUNC002", "FUNC003", "FUNC004", "FUNC005",
  "FUNC006", "EXPR002", "EXPR003", "EXPR005"]

theorem map_id_codeOnly : codeOnly.map Rule.id = codeOnlyIds := rfl

theorem seesCode_of_mem_codeOnly : ∀ rule ∈ codeOnly, rule.SeesCode := by
  have hconstant := constant_seesCode
  simp only [List.forall_mem_cons, List.not_mem_nil, IsEmpty.forall_iff, implies_true, and_true]
    at hconstant
  obtain ⟨hnvarchar, hnchar, hsizedFloat, hunsigned, hlongText, hpaddedChar, hcharacterVarying,
    hintDisplayWidth, hinteger, hdefaultSysdate, hdistkey, hsortkey, hcharset, hencode, hdiststyle,
    hdateAdd, hdateDiff, hdatePart, hcatalogQualifier, hceiling, hnow, harrayLiteral⟩ := hconstant
  simp only [codeOnly, List.forall_mem_cons, List.not_mem_nil, IsEmpty.forall_iff, implies_true,
    and_true]
  exact ⟨charLengthUnit_seesCode, hnvarchar, hnchar, hsizedFloat, hunsigned,
    decimalPrecision_seesCode, scaledFloat_seesCode, hlongText, hpaddedChar, hcharacterVarying,
    hintDisplayWidth, hinteger, numericScale_seesCode, json_seesCode, hdefaultSysdate,
    createTable_seesCode, hdistkey, hsortkey, hcharset, autoIncrement_seesCode, hencode, hdiststyle,
    hdateAdd, hdateDiff, hdatePart, hcatalogQualifier, hceiling, hnow, unboundedFrame_seesCode,
    harrayLiteral, qualifiedNameCase_seesCode⟩

end Rule

namespace RuleSet

open Rule

theorem mem_standard_of_mem_codeOnly : ∀ rule ∈ codeOnly, rule ∈ standard.all := by
  simp only [codeOnly, List.forall_mem_cons, List.not_mem_nil, IsEmpty.forall_iff, implies_true,
    and_true]
  simp [all, standard]

/-- **What literals hold has no part in the edits of code**: a rule of the catalogue with one of the
listed identifiers edits both of two lines with the same code or neither, in every context, with the
same note; the new lines have the same code again, and each keeps its own literals. -/
theorem seesCode_of_mem_standard :
    ∀ rule ∈ standard.all, rule.id ∈ codeOnlyIds → rule.SeesCode := by
  intro rule hrule hid
  rw [← map_id_codeOnly] at hid
  obtain ⟨other, hother, heq⟩ := List.mem_map.1 hid
  obtain rfl : other = rule := eq_of_id_eq (mem_standard_of_mem_codeOnly other hother) hrule heq
  exact seesCode_of_mem_codeOnly other hother

theorem seesCode_createTable :
    let a := "CREATE TABLE t (a CHAR DEFAULT 'x');".toList
    let b := "CREATE TABLE t (a CHAR DEFAULT 'CREATE TABLE IF NOT EXISTS');".toList
    createTable ∈ standard.all ∧ createTable.id ∈ codeOnlyIds ∧ Literal.SameCode a b ∧
      Option.Rel (Edit.Parallel a b) (createTable.edit? (.start none) a)
        (createTable.edit? (.start none) b) ∧
      (createTable.edit? (.start none) b).map Edit.line =
        some "CREATE OR REPLACE TABLE t (a CHAR DEFAULT 'CREATE TABLE IF NOT EXISTS');".toList := by
  intro a b
  have hrule : createTable ∈ standard.all := by simp [all, standard]
  have hid : createTable.id ∈ codeOnlyIds := by decide
  have hcode : Literal.SameCode a b := ⟨by decide, by decide⟩
  exact ⟨hrule, hid, hcode, seesCode_of_mem_standard createTable hrule hid _ hcode,
    by decide⟩

end RuleSet

end SqlDialect
