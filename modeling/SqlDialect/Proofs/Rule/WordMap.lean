import SqlDialect.Proofs.Line.Token
import SqlDialect.Proofs.Pattern.Scan
import SqlDialect.Proofs.Pattern.Word
import SqlDialect.Rule.Catalogue

/-!
# Rules that replace words

Some rules put one text in the place of a word, or of several words.  Each of them searches every stretch
of code by itself for a pattern with word boundaries; `WordMap.edit?_eq_rename` says that it does no more and
no less than to replace the words of the line (`Literal.tokens`) that are one of its names.

* `Pattern.ReadsWords` : the pattern reads some words, case ignored, and nothing else.
* `Pattern.flatMap_piecesFrom` : the search for such a pattern goes over a text word by word.
* `WordMap.exists_readsWords` : every rule of `WordMap.renamings` searches for such a pattern.
-/

namespace SqlDialect

namespace Pattern

variable {p : Pattern} {names : List String} {text word rest : List Char}

/-! ### Names -/

/-- Whether the text is one of the names, case ignored. -/
def isNamed (names : List String) (text : List Char) : Bool :=
  names.any fun name => Text.sameIgnoringCase text name.toList

/-- Whether no letter of the text agrees with a character beyond ASCII, case ignored. -/
def hasPlainCase (name : String) : Bool :=
  name.toList.all fun c =>
    Text.foldCase c == c.toLower && !(['s', 'k', '\u017F', '\u212A'].contains c.toLower)

theorem foldCase_eq_iff {c d : Char} (hsame : Text.foldCase d = d.toLower)
    (hd : d.toLower ∉ ['s', 'k', '\u017F', '\u212A']) :
    Text.foldCase c = Text.foldCase d ↔ c.toLower = d.toLower := by
  have hne {e : Char} (he : e ∈ ['s', 'k', '\u017F', '\u212A']) : e ≠ d.toLower := by
    rintro rfl
    exact hd he
  rw [hsame, Text.foldCase]
  split
  · rename_i hc
    obtain rfl := beq_iff_eq.1 hc
    exact iff_of_false (hne (by decide)) (hne (by decide))
  · split
    · rename_i hc
      obtain rfl := beq_iff_eq.1 hc
      exact iff_of_false (hne (by decide)) (hne (by decide))
    · exact Iff.rfl

/-- Where no letter agrees with a character beyond ASCII, the case of ASCII letters is all that is ignored. -/
theorem spells_iff_sameIgnoringCase {name : String} (hname : hasPlainCase name = true) :
    Spells name text ↔ Text.sameIgnoringCase text name.toList = true := by
  have hplain : ∀ d ∈ name.toList, Text.foldCase d = d.toLower ∧
      d.toLower ∉ ['s', 'k', '\u017F', '\u212A'] := fun d hd => by
    simpa using List.all_eq_true.1 hname d hd
  rw [Spells, Text.sameIgnoringCase, beq_iff_eq]
  generalize name.toList = letters at hplain
  induction letters generalizing text with
  | nil => simp
  | cons d letters ih =>
    rw [List.forall_mem_cons] at hplain
    cases text with
    | nil => simp
    | cons c text => simp [foldCase_eq_iff hplain.1.1 hplain.1.2, ih hplain.2]

theorem isNamed_iff (hnames : ∀ name ∈ names, hasPlainCase name = true) :
    isNamed names text = true ↔ ∃ name ∈ names, Spells name text := by
  rw [isNamed, List.any_eq_true]
  exact exists_congr fun name => and_congr_right fun hname =>
    (spells_iff_sameIgnoringCase (hnames name hname)).symm

/-! ### The search for names -/

/-- The pattern reads the names where they stand as words, and nothing else. -/
structure ReadsWords (p : Pattern) (names : List String) : Prop where
  isName : ∀ name ∈ names, isName name = true
  hasPlainCase : ∀ name ∈ names, hasPlainCase name = true
  reads_iff : ∀ before text behind, p.Reads before text behind ↔ before.any Text.isWordChar = false ∧
    (∃ name ∈ names, Spells name text) ∧ behind.any Text.isWordChar = false

namespace ReadsWords

variable {before behind : Option Char} {index : Nat}

/-- What is read is a run of word characters. -/
theorem run (h : p.ReadsWords names) (hreads : p.Reads before word rest.head?) :
    word ≠ [] ∧ Text.Run Text.isWordChar word rest ∧ isNamed names word = true := by
  obtain ⟨-, ⟨name, hname, hspells⟩, hbehind⟩ := (h.reads_iff _ _ _).1 hreads
  refine ⟨hspells.ne_nil (h.isName name hname), ⟨hspells.isWordChar (h.isName name hname), ?_⟩,
    (isNamed_iff h.hasPlainCase).2 ⟨name, hname, hspells⟩⟩
  intro c hc
  rw [hc] at hbehind
  exact hbehind

/-- Nothing is read within a word. -/
theorem matchAt_of_word (h : p.ReadsWords names) (hbefore : before.any Text.isWordChar = true)
    (rest : List Char) : p.matchAt ⟨before, index, rest⟩ = none := by
  rw [matchAt_eq_none_iff]
  intro text rest' _ hreads
  have := ((h.reads_iff _ _ _).1 hreads).1
  rw [hbefore] at this
  cases this

/-- Nothing is read where no word starts. -/
theorem matchAt_cons (h : p.ReadsWords names) {c : Char} (hc : Text.isWordChar c = false) :
    p.matchAt ⟨before, index, c :: rest⟩ = none := by
  rw [matchAt_eq_none_iff]
  intro text rest' heq hreads
  obtain ⟨hne, hrun, -⟩ := h.run hreads
  obtain ⟨d, text, rfl⟩ := List.exists_cons_of_ne_nil hne
  obtain ⟨rfl, -⟩ := List.cons_eq_cons.1 heq
  have := hrun.all c List.mem_cons_self
  rw [hc] at this
  cases this

/-- A word is read if it is one of the names. -/
theorem matchAt_append (h : p.ReadsWords names) (hbefore : before.any Text.isWordChar = false)
    (hrun : Text.Run Text.isWordChar word rest) (index : Nat) :
    (isNamed names word = true ∧
        ∃ m, p.matchAt ⟨before, index, word ++ rest⟩ = some m ∧ m.text = word) ∨
      (isNamed names word = false ∧ p.matchAt ⟨before, index, word ++ rest⟩ = none) := by
  cases hmatch : p.matchAt ⟨before, index, word ++ rest⟩ with
  | some m =>
    obtain ⟨rest', hrest, hreads⟩ := reads_of_matchAt hmatch
    obtain ⟨-, hrun', hnamed⟩ := h.run hreads
    have htext : m.text = word := (hrun.eq_of_append_eq hrun' hrest).1.symm
    exact .inl ⟨htext ▸ hnamed, m, rfl, htext⟩
  | none =>
    refine .inr ⟨?_, rfl⟩
    rw [← Bool.not_eq_true, isNamed_iff h.hasPlainCase]
    intro hspells
    exact matchAt_eq_none_iff.1 hmatch word rest rfl
      ((h.reads_iff _ _ _).2 ⟨hbefore, hspells, hrun.any_head?⟩)

/-- A character that is not part of a word is none of the names. -/
theorem isNamed_singleton (h : p.ReadsWords names) {c : Char} (hc : Text.isWordChar c = false) :
    isNamed names [c] = false := by
  rw [← Bool.not_eq_true, isNamed_iff h.hasPlainCase]
  rintro ⟨name, hname, hspells⟩
  have := hspells.isWordChar (h.isName name hname) c List.mem_cons_self
  rw [hc] at this
  cases this

/-- The search goes over a word that is not read at its start as a whole. -/
theorem piecesFrom_word (h : p.ReadsWords names) (hrun : Text.Run Text.isWordChar word rest)
    (hmatch : p.matchAt ⟨before, index, word ++ rest⟩ = none) :
    p.piecesFrom 0 before index (word ++ rest) =
      word.map .other ++ p.piecesFrom 0 (word.getLast?.or before) (index + word.length) rest := by
  refine piecesFrom_of_none fun u c v hword => ?_
  rcases List.eq_nil_or_concat' u with rfl | ⟨u, d, rfl⟩
  · rw [List.nil_append] at hword
    subst hword
    simpa using hmatch
  · -- a later place is behind a character of the word
    refine h.matchAt_of_word ?_ _
    rw [List.getLast?_concat, Option.some_or]
    exact hrun.all d (by rw [hword]; simp)

end ReadsWords

/-- **A search for names goes over a text word by word.** -/
theorem flatMap_piecesFrom {α : Type} (h : p.ReadsWords names) (g : Piece → List α)
    (named : List Char → List α) (hnamed : ∀ m, g (.found m) = named m.text) {before : Option Char}
    (index : Nat)
    (hbefore : before.any Text.isWordChar = true → text.head?.any Text.isWordChar = false) :
    (p.piecesFrom 0 before index text).flatMap g = (Text.words text).flatMap fun word =>
      if isNamed names word then named word else word.flatMap fun c => g (.other c) := by
  induction text using Text.word_induction generalizing before index with
  | nil => rfl
  | other c rest hc ih =>
    have hrest := @ih (some c) (index + 1) fun hword => by
      rw [Option.any_some, hc] at hword
      cases hword
    rw [piecesFrom_cons (h.matchAt_cons hc), List.flatMap_cons, hrest, Text.words_cons hc,
      List.flatMap_cons, h.isNamed_singleton hc, if_neg Bool.false_ne_true, List.flatMap_singleton]
  | word word rest hne hrun ih =>
    have hstart : before.any Text.isWordChar = false := by
      rw [← Bool.not_eq_true]
      intro hword
      obtain ⟨c, tail, rfl⟩ := List.exists_cons_of_ne_nil hne
      have := hbefore hword
      rw [List.cons_append, List.head?_cons, Option.any_some, hrun.all c List.mem_cons_self] at this
      cases this
    rw [Text.words_append hrun hne, List.flatMap_cons]
    rcases h.matchAt_append hstart hrun index with
      ⟨hname, m, hmatch, rfl⟩ | ⟨hname, hmatch⟩
    · rw [piecesFrom_found hmatch hne, List.flatMap_cons, hnamed, hname, if_pos rfl,
        ih _ fun _ => hrun.any_head?]
    · rw [h.piecesFrom_word hrun hmatch, List.flatMap_append, List.flatMap_map,
        ih _ fun _ => hrun.any_head?, hname, if_neg Bool.false_ne_true]

theorem ReadsWords.replaceIn_eq (h : p.ReadsWords names) (new text : List Char) :
    p.replaceIn (fun _ => new) text = (Text.words text).flatMap fun word =>
      if isNamed names word then new else word := by
  rw [replaceIn, pieces_eq, flatMap_piecesFrom h _ (fun _ => new) (fun _ => rfl) 0 fun hword => by
    cases hword]
  simp only [List.flatMap_singleton']

theorem ReadsWords.map_text_matchesIn (h : p.ReadsWords names) (text : List Char) :
    (p.matchesIn text).map Match.text = (Text.words text).flatMap fun word =>
      if isNamed names word then [word] else [] := by
  let texts (piece : Piece) : List (List Char) := (piece.match?.map Match.text).toList
  rw [matchesIn, pieces_eq, List.map_filterMap, List.filterMap_eq_flatMap_toList]
  refine (flatMap_piecesFrom h texts (fun word => [word]) (fun _ => rfl) 0 fun hword => by
    cases hword).trans ?_
  have hother (word : List Char) : (word.flatMap fun c => texts (.other c)) = [] := by
    rw [List.flatMap_eq_nil_iff]
    exact fun _ _ => rfl
  simp only [hother]

end Pattern

namespace WordMap

open Literal (Token tokens)
open Pattern

/-! ### What the rules do -/

/-- Whether the token is code and one of the names, case ignored. -/
def isNamedToken (names : List String) (token : Token) : Bool :=
  token.inCode && isNamed names token.text

/-- The line with `new` in the place of the words in code that are one of the names. -/
def rename (names : List String) (new line : List Char) : List Char :=
  (tokens line).flatMap fun token => if isNamedToken names token then new else token.text

/-- A rule that puts `new` in the place of some words. -/
structure Renaming where
  rule : Rule
  names : List String
  new : String

/-- The rules of the catalogue that do no more than that. -/
def renamings : List Renaming := [
  ⟨.nvarchar, ["NVARCHAR"], "VARCHAR"⟩,
  ⟨.nchar, ["NCHAR"], "CHAR"⟩,
  ⟨.sizedFloat, ["FLOAT4", "FLOAT8"], "FLOAT"⟩,
  ⟨.longText, ["LONGTEXT", "MEDIUMTEXT"], "STRING"⟩,
  ⟨.paddedChar, ["bpchar"], "char"⟩,
  ⟨.integer, ["INTEGER", "BIGINT"], "NUMERIC(18,0)"⟩,
  ⟨.dateAdd, ["DATE_ADD"], "DATEADD"⟩,
  ⟨.dateDiff, ["DATE_DIFF"], "DATEDIFF"⟩,
  ⟨.datePart, ["PGDATE_PART"], "DATE_PART"⟩,
  ⟨.ceiling, ["CEILING"], "CEIL"⟩]

variable {p : Pattern} {names : List String}

theorem isNamed_quote (h : p.ReadsWords names) : isNamed names ['\''] = false :=
  h.isNamed_singleton (by decide)

theorem trim_of_isNamed (h : p.ReadsWords names) {word : List Char} (hword : isNamed names word = true) :
    Text.trim word = word := by
  obtain ⟨name, hname, hspells⟩ := (isNamed_iff h.hasPlainCase).1 hword
  have hvisible : ∀ c ∈ word, ¬Text.isBlank c = true := by
    intro c hc hblank
    have := hspells.isWordChar (h.isName name hname) c hc
    rw [Text.isWordChar_of_isBlank hblank] at this
    cases this
  have hstart : Text.trimStart word = word := by
    cases word with
    | nil => rfl
    | cons c word => exact List.dropWhile_cons_of_neg (hvisible c List.mem_cons_self)
  rw [Text.trim, hstart, Text.trimEnd_eq]
  exact List.rdropWhile_eq_self_iff.2 fun hne => hvisible _ (List.getLast_mem hne)

theorem mapCode_replaceIn_eq (h : p.ReadsWords names) (new line : List Char) :
    Literal.mapCode (p.replaceIn fun _ => new) line = rename names new line := by
  refine Literal.mapCode_eq_flatMap_tokens (fun text _ => ?_) (fun word => ?_) ?_ line
  · exact h.replaceIn_eq new text
  · rfl
  · simp [isNamedToken, isNamed_quote h]

theorem map_text_matches_eq (h : p.ReadsWords names) (line : List Char) :
    ((Literal.codePieces line).flatMap p.matchesIn).map Match.text =
      ((tokens line).filter (isNamedToken names)).map Token.text := by
  have hfilter : ((tokens line).filter (isNamedToken names)).map Token.text =
      (tokens line).flatMap fun token => if isNamedToken names token then [token.text] else [] := by
    induction tokens line with
    | nil => rfl
    | cons token rest ih => by_cases htoken : isNamedToken names token = true <;> simp [htoken, ih]
  rw [hfilter, List.map_flatMap]
  refine Literal.flatMap_codePieces (fun text _ => ?_) (fun word => ?_) ?_ line
  · exact h.map_text_matchesIn text
  · rfl
  · simp [isNamedToken, isNamed_quote h]

/-- A rule that searches for names replaces them where they are words of the code. -/
theorem substitute_eq (h : p.ReadsWords names) (new line : List Char) :
    Rule.substitute p (fun _ => new) line =
      ((tokens line).find? (isNamedToken names)).map fun first =>
        .changed (rename names new line) first.text := by
  have hmatches := map_text_matches_eq h line
  have hnamed : ∀ token ∈ (tokens line).filter (isNamedToken names), isNamed names token.text = true :=
    fun token htoken => ((Bool.and_eq_true _ _).mp (List.mem_filter.1 htoken).2).2
  rw [← List.head?_filter, Rule.substitute, Literal.editCode]
  simp only [Option.isSome_some, List.filter_true, Option.getD_some]
  cases hfirst : (Literal.codePieces line).flatMap p.matchesIn with
  | nil =>
    rw [hfirst, List.map_nil, eq_comm, List.map_eq_nil_iff] at hmatches
    rw [hmatches]
    rfl
  | cons first more =>
    rw [hfirst, List.map_cons, eq_comm, List.map_eq_cons_iff] at hmatches
    obtain ⟨token, rest, hfilter, htext, -⟩ := hmatches
    rw [hfilter, List.forall_mem_cons] at hnamed
    rw [hfilter, List.head?_cons, Option.map_some, Option.map_some, mapCode_replaceIn_eq h, ← htext,
      trim_of_isNamed h hnamed.1]

/-! ### What the rules search for -/

/-- What reads the names where words start reads them, with a boundary behind, where they are words. -/
theorem readsWords_append_boundary {q : Pattern} (hname : ∀ name ∈ names, isName name = true)
    (hplain : ∀ name ∈ names, hasPlainCase name = true)
    (hq : ∀ before text behind, q.Reads before text behind ↔
      before.any Text.isWordChar = false ∧ ∃ name ∈ names, Spells name text) :
    (q ++ boundary).ReadsWords names where
  isName := hname
  hasPlainCase := hplain
  reads_iff before text behind := by
    have hlast {text : List Char} (htext : ∃ name ∈ names, Spells name text) :
        (text.getLast?.or before).any Text.isWordChar = true := by
      obtain ⟨name, hmem, hspells⟩ := htext
      exact hspells.getLast?_isWordChar (hname name hmem) before
    constructor
    · rintro ⟨text, _, rfl, hreads, rfl, hend⟩
      obtain ⟨hbefore, htext⟩ := (hq _ _ _).1 hreads
      rw [hlast htext] at hend
      rw [List.append_nil]
      exact ⟨hbefore, htext, by simpa using hend⟩
    · rintro ⟨hbefore, htext, hbehind⟩
      refine ⟨text, [], (List.append_nil text).symm, (hq _ _ _).2 ⟨hbefore, htext⟩, rfl, ?_⟩
      rw [hlast htext, hbehind]
      rfl

theorem readsWords_wholeWord {name : String} (hname : isName name = true)
    (hplain : hasPlainCase name = true) : (wholeWord name).ReadsWords [name] := by
  refine readsWords_append_boundary (by simpa using hname) (by simpa using hplain)
    fun before text behind => ?_
  rw [reads_nameStart_iff hname]
  simp

/-- Names that are put together from two parts. -/
theorem spells_append_iff {first second : String} {text : List Char} :
    Spells (first ++ second) text ↔ ∃ u v, text = u ++ v ∧ Spells first u ∧ Spells second v := by
  rw [Spells, String.toList_append, List.map_append, List.map_eq_append_iff]
  rfl

variable {before behind : Option Char} {text : List Char}

theorem reads_append_alt_iff {a b c : Pattern} : (a ++ (b <|> c)).Reads before text behind ↔
    (a ++ b).Reads before text behind ∨ (a ++ c).Reads before text behind := by
  constructor
  · rintro ⟨s, t, rfl, hs, ht | ht⟩
    · exact .inl ⟨s, t, rfl, hs, ht⟩
    · exact .inr ⟨s, t, rfl, hs, ht⟩
  · rintro (⟨s, t, rfl, hs, ht⟩ | ⟨s, t, rfl, hs, ht⟩)
    · exact ⟨s, t, rfl, hs, .inl ht⟩
    · exact ⟨s, t, rfl, hs, .inr ht⟩

theorem readsWords_integer : Rule.integerType.ReadsWords ["INTEGER", "BIGINT"] := by
  refine readsWords_append_boundary (by decide) (by decide) fun before text behind => ?_
  rw [reads_append_alt_iff, reads_nameStart_iff (by decide), reads_nameStart_iff (by decide)]
  simp [and_or_left]

theorem readsWords_longText : Rule.longTextName.ReadsWords ["LONGTEXT", "MEDIUMTEXT"] := by
  refine readsWords_append_boundary (by decide) (by decide) fun before text behind => ?_
  have hlong : Spells "LONGTEXT" text ↔ ∃ u v, text = u ++ v ∧ Spells "LONG" u ∧ Spells "TEXT" v :=
    @spells_append_iff "LONG" "TEXT" text
  have hmedium : Spells "MEDIUMTEXT" text ↔
      ∃ u v, text = u ++ v ∧ Spells "MEDIUM" u ∧ Spells "TEXT" v :=
    @spells_append_iff "MEDIUM" "TEXT" text
  simp only [List.mem_cons, List.not_mem_nil, or_false, exists_eq_or_imp, exists_eq_left, hlong, hmedium]
  constructor
  · rintro ⟨u, v, rfl, hu, hv⟩
    rw [reads_keyword_iff (by decide)] at hv
    rw [reads_append_alt_iff, reads_nameStart_iff (by decide), reads_nameStart_iff (by decide),
      ← and_or_left] at hu
    exact ⟨hu.1, hu.2.imp (fun hu => ⟨u, v, rfl, hu, hv⟩) fun hu => ⟨u, v, rfl, hu, hv⟩⟩
  · rintro ⟨hbefore, ⟨u, v, rfl, hu, hv⟩ | ⟨u, v, rfl, hu, hv⟩⟩
    · refine ⟨u, v, rfl, reads_append_alt_iff.2 (.inl ?_), (reads_keyword_iff (by decide)).2 hv⟩
      exact (reads_nameStart_iff (by decide)).2 ⟨hbefore, hu⟩
    · refine ⟨u, v, rfl, reads_append_alt_iff.2 (.inr ?_), (reads_keyword_iff (by decide)).2 hv⟩
      exact (reads_nameStart_iff (by decide)).2 ⟨hbefore, hu⟩

theorem readsWords_sizedFloat : Rule.floatWithSize.ReadsWords ["FLOAT4", "FLOAT8"] := by
  refine readsWords_append_boundary (by decide) (by decide) fun before text behind => ?_
  have hfour : Spells "FLOAT4" text ↔ ∃ u v, text = u ++ v ∧ Spells "FLOAT" u ∧ Spells "4" v :=
    @spells_append_iff "FLOAT" "4" text
  have height : Spells "FLOAT8" text ↔ ∃ u v, text = u ++ v ∧ Spells "FLOAT" u ∧ Spells "8" v :=
    @spells_append_iff "FLOAT" "8" text
  have hdigit {before : Option Char} {v : List Char} : (one (.oneOf ['4', '8'])).Reads before v behind ↔
      Spells "4" v ∨ Spells "8" v := by
    constructor
    · intro h
      obtain ⟨c, rest, hc, hrest, rfl⟩ := List.forall₂_cons_left_iff.1 h
      obtain rfl := List.forall₂_nil_left_iff.1 hrest
      rcases List.mem_cons.1 (List.contains_iff_mem.1 hc) with rfl | hc
      · exact .inl rfl
      · obtain rfl := List.mem_singleton.1 hc
        exact .inr rfl
    · rintro (h | h)
      · rw [h.eq_of_isUncased (by decide)]
        exact .cons (by decide) .nil
      · rw [h.eq_of_isUncased (by decide)]
        exact .cons (by decide) .nil
  simp only [List.mem_cons, List.not_mem_nil, or_false, exists_eq_or_imp, exists_eq_left, hfour, height]
  constructor
  · rintro ⟨u, v, rfl, hu, hv⟩
    obtain ⟨hbefore, hu⟩ := (reads_nameStart_iff (by decide)).1 hu
    exact ⟨hbefore, (hdigit.1 hv).imp (fun hv => ⟨u, v, rfl, hu, hv⟩) fun hv => ⟨u, v, rfl, hu, hv⟩⟩
  · rintro ⟨hbefore, ⟨u, v, rfl, hu, hv⟩ | ⟨u, v, rfl, hu, hv⟩⟩
    · exact ⟨u, v, rfl, (reads_nameStart_iff (by decide)).2 ⟨hbefore, hu⟩, hdigit.2 (.inl hv)⟩
    · exact ⟨u, v, rfl, (reads_nameStart_iff (by decide)).2 ⟨hbefore, hu⟩, hdigit.2 (.inr hv)⟩

/-- Every one of the rules searches for its names. -/
theorem exists_readsWords {r : Renaming} (h : r ∈ renamings) : ∃ p : Pattern, p.ReadsWords r.names ∧
    ∀ context line, r.rule.edit? context line = Rule.substitute p (fun _ => r.new.toList) line := by
  simp only [renamings, List.mem_cons, List.not_mem_nil, or_false] at h
  rcases h with rfl | rfl | rfl | rfl | rfl | rfl | rfl | rfl | rfl | rfl
  · exact ⟨_, readsWords_wholeWord (by decide) (by decide), fun _ _ => rfl⟩
  · exact ⟨_, readsWords_wholeWord (by decide) (by decide), fun _ _ => rfl⟩
  · exact ⟨_, readsWords_sizedFloat, fun _ _ => rfl⟩
  · exact ⟨_, readsWords_longText, fun _ _ => rfl⟩
  · exact ⟨_, readsWords_wholeWord (by decide) (by decide), fun _ _ => rfl⟩
  · exact ⟨_, readsWords_integer, fun _ _ => rfl⟩
  · exact ⟨_, readsWords_wholeWord (by decide) (by decide), fun _ _ => rfl⟩
  · exact ⟨_, readsWords_wholeWord (by decide) (by decide), fun _ _ => rfl⟩
  · exact ⟨_, readsWords_wholeWord (by decide) (by decide), fun _ _ => rfl⟩
  · exact ⟨_, readsWords_wholeWord (by decide) (by decide), fun _ _ => rfl⟩

theorem mem_standard_of_mem_renamings {r : Renaming} (h : r ∈ renamings) :
    r.rule ∈ RuleSet.standard.once := by
  simp only [renamings, List.mem_cons, List.not_mem_nil, or_false] at h
  rcases h with rfl | rfl | rfl | rfl | rfl | rfl | rfl | rfl | rfl | rfl <;> simp [RuleSet.standard]

theorem edit?_of_mem_renamings {r : Renaming} (h : r ∈ renamings) (context : Context)
    (line : List Char) :
    r.rule.edit? context line = ((tokens line).find? (isNamedToken r.names)).map fun first =>
      .changed (rename r.names r.new.toList line) first.text := by
  obtain ⟨p, hp, hrule⟩ := exists_readsWords h
  exact (hrule context line).trans (substitute_eq hp _ line)

/-- **The rules replace words.**  The line is changed if one of its words in code is one of the names, case
ignored.  Then each such word is replaced, every other character stays, and the note is the first such
word as it is written. -/
theorem edit?_eq_rename {r : Renaming} (h : r ∈ renamings) (context : Context) (line : List Char) :
    r.rule ∈ RuleSet.standard.once ∧
      r.rule.edit? context line = ((tokens line).find? (isNamedToken r.names)).map fun first =>
        .changed (rename r.names r.new.toList line) first.text :=
  ⟨mem_standard_of_mem_renamings h, edit?_of_mem_renamings h context line⟩

/-- Words next to each other, words that only start or end like a name, and names in literals. -/
theorem edit?_eq_rename_integer :
    let r : Renaming := ⟨.integer, ["INTEGER", "BIGINT"], "NUMERIC(18,0)"⟩
    let line := "f(bigints,aInteger,'it''s INTEGER'||(Integer)BIGINT/integeré) -- 'bigint".toList
    r ∈ renamings ∧ r.rule.edit? (.start none) line = some (.changed
      "f(bigints,aInteger,'it''s INTEGER'||(NUMERIC(18,0))NUMERIC(18,0)/integeré) -- 'bigint".toList
      "Integer".toList) := by
  intro r line
  have h : r ∈ renamings := by simp [renamings, r]
  have hfirst : (tokens line).find? (isNamedToken r.names) = some ⟨"Integer".toList, true⟩ := by
    decide +kernel
  have hline : rename r.names r.new.toList line =
      "f(bigints,aInteger,'it''s INTEGER'||(NUMERIC(18,0))NUMERIC(18,0)/integeré) -- 'bigint".toList := by
    decide +kernel
  rw [(edit?_eq_rename h (.start none) line).2, hfirst, hline]
  exact ⟨h, rfl⟩

end WordMap

end SqlDialect
