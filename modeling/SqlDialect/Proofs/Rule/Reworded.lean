import SqlDialect.Proofs.Line.Bare
import SqlDialect.Proofs.Rule.Pass
import SqlDialect.Proofs.Rule.WordMap

/-!
# Lines with other words

The rules of `WordMap.renamings` change words of a line and nothing else.  Read word by word, the new line
is a copy of the old one with `new` in some places (`WordMap.Reworded`), from which follows by induction
what it has in common with the old one.

* `WordMap.Reworded.mem_tokens` : it has no words but those of the old line and those of `new`.
* `WordMap.Reworded.splitComment` : its quotes and its comment are in the same places.
* `WordMap.run_renamings` : **a pass of such rules leaves nothing for any of them**, whichever of them there
  are and in whichever order, since none puts a name of another one into the line.
-/

namespace SqlDialect

namespace Text

/-- Behind a word, or where none goes on, a text is cut into words by itself. -/
theorem words_append_of_head? {rest : List Char} (h : rest.head?.any isWordChar = false)
    (text : List Char) : words (text ++ rest) = words text ++ words rest := by
  cases rest with
  | nil => simp
  | cons c rest =>
    have hc : isWordChar c = false := h
    rw [words_append_cons hc, words_cons hc]

end Text

namespace Literal

/-- What comes last does not change what comes before it. -/
theorem exists_tokensFrom_append (inCode : Bool) (texts more : List (List Char)) :
    ∃ inCode', tokensFrom inCode (texts ++ more) = tokensFrom inCode texts ++ tokensFrom inCode' more := by
  induction texts generalizing inCode with
  | nil => exact ⟨inCode, rfl⟩
  | cons text texts ih =>
    obtain ⟨inCode', htexts⟩ := ih (if text = ['\''] then !inCode else inCode)
    refine ⟨inCode', ?_⟩
    rw [List.cons_append, tokensFrom, tokensFrom, htexts, List.cons_append]

theorem text_mem_of_mem_tokensFrom {inCode : Bool} {texts : List (List Char)} {token : Token}
    (h : token ∈ tokensFrom inCode texts) : token.text ∈ texts := by
  induction texts generalizing inCode with
  | nil => cases h
  | cons text texts ih =>
    rcases List.mem_cons.1 h with rfl | h
    · exact List.mem_cons_self
    · exact List.mem_cons_of_mem _ (ih h)

end Literal

/-- The remark consists of words. -/
def Remark.IsWords (remark : Remark) : Prop :=
  ∀ fragment ∈ remark.fragments, fragment ≠ [] ∧ ∀ c ∈ fragment, Text.isWordChar c = true

theorem Remark.IsWords.push {remark : Remark} (h : remark.IsWords) {word : List Char} (hne : word ≠ [])
    (hword : ∀ c ∈ word, Text.isWordChar c = true) : (remark.push word).IsWords := by
  rw [push_of_ne_nil hne]
  exact List.forall_mem_append.2 ⟨h, by simpa using ⟨hne, hword⟩⟩

namespace WordMap

open Literal (Token tokens tokensFrom)
open Pattern

variable {names : List String} {new : List Char} {inCode : Bool} {text text' : List Char}

/-! ### The copy with other words -/

/-- Read word by word from the left, the second text is the first one with `new` in the place of the names
in code. -/
inductive Reworded (names : List String) (new : List Char) : Bool → List Char → List Char → Prop
  | nil (inCode : Bool) : Reworded names new inCode [] []
  /-- A character that is not part of a word. -/
  | other {inCode : Bool} {c : Char} {rest rest' : List Char} (hc : Text.isWordChar c = false)
      (hrest : Reworded names new (if [c] = ['\''] then !inCode else inCode) rest rest') :
      Reworded names new inCode (c :: rest) (c :: rest')
  /-- Any other word. -/
  | kept {inCode : Bool} {word rest rest' : List Char} (hne : word ≠ [])
      (hrun : Text.Run Text.isWordChar word rest) (hname : isNamedToken names ⟨word, inCode⟩ = false)
      (hrest : Reworded names new inCode rest rest') :
      Reworded names new inCode (word ++ rest) (word ++ rest')
  /-- A name in code. -/
  | replaced {inCode : Bool} {word rest rest' : List Char} (hne : word ≠ [])
      (hrun : Text.Run Text.isWordChar word rest) (hname : isNamedToken names ⟨word, inCode⟩ = true)
      (hrest : Reworded names new inCode rest rest') :
      Reworded names new inCode (word ++ rest) (new ++ rest')

theorem ne_quote_of_run {word rest : List Char} (hrun : Text.Run Text.isWordChar word rest) :
    word ≠ ['\''] := by
  rintro rfl
  exact absurd (hrun.all _ List.mem_cons_self) (by decide)

theorem reworded_flatMap {p : Pattern} (h : p.ReadsWords names) (new : List Char) (inCode : Bool)
    (text : List Char) :
    Reworded names new inCode text ((tokensFrom inCode (Text.words text)).flatMap fun token =>
      if isNamedToken names token then new else token.text) := by
  induction text using Text.word_induction generalizing inCode with
  | nil => exact .nil inCode
  | other c rest hc ih =>
    have hname : isNamedToken names ⟨[c], inCode⟩ = false := by
      rw [isNamedToken, h.isNamed_singleton hc, Bool.and_false]
    rw [Text.words_cons hc, tokensFrom, List.flatMap_cons, hname, if_neg Bool.false_ne_true]
    exact .other hc (ih _)
  | word word rest hne hrun ih =>
    rw [Text.words_append hrun hne, tokensFrom, List.flatMap_cons, if_neg (ne_quote_of_run hrun)]
    cases hname : isNamedToken names ⟨word, inCode⟩ with
    | false =>
      rw [if_neg Bool.false_ne_true]
      exact .kept hne hrun hname (ih _)
    | true =>
      rw [if_pos rfl]
      exact .replaced hne hrun hname (ih _)

theorem reworded_rename {p : Pattern} (h : p.ReadsWords names) (new line : List Char) :
    Reworded names new true line (rename names new line) :=
  reworded_flatMap h new true line

namespace Reworded

/-- Where no word starts, the two texts start alike. -/
theorem head?_eq (h : Reworded names new inCode text text')
    (htext : text.head?.any Text.isWordChar = false) : text'.head? = text.head? := by
  have hword {word rest : List Char} (hne : word ≠ []) (hrun : Text.Run Text.isWordChar word rest) :
      ¬(word ++ rest).head?.any Text.isWordChar = false := by
    obtain ⟨c, word, rfl⟩ := List.exists_cons_of_ne_nil hne
    rw [List.cons_append, List.head?_cons, Option.any_some, hrun.all c List.mem_cons_self]
    exact Bool.noConfusion
  cases h with
  | nil => rfl
  | other hc hrest => rfl
  | kept hne hrun hname hrest => exact absurd htext (hword hne hrun)
  | replaced hne hrun hname hrest => exact absurd htext (hword hne hrun)

theorem any_head? (h : Reworded names new inCode text text')
    (htext : text.head?.any Text.isWordChar = false) : text'.head?.any Text.isWordChar = false := by
  rw [h.head?_eq htext, htext]

/-- The second text starts with nothing new but `new`. -/
theorem head?_eq_some {c : Char} (h : Reworded names new inCode text text') (hne : new ≠ [])
    (hc : c ∉ new) (hhead : text'.head? = some c) : text.head? = some c := by
  cases h with
  | nil => exact hhead
  | other hd hrest => exact hhead
  | @kept _ word rest rest' hword hrun hname hrest =>
    obtain ⟨d, word, rfl⟩ := List.exists_cons_of_ne_nil hword
    exact hhead
  | @replaced _ word rest rest' hword hrun hname hrest =>
    obtain ⟨d, new, rfl⟩ := List.exists_cons_of_ne_nil hne
    obtain rfl : d = c := by simpa using hhead
    exact absurd List.mem_cons_self hc

/-- The second text has no characters but those of the first and of `new`. -/
theorem mem {c : Char} (h : Reworded names new inCode text text') (hc : c ∈ text') :
    c ∈ text ∨ c ∈ new := by
  induction h with
  | nil => exact .inl hc
  | other _ hrest ih =>
    rcases List.mem_cons.1 hc with rfl | hc
    · exact .inl List.mem_cons_self
    · exact (ih hc).imp_left (List.mem_cons_of_mem _)
  | kept _ _ _ hrest ih =>
    rcases List.mem_append.1 hc with hc | hc
    · exact .inl (List.mem_append_left _ hc)
    · exact (ih hc).imp_left (List.mem_append_right _)
  | replaced _ _ _ hrest ih =>
    rcases List.mem_append.1 hc with hc | hc
    · exact .inr hc
    · exact (ih hc).imp_left (List.mem_append_right _)

/-- The words of the second text are the other words of the first, and those of `new`. -/
theorem mem_tokens {p : Pattern} (hnames : p.ReadsWords names) (hnew : '\'' ∉ new)
    (h : Reworded names new inCode text text') {token : Token}
    (htoken : token ∈ tokensFrom inCode (Text.words text')) :
    (token ∈ tokensFrom inCode (Text.words text) ∧ isNamedToken names token = false) ∨
      token.text ∈ Text.words new := by
  induction h with
  | nil => cases htoken
  | @other inCode c rest rest' hc hrest ih =>
    rw [Text.words_cons hc] at htoken ⊢
    rcases List.mem_cons.1 htoken with rfl | htoken
    · refine .inl ⟨List.mem_cons_self, ?_⟩
      rw [isNamedToken, hnames.isNamed_singleton hc, Bool.and_false]
    · exact (ih htoken).imp_left (And.imp_left (List.mem_cons_of_mem _))
  | @kept inCode word rest rest' hne hrun hname hrest ih =>
    have hrun' : Text.Run Text.isWordChar word rest' := by
      refine ⟨hrun.all, fun c hc => ?_⟩
      have hstops := hrest.any_head? hrun.any_head?
      rwa [hc] at hstops
    rw [Text.words_append hrun hne, tokensFrom, if_neg (ne_quote_of_run hrun)]
    rw [Text.words_append hrun' hne, tokensFrom, if_neg (ne_quote_of_run hrun)] at htoken
    rcases List.mem_cons.1 htoken with rfl | htoken
    · exact .inl ⟨List.mem_cons_self, hname⟩
    · exact (ih htoken).imp_left (And.imp_left (List.mem_cons_of_mem _))
  | @replaced inCode word rest rest' hne hrun hname hrest ih =>
    rw [Text.words_append hrun hne, tokensFrom, if_neg (ne_quote_of_run hrun)]
    rw [Text.words_append_of_head? (hrest.any_head? hrun.any_head?),
      Literal.tokensFrom_append fun _ hword => Text.not_mem_of_mem_words hnew hword] at htoken
    rcases List.mem_append.1 htoken with htoken | htoken
    · obtain ⟨word, hword, rfl⟩ := List.mem_map.1 htoken
      exact .inr hword
    · exact (ih htoken).imp_left (And.imp_left (List.mem_cons_of_mem _))

/-- Quotes stay where they are, and no comment starts. -/
theorem splitComment (hne : new ≠ []) (hnew : ∀ c ∈ new, c ∉ Line.scanned)
    (h : Reworded names new inCode text text') {open? : Option Char} (hopen : Line.IsQuote open?)
    (hcode : (Line.splitCommentFrom open? text).2 = []) :
    (Line.splitCommentFrom open? text').2 = [] ∧
      Line.quoteBehind open? text' = Line.quoteBehind open? text := by
  have hword {word rest : List Char} (hrun : Text.Run Text.isWordChar word rest) :
      ∀ c ∈ word, c ∉ Line.scanned := by
    intro c hc hmem
    have hother := Line.isWordChar_of_mem_scanned hmem
    rw [hrun.all c hc] at hother
    cases hother
  induction h generalizing open? with
  | nil => exact ⟨rfl, rfl⟩
  | @other inCode c rest rest' hc hrest ih =>
    rw [Line.splitCommentFrom_cons_eq_nil_iff] at hcode ⊢
    obtain ⟨hnone, hquote⟩ := ih (hopen.quoteAfter c) hcode.2
    refine ⟨⟨?_, hnone⟩, hquote⟩
    rintro ⟨rfl, rfl, hhead⟩
    have hhyphen : '-' ∉ new := fun hmem => hnew '-' hmem (by decide)
    exact hcode.1 ⟨rfl, rfl, hrest.head?_eq_some hne hhyphen hhead⟩
  | @kept inCode word rest rest' _ hrun _ hrest ih =>
    rw [Line.splitCommentFrom_append_of_not_scanned hopen (hword hrun)] at hcode ⊢
    rw [Line.quoteBehind_append, Line.quoteBehind_append,
      Line.quoteBehind_of_not_scanned hopen (hword hrun)]
    exact ih hopen hcode
  | @replaced inCode word rest rest' _ hrun _ hrest ih =>
    rw [Line.splitCommentFrom_append_of_not_scanned hopen (hword hrun)] at hcode
    rw [Line.splitCommentFrom_append_of_not_scanned hopen hnew, Line.quoteBehind_append,
      Line.quoteBehind_append, Line.quoteBehind_of_not_scanned hopen (hword hrun),
      Line.quoteBehind_of_not_scanned hopen hnew]
    exact ih hopen hcode

end Reworded

/-! ### One rule -/

variable {r s : Renaming} {ctx : Context} {line : List Char}

/-- A rule leaves a line alone that has none of its names. -/
theorem edit?_eq_none_iff (h : r ∈ renamings) :
    r.rule.edit? ctx line = none ↔ ∀ token ∈ tokens line, isNamedToken r.names token = false := by
  rw [edit?_of_mem_renamings h, Option.map_eq_none_iff, List.find?_eq_none]
  simp

/-- The new words hold none of the characters that a line is scanned for. -/
theorem new_spec : ∀ r ∈ renamings, r.new.toList ≠ [] ∧ (∀ c ∈ r.new.toList, c ∉ Line.scanned) ∧
    '[' ∉ r.new.toList ∧ Identifier.backtick ∉ r.new.toList ∧ '\n' ∉ r.new.toList := by
  have hall : ∀ r ∈ renamings, r.new.toList ≠ [] ∧
      (r.new.toList.all fun c => !Line.scanned.contains c) = true ∧
      '[' ∉ r.new.toList ∧ Identifier.backtick ∉ r.new.toList ∧ '\n' ∉ r.new.toList := by
    decide +kernel
  intro r hr
  obtain ⟨hne, hscanned, hothers⟩ := hall r hr
  exact ⟨hne, fun c hc => by simpa using List.all_eq_true.1 hscanned c hc, hothers⟩

/-- None of the rules puts in a name of another one, or of its own. -/
theorem not_isNamed_new : ∀ r ∈ renamings, ∀ s ∈ renamings, ∀ word ∈ Text.words r.new.toList,
    isNamed s.names word = false := by
  decide +kernel

theorem isBare_rename (h : r ∈ renamings) (hline : Line.IsBare line) :
    Line.IsBare (rename r.names r.new.toList line) := by
  obtain ⟨p, hp, -⟩ := exists_readsWords h
  obtain ⟨hne, hscanned, hbracket, hbacktick, hfeed⟩ := new_spec r h
  have hreworded := reworded_rename hp r.new.toList line
  have hopen : Line.IsQuote none := nofun
  obtain ⟨hcode, hquote⟩ := hreworded.splitComment hne hscanned hopen hline.isCode
  have hnot {c : Char} (hc : c ∉ line) (hnew : c ∉ r.new.toList) :
      c ∉ rename r.names r.new.toList line := fun hmem => (hreworded.mem hmem).elim hc hnew
  exact ⟨hcode, hquote.trans hline.isClosed, hnot hline.bracket hbracket, hnot hline.backtick hbacktick,
    hnot hline.lineFeed hfeed⟩

/-- A name that is left in the line was there before, and is not one of those that were replaced. -/
theorem mem_tokens_of_rename (hr : r ∈ renamings) (hs : s ∈ renamings) {token : Token}
    (htoken : token ∈ tokens (rename r.names r.new.toList line))
    (hnamed : isNamedToken s.names token = true) :
    token ∈ tokens line ∧ isNamedToken r.names token = false := by
  obtain ⟨p, hp, -⟩ := exists_readsWords hr
  have hquote : '\'' ∉ r.new.toList := fun hmem => (new_spec r hr).2.1 _ hmem (by decide)
  refine ((reworded_rename hp _ line).mem_tokens hp hquote htoken).resolve_right fun hword => ?_
  rw [isNamedToken, not_isNamed_new r hr s hs _ hword, Bool.and_false] at hnamed
  cases hnamed

/-- A name is a word. -/
theorem word_of_isNamedToken (h : r ∈ renamings) {token : Token}
    (hnamed : isNamedToken r.names token = true) :
    token.text ≠ [] ∧ ∀ c ∈ token.text, Text.isWordChar c = true := by
  obtain ⟨p, hp, -⟩ := exists_readsWords h
  obtain ⟨name, hname, hspells⟩ :=
    (isNamed_iff hp.hasPlainCase).1 ((Bool.and_eq_true _ _).mp hnamed).2
  exact ⟨hspells.ne_nil (hp.isName name hname), hspells.isWordChar (hp.isName name hname)⟩

/-- White space at the end of a line adds no words to it. -/
theorem mem_tokens_append_iff {blanks : List Char} (hblanks : ∀ c ∈ blanks, Text.isBlank c = true)
    {token : Token} (hne : token.text ≠ []) (hword : ∀ c ∈ token.text, Text.isWordChar c = true)
    (text : List Char) : token ∈ tokens (text ++ blanks) ↔ token ∈ tokens text := by
  have hhead : blanks.head?.any Text.isWordChar = false := by
    cases blanks with
    | nil => rfl
    | cons c blanks => exact Text.isWordChar_of_isBlank (hblanks c List.mem_cons_self)
  obtain ⟨inCode, hsplit⟩ :=
    Literal.exists_tokensFrom_append true (Text.words text) (Text.words blanks)
  rw [tokens, Text.words_append_of_head? hhead, hsplit, List.mem_append, ← tokens]
  refine or_iff_left fun htoken => ?_
  obtain ⟨c, rest, hcons⟩ := List.exists_cons_of_ne_nil hne
  have hmem : c ∈ token.text := hcons ▸ List.mem_cons_self
  have hblank : Text.isBlank c = true := by
    refine hblanks c ?_
    rw [← List.flatten_splitBy (fun a b => Text.isWordChar a && Text.isWordChar b) blanks]
    exact List.mem_flatten_of_mem (Literal.text_mem_of_mem_tokensFrom htoken) hmem
  have hc := hword c hmem
  rw [Text.isWordChar_of_isBlank hblank] at hc
  cases hc

/-- White space at the end makes no difference to a rule. -/
theorem edit?_trimEnd_append {blanks : List Char} (h : r ∈ renamings)
    (hblanks : ∀ c ∈ blanks, Text.isBlank c = true) (hline : r.rule.edit? ctx line = none)
    (ctx' : Context) : r.rule.edit? ctx' (Text.trimEnd line ++ blanks) = none := by
  rw [edit?_eq_none_iff h] at hline ⊢
  obtain ⟨old, hold, holdBlank⟩ := Text.exists_eq_trimEnd_append line
  intro token htoken
  by_contra hnamed
  rw [Bool.not_eq_false] at hnamed
  obtain ⟨hne, hword⟩ := word_of_isNamedToken h hnamed
  have hmem : token ∈ tokens line := by
    rw [hold, mem_tokens_append_iff holdBlank hne hword]
    exact (mem_tokens_append_iff hblanks hne hword _).1 htoken
  rw [hline token hmem] at hnamed
  cases hnamed

/-- A rule leaves none of its own names, and brings in none of another rule. -/
theorem edit?_rename_eq_none (hr : r ∈ renamings) (hs : s ∈ renamings)
    (hline : s = r ∨ s.rule.edit? ctx line = none) :
    s.rule.edit? ctx (rename r.names r.new.toList line) = none := by
  rw [edit?_eq_none_iff hs]
  intro token htoken
  by_contra hnamed
  rw [Bool.not_eq_false] at hnamed
  obtain ⟨hold, hother⟩ := mem_tokens_of_rename hr hs htoken hnamed
  rcases hline with rfl | hline
  · rw [hnamed] at hother
    cases hother
  · rw [(edit?_eq_none_iff hs).1 hline token hold] at hnamed
    cases hnamed

/-! ### A pass of rules -/

/-- **A pass of such rules goes through all of them and leaves nothing for any of them.**  The line keeps
its quotes and its comment, and the remark says nothing but words. -/
theorem run_renamings {rules : List Rule} (hrules : ∀ rule ∈ rules, ∃ r ∈ renamings, r.rule = rule)
    {pass : Pass} (hline : Line.IsBare pass.line) (hremark : pass.remark.IsWords)
    (hcontrol : pass.control = .proceed) :
    let after := Pass.run ctx pass rules
    Line.IsBare after.line ∧ after.remark.IsWords ∧ after.control = .proceed ∧
      (∀ rule ∈ rules, rule.edit? ctx after.line = none) ∧
      ∀ s ∈ renamings, s.rule.edit? ctx pass.line = none → s.rule.edit? ctx after.line = none := by
  induction rules generalizing pass with
  | nil => exact ⟨hline, hremark, hcontrol, by simp, fun _ _ h => h⟩
  | cons rule rest ih =>
    rw [List.forall_mem_cons] at hrules
    obtain ⟨⟨r, hr, rfl⟩, hrest⟩ := hrules
    cases hedit : r.rule.edit? ctx pass.line with
    | none =>
      obtain ⟨hbare, hwords, hproceed, hnone, hkept⟩ := ih hrest hline hremark hcontrol
      rw [Pass.run_cons_of_none _ hedit]
      exact ⟨hbare, hwords, hproceed, List.forall_mem_cons.2 ⟨hkept r hr hedit, hnone⟩, hkept⟩
    | some edit =>
      have hsame := hedit
      rw [edit?_of_mem_renamings hr] at hsame
      obtain ⟨first, hfirst, rfl⟩ := Option.map_eq_some_iff.1 hsame
      obtain ⟨hne, hword⟩ := word_of_isNamedToken hr (List.find?_some hfirst)
      have hnext : Line.IsBare (pass.apply r.rule (.changed (rename r.names r.new.toList pass.line)
          first.text)).line := isBare_rename hr hline
      obtain ⟨hbare, hwords, hproceed, hnone, hkept⟩ := ih hrest hnext (hremark.push hne hword) rfl
      rw [Pass.run_cons_of_proceed _ hedit rfl]
      exact ⟨hbare, hwords, hproceed,
        List.forall_mem_cons.2 ⟨hkept r hr (edit?_rename_eq_none hr hr (.inl rfl)), hnone⟩,
        fun s hs hold => hkept s hs (edit?_rename_eq_none hr hs (.inr hold))⟩

end WordMap

end SqlDialect
