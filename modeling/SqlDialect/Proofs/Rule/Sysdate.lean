import SqlDialect.Proofs.Pattern.Word
import SqlDialect.Proofs.Rule.FirstChange
import SqlDialect.Proofs.Rule.Repetition
import SqlDialect.Proofs.Text.Case
import SqlDialect.Proofs.Text.Run

/-!
# All occurrences of `SYSDATE`

The rule about `SYSDATE` changes one occurrence at a time.  What it comes to when it is applied again
and again is said here without it: `Sysdate.replaceAll` reads the line once, from the left, and
replaces every bare word in code; `Sysdate.count` counts them.

* `Sysdate.exists_of_edit`, `Sysdate.not_bare_of_edit_eq_none` : the rule replaces the first bare word
  in code, if there is one.
* `Sysdate.count_of_edit` : that takes one bare word away and leaves all others as they are, since the
  words around it end where it starts and start where it ends.
* `Repetition.run_sysdate` : **the passes of the rule replace all at once**.
-/

namespace SqlDialect

namespace Sysdate

/-- Whether the text is the word, in whatever case. -/
def isWord (text : List Char) : Bool := text.map Text.foldCase == "sysdate".toList

/-- Whether an empty pair of parentheses starts the text, with white space before it or in it. -/
def startsCall (text : List Char) : Bool :=
  match Text.trimStart text with
  | '(' :: rest => (Text.trimStart rest).head? == some ')'
  | _ => false

/-- Whether the word starts the text on its own and is not called. -/
def startsBare (before : Option Char) (text : List Char) : Bool :=
  isWord (text.take 7) && !before.any Text.isWordChar && !(text.drop 7).head?.any Text.isWordChar &&
    !startsCall (text.drop 7)

/-- The number of bare words in the code of a text, where `inside` tells whether a literal is open
before it. -/
def countFrom (inside : Bool) (before : Option Char) : List Char → Nat
  | [] => 0
  | c :: rest =>
    (if !inside && startsBare before (c :: rest) then 1 else 0) +
      countFrom (if c == '\'' then !inside else inside) (some c) rest

/-- What takes the place of a bare word. -/
def replacement : List Char := "CURRENT_TIMESTAMP()".toList

/-- The text with every bare word in its code replaced.  The first `skip` characters belong to a
word that has been replaced already. -/
def replaceFrom : (skip : Nat) → (inside : Bool) → (before : Option Char) → List Char → List Char
  | _, _, _, [] => []
  | skip + 1, inside, _, c :: rest => replaceFrom skip inside (some c) rest
  | 0, inside, before, c :: rest =>
    if !inside && startsBare before (c :: rest) then
      replacement ++ replaceFrom 6 inside (some c) rest
    else c :: replaceFrom 0 (if c == '\'' then !inside else inside) (some c) rest

/-- The number of bare words in the code of the line. -/
def count (line : List Char) : Nat := countFrom false none line

/-- The line with every bare word in its code replaced, and nothing else. -/
def replaceAll (line : List Char) : List Char := replaceFrom 0 false none line

example : count "SELECT SYSDATE, sysdate (), 'SYSDATE', Sysdate(1)".toList = 2 ∧
    replaceAll "SELECT SYSDATE, sysdate (), 'SYSDATE', Sysdate(1)".toList =
      "SELECT CURRENT_TIMESTAMP(), sysdate (), 'SYSDATE', CURRENT_TIMESTAMP()(1)".toList := by
  decide

/-! ### Bare words -/

/-- The word on its own between `before` and `b`, and not called. -/
structure Bare (before : Option Char) (w b : List Char) : Prop where
  word : w.map Text.foldCase = "sysdate".toList
  starts : before.any Text.isWordChar = false
  ends : b.head?.any Text.isWordChar = false
  uncalled : startsCall b = false

variable {before : Option Char} {w b text : List Char}

theorem spells_iff : Pattern.Spells "SYSDATE" w ↔ w.map Text.foldCase = "sysdate".toList := by
  rw [Pattern.Spells, (by decide : "SYSDATE".toList.map Text.foldCase = "sysdate".toList)]

theorem Bare.length_eq (h : Bare before w b) : w.length = 7 := (spells_iff.2 h.word).length_eq

theorem startsBare_iff : startsBare before text = true ↔ ∃ w b, text = w ++ b ∧ Bare before w b := by
  constructor
  · intro h
    simp only [startsBare, isWord, Bool.and_eq_true, beq_iff_eq, Bool.not_eq_true'] at h
    obtain ⟨⟨⟨hword, hstarts⟩, hends⟩, hcall⟩ := h
    exact ⟨text.take 7, text.drop 7, (List.take_append_drop 7 text).symm,
      hword, hstarts, hends, hcall⟩
  · rintro ⟨w, b, rfl, h⟩
    rw [startsBare, List.take_left' h.length_eq, List.drop_left' h.length_eq, isWord, h.word,
      h.starts, h.ends, h.uncalled]
    rfl

theorem isWordChar_of_mem_word (h : w.map Text.foldCase = "sysdate".toList) {c : Char}
    (hc : c ∈ w) : Text.isWordChar c = true :=
  (spells_iff.2 h).isWordChar (by decide) c hc

/-- An empty pair of parentheses starts the text if and only if it can be read there. -/
theorem startsCall_iff : startsCall text = true ↔ ∃ s t rest, text = s ++ '(' :: (t ++ ')' :: rest) ∧
    (∀ c ∈ s, Text.isBlank c = true) ∧ ∀ c ∈ t, Text.isBlank c = true := by
  have run {s : List Char} {c : Char} {rest : List Char} (hs : ∀ c ∈ s, Text.isBlank c = true)
      (hc : Text.isBlank c = false) : Text.trimStart (s ++ c :: rest) = c :: rest :=
    Text.Run.dropWhile_eq ⟨hs, fun d hd => Option.some.inj hd ▸ hc⟩
  have cut (text : List Char) : ∃ s, text = s ++ Text.trimStart text ∧
      ∀ c ∈ s, Text.isBlank c = true :=
    ⟨text.takeWhile Text.isBlank, List.takeWhile_append_dropWhile.symm,
      fun c hc => List.mem_takeWhile_imp hc⟩
  constructor
  · intro h
    obtain ⟨s, hs, hblank⟩ := cut text
    rw [startsCall] at h
    split at h
    · rename_i rest hrest
      obtain ⟨t, ht, hblank'⟩ := cut rest
      obtain ⟨more, hmore⟩ := List.head?_eq_some_iff.1 (beq_iff_eq.1 h)
      rw [hmore] at ht
      exact ⟨s, t, more, by rw [← ht, ← hrest, ← hs], hblank, hblank'⟩
    · cases h
  · rintro ⟨s, t, rest, rfl, hs, ht⟩
    simp [startsCall, run hs (by decide : Text.isBlank '(' = false),
      run ht (by decide : Text.isBlank ')' = false)]

/-! ### The pattern of the rule -/

open Pattern

theorem reads_word_iff {before behind : Option Char} :
    (wholeWord "SYSDATE").Reads before w behind ↔
      w.map Text.foldCase = "sysdate".toList ∧ before.any Text.isWordChar = false ∧
        behind.any Text.isWordChar = false := by
  rw [reads_wholeWord_iff (by decide), spells_iff, and_left_comm]

theorem reads_call_iff {before behind : Option Char} :
    Rule.emptyCall.Reads before text behind ↔ ∃ s t, text = s ++ '(' :: (t ++ [')']) ∧
      (∀ c ∈ s, Text.isBlank c = true) ∧ ∀ c ∈ t, Text.isBlank c = true := by
  constructor
  · rintro ⟨_, close, rfl, ⟨_, t, rfl, ⟨s, opening, rfl, hs, hopening⟩, ht⟩, hclose⟩
    rw [reads_char_iff] at hopening hclose
    subst hopening hclose
    exact ⟨s, t, by simp, reads_star_one_iff.1 hs, reads_star_one_iff.1 ht⟩
  · rintro ⟨s, t, rfl, hs, ht⟩
    exact ⟨s ++ ['('] ++ t, [')'], by simp, ⟨s ++ ['('], t, rfl, ⟨s, ['('], rfl,
      reads_star_one_iff.2 hs, reads_char_iff.2 rfl⟩, reads_star_one_iff.2 ht⟩,
      reads_char_iff.2 rfl⟩

/-! ### The edits of the rule -/

/-- A match that is not a call is a bare word. -/
theorem bare_of_matchAt {index : Nat} {m : Match}
    (h : Rule.sysdateWord.matchAt ⟨before, index, m.text ++ b⟩ = some m) (hcall : m.has "call" = false) :
    Bare before m.text b := by
  obtain ⟨s, behind, hrest, hword, ⟨-, hs, huncalled⟩ | ⟨htrue, -⟩⟩ :=
    exists_of_matchAt_optional (by decide) h
  · subst hs
    obtain rfl : b = behind := List.append_cancel_left hrest
    obtain ⟨hw, hstarts, hends⟩ := reads_word_iff.1 hword
    refine ⟨hw, hstarts, hends, ?_⟩
    rw [← Bool.not_eq_true, startsCall_iff]
    rintro ⟨s, t, rest, rfl, hs, ht⟩
    exact huncalled (s ++ '(' :: (t ++ [')'])) rest (by simp)
      (reads_call_iff.2 ⟨s, t, rfl, hs, ht⟩)
  · rw [hcall] at htrue
    cases htrue

/-- The match of a bare word is not a call. -/
theorem has_eq_false_of_bare {index : Nat} {m : Match} (hbare : Bare before w b)
    (h : Rule.sysdateWord.matchAt ⟨before, index, w ++ b⟩ = some m) : m.has "call" = false := by
  obtain ⟨s, behind, hrest, hword, ⟨hfalse, -⟩ | ⟨-, t, rest, hbehind, -, hcall⟩⟩ :=
    exists_of_matchAt_optional (by decide) h
  · exact hfalse
  · obtain ⟨hs, -, -⟩ := reads_word_iff.1 hword
    have hlength : w.length = s.length := by
      have := congrArg List.length (hbare.word.trans hs.symm)
      rwa [List.length_map, List.length_map] at this
    obtain ⟨-, rfl⟩ := List.append_inj hrest hlength
    obtain ⟨u, v, rfl, hu, hv⟩ := reads_call_iff.1 hcall
    have hstarts : startsCall b = true :=
      startsCall_iff.2 ⟨u, v, rest, by simp [hbehind], hu, hv⟩
    rw [hbare.uncalled] at hstarts
    cases hstarts

variable {ctx : Context} {line : List Char}

/-- Every bare word in code is a match that can be changed. -/
theorem exists_changeable {a : List Char} (hclosed : Literal.isClosed a = true)
    (hbare : Bare a.getLast? w b) :
    ∃ m ∈ Rule.sysdateWord.matchesIn (a ++ (w ++ b)), m.start = a.length ∧
      Rule.Changeable (fun m => if m.has "call" then none else some replacement)
        (a ++ (w ++ b)) m := by
  have hreads : Rule.sysdateWord.Reads a.getLast? w b.head? :=
    ⟨w, [], (List.append_nil w).symm, reads_word_iff.2 ⟨hbare.word, hbare.starts, hbare.ends⟩,
      .inr .nil⟩
  obtain ⟨m, hm, hmatch⟩ := exists_mem_matchesIn_of_reads (by decide) (by decide)
    rfl hreads
  have hstart := start_eq_of_matchAt hmatch
  obtain ⟨c, w', rfl⟩ : ∃ c w', w = c :: w' :=
    List.exists_cons_of_length_pos (by rw [hbare.length_eq]; decide)
  have hc : c ≠ '\'' := by
    rintro rfl
    have := isWordChar_of_mem_word hbare.word List.mem_cons_self
    revert this
    decide
  refine ⟨m, hm, hstart, ?_, ?_⟩
  · rw [hstart, List.cons_append, Rule.inCode_append_cons]
    exact ⟨hc, hclosed⟩
  · dsimp only
    rw [has_eq_false_of_bare hbare hmatch]
    rfl

/-- **An edit of the rule** replaces the first bare word in code. -/
theorem exists_of_edit {edit : Edit} (h : Rule.sysdate.edit? ctx line = some edit) :
    ∃ a w b, line = a ++ (w ++ b) ∧ Literal.isClosed a = true ∧ Bare a.getLast? w b ∧
      edit.line = a ++ (replacement ++ b) ∧
      ∀ a' w' b', line = a' ++ (w' ++ b') → a'.length < a.length → Literal.isClosed a' = true →
        ¬Bare a'.getLast? w' b' := by
  obtain ⟨a, m, b, new, hline, -, hclosed, hmatch, hnew, hedit, hfirst⟩ :=
    Rule.exists_of_replaceFirst h
  split at hnew
  · cases hnew
  · rename_i hcall
    obtain rfl := Option.some.inj hnew
    refine ⟨a, m.text, b, hline, hclosed, bare_of_matchAt hmatch (by simpa using hcall), hedit, ?_⟩
    rintro a' w' b' hline' hlt hclosed' hbare
    obtain ⟨m', hm', hstart, hchangeable⟩ := exists_changeable hclosed' hbare
    rw [← hline'] at hm' hchangeable
    exact hfirst m' hm' (hstart ▸ hlt) hchangeable

/-- Without an edit, there is no bare word in code. -/
theorem not_bare_of_edit_eq_none (h : Rule.sysdate.edit? ctx line = none) {a : List Char}
    (hline : line = a ++ (w ++ b)) (hclosed : Literal.isClosed a = true) :
    ¬Bare a.getLast? w b := by
  intro hbare
  obtain ⟨m, hm, -, hchangeable⟩ := exists_changeable hclosed hbare
  rw [← hline] at hm hchangeable
  exact Rule.eq_none_of_replaceFirst h m hm hchangeable

/-! ### All bare words of a line -/

/-- No bare word starts in the code of `text`, which stands between `before` and `rest`. -/
def Free (inside : Bool) (before : Option Char) (text rest : List Char) : Prop :=
  ∀ a c b, text = a ++ c :: b → Literal.insideAfter inside a = false →
    startsBare (a.getLast?.or before) (c :: b ++ rest) = false

variable {inside : Bool} {rest : List Char}

/-- What holds no bare word is passed over. -/
theorem Free.passed (h : Free inside before text rest) :
    countFrom inside before (text ++ rest) =
        countFrom (Literal.insideAfter inside text) (text.getLast?.or before) rest ∧
      replaceFrom 0 inside before (text ++ rest) =
        text ++ replaceFrom 0 (Literal.insideAfter inside text) (text.getLast?.or before) rest := by
  induction text generalizing inside before with
  | nil =>
    rw [Literal.insideAfter]
    simp
  | cons c text ih =>
    have hhead : (!inside && startsBare before (c :: text ++ rest)) = false := by
      cases inside with
      | true => rfl
      | false => exact h [] c text rfl (by simp [Literal.insideAfter])
    obtain ⟨hcount, hreplace⟩ := @ih (some c) (if c == '\'' then !inside else inside) (by
      intro a d b htext hinside
      rw [← getLast?_cons_or c a before]
      exact h (c :: a) d b (by rw [htext]; rfl) (by rw [Literal.insideAfter_cons, hinside]))
    rw [Literal.insideAfter_cons, getLast?_cons_or]
    rw [List.cons_append] at hhead ⊢
    constructor
    · rw [countFrom, hhead, hcount]
      simp
    · rw [replaceFrom, hhead, hreplace]
      simp

/-- No bare word starts behind a word character. -/
theorem startsBare_of_isWordChar {c : Char} (hc : Text.isWordChar c = true) :
    startsBare (some c) text = false := by
  simp [startsBare, hc]

theorem startsBare_cons_of_not_isWordChar {c : Char} (hc : Text.isWordChar c = false) :
    startsBare before (c :: rest) = false := by
  rw [← Bool.not_eq_true, startsBare_iff]
  rintro ⟨w, b, hsplit, hbare⟩
  obtain ⟨d, w, rfl⟩ : ∃ d w', w = d :: w' :=
    List.exists_cons_of_length_pos (by rw [hbare.length_eq]; decide)
  obtain rfl : c = d := (List.cons.inj hsplit).1
  rw [isWordChar_of_mem_word hbare.word List.mem_cons_self] at hc
  cases hc

/-- What does not start with a word is the same behind any character. -/
theorem countFrom_congr (inside : Bool) (h : rest.head?.any Text.isWordChar = false)
    (x y : Option Char) :
    countFrom inside x rest = countFrom inside y rest ∧
      replaceFrom 0 inside x rest = replaceFrom 0 inside y rest := by
  cases rest with
  | nil => exact ⟨rfl, rfl⟩
  | cons c rest =>
    have hc : Text.isWordChar c = false := h
    rw [countFrom, countFrom, replaceFrom, replaceFrom, startsBare_cons_of_not_isWordChar hc,
      startsBare_cons_of_not_isWordChar hc]
    exact ⟨rfl, rfl⟩

theorem replaceFrom_append (text rest : List Char) (inside : Bool) (before : Option Char) :
    replaceFrom text.length inside before (text ++ rest) =
      replaceFrom 0 inside (text.getLast?.or before) rest := by
  induction text generalizing before with
  | nil => rfl
  | cons c text ih => rw [getLast?_cons_or, ← ih]; rfl

theorem not_mem_word (h : w.map Text.foldCase = "sysdate".toList) : '\'' ∉ w := by
  intro hmem
  have := isWordChar_of_mem_word h hmem
  revert this
  decide

/-- A bare word counts once. -/
theorem Bare.counted (h : Bare before w b) (x : Option Char) :
    countFrom false before (w ++ b) = countFrom false x b + 1 ∧
      replaceFrom 0 false before (w ++ b) = replacement ++ replaceFrom 0 false x b := by
  obtain ⟨c, w, rfl⟩ : ∃ c w', w = c :: w' :=
    List.exists_cons_of_length_pos (by rw [h.length_eq]; decide)
  have hquote := not_mem_word h.word
  have hhead : startsBare before (c :: (w ++ b)) = true := startsBare_iff.2 ⟨c :: w, b, rfl, h⟩
  have hlength : w.length = 6 := Nat.succ.inj h.length_eq
  have hc : (c == '\'') = false := by
    rw [beq_eq_false_iff_ne]
    rintro rfl
    exact hquote List.mem_cons_self
  -- no other word starts within the word, as each of its places is behind a letter
  have hfree : Free false (some c) w b := by
    intro a d more hw _
    have hmem : a.getLast?.getD c ∈ c :: w := by
      cases hlast : a.getLast? with
      | none => exact List.mem_cons_self
      | some e =>
        have hmem : e ∈ a := List.mem_of_getLast? hlast
        exact List.mem_cons_of_mem _ (hw ▸ List.mem_append_left _ hmem)
    have hor : a.getLast?.or (some c) = some (a.getLast?.getD c) := by
      cases a.getLast? <;> rfl
    rw [hor]
    exact startsBare_of_isWordChar (isWordChar_of_mem_word h.word hmem)
  have hinside : Literal.insideAfter false w = false :=
    Literal.insideAfter_of_not_mem (fun hmem => hquote (List.mem_cons_of_mem _ hmem)) false
  have hsame := countFrom_congr false h.ends (w.getLast?.or (some c)) x
  constructor
  · rw [List.cons_append, countFrom, hhead, hc]
    rw [if_neg Bool.false_ne_true, hfree.passed.1, hinside, hsame.1, Nat.add_comm]
    rfl
  · rw [List.cons_append, replaceFrom, hhead, ← hlength, replaceFrom_append, hsame.2]
    rfl

/-- The new text holds no bare word. -/
theorem free_replacement (inside : Bool) (before : Option Char) (rest : List Char) :
    Free inside before replacement rest := by
  intro a c b hsplit _
  have hstarts : ∀ n < replacement.length,
      ¬((replacement.drop n).take 2).map Text.foldCase <+: "sysdate".toList := by
    decide
  have hdrop : c :: b = replacement.drop a.length := by rw [hsplit, List.drop_left]
  have hlt : a.length < replacement.length := by
    rw [hsplit]
    simp
  rw [← Bool.not_eq_true, startsBare_iff]
  rintro ⟨w, b', htext, hbare⟩
  refine hstarts a.length hlt ?_
  -- the first two characters are the first two of the word, as far as there are two
  have htake : (c :: b).take 2 <+: c :: b ++ rest :=
    (List.take_prefix 2 _).trans (List.prefix_append _ _)
  have hprefix : (c :: b).take 2 <+: w := by
    refine List.prefix_of_prefix_length_le htake (htext ▸ List.prefix_append w b') ?_
    rw [hbare.length_eq]
    exact (List.length_take_le _ _).trans (by decide)
  rw [← hdrop, ← hbare.word]
  exact hprefix.map _

/-- A text without the character `c` that starts where `a` starts, and goes no further than `c`,
ends within `a`. -/
theorem exists_of_append_eq {a u v rest : List Char} {c : Char} (hc : c ∉ u)
    (h : u ++ rest = a ++ c :: v) : ∃ a', a = u ++ a' := by
  rcases List.append_eq_append_iff.1 h with ⟨a', ha, -⟩ | ⟨c', hu, hrest⟩
  · exact ⟨a', ha⟩
  · cases c' with
    | nil => exact ⟨[], by rw [hu]; simp⟩
    | cons d c' =>
      obtain rfl : c = d := (List.cons.inj hrest).1
      exact absurd (by rw [hu]; simp) hc

/-- A call does not go on into a word. -/
theorem startsCall_of_swap {a v v' : List Char} {c d : Char} (hc : Text.isWordChar c = true)
    (h : startsCall (a ++ c :: v) = true) : startsCall (a ++ d :: v') = true := by
  obtain ⟨s, t, rest, hsplit, hs, ht⟩ := startsCall_iff.1 h
  have hnot : c ∉ s ++ '(' :: (t ++ [')']) := by
    have hblank : ∀ {e}, Text.isBlank e = true → c ≠ e := by
      rintro e he rfl
      rw [Text.isWordChar_of_isBlank he] at hc
      cases hc
    simp only [List.mem_append, List.mem_cons, List.not_mem_nil, or_false, not_or]
    refine ⟨fun hmem => hblank (hs c hmem) rfl, ?_, fun hmem => hblank (ht c hmem) rfl, ?_⟩
    · rintro rfl
      revert hc
      decide
    · rintro rfl
      revert hc
      decide
  have hends : s ++ '(' :: (t ++ [')']) ++ rest = a ++ c :: v := by
    rw [hsplit]
    simp
  obtain ⟨a', rfl⟩ := exists_of_append_eq hnot hends
  exact startsCall_iff.2 ⟨s, t, a' ++ d :: v', by simp, hs, ht⟩

/-- The text before a bare word holds no bare word that it did not hold with the new text behind
it. -/
theorem Free.swap {a : List Char} (h : Free inside before a (w ++ b))
    (hbare : Bare (a.getLast?.or before) w b) : Free inside before a (replacement ++ b) := by
  intro a₁ c a₂ ha hinside
  rw [← Bool.not_eq_true, startsBare_iff]
  rintro ⟨u, v, hsplit, hu⟩
  -- no word comes to the end of `a`, since another one starts there
  have hlast : ∀ d ∈ (c :: a₂).getLast?, d ∉ u := by
    intro d hd hmem
    have hword := hbare.starts
    rw [ha, List.getLast?_append, Option.mem_def.1 hd, Option.some_or, Option.some_or,
      Option.any_some, isWordChar_of_mem_word hu.word hmem] at hword
    cases hword
  rcases List.append_eq_append_iff.1 hsplit with ⟨more, rfl, -⟩ | ⟨more, htext, rfl⟩
  · refine hlast _ (List.getLast?_eq_getLast_of_ne_nil (List.cons_ne_nil c a₂)) ?_
    exact List.mem_append_left _ (List.getLast_mem _)
  · cases more with
    | nil =>
      rw [List.append_nil] at htext
      refine hlast _ (List.getLast?_eq_getLast_of_ne_nil (List.cons_ne_nil c a₂)) ?_
      exact htext ▸ List.getLast_mem _
    | cons d more =>
      have hold := h a₁ c a₂ ha hinside
      rw [← Bool.not_eq_true, startsBare_iff] at hold
      refine hold ⟨u, d :: more ++ (w ++ b), by rw [htext]; simp, hu.word, hu.starts, hu.ends, ?_⟩
      obtain ⟨e, w, rfl⟩ : ∃ e w', w = e :: w' :=
        List.exists_cons_of_length_pos (by rw [hbare.length_eq]; decide)
      rw [← Bool.not_eq_true]
      intro hcall
      have hnew : startsCall (d :: more ++ (replacement ++ b)) = true :=
        startsCall_of_swap (isWordChar_of_mem_word hbare.word List.mem_cons_self) hcall
      rw [hu.uncalled] at hnew
      cases hnew

/-- An edit takes one bare word away, and no other. -/
theorem count_of_edit {edit : Edit} (h : Rule.sysdate.edit? ctx line = some edit) :
    count line = count edit.line + 1 ∧ replaceAll edit.line = replaceAll line := by
  obtain ⟨a, w, b, hline, hclosed, hbare, hedit, hfirst⟩ := exists_of_edit h
  have hinside : Literal.insideAfter false a = false := Literal.insideAfter_eq_false_iff.2 hclosed
  have hfree : Free false none a (w ++ b) := by
    intro a₁ c a₂ ha hopen
    rw [← Bool.not_eq_true, startsBare_iff, Option.or_none]
    rintro ⟨w', b', hsplit, hbare'⟩
    refine hfirst a₁ w' b' ?_ (by rw [ha]; simp) (Literal.insideAfter_eq_false_iff.1 hopen) hbare'
    rw [hline, ha, ← hsplit]
    simp
  have hnew : Literal.insideAfter false replacement = false := by decide
  have hold := hfree.passed
  have hswap := (hfree.swap (by rwa [Option.or_none])).passed
  have hword := hbare.counted (some ')')
  have hreplaced := (free_replacement false a.getLast? b).passed
  rw [hinside, Option.or_none] at hold hswap
  have hlast : replacement.getLast?.or a.getLast? = some ')' := rfl
  rw [hnew, hlast] at hreplaced
  constructor
  · rw [count, count, hline, hedit, hold.1, hswap.1, hword.1, hreplaced.1]
  · rw [replaceAll, replaceAll, hline, hedit, hold.2, hswap.2, hword.2, hreplaced.2]

/-- Where nothing is edited, there is nothing to be replaced. -/
theorem count_of_edit_eq_none (h : Rule.sysdate.edit? ctx line = none) :
    count line = 0 ∧ replaceAll line = line := by
  have hfree : Free false none line [] := by
    intro a c b hline hinside
    rw [← Bool.not_eq_true, startsBare_iff, Option.or_none, List.append_nil]
    rintro ⟨w, b', hsplit, hbare⟩
    exact not_bare_of_edit_eq_none h (hline.trans (congrArg (a ++ ·) hsplit))
      (Literal.insideAfter_eq_false_iff.1 hinside) hbare
  have := hfree.passed
  rw [List.append_nil] at this
  exact ⟨this.1, this.2.trans (List.append_nil line)⟩

section Passes

variable (ctx : Context)

theorem edit_eq_none_iff : Rule.sysdate.edit? ctx line = none ↔ count line = 0 := by
  refine ⟨fun h => (count_of_edit_eq_none h).1, fun h => ?_⟩
  by_contra hne
  obtain ⟨edit, hedit⟩ := Option.ne_none_iff_exists'.1 hne
  rw [(count_of_edit hedit).1] at h
  cases h

theorem rests_iff : Repetition.Rests ctx [Rule.sysdate] line ↔ count line = 0 := by
  rw [← edit_eq_none_iff ctx]
  simp [Repetition.Rests]

/-- Each pass takes one bare word away, as long as there are any. -/
theorem count_iterate_sweep {k : Nat} (hk : k ≤ count line) :
    count ((Repetition.sweep ctx [Rule.sysdate])^[k] line) + k = count line ∧
      replaceAll ((Repetition.sweep ctx [Rule.sysdate])^[k] line) = replaceAll line := by
  induction k with
  | zero => exact ⟨rfl, rfl⟩
  | succ k ih =>
    obtain ⟨hcount, hreplace⟩ := ih (Nat.le_of_succ_le hk)
    rw [Function.iterate_succ_apply']
    generalize (Repetition.sweep ctx [Rule.sysdate])^[k] line = now at hcount hreplace ⊢
    have hne : Rule.sysdate.edit? ctx now ≠ none := by
      rw [Ne, edit_eq_none_iff]
      omega
    obtain ⟨edit, hedit⟩ := Option.ne_none_iff_exists'.1 hne
    obtain ⟨hless, hsame⟩ := count_of_edit hedit
    have hsweep : Repetition.sweep ctx [Rule.sysdate] now = edit.line := by
      simp [Repetition.sweep, hedit]
    rw [hsweep]
    exact ⟨by omega, hsame.trans hreplace⟩

end Passes

theorem countFrom_le_length (inside : Bool) (before : Option Char) (text : List Char) :
    countFrom inside before text ≤ text.length := by
  induction text generalizing inside before with
  | nil => exact Nat.le_refl 0
  | cons c text ih =>
    have := ih (if c == '\'' then !inside else inside) (some c)
    rw [countFrom, List.length_cons]
    split <;> omega

end Sysdate

namespace Repetition

/-- The repeated rules without the other one. -/
def sysdateOnly : List Rule := (RuleSet.without ["DATE001"]).repeated

theorem sysdateOnly_eq : sysdateOnly = [Rule.sysdate] := rfl

/-- **One at a time is all at once**: the rule by itself replaces the bare words of a line one in each
pass, in one pass more than there are, and leaves the line with all of them replaced and nothing else
changed. -/
theorem run_sysdate (ctx : Context) (line : List Char) (remark : Remark)
    (h : Sysdate.count line ≤ 255) :
    (run ctx sysdateOnly line remark).converged = true ∧
      (run ctx sysdateOnly line remark).passes = Sysdate.count line + 1 ∧
      (run ctx sysdateOnly line remark).hits = List.replicate (Sysdate.count line) "DATE002" ∧
      (run ctx sysdateOnly line remark).line = Sysdate.replaceAll line := by
  have hbusy : ∀ k < Sysdate.count line, ¬Rests ctx [Rule.sysdate]
      ((sweep ctx [Rule.sysdate])^[k] line) := by
    intro k hk
    have := (Sysdate.count_iterate_sweep ctx hk.le).1
    rw [Sysdate.rests_iff]
    omega
  obtain ⟨hcount, hreplace⟩ := Sysdate.count_iterate_sweep ctx (Nat.le_refl (Sysdate.count line))
  have hzero : Sysdate.count ((sweep ctx [Rule.sysdate])^[Sysdate.count line] line) = 0 := by
    omega
  have hrests := (Sysdate.rests_iff ctx).2 hzero
  have hlimit : Sysdate.count line < passLimit 1 line := by
    have hlength : Sysdate.count line ≤ line.length := Sysdate.countFrom_le_length false none line
    have hoctets := length_le_octets line
    rw [passLimit_eq Nat.one_ne_zero, Nat.div_one, maxPasses]
    omega
  rw [sysdateOnly_eq, run_eq_passesUpTo (List.cons_ne_nil _ _)]
  generalize hstate : (⟨line, remark, [], 0, true⟩ : Repetition) = state
  obtain rfl : state.line = line := by rw [← hstate]
  obtain ⟨hline, hpasses, hconverged⟩ := passesUpTo_of_rests hlimit hbusy hrests
  have hhits := hits_passesUpTo_of_rests hlimit hbusy hrests
  refine ⟨?_, ?_, ?_, ?_⟩
  · exact hconverged.trans (by rw [← hstate])
  · refine hpasses.trans ?_
    rw [← hstate, Nat.zero_add]
  · refine hhits.trans ?_
    rw [← hstate]
    rfl
  · rw [List.length_singleton, hline, ← hreplace]
    exact (Sysdate.count_of_edit_eq_none ((Sysdate.edit_eq_none_iff ctx).2 hzero)).2.symm

theorem run_sysdate_twice :
    let line := "SELECT SYSDATE, 'SYSDATE', sysdate (), Sysdate;".toList
    Sysdate.count line ≤ 255 ∧ (run (.start none) sysdateOnly line .empty).passes = 3 ∧
      (run (.start none) sysdateOnly line .empty).line =
        "SELECT CURRENT_TIMESTAMP(), 'SYSDATE', sysdate (), CURRENT_TIMESTAMP();".toList := by
  intro line
  have hcount : Sysdate.count line = 2 := by decide
  have hle : Sysdate.count line ≤ 255 := by rw [hcount]; decide
  obtain ⟨-, hpasses, -, hline⟩ := run_sysdate (.start none) line .empty hle
  exact ⟨hle, by rw [hpasses, hcount], hline.trans (by decide)⟩

end Repetition

end SqlDialect
