import SqlDialect.Proofs.Pattern.Group
import SqlDialect.Proofs.Pattern.Scan
import SqlDialect.Proofs.Pattern.Word
import SqlDialect.Proofs.Rule.Repetition
import SqlDialect.Proofs.Text.Run

/-!
# Casts of zero dates

The defaults that are a zero date or a zero timestamp get a cast, by one rule each.  A default has one
way to be read (`ZeroDefault.eq_of_append_eq`) and no other one starts within it, so what a rule does is
described from left to right (`ZeroDefault.Casts`), and the two rules together are one pass over both
kinds of defaults (`ZeroDefault.Casts.trans`).

A default gets a cast if it is followed by white space, a comma or the end of the line, and only then
(`ZeroDefault.sweep_casts`): not in front of a parenthesis, and once more if a cast is behind the white
space (`ZeroDefault.sweep_leaves`).
-/

namespace SqlDialect

open Pattern

/-- The two kinds of zero defaults. -/
inductive ZeroKind where
  /-- A date. -/
  | date
  /-- A date and a time. -/
  | timestamp
deriving Repr, DecidableEq

namespace ZeroKind

/-- The cast to the type. -/
def cast : ZeroKind → List Char
  | date => "::DATE".toList
  | timestamp => "::TIMESTAMP".toList

/-- What is between the quotes: zeros, and for a time perhaps a fraction of zeros. -/
def IsBody : ZeroKind → List Char → Prop
  | date, body => body = "0000-00-00".toList
  | timestamp, body => ∃ fraction, body = "0000-00-00 00:00:00".toList ++ fraction ∧
      (fraction = [] ∨ ∃ zeros, fraction = '.' :: zeros ∧ ∀ c ∈ zeros, c = '0')

/-- The default, as the rule about the kind searches for it. -/
def clause : ZeroKind → Pattern
  | date => Rule.zeroDate
  | timestamp => Rule.zeroTimestamp

/-- The rule. -/
def rule : ZeroKind → Rule
  | date => .defaultZeroDate
  | timestamp => .defaultZeroTimestamp

end ZeroKind

/-- A default `DEFAULT '0000-00-00'`, in its parts. -/
@[ext]
structure ZeroDefault where
  /-- Whether it has a time. -/
  kind : ZeroKind
  /-- The word `DEFAULT`. -/
  word : List Char
  /-- White space behind the word. -/
  gap : List Char
  /-- What is between the quotes. -/
  body : List Char
  word_eq : Spells "DEFAULT" word
  gap_blank : ∀ c ∈ gap, Text.isBlank c = true
  body_eq : kind.IsBody body

namespace ZeroDefault

/-- The default in the line. -/
def text (d : ZeroDefault) : List Char := d.word ++ (d.gap ++ '\'' :: (d.body ++ ['\'']))

/-- Whether a default is cast in front of the character. -/
def isOpenChar (c : Char) : Bool := Text.isBlank c || c == ','

/-- Whether a default is cast in front of the text. -/
def isOpen (rest : List Char) : Bool := rest.head?.all isOpenChar

variable {d d' : ZeroDefault} {kind : ZeroKind} {rest rest' line new text : List Char}
  {before behind : Option Char}

/-! ### One way to read a default -/

theorem isZeroChar_of_mem_body (d : ZeroDefault) {c : Char} (hc : c ∈ d.body) :
    c ∈ "0-:. ".toList := by
  have hbody := d.body_eq
  have hdate : "0000-00-00".toList.all ("0-:. ".toList.contains ·) = true := by decide
  have htime : "0000-00-00 00:00:00".toList.all ("0-:. ".toList.contains ·) = true := by decide
  revert hbody
  cases d.kind with
  | date =>
    intro hbody
    have hbody : d.body = "0000-00-00".toList := hbody
    rw [hbody] at hc
    exact List.contains_iff_mem.1 (List.all_eq_true.1 hdate c hc)
  | timestamp =>
    rintro ⟨fraction, hbody, hfraction⟩
    rw [hbody, List.mem_append] at hc
    rcases hc with hc | hc
    · exact List.contains_iff_mem.1 (List.all_eq_true.1 htime c hc)
    · rcases hfraction with rfl | ⟨zeros, rfl, hzero⟩
      · cases hc
      · rcases List.mem_cons.1 hc with rfl | hc
        · decide
        · rw [hzero c hc]
          decide

theorem quote_not_mem_body (d : ZeroDefault) : '\'' ∉ d.body :=
  fun hmem => absurd (d.isZeroChar_of_mem_body hmem) (by decide)

/-- The two kinds have different bodies. -/
theorem kind_eq_of_body_eq (h : d.body = d'.body) : d.kind = d'.kind := by
  have hne {d d' : ZeroDefault} (hd : d.kind = .date) (hd' : d'.kind = .timestamp) :
      d.body ≠ d'.body := by
    have hdate : d.body = "0000-00-00".toList := by
      have := d.body_eq
      rwa [hd] at this
    obtain ⟨fraction, htime, -⟩ : ZeroKind.timestamp.IsBody d'.body := hd' ▸ d'.body_eq
    intro h
    have hlength := congrArg List.length h
    rw [hdate, htime, List.length_append] at hlength
    have hshort : "0000-00-00".toList.length < "0000-00-00 00:00:00".toList.length := by decide
    omega
  cases hd : d.kind <;> cases hd' : d'.kind
  · rfl
  · exact absurd h (hne hd hd')
  · exact absurd h.symm (hne hd' hd)
  · rfl

theorem text_append (d : ZeroDefault) (rest : List Char) :
    d.text ++ rest = d.word ++ (d.gap ++ '\'' :: (d.body ++ '\'' :: rest)) := by
  simp [ZeroDefault.text]

/-- **There is one default at most at a place.** -/
theorem eq_of_append_eq (h : d.text ++ rest = d'.text ++ rest') : d = d' ∧ rest = rest' := by
  have run (d : ZeroDefault) (rest : List Char) : Text.Run Text.isBlank d.gap ('\'' :: rest) :=
    ⟨d.gap_blank, fun c hc => by
      obtain rfl := Option.some.inj hc
      decide⟩
  rw [text_append, text_append] at h
  obtain ⟨hword, h⟩ := List.append_inj h (d.word_eq.length_eq.trans d'.word_eq.length_eq.symm)
  obtain ⟨hgap, h⟩ := (run d _).eq_of_append_eq (run d' _) h
  obtain ⟨hbody, h⟩ := (Text.Run.of_not_mem d.quote_not_mem_body).eq_of_append_eq
    (.of_not_mem d'.quote_not_mem_body) (List.cons_eq_cons.1 h).2
  exact ⟨ZeroDefault.ext (kind_eq_of_body_eq hbody) hword hgap hbody, (List.cons_eq_cons.1 h).2⟩

theorem getLast?_text (d : ZeroDefault) (before : Option Char) :
    d.text.getLast?.or before = some '\'' := by
  have : d.text = (d.word ++ (d.gap ++ '\'' :: d.body)) ++ ['\''] := by simp [ZeroDefault.text]
  rw [this, List.getLast?_concat, Option.some_or]

/-- A default starts with two letters, and no other character of it is like the first. -/
theorem exists_cons_cons (d : ZeroDefault) : ∃ c e s, d.text = c :: e :: s ∧ Text.foldCase c = 'd' ∧
    Text.foldCase e = 'e' ∧ ∀ x ∈ e :: s, Text.foldCase x ≠ 'd' := by
  have hword := d.word_eq
  obtain ⟨c, e, w, hw⟩ : ∃ c e w, d.word = c :: e :: w := by
    obtain ⟨c, w, hw⟩ := List.exists_cons_of_length_eq_add_one (n := 6) hword.length_eq
    obtain ⟨e, w, rfl⟩ := List.exists_cons_of_length_eq_add_one (l := w) (n := 5) (by
      have := hword.length_eq
      rw [hw] at this
      exact Nat.succ.inj this)
    exact ⟨c, e, w, hw⟩
  rw [hw] at hword
  have hc : Text.foldCase c = 'd' := List.head_eq_of_cons_eq hword
  have htail : (e :: w).map Text.foldCase = "efault".toList := List.tail_eq_of_cons_eq hword
  refine ⟨c, e, w ++ (d.gap ++ '\'' :: (d.body ++ ['\''])), by rw [ZeroDefault.text, hw]; rfl, hc,
    List.head_eq_of_cons_eq htail, fun x hx hfold => ?_⟩
  have hletters : 'd' ∉ "efault".toList := by decide
  have hzeros : ('\'' :: "0-:. ".toList).all (Text.foldCase · != 'd') = true := by decide
  rcases List.mem_append.1 (List.cons_append ▸ hx : x ∈ (e :: w) ++ _) with hx | hx
  · exact hletters (htail ▸ hfold ▸ List.mem_map_of_mem hx)
  rcases List.mem_append.1 hx with hx | hx
  · have hblank := Text.isBlank_foldCase x
    rw [hfold, d.gap_blank x hx] at hblank
    exact absurd hblank (by decide)
  · refine bne_iff_ne.1 (List.all_eq_true.1 hzeros x ?_) hfold
    rcases List.mem_cons.1 hx with rfl | hx
    · exact List.mem_cons_self
    rcases List.mem_append.1 hx with hx | hx
    · exact List.mem_cons_of_mem _ (d.isZeroChar_of_mem_body hx)
    · exact List.mem_cons.2 (.inl (List.mem_singleton.1 hx))

/-! ### Matches -/

/-- A fraction of zeros. -/
theorem reads_fraction_iff : (optional (char '.' ++ star (char '0'))).Reads before text behind ↔
    text = [] ∨ ∃ zeros, text = '.' :: zeros ∧ ∀ c ∈ zeros, c = '0' := by
  have hzero (c : Char) : (CharSet.exactly '0').mem c = true ↔ c = '0' := by
    simp [CharSet.exactly, CharSet.mem]
  constructor
  · rintro (⟨point, zeros, rfl, hpoint, hzeros⟩ | hnil)
    · rw [reads_char_iff.1 hpoint]
      exact .inr ⟨zeros, rfl, fun c hc => (hzero c).1 (reads_star_one_iff.1 hzeros c hc)⟩
    · exact .inl (List.forall₂_nil_left_iff.1 hnil)
  · rintro (rfl | ⟨zeros, rfl, hzeros⟩)
    · exact .inr .nil
    · exact .inl ⟨['.'], zeros, rfl, reads_char_iff.2 rfl,
        reads_star_one_iff.2 fun c hc => (hzero c).2 (hzeros c hc)⟩

theorem reads_clause_iff : kind.clause.Reads before text behind ↔
    ∃ d : ZeroDefault, d.kind = kind ∧ d.text = text := by
  have hword {before behind : Option Char} {word : List Char} :
      (keyword "DEFAULT").Reads before word behind ↔ Spells "DEFAULT" word :=
    reads_keyword_iff (by decide)
  cases kind with
  | date =>
    constructor
    · rintro ⟨_, literal, rfl, ⟨word, gap, rfl, hdefault, hgap⟩, hliteral⟩
      obtain rfl := ((reads_keyword_iff (by decide)).1 hliteral).eq_of_isUncased (by decide)
      exact ⟨⟨.date, word, gap, "0000-00-00".toList, hword.1 hdefault, reads_star_one_iff.1 hgap, rfl⟩,
        rfl, by simp [ZeroDefault.text]⟩
    · rintro ⟨⟨kind, word, gap, body, hdefault, hgap, hbody⟩, rfl, rfl⟩
      obtain rfl : body = "0000-00-00".toList := hbody
      exact ⟨word ++ gap, "'0000-00-00'".toList, by simp [ZeroDefault.text],
        ⟨word, gap, rfl, hword.2 hdefault, reads_star_one_iff.2 hgap⟩,
        (reads_keyword_iff (by decide)).2 rfl⟩
  | timestamp =>
    constructor
    · rintro ⟨_, close, rfl, ⟨_, fraction, rfl, ⟨_, literal, rfl, ⟨word, gap, rfl, hdefault, hgap⟩,
        hliteral⟩, hfraction⟩, hclose⟩
      obtain rfl := ((reads_keyword_iff (by decide)).1 hliteral).eq_of_isUncased (by decide)
      rw [reads_char_iff.1 hclose]
      exact ⟨⟨.timestamp, word, gap, "0000-00-00 00:00:00".toList ++ fraction, hword.1 hdefault,
        reads_star_one_iff.1 hgap, fraction, rfl, reads_fraction_iff.1 hfraction⟩, rfl,
        by simp [ZeroDefault.text]⟩
    · rintro ⟨⟨kind, word, gap, body, hdefault, hgap, hbody⟩, rfl, rfl⟩
      obtain ⟨fraction, rfl, hfraction⟩ := hbody
      exact ⟨word ++ gap ++ "'0000-00-00 00:00:00".toList ++ fraction, ['\''],
        by simp [ZeroDefault.text], ⟨word ++ gap ++ "'0000-00-00 00:00:00".toList, fraction, rfl,
          ⟨word ++ gap, "'0000-00-00 00:00:00".toList, rfl,
            ⟨word, gap, rfl, hword.2 hdefault, reads_star_one_iff.2 hgap⟩,
            (reads_keyword_iff (by decide)).2 rfl⟩, reads_fraction_iff.2 hfraction⟩,
        reads_char_iff.2 rfl⟩

theorem reads_afterDefault_iff : Rule.afterDefault.Reads before text behind ↔
    (∃ c, text = [c] ∧ isOpenChar c = true) ∨ text = [] ∧ behind = none := by
  constructor
  · rintro (hblank | hcomma | hend)
    · obtain ⟨c, rest, hc, hrest, rfl⟩ := List.forall₂_cons_left_iff.1 hblank
      obtain rfl := List.forall₂_nil_left_iff.1 hrest
      have hc : Text.isBlank c = true := hc
      exact .inl ⟨c, rfl, by rw [isOpenChar, hc, Bool.true_or]⟩
    · exact .inl ⟨',', reads_char_iff.1 hcomma, rfl⟩
    · exact .inr hend
  · rintro (⟨c, rfl, hc⟩ | hend)
    · rcases (Bool.or_eq_true _ _).mp hc with hblank | hcomma
      · exact .inl (.cons hblank .nil)
      · obtain rfl := beq_iff_eq.1 hcomma
        exact .inr (.inl (reads_char_iff.2 rfl))
    · exact .inr (.inr hend)

theorem head?_text (d : ZeroDefault) (next : Option Char) :
    (d.text.head?.or next).any Text.isWordChar = true := by
  obtain ⟨c, e, s, htext, hc, -⟩ := d.exists_cons_cons
  rw [htext, List.head?_cons, Option.some_or, Option.any_some, ← Text.isWordChar_foldCase, hc]
  decide

/-- What is read up to the place where the cast is put. -/
theorem reads_front_iff {name : String} :
    (boundary ++ group name kind.clause).Reads before text behind ↔
      before.any Text.isWordChar = false ∧ ∃ d : ZeroDefault, d.kind = kind ∧ d.text = text := by
  constructor
  · rintro ⟨_, text, rfl, ⟨rfl, hstart⟩, hclause⟩
    obtain ⟨d, hkind, rfl⟩ := reads_clause_iff.1 hclause
    rw [d.head?_text] at hstart
    exact ⟨by simpa using hstart, d, hkind, rfl⟩
  · rintro ⟨hbefore, d, hkind, rfl⟩
    refine ⟨[], d.text, rfl, ⟨rfl, ?_⟩, reads_clause_iff.2 ⟨d, hkind, rfl⟩⟩
    rw [d.head?_text, hbefore]
    rfl

theorem reads_pattern_iff : (Rule.uncast kind.clause).Reads before text behind ↔
    before.any Text.isWordChar = false ∧ ∃ (d : ZeroDefault) (after : List Char), d.kind = kind ∧
      text = d.text ++ after ∧
      ((∃ c, after = [c] ∧ isOpenChar c = true) ∨ after = [] ∧ behind = none) := by
  constructor
  · rintro ⟨_, after, rfl, hfront, hafter⟩
    obtain ⟨hbefore, d, hkind, rfl⟩ := reads_front_iff.1 hfront
    exact ⟨hbefore, d, after, hkind, rfl, reads_afterDefault_iff.1 hafter⟩
  · rintro ⟨hbefore, d, after, hkind, rfl, hafter⟩
    exact ⟨d.text, after, rfl, reads_front_iff.2 ⟨hbefore, d, hkind, rfl⟩,
      reads_afterDefault_iff.2 hafter⟩

/-- **A match is a default with the character behind it**, if there is one. -/
theorem exists_of_matchAt {index : Nat} {m : Match}
    (h : (Rule.uncast kind.clause).matchAt ⟨before, index, line⟩ = some m) :
    ∃ (d : ZeroDefault) (rest : List Char), d.kind = kind ∧ line = d.text ++ rest ∧
      before.any Text.isWordChar = false ∧ isOpen rest = true ∧ m.text = d.text ++ rest.take 1 ∧
      Rule.addCast kind.cast m = d.text ++ (kind.cast ++ rest.take 1) := by
  obtain ⟨rest', hrest, hreads⟩ := reads_of_matchAt h
  obtain ⟨hbefore, d, after, hkind, htext, hafter⟩ := reads_pattern_iff.1 hreads
  -- a default ends in one place only, and so the first group is the default
  have hclause : m.textOf "clause" = d.text := by
    have haround : (Rule.uncast kind.clause).around "clause" =
        some (boundary ++ empty, kind.clause, empty ++ Rule.afterDefault) := by
      cases kind <;> rfl
    obtain ⟨s, u, rest, -, hsplit, hparts⟩ := exists_parts_of_matchAt haround h
    obtain ⟨_, _, rfl, ⟨rfl, -⟩, hempty⟩ := hparts.reads_left
    obtain rfl := List.forall₂_nil_left_iff.1 hempty
    obtain ⟨d', -, hd'⟩ := reads_clause_iff.1 hparts.reads_group
    rw [htext, ← hd'] at hsplit
    obtain ⟨rfl, -⟩ := eq_of_append_eq hsplit
    exact hd'.symm
  have hlast : m.textOf "after" = after := by
    have haround : (Rule.uncast kind.clause).around "after" = some
        (boundary ++ group "clause" kind.clause ++ empty, one .blank <|> char ',' <|> lineEnd, empty) := by
      cases kind <;> rfl
    obtain ⟨s, u, rest, -, hsplit, hparts⟩ := exists_parts_of_matchAt haround h
    obtain ⟨front, _, rfl, hfront, hempty⟩ := hparts.reads_left
    obtain rfl := List.forall₂_nil_left_iff.1 hempty
    obtain rfl := List.forall₂_nil_left_iff.1 hparts.reads_right
    obtain ⟨-, d', -, hd'⟩ := reads_front_iff.1 hfront
    rw [htext, ← hd', List.append_nil, List.append_nil] at hsplit
    exact (eq_of_append_eq hsplit).2.symm
  have htake : (after ++ rest').take 1 = after ∧ isOpen (after ++ rest') = true := by
    rcases hafter with ⟨c, rfl, hc⟩ | ⟨rfl, hend⟩
    · exact ⟨rfl, hc⟩
    · rw [List.head?_eq_none_iff.1 hend]
      exact ⟨rfl, rfl⟩
  refine ⟨d, after ++ rest', hkind, ?_, hbefore, htake.2, ?_, ?_⟩
  · rw [← List.append_assoc, ← htext]
    exact hrest
  · rw [htake.1, htext]
  · rw [htake.1, Rule.addCast, hclause, hlast, List.append_assoc]

/-- Where nothing matches, no default is cast. -/
theorem isOpen_eq_false_of_matchAt {index : Nat}
    (h : (Rule.uncast kind.clause).matchAt ⟨before, index, d.text ++ rest⟩ = none) (hkind : d.kind = kind)
    (hbefore : before.any Text.isWordChar = false) : isOpen rest = false := by
  rw [matchAt_eq_none_iff] at h
  cases rest with
  | nil =>
    refine absurd ?_ (h (d.text ++ []) [] (List.append_nil _).symm)
    exact reads_pattern_iff.2 ⟨hbefore, d, [], hkind, rfl, .inr ⟨rfl, rfl⟩⟩
  | cons c rest =>
    by_contra hopen
    have hc : isOpenChar c = true := by simpa [isOpen] using hopen
    exact h (d.text ++ [c]) rest (by simp)
      (reads_pattern_iff.2 ⟨hbefore, d, [c], hkind, rfl, .inl ⟨c, rfl, hc⟩⟩)

/-! ### The scan of a line -/

/-- A default that is cast starts at the place, behind `before`. -/
def CastsAt (among : ZeroKind → Prop) (before : Option Char) (line : List Char) : Prop :=
  before.any Text.isWordChar = false ∧ ∃ (d : ZeroDefault) (rest : List Char), among d.kind ∧
    line = d.text ++ rest ∧ isOpen rest = true

/-- How the rest of a line, behind `before`, goes together with what it becomes when the defaults of some
kinds are cast. -/
inductive Casts (among : ZeroKind → Prop) : Option Char → List Char → List Char → Prop
  | nil (before : Option Char) : Casts among before [] []
  /-- A character at which no default is cast. -/
  | keep {before : Option Char} {c : Char} {rest new : List Char}
      (hnone : ¬CastsAt among before (c :: rest)) (more : Casts among (some c) rest new) :
      Casts among before (c :: rest) (c :: new)
  /-- A default that is cast. -/
  | cast {before : Option Char} {rest new : List Char} (d : ZeroDefault) (hkind : among d.kind)
      (hbefore : before.any Text.isWordChar = false) (hopen : isOpen rest = true)
      (more : Casts among (some '\'') rest new) :
      Casts among before (d.text ++ rest) (d.text ++ (d.kind.cast ++ new))

/-- Whether no default starts in the text, whatever follows it: that is told by two letters. -/
def isQuiet : List Char → Bool
  | [] => true
  | [c] => Text.foldCase c != 'd'
  | c :: e :: s => (Text.foldCase c != 'd' || Text.foldCase e != 'e') && isQuiet (e :: s)

theorem isQuiet_of_forall (h : ∀ c ∈ text, Text.foldCase c ≠ 'd') : isQuiet text = true := by
  induction text using isQuiet.induct with
  | case1 => rfl
  | case2 c => simpa [isQuiet] using h c
  | case3 c e s ih =>
    have hc : (Text.foldCase c != 'd') = true := bne_iff_ne.2 (h c List.mem_cons_self)
    rw [isQuiet, hc, ih fun c hc => h c (List.mem_cons_of_mem _ hc)]
    rfl

theorem isQuiet_cons {c : Char} {s : List Char} (h : isQuiet (c :: s) = true) : isQuiet s = true := by
  cases s with
  | nil => rfl
  | cons e s => exact ((Bool.and_eq_true _ _).mp h).2

theorem ne_of_isQuiet {c : Char} {s : List Char} (h : isQuiet (c :: s) = true) (d : ZeroDefault)
    (r rest : List Char) : c :: (s ++ rest) ≠ d.text ++ r := by
  obtain ⟨c', e, t, htext, hc, he, -⟩ := d.exists_cons_cons
  rw [htext]
  intro heq
  obtain ⟨rfl, htail⟩ := List.cons_eq_cons.1 heq
  cases s with
  | nil => exact absurd hc (bne_iff_ne.1 h)
  | cons e' s =>
    obtain ⟨rfl, -⟩ := List.cons_eq_cons.1 htail
    have := ((Bool.and_eq_true _ _).mp h).1
    rw [hc, he] at this
    exact absurd this (by decide)

theorem isQuiet_append {s : List Char} (hs : isQuiet (s ++ text) = true) : isQuiet text = true := by
  induction s with
  | nil => exact hs
  | cons c s ih => exact ih (isQuiet_cons hs)

theorem isQuiet_cast (kind : ZeroKind) : isQuiet kind.cast = true := by
  cases kind <;> decide

/-- Behind the first character of a default, no other one starts. -/
theorem exists_eq_cons (d : ZeroDefault) : ∃ c s, d.text = c :: s ∧ Text.foldCase c = 'd' ∧
    isQuiet s = true ∧ s.getLast?.or (some c) = some '\'' := by
  obtain ⟨c, e, s, htext, hc, -, htail⟩ := d.exists_cons_cons
  refine ⟨c, e :: s, htext, hc, isQuiet_of_forall htail, ?_⟩
  rw [← getLast?_cons_or c (e :: s) none, ← htext, d.getLast?_text]

variable {among : ZeroKind → Prop}

/-- Where a default is cast in front of a text, none starts with the text. -/
theorem not_castsAt_of_isOpen (h : isOpen line = true) : ¬CastsAt among before line := by
  rintro ⟨-, d, rest, -, rfl, -⟩
  obtain ⟨c, s, htext, hc, -⟩ := d.exists_eq_cons
  have hopen : isOpenChar c = true := by
    rw [htext] at h
    exact h
  rcases (Bool.or_eq_true _ _).mp hopen with hblank | hcomma
  · rw [← Text.isBlank_foldCase, hc] at hblank
    exact absurd hblank (by decide)
  · rw [beq_iff_eq.1 hcomma] at hc
    exact absurd hc (by decide)

namespace Casts

theorem eq_nil (h : Casts among before [] new) : new = [] := by
  generalize hline : ([] : List Char) = line at h
  cases h with
  | nil => rfl
  | keep => cases hline
  | cast d =>
    obtain ⟨c, s, htext, -⟩ := d.exists_eq_cons
    rw [htext] at hline
    cases hline

/-- A character at which no default is cast is kept. -/
theorem of_not_castsAt {c : Char} (h : Casts among before (c :: rest) new)
    (hnone : ¬CastsAt among before (c :: rest)) :
    ∃ new', new = c :: new' ∧ Casts among (some c) rest new' := by
  generalize hline : c :: rest = line at h
  cases h with
  | nil => cases hline
  | keep _ more =>
    obtain ⟨rfl, rfl⟩ := List.cons_eq_cons.1 hline
    exact ⟨_, rfl, more⟩
  | cast d hkind hbefore hopen _ => exact absurd ⟨hbefore, d, _, hkind, hline, hopen⟩ hnone

/-- A default that is cast. -/
theorem of_castsAt (h : Casts among before (d.text ++ rest) new) (hkind : among d.kind)
    (hbefore : before.any Text.isWordChar = false) (hopen : isOpen rest = true) :
    ∃ new', new = d.text ++ (d.kind.cast ++ new') ∧ Casts among (some '\'') rest new' := by
  generalize hline : d.text ++ rest = line at h
  cases h with
  | nil =>
    obtain ⟨c, s, htext, -⟩ := d.exists_eq_cons
    rw [htext] at hline
    cases hline
  | keep hnone _ => exact absurd ⟨hbefore, d, rest, hkind, hline.symm, hopen⟩ hnone
  | cast d' _ _ _ more =>
    obtain ⟨rfl, rfl⟩ := eq_of_append_eq hline
    exact ⟨_, rfl, more⟩

/-- A text in which no default starts is kept. -/
theorem exists_quiet {s : List Char} (h : Casts among before (s ++ rest) new)
    (hs : isQuiet s = true) :
    ∃ new', new = s ++ new' ∧ Casts among (s.getLast?.or before) rest new' := by
  induction s generalizing before new with
  | nil => exact ⟨new, rfl, h⟩
  | cons c s ih =>
    obtain ⟨new, rfl, more⟩ := h.of_not_castsAt (by
      rintro ⟨-, d, r, -, heq, -⟩
      exact ne_of_isQuiet hs d r rest heq)
    obtain ⟨new', rfl, more'⟩ := ih more (isQuiet_cons hs)
    rw [getLast?_cons_or]
    exact ⟨new', rfl, more'⟩

/-- A text in which no default starts has been kept. -/
theorem exists_quiet_result {s : List Char} (h : Casts among before line (s ++ new))
    (hs : isQuiet s = true) :
    ∃ rest, line = s ++ rest ∧ Casts among (s.getLast?.or before) rest new := by
  induction s generalizing before line with
  | nil => exact ⟨line, rfl, h⟩
  | cons c s ih =>
    generalize hnew : c :: s ++ new = result at h
    cases h with
    | nil => cases hnew
    | keep _ more =>
      obtain ⟨rfl, rfl⟩ := List.cons_eq_cons.1 hnew
      obtain ⟨rest, rfl, more'⟩ := ih more (isQuiet_cons hs)
      rw [getLast?_cons_or]
      exact ⟨rest, rfl, more'⟩
    | cast d => exact absurd hnew (ne_of_isQuiet hs d _ new)

/-- A default that is not cast is kept. -/
theorem of_text (h : Casts among before (d.text ++ rest) new)
    (hnone : ¬CastsAt among before (d.text ++ rest)) :
    ∃ new', new = d.text ++ new' ∧ Casts among (some '\'') rest new' := by
  obtain ⟨c, s, htext, -, hs, hlast⟩ := d.exists_eq_cons
  rw [htext] at h hnone ⊢
  obtain ⟨new, rfl, more⟩ := h.of_not_castsAt hnone
  obtain ⟨new', rfl, more'⟩ := more.exists_quiet hs
  rw [hlast] at more'
  exact ⟨new', rfl, more'⟩

/-- A default that has not been cast has been kept. -/
theorem of_text_result (h : Casts among before line (d.text ++ new))
    (hnone : ¬CastsAt among before line) :
    ∃ rest, line = d.text ++ rest ∧ Casts among (some '\'') rest new := by
  obtain ⟨c, s, htext, -, hs, hlast⟩ := d.exists_eq_cons
  rw [htext] at h ⊢
  generalize hnew : c :: s ++ new = result at h
  cases h with
  | nil => cases hnew
  | keep _ more =>
    obtain ⟨rfl, rfl⟩ := List.cons_eq_cons.1 hnew
    obtain ⟨rest, rfl, more'⟩ := more.exists_quiet_result hs
    rw [hlast] at more'
    exact ⟨rest, rfl, more'⟩
  | cast d' hkind hbefore hopen _ => exact absurd ⟨hbefore, d', _, hkind, rfl, hopen⟩ hnone

/-- A line starts as it did before. -/
theorem head?_eq (h : Casts among before line new) : new.head? = line.head? := by
  cases h with
  | nil => rfl
  | keep => rfl
  | cast d =>
    obtain ⟨c, s, htext, -⟩ := d.exists_eq_cons
    rw [htext]
    rfl

theorem isOpen_eq (h : Casts among before line new) : isOpen new = isOpen line := by
  rw [isOpen, isOpen, h.head?_eq]

/-- What stands before white space or a comma makes no difference. -/
theorem of_isOpen (h : Casts among before line new) (hopen : isOpen line = true)
    (before' : Option Char) : Casts among before' line new := by
  cases line with
  | nil =>
    obtain rfl := h.eq_nil
    exact .nil before'
  | cons c rest =>
    obtain ⟨new', rfl, more⟩ := h.of_not_castsAt (not_castsAt_of_isOpen hopen)
    exact .keep (not_castsAt_of_isOpen hopen) more

/-- **Two rules are one pass.**  The defaults of the one kind are cast, and behind that those of the other
kind, just as both are cast at once. -/
theorem trans {mid : List Char} (h : Casts (· = .date) before line mid)
    (h' : Casts (· = .timestamp) before mid new) : Casts (fun _ => True) before line new := by
  -- a default is passed over at once, and so the induction is on the length
  induction hlength : line.length using Nat.strong_induction_on generalizing before line mid new with
  | _ n ih =>
    subst hlength
    have hshort (d : ZeroDefault) (rest : List Char) : rest.length < (d.text ++ rest).length := by
      obtain ⟨c, s, htext, -⟩ := d.exists_eq_cons
      rw [htext, List.length_append]
      exact Nat.lt_add_of_pos_left (Nat.succ_pos _)
    cases h with
    | nil =>
      obtain rfl := h'.eq_nil
      exact .nil before
    | @keep _ c rest mid hnone more =>
      have h : Casts (· = .date) before (c :: rest) (c :: mid) := .keep hnone more
      by_cases hcasts : CastsAt (· = .timestamp) before (c :: mid)
      · -- the timestamp stood there before
        obtain ⟨hbefore, d, behind, hkind, hmid, hopen⟩ := hcasts
        rw [hmid] at h h'
        obtain ⟨rest', hline, more⟩ := h.of_text_result hnone
        obtain ⟨new', rfl, more'⟩ := h'.of_castsAt hkind hbefore hopen
        rw [hline] at ih ⊢
        exact .cast d trivial hbefore (more.isOpen_eq.symm.trans hopen)
          (ih _ (hshort d rest') more more' rfl)
      · obtain ⟨new', rfl, more'⟩ := h'.of_not_castsAt hcasts
        refine .keep ?_ (ih _ (Nat.lt_succ_self _) more more' rfl)
        rintro ⟨hbefore, d, rest', -, hline, hopen⟩
        cases hkind : d.kind with
        | date => exact hnone ⟨hbefore, d, rest', hkind, hline, hopen⟩
        | timestamp =>
          rw [hline] at h hnone
          obtain ⟨mid', hmid, more⟩ := h.of_text hnone
          exact hcasts ⟨hbefore, d, mid', hkind, hmid, more.isOpen_eq.trans hopen⟩
    | @cast _ rest mid d hkind hbefore hopen more =>
      -- the second rule does not see a default that the first one has cast
      have hnone : ¬CastsAt (· = .timestamp) before (d.text ++ (d.kind.cast ++ mid)) := by
        rintro ⟨-, d', rest', hkind', hline, -⟩
        obtain ⟨rfl, -⟩ := eq_of_append_eq hline
        rw [hkind] at hkind'
        cases hkind'
      obtain ⟨_, rfl, hcast⟩ := h'.of_text hnone
      obtain ⟨new, rfl, more'⟩ := hcast.exists_quiet (isQuiet_cast _)
      exact .cast d trivial hbefore hopen
        (ih _ (hshort d rest) more (more'.of_isOpen (more.isOpen_eq.trans hopen) _) rfl)

/-- **The rest of a line from a default on**, and what has become of it. -/
theorem exists_cut {front : List Char} (h : Casts among before (front ++ (d.text ++ rest)) new) :
    ∃ a more, new = a ++ more ∧ Casts among (front.getLast?.or before) (d.text ++ rest) more := by
  generalize hline : front ++ (d.text ++ rest) = line at h
  induction h generalizing front with
  | nil before =>
    obtain ⟨c, s, htext, -⟩ := d.exists_eq_cons
    simp [htext] at hline
  | @keep before c rest' new' hnone more ih =>
    cases front with
    | nil =>
      rw [List.nil_append] at hline
      exact ⟨[], _, rfl, hline ▸ .keep hnone more⟩
    | cons e front =>
      obtain ⟨rfl, htail⟩ := List.cons_eq_cons.1 hline
      obtain ⟨a, more', rfl, hmore⟩ := ih htail
      rw [getLast?_cons_or]
      exact ⟨e :: a, more', rfl, hmore⟩
  | @cast before rest' new' d' hkind hbefore hopen more ih =>
    by_cases hprefix : d'.text <+: front
    · obtain ⟨front, rfl⟩ := hprefix
      rw [List.append_assoc] at hline
      obtain ⟨a, more', rfl, hmore⟩ := ih (List.append_cancel_left hline)
      rw [getLast?_append_or, d'.getLast?_text]
      exact ⟨d'.text ++ (d'.kind.cast ++ a), more', by simp, hmore⟩
    cases front with
    | nil =>
      rw [List.nil_append] at hline
      exact ⟨[], _, rfl, hline ▸ .cast d' hkind hbefore hopen more⟩
    | cons e front =>
      -- the place would be within the default that is cast
      rcases List.append_eq_append_iff.1 hline with ⟨t, htext, hrest⟩ | ⟨_, htext, -⟩
      · cases t with
        | nil => exact absurd ⟨[], by rw [htext, List.append_nil, List.append_nil]⟩ hprefix
        | cons x t =>
          obtain ⟨c, s, htext', -, hs, -⟩ := d'.exists_eq_cons
          rw [htext'] at htext
          obtain ⟨-, rfl⟩ := List.cons_eq_cons.1 htext
          exact absurd hrest.symm (ne_of_isQuiet (isQuiet_append hs) d rest rest')
      · exact absurd ⟨_, htext.symm⟩ hprefix

end Casts

/-! ### The rules -/

/-- **What a search of a line does.** -/
theorem casts_editedFrom (kind : ZeroKind) (before : Option Char) (index : Nat) (line : List Char) :
    Casts (· = kind) before line ((Rule.uncast kind.clause).editedFrom
      (fun m => some (Rule.addCast kind.cast m)) before index line) := by
  induction hlength : line.length using Nat.strong_induction_on generalizing before index line with
  | _ n ih =>
    subst hlength
    cases hmatch : (Rule.uncast kind.clause).matchAt ⟨before, index, line⟩ with
    | none =>
      cases line with
      | nil => exact .nil before
      | cons c rest =>
        rw [editedFrom_cons hmatch]
        refine .keep ?_ (ih _ (Nat.lt_succ_self _) _ _ _ rfl)
        rintro ⟨hbefore, d, rest', hkind, hline, hopen⟩
        rw [hline] at hmatch
        rw [isOpen_eq_false_of_matchAt hmatch hkind hbefore] at hopen
        cases hopen
    | some m =>
      obtain ⟨d, rest, rfl, rfl, hbefore, hopen, htext, hcast⟩ := exists_of_matchAt hmatch
      obtain ⟨c, s, hd, -⟩ := d.exists_eq_cons
      have hne : m.text ≠ [] := by
        rw [htext, hd]
        exact List.cons_ne_nil _ _
      have hline : d.text ++ rest = m.text ++ rest.drop 1 := by
        rw [htext, List.append_assoc, List.take_append_drop]
      rw [hline] at hmatch ⊢
      rw [editedFrom_append hmatch hne, Option.getD_some, hcast, ← hline, List.append_assoc,
        List.append_assoc]
      refine .cast d rfl hbefore hopen ?_
      -- the character behind the default is no part of another one
      cases rest with
      | nil => exact .nil _
      | cons c rest =>
        have hlast : m.text.getLast?.or before = some c := by
          rw [htext]
          simp
        rw [hlast]
        refine .keep (not_castsAt_of_isOpen hopen) (ih rest.length ?_ _ _ _ rfl)
        rw [List.length_append, List.length_cons]
        omega

/-- **What a rule leaves of a line.** -/
theorem casts_edit (ctx : Context) (kind : ZeroKind) (line : List Char) :
    Casts (· = kind) none line (((kind.rule.edit? ctx line).map Edit.line).getD line) := by
  have hedit : kind.rule.edit? ctx line =
      Rule.replaceAnywhere (Rule.uncast kind.clause) (Rule.addCast kind.cast) (·.textOf "clause") line := by
    cases kind <;> rfl
  have hcasts := casts_editedFrom kind none 0 line
  rw [hedit, Rule.replaceAnywhere]
  cases hfind : (Rule.uncast kind.clause).find? line with
  | none =>
    rw [find?_eq] at hfind
    rwa [editedFrom_of_findFrom_eq_none hfind] at hcasts
  | some m =>
    rw [← replaceIn_eq_editedFrom] at hcasts
    exact hcasts

/-! ### Casts behind a default -/

/-- Whether a cast starts the text, behind white space. -/
def startsCast (text : List Char) : Bool := "::".toList.isPrefixOf (Text.trimStart text)

/-- Whether the text starts with the cast to the type of the kind, and no other one is behind that. -/
def hasOneCast (kind : ZeroKind) (text : List Char) : Bool :=
  kind.cast.isPrefixOf text && !startsCast (text.drop kind.cast.length)

theorem startsCast_cons (c : Char) (rest : List Char) :
    startsCast (c :: rest) =
      if Text.isBlank c then startsCast rest else c == ':' && rest.head? == some ':' := by
  rw [startsCast, Text.trimStart]
  by_cases hc : Text.isBlank c = true
  · rw [List.dropWhile_cons_of_pos hc, if_pos hc]
    rfl
  · rw [List.dropWhile_cons_of_neg hc, if_neg hc]
    have htwo : "::".toList = [':', ':'] := rfl
    rw [htwo, List.isPrefixOf_cons_cons, BEq.comm (b := c)]
    cases rest with
    | nil => rfl
    | cons d rest =>
      rw [List.isPrefixOf_cons_cons, List.isPrefixOf_nil_left, Bool.and_true, List.head?_cons,
        Option.some_beq_some, BEq.comm (b := d)]

theorem hasOneCast_append (kind : ZeroKind) (rest : List Char) :
    hasOneCast kind (kind.cast ++ rest) = !startsCast rest := by
  rw [hasOneCast, List.drop_left, List.isPrefixOf_iff_prefix.2 (List.prefix_append _ _), Bool.true_and]

namespace Casts

theorem startsCast_eq (h : Casts among before line new) : startsCast new = startsCast line := by
  induction line generalizing before new with
  | nil => rw [h.eq_nil]
  | cons c rest ih =>
    by_cases hcasts : CastsAt among before (c :: rest)
    · -- a letter comes first, before and behind
      obtain ⟨-, d, rest', -, hline, -⟩ := hcasts
      obtain ⟨e, s, htext, he, -⟩ := d.exists_eq_cons
      rw [htext] at hline
      obtain ⟨rfl, -⟩ := List.cons_eq_cons.1 hline
      obtain ⟨new, rfl⟩ := List.head?_eq_some_iff.1 h.head?_eq
      have hblank : ¬Text.isBlank c = true := by
        rw [← Text.isBlank_foldCase, he]
        decide
      have hcolon : (c == ':') = false := by
        rw [beq_eq_false_iff_ne]
        rintro rfl
        exact absurd he (by decide)
      rw [startsCast_cons, startsCast_cons, if_neg hblank, if_neg hblank, hcolon, Bool.false_and,
        Bool.false_and]
    · obtain ⟨new, rfl, more⟩ := h.of_not_castsAt hcasts
      rw [startsCast_cons, startsCast_cons, ih more, more.head?_eq]

theorem hasOneCast_eq (h : Casts among before line new) :
    hasOneCast kind new = hasOneCast kind line := by
  by_cases hline : kind.cast <+: line
  · obtain ⟨rest, rfl⟩ := hline
    obtain ⟨new, rfl, more⟩ := h.exists_quiet (isQuiet_cast kind)
    rw [hasOneCast_append, hasOneCast_append, more.startsCast_eq]
  · have hnew : ¬kind.cast <+: new := by
      rintro ⟨new, rfl⟩
      obtain ⟨rest, rfl, -⟩ := h.exists_quiet_result (isQuiet_cast kind)
      exact hline (List.prefix_append _ _)
    rw [hasOneCast, hasOneCast, Bool.eq_false_iff.2 (mt List.isPrefixOf_iff_prefix.1 hline),
      Bool.eq_false_iff.2 (mt List.isPrefixOf_iff_prefix.1 hnew), Bool.false_and, Bool.false_and]

end Casts

/-- What a default gets in front of a text. -/
def inserted (kind : ZeroKind) (rest : List Char) : List Char := if isOpen rest then kind.cast else []

/-- **Which defaults have one cast behind the two rules.**  A default gets a cast in front of white space, a
comma and the end of the line.  It is the only one if no cast is behind the white space; in front of
other text, a default has one cast if it had one before. -/
theorem sweep_casts (ctx : Context) (line : List Char) :
    Casts (fun _ => True) none line
        (Repetition.sweep ctx [.defaultZeroDate, .defaultZeroTimestamp] line) ∧
      ∀ (front : List Char) (d : ZeroDefault) (rest : List Char), line = front ++ (d.text ++ rest) →
        front.getLast?.any Text.isWordChar = false →
        ∃ a more, Repetition.sweep ctx [.defaultZeroDate, .defaultZeroTimestamp] line =
            a ++ (d.text ++ (inserted d.kind rest ++ more)) ∧
          Casts (fun _ => True) (some '\'') rest more ∧
          hasOneCast d.kind (inserted d.kind rest ++ more) =
            if isOpen rest then !startsCast rest else hasOneCast d.kind rest := by
  have hcasts : Casts (fun _ => True) none line
      (Repetition.sweep ctx [.defaultZeroDate, .defaultZeroTimestamp] line) :=
    (casts_edit ctx .date line).trans (casts_edit ctx .timestamp _)
  refine ⟨hcasts, ?_⟩
  rintro front d rest rfl hbefore
  obtain ⟨a, more, hline, hmore⟩ := hcasts.exists_cut
  rw [Option.or_none] at hmore
  rw [hline, inserted]
  by_cases hopen : isOpen rest = true
  · obtain ⟨new, rfl, hnew⟩ := hmore.of_castsAt trivial hbefore hopen
    rw [if_pos hopen, if_pos hopen]
    exact ⟨a, new, rfl, hnew, by rw [hasOneCast_append, hnew.startsCast_eq]⟩
  · have hnone : ¬CastsAt (fun _ => True) front.getLast? (d.text ++ rest) := by
      rintro ⟨-, d', rest', -, heq, hopen'⟩
      obtain ⟨rfl, rfl⟩ := eq_of_append_eq heq
      exact hopen hopen'
    obtain ⟨new, rfl, hnew⟩ := hmore.of_text hnone
    rw [if_neg hopen, if_neg hopen]
    exact ⟨a, new, rfl, hnew, hnew.hasOneCast_eq⟩

/-- **Not every default has one cast**: the last one of a table has none, and one with a cast behind white
space has two. -/
theorem sweep_leaves :
    let rules : List Rule := [.defaultZeroDate, .defaultZeroTimestamp]
    let front := "CREATE TABLE t (d DATE DEFAULT '0000-00-00'".toList
    (Repetition.sweep (.start none) rules (front ++ ");".toList) = front ++ ");".toList ∧
        hasOneCast .date ");".toList = false) ∧
      (Repetition.sweep (.start none) rules (front ++ " ::DATE);".toList) =
          front ++ "::DATE ::DATE);".toList ∧
        hasOneCast .date "::DATE ::DATE);".toList = false) := by
  decide

end ZeroDefault

end SqlDialect
