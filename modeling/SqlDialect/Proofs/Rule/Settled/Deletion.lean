import SqlDialect.Proofs.Pattern.Preference
import SqlDialect.Proofs.Rule.Settled
import SqlDialect.Rule.Catalogue

/-!
# Rules that delete text

Where text is deleted, what stood before it comes to stand before what stood behind it, and the two
may make up a new match.  They do not if what reads on behind the gap would have read the deleted text
as well (`Pattern.Deletable`): then the match would have started further left in the first place.

The attributes that are deleted consist of white space, a word, and maybe a name behind it.
-/

namespace SqlDialect

namespace Pattern

variable {p lead word : Pattern} {before behind : Option Char} {text : List Char}
  {wanted : List Char → Prop} {edit : Match → Option (List Char)}

/-- Whether the character is part of a word. -/
def inWord (c? : Option Char) : Bool := c?.any Text.isWordChar

/-- The conditions under which deleting the matches gives rise to no match. -/
structure Deletable (p : Pattern) : Prop where
  /-- No word goes on behind a match. -/
  ends : ∀ {place : Cursor} {m : Match} {rest : List Char}, p.matchAt place = some m →
    place.rest = m.text ++ rest → inWord rest.head? = false
  /-- What does not start with a word is read behind any character. -/
  starts : ∀ {before before' behind : Option Char} {c : Char} {text : List Char},
    inWord (some c) = false → p.Reads before (c :: text) behind → p.Reads before' (c :: text) behind
  /-- What goes on behind the gap, or ends there, has a match that reaches into the deleted text. -/
  spans : ∀ {before behind behind' : Option Char} {kept more text : List Char}, kept ≠ [] →
    p.Reads before (kept ++ more) behind → inWord (more.head?.or behind) = false →
    p.Reads (kept.getLast?.or before) text behind' → inWord behind' = false →
    ∃ found rest, kept ++ text = found ++ rest ∧ found ≠ [] ∧
      p.Reads before found (rest.head?.or behind')

namespace Deletable

variable {m : Match} {line new old : List Char}

theorem inWord_behind (h : p.Deletable) (hswap : p.Swap edit before m old text) :
    inWord old.head? = false := by
  obtain ⟨index, hmatch⟩ := hswap.exists_matchAt
  exact h.ends hmatch rfl

/-- No word starts where none has started, since the matches end outside words. -/
theorem inWord_of_rewritten (h : p.Deletable) (hedit : ∀ {m text}, edit m = some text → text = [])
    (hline : p.Rewritten wanted edit before line new) (hword : inWord line.head? = false) :
    inWord new.head? = false := by
  induction hline with
  | nil => exact hword
  | keep => exact hword
  | swap hswap _ ih =>
    rw [hedit hswap.edit_eq, List.nil_append]
    exact ih (h.inWord_behind hswap)

theorem inert (h : p.Deletable) (hedit : ∀ {m text}, edit m = some text → text = []) :
    p.Inert (fun _ => True) edit where
  start hswap _ hne := absurd (hedit hswap.edit_eq) hne
  within hswap _ _ _ htext ha _ := by
    rw [hedit hswap.edit_eq] at htext
    exact absurd (List.append_eq_nil_iff.1 htext.symm).1 ha
  behind hswap hrest hskips := by
    intro found rest hnew hne hreads _
    obtain ⟨c, found, rfl⟩ := List.exists_cons_of_ne_nil hne
    have hc : inWord (some c) = false := by
      have := h.inWord_of_rewritten hedit hrest (h.inWord_behind hswap)
      rwa [hnew, List.cons_append, List.head?_cons] at this
    exact hskips _ rest hnew hne (h.starts hc hreads) trivial
  into := by
    intro before kept m old text new hswap hrest hkept hskips found rest hline hle hreads _
    rw [hedit hswap.edit_eq, List.nil_append] at hline
    obtain ⟨more, rfl⟩ : ∃ more, found = kept ++ more := by
      obtain ⟨more, hmore⟩ := List.prefix_of_prefix_length_le
        (List.prefix_append _ _) (hline ▸ List.prefix_append found rest) hle
      exact ⟨more, hmore.symm⟩
    rw [List.append_assoc, List.append_cancel_left_eq] at hline
    have hbehind := h.inWord_behind hswap
    have hnew := h.inWord_of_rewritten hedit hrest hbehind
    rw [hline, List.head?_append] at hnew
    obtain ⟨found, rest', hsplit, hne, hfound⟩ := h.spans hkept hreads hnew hswap.reads hbehind
    refine hskips found (rest' ++ old) ?_ hne ?_ trivial
    · rw [← List.append_assoc, hsplit, List.append_assoc]
    · rwa [List.head?_append]

end Deletable

/-! ### White space and a word -/

theorem inWord_getLast?_or (hne : text ≠ []) (h : ∀ c ∈ text, Text.isWordChar c = true)
    (before : Option Char) : inWord (text.getLast?.or before) = true := by
  rw [List.getLast?_eq_getLast_of_ne_nil hne, Option.some_or]
  exact h _ (List.getLast_mem hne)

theorem inWord_head?_or (hne : text ≠ []) (h : ∀ c ∈ text, Text.isWordChar c = true)
    (behind : Option Char) : inWord (text.head?.or behind) = true := by
  obtain ⟨c, text, rfl⟩ := List.exists_cons_of_ne_nil hne
  exact h c List.mem_cons_self

theorem inWord_of_isBlank (hne : text ≠ []) (h : ∀ c ∈ text, Text.isBlank c = true)
    (before : Option Char) : inWord (text.getLast?.or before) = false := by
  rw [List.getLast?_eq_getLast_of_ne_nil hne, Option.some_or]
  exact Text.isWordChar_of_isBlank (h _ (List.getLast_mem hne))

/-- The pattern reads the white space before a word: some of it, or all there is to keep the word
apart. -/
structure IsLead (lead : Pattern) : Prop where
  blank : ∀ {before behind text}, lead.Reads before text behind → ∀ c ∈ text, Text.isBlank c = true
  reads : ∀ {before behind text}, text ≠ [] → (∀ c ∈ text, Text.isBlank c = true) →
    inWord behind = true → lead.Reads before text behind
  ne_nil : ∀ {before behind text}, lead.Reads before text behind → inWord before = true →
    inWord behind = true → text ≠ []

theorem isLead_gap : IsLead gap where
  blank h := (reads_plus_one_iff.1 h).2
  reads hne hblank _ := reads_plus_one_iff.2 ⟨hne, hblank⟩
  ne_nil h _ _ := (reads_plus_one_iff.1 h).1

theorem isLead_blanks : IsLead (blanks ++ boundary) where
  blank := by
    rintro before behind _ ⟨s, _, rfl, hs, rfl, -⟩
    rw [List.append_nil]
    exact reads_star_one_iff.1 hs
  reads {before behind text} hne hblank hbehind := by
    refine ⟨text, [], (List.append_nil text).symm, reads_star_one_iff.2 hblank, rfl, ?_⟩
    have hbefore := inWord_of_isBlank hne hblank before
    rw [inWord] at hbefore hbehind
    rw [hbefore, hbehind]
    rfl
  ne_nil := by
    rintro before behind _ ⟨s, _, rfl, hs, rfl, hboundary⟩ hbefore hbehind hnil
    rw [List.append_nil] at hnil
    rw [hnil, List.getLast?_nil, Option.none_or] at hboundary
    rw [inWord] at hbefore hbehind
    rw [hbefore, hbehind] at hboundary
    cases hboundary

/-- A word that is read wherever it stands. -/
structure IsWord (word : Pattern) : Prop where
  free : word.isFree = true
  wordy : word.isWordy = true
  visible : word.readsEmpty = false

namespace IsWord

theorem ne_nil (hw : IsWord word) (h : word.Reads before text behind) : text ≠ [] := by
  rintro rfl
  exact not_reads_nil hw.visible _ _ h

theorem isWordChar (hw : IsWord word) (h : word.Reads before text behind) :
    ∀ c ∈ text, Text.isWordChar c = true :=
  fun _ hc => isWordChar_of_isWordy hw.wordy h hc

theorem inWord_head? (hw : IsWord word) (h : word.Reads before text behind) (next : Option Char) :
    inWord (text.head?.or next) = true :=
  inWord_head?_or (hw.ne_nil h) (hw.isWordChar h) next

end IsWord

/-- A text that is cut where no word goes on is not cut right before a word. -/
theorem exists_of_inWord {kept more first rest : List Char}
    (h : kept ++ more = first ++ rest) (hmore : inWord (more.head?.or behind) = false)
    (hrest : inWord (rest.head?.or behind) = true) :
    (∃ c more', first = kept ++ c :: more') ∨
      ∃ kept', kept' ≠ [] ∧ kept = first ++ kept' ∧ rest = kept' ++ more := by
  rcases List.append_eq_append_iff.1 h with ⟨a, rfl, rfl⟩ | ⟨a, rfl, rfl⟩
  · cases a with
    | nil =>
      rw [List.nil_append] at hmore
      rw [hmore] at hrest
      cases hrest
    | cons c a => exact .inl ⟨c, a, rfl⟩
  · cases a with
    | nil =>
      rw [List.nil_append] at hrest
      rw [hmore] at hrest
      cases hrest
    | cons c a => exact .inr ⟨c :: a, List.cons_ne_nil c a, rfl, rfl⟩

/-- A word is cut where no word goes on only at its end. -/
theorem eq_nil_of_inWord {kept more : List Char}
    (hword : ∀ c ∈ kept ++ more, Text.isWordChar c = true)
    (hmore : inWord (more.head?.or behind) = false) : more = [] := by
  by_contra hne
  rw [inWord_head?_or hne fun c hc => hword c (List.mem_append_right _ hc)] at hmore
  cases hmore

theorem reads_word_iff (hw : IsWord word) :
    (lead ++ word).Reads before text behind ↔
      ∃ b k, text = b ++ k ∧ lead.Reads before b k.head? ∧ word.Reads none k none := by
  constructor
  · rintro ⟨b, k, rfl, hb, hk⟩
    refine ⟨b, k, rfl, ?_, reads_of_isFree hw.free hk _ _⟩
    obtain ⟨c, k, rfl⟩ := List.exists_cons_of_ne_nil (hw.ne_nil hk)
    exact hb
  · rintro ⟨b, k, rfl, hb, hk⟩
    refine ⟨b, k, rfl, ?_, reads_of_isFree hw.free hk _ _⟩
    obtain ⟨c, k, rfl⟩ := List.exists_cons_of_ne_nil (hw.ne_nil hk)
    exact hb

/-- White space and a word, of which the first part is cut off, are read with more white space
before the word. -/
theorem reads_word_append (hl : IsLead lead) (hw : IsWord word) {kept : List Char}
    (hkept : kept ≠ []) (hblank : ∀ c ∈ kept, Text.isBlank c = true)
    {before before' behind behind' : Option Char} (h : (lead ++ word).Reads before text behind) :
    (lead ++ word).Reads before' (kept ++ text) behind' := by
  obtain ⟨b, k, rfl, hb, hk⟩ := (reads_word_iff hw).1 h
  refine (reads_word_iff hw).2 ⟨kept ++ b, k, (List.append_assoc _ _ _).symm,
    hl.reads (by simp [hkept]) (List.forall_mem_append.2 ⟨hblank, hl.blank hb⟩) ?_, hk⟩
  rw [← Option.or_none (o := k.head?)]
  exact hw.inWord_head? hk none

theorem reads_word_ne_nil (hw : IsWord word) (h : (lead ++ word).Reads before text behind) :
    text ≠ [] := by
  obtain ⟨b, k, rfl, -, hk⟩ := (reads_word_iff hw).1 h
  simp [hw.ne_nil hk]

/-- White space stands between a word and white space with a word. -/
theorem inWord_head?_of_reads (hl : IsLead lead) (hw : IsWord word)
    (h : (lead ++ word).Reads before text behind) (hbefore : inWord before = true)
    (next : Option Char) : inWord (text.head?.or next) = false := by
  obtain ⟨b, k, rfl, hb, hk⟩ := (reads_word_iff hw).1 h
  have hne : b ≠ [] := hl.ne_nil hb hbefore (by
    rw [← Option.or_none (o := k.head?)]
    exact hw.inWord_head? hk none)
  obtain ⟨c, b, rfl⟩ := List.exists_cons_of_ne_nil hne
  exact Text.isWordChar_of_isBlank (hl.blank hb c List.mem_cons_self)

/-- White space with a word is read behind any character. -/
theorem reads_word_of_head (hl : IsLead lead) (hw : IsWord word) {c : Char} {rest : List Char}
    (hc : inWord (some c) = false) (h : (lead ++ word).Reads before (c :: rest) behind)
    (before' behind' : Option Char) : (lead ++ word).Reads before' (c :: rest) behind' := by
  obtain ⟨b, k, hsplit, hb, hk⟩ := (reads_word_iff hw).1 h
  refine (reads_word_iff hw).2 ⟨b, k, hsplit, ?_, hk⟩
  have hword := hw.inWord_head? hk none
  rw [Option.or_none] at hword
  refine hl.reads ?_ (hl.blank hb) hword
  rintro rfl
  rw [List.nil_append] at hsplit
  rw [← hsplit, List.head?_cons, hc] at hword
  cases hword

theorem inWord_getLast?_of_reads (hw : IsWord word) (h : (lead ++ word).Reads before text behind)
    (before' : Option Char) : inWord (text.getLast?.or before') = true := by
  obtain ⟨b, k, rfl, -, hk⟩ := (reads_word_iff hw).1 h
  rw [getLast?_append_or]
  exact inWord_getLast?_or (hw.ne_nil hk) (hw.isWordChar hk) _

theorem reads_boundary_iff (hw : IsWord word) :
    (lead ++ word ++ boundary).Reads before text behind ↔
      (lead ++ word).Reads before text behind ∧ inWord behind = false := by
  constructor
  · rintro ⟨s, _, rfl, hs, rfl, hboundary⟩
    rw [List.append_nil]
    refine ⟨hs, ?_⟩
    have := inWord_getLast?_of_reads hw hs before
    rw [inWord] at this ⊢
    rw [this] at hboundary
    simpa using hboundary
  · rintro ⟨h, hbehind⟩
    refine ⟨text, [], (List.append_nil text).symm, h, rfl, ?_⟩
    have := inWord_getLast?_of_reads hw h before
    rw [inWord] at this hbehind
    rw [this, hbehind]
    rfl

/-- An attribute that is one word. -/
theorem deletable_word (hl : IsLead lead) (hw : IsWord word) :
    (lead ++ word ++ boundary).Deletable where
  ends hmatch hrest := by
    obtain ⟨rest', hrest', hreads⟩ := reads_of_matchAt hmatch
    rw [hrest, List.append_cancel_left_eq] at hrest'
    exact hrest' ▸ ((reads_boundary_iff hw).1 hreads).2
  starts := by
    intro before before' behind c text hc hreads
    obtain ⟨hreads, hbehind⟩ := (reads_boundary_iff hw).1 hreads
    exact (reads_boundary_iff hw).2 ⟨reads_word_of_head hl hw hc hreads _ _, hbehind⟩
  spans := by
    intro before behind behind' kept more text hkept hreads hmore htext hbehind'
    obtain ⟨hreads, hbehind⟩ := (reads_boundary_iff hw).1 hreads
    obtain ⟨htext, -⟩ := (reads_boundary_iff hw).1 htext
    obtain ⟨b, k, hsplit, hb, hk⟩ := (reads_word_iff hw).1 hreads
    rcases exists_of_inWord hsplit hmore (hw.inWord_head? hk _) with
      ⟨c, more', rfl⟩ | ⟨k', hk', rfl, rfl⟩
    · -- the white space goes on with that of the deleted text
      have hblank := fun c hc => hl.blank hb c (List.mem_append_left _ hc)
      exact ⟨kept ++ text, [], (List.append_nil _).symm, by simp [hkept],
        (reads_boundary_iff hw).2 ⟨reads_word_append hl hw hkept hblank htext, hbehind'⟩⟩
    · -- the word ends before the deleted text
      obtain rfl := eq_nil_of_inWord (hw.isWordChar hk) hmore
      rw [List.append_nil] at hk hb hreads
      refine ⟨b ++ k', text, rfl, hkept, (reads_boundary_iff hw).2 ⟨?_, ?_⟩⟩
      · exact (reads_word_iff hw).2 ⟨b, k', rfl, hb, hk⟩
      · refine inWord_head?_of_reads hl hw htext ?_ _
        rw [getLast?_append_or]
        exact inWord_getLast?_or hk' (hw.isWordChar hk) _

/-- What follows the word of an attribute with a name. -/
theorem reads_name_iff :
    (lead ++ word ++ gap ++ plus (one .word)).Reads before text behind ↔
      ∃ a s w, text = a ++ (s ++ w) ∧ (lead ++ word).Reads before a (s ++ w).head? ∧
        (s ≠ [] ∧ ∀ c ∈ s, Text.isBlank c = true) ∧
        (w ≠ [] ∧ ∀ c ∈ w, Text.isWordChar c = true) := by
  constructor
  · rintro ⟨_, w, rfl, ⟨a, s, rfl, ha, hs⟩, hw⟩
    have hs := reads_plus_one_iff.1 hs
    have hw := reads_plus_one_iff.1 hw
    refine ⟨a, s, w, List.append_assoc _ _ _, ?_, hs, hw⟩
    obtain ⟨c, s, rfl⟩ := List.exists_cons_of_ne_nil hs.1
    exact ha
  · rintro ⟨a, s, w, rfl, ha, hs, hw⟩
    refine ⟨a ++ s, w, (List.append_assoc _ _ _).symm, ⟨a, s, rfl, ?_, reads_plus_one_iff.2 hs⟩,
      reads_plus_one_iff.2 hw⟩
    obtain ⟨c, s, rfl⟩ := List.exists_cons_of_ne_nil hs.1
    exact ha

/-- An attribute with a name is cut where no word goes on in the white space before its word, in that
before the name, or not at all. -/
theorem cut_name_cases (hl : IsLead lead) (hw : IsWord word) {kept more a s w : List Char}
    (ha : (lead ++ word).Reads before a (s ++ w).head?) (hs : ∀ c ∈ s, Text.isBlank c = true)
    (hname : w ≠ [] ∧ ∀ c ∈ w, Text.isWordChar c = true) (h : kept ++ more = a ++ (s ++ w))
    (hmore : inWord (more.head?.or behind) = false) :
    (∀ c ∈ kept, Text.isBlank c = true) ∨
      (∃ y, kept = a ++ y ∧ ∀ c ∈ y, Text.isBlank c = true) ∨ kept = a ++ (s ++ w) := by
  obtain ⟨b, k, rfl, hb, hk⟩ := (reads_word_iff hw).1 ha
  rw [List.append_assoc] at h
  have hhead : inWord ((k ++ (s ++ w)).head?.or behind) = true := by
    rw [List.head?_append, Option.or_assoc]
    exact hw.inWord_head? hk _
  rcases exists_of_inWord h hmore hhead with ⟨c, more', rfl⟩ | ⟨x, -, rfl, hrest⟩
  · exact .inl fun c hc => hl.blank hb c (List.mem_append_left _ hc)
  · -- the word itself is not cut
    obtain ⟨y, rfl, hbehind⟩ : ∃ y, x = k ++ y ∧ s ++ w = y ++ more := by
      rcases List.append_eq_append_iff.1 hrest with ⟨y, rfl, hy⟩ | ⟨y, rfl, rfl⟩
      · exact ⟨y, rfl, hy⟩
      · rw [List.head?_append, Option.or_assoc] at hmore
        obtain rfl := eq_nil_of_inWord (hw.isWordChar hk) hmore
        exact ⟨[], by simp, by simp⟩
    rcases exists_of_inWord hbehind.symm hmore (inWord_head?_or hname.1 hname.2 _) with
      ⟨c, more', rfl⟩ | ⟨w', -, rfl, rfl⟩
    · exact .inr (.inl ⟨y, (List.append_assoc _ _ _).symm,
        fun c hc => hs c (List.mem_append_left _ hc)⟩)
    · obtain rfl := eq_nil_of_inWord hname.2 hmore
      exact .inr (.inr (by simp))

/-- Of two words, with more white space between them, the second one is read as the name. -/
theorem reads_name_of_words (hl : IsLead lead) (hw : IsWord word) {a y : List Char}
    {next behind' : Option Char} (ha : (lead ++ word).Reads before a next)
    (hy : ∀ c ∈ y, Text.isBlank c = true)
    (htext : (lead ++ word).Reads ((a ++ y).getLast?.or before) text behind) :
    (lead ++ word ++ gap ++ plus (one .word)).Reads before (a ++ (y ++ text)) behind' := by
  obtain ⟨b, k, rfl, hb, hk⟩ := (reads_word_iff hw).1 htext
  have hne : y ++ b ≠ [] := by
    intro hnil
    obtain ⟨rfl, rfl⟩ := List.append_eq_nil_iff.1 hnil
    refine hl.ne_nil hb ?_ ?_ rfl
    · rw [List.append_nil]
      exact inWord_getLast?_of_reads hw ha _
    · have := hw.inWord_head? hk none
      rwa [Option.or_none] at this
  exact reads_name_iff.2 ⟨a, y ++ b, k, by simp, (reads_word_iff hw).2 ((reads_word_iff hw).1 ha),
    ⟨hne, List.forall_mem_append.2 ⟨hy, hl.blank hb⟩⟩, hw.ne_nil hk, hw.isWordChar hk⟩

/-- An attribute that is a word with a name behind it. -/
theorem deletable_name (hl : IsLead lead) (hw : IsWord word) :
    (lead ++ word ++ gap ++ plus (one .word)).Deletable where
  ends := by
    intro place m rest hmatch hrest
    have hmaximal : (lead ++ word ++ gap ++ plus (one .word)).isMaximal .word = true := rfl
    cases hhead : rest.head? with
    | none => rfl
    | some c => exact mem_eq_false_of_matchAt hmaximal hmatch hrest hhead
  starts := by
    intro before before' behind c text hc hreads
    obtain ⟨a, s, w, hsplit, ha, hs, hname⟩ := reads_name_iff.1 hreads
    obtain ⟨d, a, rfl⟩ := List.exists_cons_of_ne_nil (reads_word_ne_nil hw ha)
    obtain ⟨rfl, rfl⟩ := List.cons.inj hsplit
    exact reads_name_iff.2 ⟨c :: a, s, w, rfl, reads_word_of_head hl hw hc ha _ _, hs, hname⟩
  spans := by
    intro before behind behind' kept more text hkept hreads hmore htext hbehind'
    obtain ⟨a, s, w, hsplit, ha, hs, hname⟩ := reads_name_iff.1 hreads
    obtain ⟨a', s', w', rfl, ha', hs', hname'⟩ := reads_name_iff.1 htext
    rcases cut_name_cases hl hw ha hs.2 hname hsplit hmore with hblank | ⟨y, rfl, hy⟩ | rfl
    · -- the white space goes on with that of the deleted text
      refine ⟨kept ++ (a' ++ (s' ++ w')), [], (List.append_nil _).symm, by simp [hkept], ?_⟩
      exact reads_name_iff.2 ⟨kept ++ a', s', w', (List.append_assoc _ _ _).symm,
        reads_word_append hl hw hkept hblank ha', hs', hname'⟩
    · -- the word of the deleted text comes to stand where the name was
      exact ⟨a ++ (y ++ a'), s' ++ w', by simp, by simp [reads_word_ne_nil hw ha],
        reads_name_of_words hl hw ha hy ha'⟩
    · -- nothing is cut off
      exact ⟨_, _, rfl, hkept, reads_name_iff.2 ⟨a, s, w, rfl, ha, hs, hname⟩⟩

end Pattern

namespace Rule

open Pattern

variable {p : Pattern} {rule : Rule}

/-- A rule that deletes matches in code settles if that gives rise to no match. -/
theorem settles_of_deletion
    (hrule : ∀ ctx line, rule.edit? ctx line = substitute p (fun _ => []) line)
    (hp : p.Deletable) (hnil : p.readsEmpty = false) : rule.Settles := by
  intro ctx line e _ h
  rw [hrule] at h ⊢
  have hrewritten (code : List Char) : p.Rewritten (fun _ => True) (fun _ => some []) none code
      (p.replaceIn (fun _ => []) code) :=
    rewritten_replaceIn (fun _ _ h => absurd h (by simp)) (not_reads_nil hnil) code
  refine substituteSome_eq_none (fun _ => some []) ?_ ?_ h
  · intro code hcode hmem
    obtain ⟨_, m, _, text, hswap, htext⟩ := (hrewritten code).exists_swap_of_mem hmem hcode
    rw [← Option.some.inj hswap.edit_eq] at htext
    cases htext
  · intro code _ m hm
    exact absurd hm (((hp.inert fun h => (Option.some.inj h).symm).skipsAll
      (hrewritten code)).not_mem_matchesIn trivial)

theorem unsigned_settles : unsigned.Settles :=
  settles_of_deletion (fun _ _ => rfl)
    (deletable_word isLead_gap ⟨by decide, by decide, by decide⟩)
    (by decide)

theorem encode_settles : encode.Settles :=
  settles_of_deletion (fun _ _ => rfl)
    (deletable_name isLead_gap ⟨by decide, by decide, by decide⟩)
    (by decide)

theorem diststyle_settles : diststyle.Settles :=
  settles_of_deletion (fun _ _ => rfl)
    (deletable_name isLead_blanks ⟨by decide, by decide, by decide⟩)
    (by decide)

end Rule

end SqlDialect
