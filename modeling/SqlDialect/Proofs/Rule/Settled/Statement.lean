import SqlDialect.Proofs.Pattern.Group
import SqlDialect.Proofs.Pattern.Preference
import SqlDialect.Proofs.Rule.Discard
import SqlDialect.Proofs.Rule.Settled
import SqlDialect.Proofs.Text.Run

/-!
# Rules that cut a line

A rule that discards the end of a line settles since the discarded text would have started further
left if more of it had been there.  For the rules that discard a statement behind white space, there is
nothing visible left at all.
-/

namespace SqlDialect

namespace Pattern

open Rule (clause)

variable {p a b front : Pattern} {before behind : Option Char} {text s t line : List Char} {m : Match}

/-! ### Clauses up to the end of the line -/

theorem reads_clause_iff :
    (clause front).Reads before text none ↔ ∃ f r, text = f ++ r ∧
      front.Reads before f r.head? ∧ boundary.Reads (f.getLast?.or before) [] r.head? ∧ '\n' ∉ r := by
  constructor
  · rintro ⟨_, r, rfl, ⟨f, _, rfl, hf, rfl, hboundary⟩, hr⟩
    rw [Option.or_none] at hf hboundary
    refine ⟨f, r, by rw [List.append_nil], hf, ⟨rfl, hboundary⟩, reads_many_any_iff.1 hr⟩
  · rintro ⟨f, r, rfl, hf, hboundary, hr⟩
    rw [← Option.or_none (o := r.head?)] at hf hboundary
    exact ⟨f, r, rfl, ⟨f, [], (List.append_nil f).symm, hf, hboundary⟩, reads_many_any_iff.2 hr⟩

/-- What a clause has to start with so that no other one can start right behind a bare clause. -/
structure IsClauseFront (front : Pattern) : Prop where
  ends : front.lasts.all Side.isWord = true
  starts : canStep .word .word [front] = false
  carries : front.carries .edge .other = true
  visible : front.readsEmpty = false

/-- **A clause goes on over another one** that stands behind it. -/
theorem reads_clause_append (hfront : IsClauseFront front)
    (hs : (clause front).Reads before s none)
    (ht : (clause front).Reads (s.getLast?.or before) t none) (hfeed : '\n' ∉ t) :
    (clause front).Reads before (s ++ t) none := by
  obtain ⟨f, r, rfl, hf, hboundary, hr⟩ := reads_clause_iff.1 hs
  cases r with
  | cons c r =>
    refine reads_clause_iff.2 ⟨f, c :: r ++ t, List.append_assoc _ _ _, hf, hboundary, ?_⟩
    rw [List.mem_append, not_or]
    exact ⟨hr, hfeed⟩
  | nil =>
    -- the second clause does not start within the word that the first one ends with
    have hne : f ≠ [] := by
      rintro rfl
      exact not_reads_nil hfront.visible _ _ hf
    have hlast : Side.of (f.getLast?.or before) = .word := by
      have := List.all_eq_true.1 hfront.ends _ (side_mem_lasts hf hne)
      cases hside : Side.of (f.getLast?.or before) <;> simp_all [Side.isWord]
    rw [List.append_nil] at ht
    obtain ⟨f', r', rfl, hf', -, hr'⟩ := reads_clause_iff.1 ht
    obtain ⟨c, f', rfl⟩ : ∃ c f'', f' = c :: f'' := List.exists_cons_of_ne_nil (by
      rintro rfl
      exact not_reads_nil hfront.visible _ _ hf')
    have hc : Side.of (some c) = .other := by
      have hstep := canStep_of_readsAll (readsAll_singleton_iff.2 hf')
      rw [hlast] at hstep
      cases hword : Text.isWordChar c
      · simp [Side.of, hword]
      · have hside : Side.of (some c) = .word := by simp [Side.of, hword]
        rw [hside, hfront.starts] at hstep
        cases hstep
    have hcarries : front.carries (.of none) (.of (some c)) = true := hc ▸ hfront.carries
    have hbehind : front.Reads before f (some c) := reads_of_carries hcarries hf
    refine reads_clause_iff.2 ⟨f, c :: (f' ++ r'), by simp, hbehind, ⟨rfl, ?_⟩, hfeed⟩
    rw [← Side.isWord_of, hlast, ← Side.isWord_of, List.head?_cons, hc]
    rfl

theorem clause_ne_nil (hfront : IsClauseFront front)
    (h : (clause front).Reads before text none) : text ≠ [] := by
  obtain ⟨f, r, rfl, hf, -⟩ := reads_clause_iff.1 h
  rintro hnil
  obtain ⟨rfl, rfl⟩ := List.append_eq_nil_iff.1 hnil
  exact not_reads_nil hfront.visible _ _ hf

end Pattern

namespace Rule

open Pattern

/-! ### Statements behind white space -/

/-- Behind a statement that has been discarded up to the white space before it, there is nothing to
discard. -/
theorem settles_of_discarding {rule : Rule} (hrule : rule ∈ discarding)
    (hid : rule.id ≠ createIndex.id) : rule.Settles := by
  intro ctx line edit _ h
  obtain ⟨lead, clause, -, rfl, hblank⟩ := exists_cut_of_discarding hrule h
  by_contra hagain
  obtain ⟨edit, hedit⟩ := Option.ne_none_iff_exists'.1 hagain
  obtain ⟨lead', clause', hline, rfl, -⟩ := exists_cut_of_discarding hrule hedit
  have hvisible : Line.isBlank (Text.trim clause') = false :=
    (RuleSet.standard_once_regular rule (RuleSet.mem_standard_of_discarding hrule)
      hedit).note_visible
  have hlead : Line.isBlank lead = true := hblank hid
  change lead' ++ clause' = lead at hline
  rw [Line.isBlank_trim] at hvisible
  rw [← hline, Line.isBlank_append, hvisible, Bool.and_false] at hlead
  cases hlead

/-! ### Indexes -/

theorem isClauseFront_createsIndex : IsClauseFront createsIndex where
  ends := by decide
  starts := by decide
  carries := by decide
  visible := by decide

/-- The first index that is created is found, so that there is none further left. -/
theorem createIndex_settles : createIndex.Settles := by
  intro ctx line edit hfeed h
  obtain ⟨lead, clause, rfl, hcuts⟩ := exists_cut_of_createIndex h
  by_contra hagain
  obtain ⟨edit, hedit⟩ := Option.ne_none_iff_exists'.1 hagain
  obtain ⟨lead', clause', rfl, hcuts'⟩ := exists_cut_of_createIndex hedit
  obtain rfl := hcuts.append_eq
  obtain rfl : lead' ++ clause' = lead := hcuts'.append_eq
  rw [List.append_assoc, List.mem_append, List.mem_append, not_or, not_or] at hfeed
  obtain ⟨-, hfeed', hfeed⟩ := hfeed
  have hreads := hcuts.reads hfeed
  have hreads' := hcuts'.reads hfeed'
  rw [List.getLast?_append] at hreads
  -- the two statements would be one that starts further left
  have hboth := reads_clause_append isClauseFront_createsIndex hreads' hreads hfeed
  have hpos := List.length_pos_of_ne_nil (clause_ne_nil isClauseFront_createsIndex hreads')
  refine hcuts.first lead' (clause' ++ clause) (List.append_assoc _ _ _) ?_ hboth
  rw [List.length_append]
  omega

/-! ### Owners -/

theorem isClauseFront_changesOwner : IsClauseFront changesOwner where
  ends := by decide
  starts := by decide
  carries := by decide
  visible := by decide

/-- The first change of an owner is found, so that there is none further left. -/
theorem ownerTo_settles : ownerTo.Settles := by
  intro ctx line edit hfeed h
  obtain ⟨m, hm, h⟩ := Option.bind_eq_some_iff.1 h
  split at h
  · obtain rfl := Option.some.inj h
    refine Option.bind_eq_none_iff.2 fun m' hm' => ?_
    exfalso
    change (clause changesOwner ++ lineEnd).find? (line.take m.start) = some m' at hm'
    obtain ⟨a, b, rfl, hstart, hmatch, hfirst⟩ := exists_first_of_find? hm
    obtain ⟨a', b', hline, -, hmatch', -⟩ := exists_first_of_find? hm'
    rw [hstart, List.take_left] at hline
    obtain ⟨rest, hrest, hreads⟩ := reads_of_matchAt hmatch
    obtain ⟨rest', hrest', hreads'⟩ := reads_of_matchAt hmatch'
    obtain ⟨hreads, hnil⟩ := reads_append_lineEnd_iff.1 hreads
    obtain ⟨hreads', hnil'⟩ := reads_append_lineEnd_iff.1 hreads'
    obtain rfl : b = m.text := by simpa [List.head?_eq_none_iff.1 hnil] using hrest
    obtain rfl : b' = m'.text := by simpa [List.head?_eq_none_iff.1 hnil'] using hrest'
    subst hline
    rw [List.getLast?_append] at hreads
    have hboth := reads_clause_append isClauseFront_changesOwner hreads' hreads fun hmem =>
      hfeed (List.mem_append_right _ hmem)
    refine hfirst a' (m'.text ++ m.text) [] (by simp) ?_ (reads_append_lineEnd_iff.2 ⟨hboth, rfl⟩)
    have := List.length_pos_of_ne_nil (clause_ne_nil isClauseFront_changesOwner hreads')
    rw [List.length_append]
    omega
  · cases h

/-! ### Sort keys -/

theorem within_eq_false {set : CharSet} {sets : List CharSet} {line : List Char}
    (hline : ∀ c ∈ line, set.mem c = false) : CharSet.within (set :: sets) line = false := by
  induction line with
  | nil => rfl
  | cons c line ih =>
    rw [List.forall_mem_cons] at hline
    rw [CharSet.within, CharSet.startOf, hline.1, ih hline.2]
    rfl

/-- A pattern that asks for a character that the line does not hold has no match. -/
theorem find?_eq_none {p : Pattern} {line : List Char} (set : CharSet)
    (hp : (p.required.any fun sets => sets.head? == some set) = true)
    (hline : ∀ c ∈ line, set.mem c = false) : p.find? line = none := by
  rw [find?, if_neg]
  intro hadmits
  obtain ⟨sets, hsets, hhead⟩ := List.any_eq_true.1 hp
  obtain ⟨others, rfl⟩ := List.head?_eq_some_iff.1 (beq_iff_eq.1 hhead)
  have := List.all_eq_true.1 hadmits _ hsets
  rw [within_eq_false hline] at this
  cases this

/-- Nothing but white space and a parenthesis is left of the line. -/
theorem sortkeyBlock_settles : sortkeyBlock.Settles := by
  intro ctx line edit _ h
  obtain ⟨m, hm, h⟩ := Option.bind_eq_some_iff.1 h
  obtain ⟨_, -, h⟩ := Option.bind_eq_some_iff.1 h
  split at h
  · obtain rfl := Option.some.inj h
    refine Option.bind_eq_none_iff.2 fun m' hm' => ?_
    obtain ⟨a, ha, hstretch⟩ := (matches_of_find? hm).stretch_textOf
      (show binds "pre" _ = true by decide)
    obtain rfl := List.mem_singleton.1 (show a ∈ [_] from ha)
    obtain ⟨before, behind, hreads⟩ := hstretch.exists_reads
    rw [find?_eq_none (.caseless 's') (by decide) fun c hc =>
      mem_eq_false_of_lacks (by decide) hreads hc] at hm'
    cases hm'
  · cases h

/-! ### Deletions without `FROM` -/

theorem isBlank_of_nextChar {c : Char} (h : nextChar.mem c = true) : Text.isBlank c = false := by
  have : (!(Text.isBlank c || (CharSet.exactly ';').mem c)) = true := h
  simp_all

theorem exists_of_reads_deletes {before behind : Option Char} {text : List Char}
    (h : deletes.Reads before text behind) :
    ∃ b k, text = b ++ k ∧ (∀ c ∈ b, Text.isBlank c = true) ∧ k ≠ [] ∧
      ∀ c ∈ k, Text.isWordChar c = true := by
  obtain ⟨b, k, rfl, hb, hk⟩ := h
  refine ⟨b, k, rfl, reads_star_one_iff.1 hb, ?_, fun c hc => ?_⟩
  · rintro rfl
    exact not_reads_nil (by decide) _ _ hk
  · exact isWordChar_of_isWordy (by decide) hk hc

/-- White space, a word and white space behind it cut a text in one way only. -/
theorem eq_of_lead_eq {b k r b' k' r' : List Char} (h : b ++ (k ++ r) = b' ++ (k' ++ r'))
    (hb : ∀ c ∈ b, Text.isBlank c = true) (hk : k ≠ [] ∧ ∀ c ∈ k, Text.isWordChar c = true)
    (hr : ∀ c, r.head? = some c → Text.isBlank c = true)
    (hb' : ∀ c ∈ b', Text.isBlank c = true) (hk' : k' ≠ [] ∧ ∀ c ∈ k', Text.isWordChar c = true)
    (hr' : ∀ c, r'.head? = some c → Text.isBlank c = true) : r = r' := by
  have front {b k r : List Char} (hb : ∀ c ∈ b, Text.isBlank c = true)
      (hk : k ≠ [] ∧ ∀ c ∈ k, Text.isWordChar c = true) : Text.Run Text.isBlank b (k ++ r) := by
    refine ⟨hb, fun c hc => ?_⟩
    obtain ⟨d, k, rfl⟩ := List.exists_cons_of_ne_nil hk.1
    obtain rfl := Option.some.inj hc
    by_contra hblank
    rw [Bool.not_eq_false] at hblank
    have := hk.2 d List.mem_cons_self
    rw [Text.isWordChar_of_isBlank hblank] at this
    cases this
  have word {k r : List Char} (hk : k ≠ [] ∧ ∀ c ∈ k, Text.isWordChar c = true)
      (hr : ∀ c, r.head? = some c → Text.isBlank c = true) : Text.Run Text.isWordChar k r :=
    ⟨hk.2, fun c hc => Text.isWordChar_of_isBlank (hr c hc)⟩
  obtain ⟨-, hrest⟩ := (front hb hk).eq_of_append_eq (front hb' hk') h
  exact ((word hk hr).eq_of_append_eq (word hk' hr') hrest).2

/-- Behind the word `DELETE` of a match, there is white space. -/
theorem exists_of_lead {line : List Char} {m : Match} (h : deletion.find? line = some m) :
    ∃ before behind c rest, deletes.Reads before (m.textOf "lead") behind ∧
      line = m.textOf "lead" ++ c :: rest ∧ Text.isBlank c = true := by
  have haround : deletion.around "lead" =
      some (lineStart ++ empty, deletes, empty ++ gap ++ group "next" (plus (one nextChar))) := rfl
  obtain ⟨place, front, hfront, hmatch⟩ := exists_place_of_find? h
  obtain ⟨s, u, rest, hrest, htext, hparts⟩ := exists_parts_of_matchAt haround hmatch
  obtain ⟨_, _, rfl, ⟨rfl, hprevious⟩, hempty⟩ := hparts.reads_left
  obtain rfl := List.forall₂_nil_left_iff.1 hempty
  obtain ⟨_, n, rfl, ⟨_, g, rfl, hempty, hgap⟩, -⟩ := hparts.reads_right
  obtain rfl := List.forall₂_nil_left_iff.1 hempty
  obtain ⟨hg, hblank⟩ := reads_plus_one_iff.1 hgap
  obtain ⟨c, g, rfl⟩ := List.exists_cons_of_ne_nil hg
  obtain rfl := hfront.eq_of_previous hprevious
  refine ⟨_, _, c, g ++ (n ++ rest), hparts.reads_group, ?_, hblank c List.mem_cons_self⟩
  rw [htext] at hrest
  simpa [Cursor.start] using hrest

/-- The next word of a match is as long as it can be. -/
theorem exists_of_next {line : List Char} {m : Match} (h : deletion.find? line = some m) :
    ∃ before behind s g rest, deletes.Reads before s behind ∧
      line = s ++ (g ++ (m.textOf "next" ++ rest)) ∧
      (g ≠ [] ∧ ∀ c ∈ g, Text.isBlank c = true) ∧ m.textOf "next" ≠ [] ∧
      Text.Run nextChar.mem (m.textOf "next") rest := by
  have haround : deletion.around "next" =
      some (lineStart ++ group "lead" deletes ++ gap ++ empty, plus (one nextChar), empty) := rfl
  obtain ⟨place, front, hfront, hmatch⟩ := exists_place_of_find? h
  obtain ⟨t, u, rest, hrest, htext, hparts⟩ := exists_parts_of_matchAt haround hmatch
  obtain rfl := List.forall₂_nil_left_iff.1 hparts.reads_right
  obtain ⟨_, _, rfl, ⟨_, g, rfl, ⟨_, s, rfl, ⟨rfl, hprevious⟩, hs⟩, hgap⟩, hempty⟩ :=
    hparts.reads_left
  obtain rfl := List.forall₂_nil_left_iff.1 hempty
  obtain rfl := hfront.eq_of_previous hprevious
  have hnext := reads_plus_one_iff.1 hparts.reads_group
  refine ⟨_, _, s, g, rest, hs, ?_, reads_plus_one_iff.1 hgap, hnext.1, hnext.2, fun c hc =>
    mem_eq_false_of_matchAt (show isMaximal nextChar deletion = true from rfl) hmatch hrest hc⟩
  rw [htext] at hrest
  simpa [Cursor.start] using hrest

theorem deleteFrom_settles : deleteFrom.Settles := by
  intro ctx line edit _ h
  obtain ⟨m, hm, h⟩ := Option.bind_eq_some_iff.1 h
  split at h
  · cases h
  · obtain rfl := Option.some.inj h
    refine Option.bind_eq_none_iff.2 fun m' hm' => if_pos ?_
    change deletion.find? (m.textOf "lead" ++ " FROM".toList ++
      line.drop (m.textOf "lead").length) = some m' at hm'
    obtain ⟨_, _, c, rest, hlead, hline, hc⟩ := exists_of_lead hm
    obtain ⟨_, _, s, g, rest', hs, hnew, hg, hnext, hrun⟩ := exists_of_next hm'
    rw [hline, List.drop_left] at hnew
    obtain ⟨b, k, hbk, hb, hk⟩ := exists_of_reads_deletes hlead
    obtain ⟨b', k', rfl, hb', hk'⟩ := exists_of_reads_deletes hs
    rw [hbk, List.append_assoc, List.append_assoc, List.append_assoc] at hnew
    -- the next word is now `FROM`
    have hblank : ∀ d, (g ++ (m'.textOf "next" ++ rest')).head? = some d →
        Text.isBlank d = true := by
      obtain ⟨d, g, rfl⟩ := List.exists_cons_of_ne_nil hg.1
      exact fun e he => hg.2 e (by simp_all)
    have hrest := eq_of_lead_eq hnew hb hk (by simp; rfl) hb' hk' hblank
    have hgap : Text.Run Text.isBlank [' '] ("FROM".toList ++ c :: rest) :=
      ⟨List.all_eq_true.1 (show [' '].all Text.isBlank = true from rfl), by simp; rfl⟩
    have hgap' : Text.Run Text.isBlank g (m'.textOf "next" ++ rest') := by
      refine ⟨hg.2, fun d hd => isBlank_of_nextChar (hrun.all d ?_)⟩
      obtain ⟨e, next, hnext⟩ := List.exists_cons_of_ne_nil hnext
      rw [hnext] at hd ⊢
      obtain rfl := Option.some.inj hd
      exact List.mem_cons_self
    have hword : Text.Run nextChar.mem "FROM".toList (c :: rest) := by
      refine ⟨List.all_eq_true.1 (show "FROM".toList.all nextChar.mem = true from rfl),
        fun d hd => ?_⟩
      obtain rfl := Option.some.inj hd
      by_contra hnext
      rw [Bool.not_eq_false] at hnext
      rw [isBlank_of_nextChar hnext] at hc
      cases hc
    rw [← (hword.eq_of_append_eq hrun (hgap.eq_of_append_eq hgap' hrest).2).1]
    rfl

/-! ### Commas -/

theorem danglingComma_settles : danglingComma.Settles := by
  intro ctx line edit _ h
  simp only [danglingComma] at h ⊢
  split at h
  · obtain rfl := Option.some.inj h
    rw [if_neg]
    -- only white space is left
    intro hcomma
    have hblank : Line.isBlank (line.takeWhile Text.isBlank) = true :=
      Line.isBlank_iff.2 fun _ hc => List.mem_takeWhile_imp hc
    rw [← Line.isBlank_trim] at hblank
    change (Text.trim (line.takeWhile Text.isBlank) == [',']) = true at hcomma
    rw [beq_iff_eq.1 hcomma] at hblank
    cases hblank
  · cases h

end Rule

end SqlDialect
