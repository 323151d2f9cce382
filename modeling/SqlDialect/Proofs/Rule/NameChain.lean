import SqlDialect.Proofs.Pattern.Extent
import SqlDialect.Proofs.Rule.Settled.NameCase
import SqlDialect.Proofs.Rule.Settled.Statement

/-!
# Chains of names and placeholders

What the pattern of the rule about qualified names reads.

* A chain is a text of plain names with points between them (`Rule.reads_chain_iff`), read by a
  recursion that looks at one character at a time.  So a chain that starts inside another one goes on
  with it (`Rule.chain_append`), and a match is the longest chain at its place
  (`Rule.length_le_of_matchAt_chain`).
* A placeholder goes from two braces to the next two closing ones (`Rule.isPlaceholder_of_matchAt`).
-/

namespace SqlDialect.Rule

open Pattern

variable {before behind : Option Char} {place : Cursor} {groups : List Group} {m : Match}
  {text rest s t u : List Char} {c : Char} {inName : Bool}

/-! ### Chains -/

/-- Whether the text is plain names with points between them, where `inName` tells whether it starts
inside a name. -/
def isDotted : Bool → List Char → Bool
  | inName, [] => inName
  | false, c :: rest => plainStart.mem c && isDotted true rest
  | true, c :: rest => if c = '.' then isDotted false rest else plainChar.mem c && isDotted true rest

theorem plainChar_of_plainStart (h : plainStart.mem c = true) : plainChar.mem c = true := by
  rcases Bool.or_eq_true_iff.1 h with h | h
  · exact Bool.or_eq_true_iff.2 (.inl (Bool.or_eq_true_iff.2 (.inl h)))
  · obtain rfl : c = '_' := by simpa [CharSet.exactly, CharSet.mem] using h
    decide

theorem ne_point_of_plainChar (h : plainChar.mem c = true) : c ≠ '.' := by
  rintro rfl
  exact absurd h (by decide)

theorem isDotted_cons_of_plainChar (h : plainChar.mem c = true) :
    isDotted true (c :: rest) = isDotted true rest := by
  rw [isDotted, if_neg (ne_point_of_plainChar h), h, Bool.true_and]

/-- At any place in a text of names, others can take the place of what is left of it. -/
theorem isDotted_append (h : isDotted inName (s ++ t) = true) (hu : isDotted false u = true) :
    isDotted inName (s ++ u) = true := by
  induction s generalizing inName with
  | nil =>
    cases inName with
    | false => exact hu
    | true =>
      cases u with
      | nil => cases hu
      | cons c u =>
        obtain ⟨hc, hu⟩ := Bool.and_eq_true_iff.1 hu
        rwa [List.nil_append, isDotted_cons_of_plainChar (plainChar_of_plainStart hc)]
  | cons c s ih =>
    cases inName with
    | false =>
      obtain ⟨hc, h⟩ := Bool.and_eq_true_iff.1 h
      exact Bool.and_eq_true_iff.2 ⟨hc, ih h⟩
    | true =>
      rw [List.cons_append, isDotted] at h ⊢
      split
      · rename_i hc
        rw [if_pos hc] at h
        exact ih h
      · rename_i hc
        rw [if_neg hc] at h
        obtain ⟨hc, h⟩ := Bool.and_eq_true_iff.1 h
        exact Bool.and_eq_true_iff.2 ⟨hc, ih h⟩

theorem reads_plainName_iff : plainName.Reads before text behind ↔
    ∃ c rest, text = c :: rest ∧ plainStart.mem c = true ∧ ∀ d ∈ rest, plainChar.mem d = true := by
  constructor
  · rintro ⟨s, t, rfl, hs, ht⟩
    obtain ⟨c, rest, hc, hrest, rfl⟩ := List.forall₂_cons_left_iff.1 hs
    obtain rfl := List.forall₂_nil_left_iff.1 hrest
    exact ⟨c, t, rfl, hc, reads_star_one_iff.1 ht⟩
  · rintro ⟨c, rest, rfl, hc, hrest⟩
    exact ⟨[c], rest, rfl, .cons hc .nil, reads_star_one_iff.2 hrest⟩

theorem isDotted_plainChars_append (h : ∀ d ∈ s, plainChar.mem d = true) :
    isDotted true (s ++ t) = isDotted true t := by
  induction s with
  | nil => rfl
  | cons c s ih =>
    obtain ⟨hc, h⟩ := List.forall_mem_cons.1 h
    rw [List.cons_append, isDotted_cons_of_plainChar hc, ih h]

theorem isDotted_plainName_append (h : plainName.Reads before s behind) :
    isDotted false (s ++ t) = isDotted true t := by
  obtain ⟨c, s, rfl, hc, hs⟩ := reads_plainName_iff.1 h
  rw [List.cons_append, isDotted, hc, Bool.true_and, isDotted_plainChars_append hs]

theorem isDotted_of_rounds (h : Rounds pointName.Reads before text behind) :
    isDotted true text = true := by
  generalize hreads : pointName.Reads = r at h
  induction h with
  | nil => rfl
  | cons _ first _ ih =>
    subst hreads
    obtain ⟨_, name, rfl, hpoint, hname⟩ := first
    obtain rfl := reads_char_iff.1 hpoint
    rw [List.append_assoc, List.singleton_append, isDotted, if_pos rfl,
      isDotted_plainName_append hname]
    exact ih

/-- Text of names is one name, or what is left of one, and rounds of points and names. -/
theorem exists_rounds_of_isDotted (h : isDotted inName text = true) :
    ∃ name more, text = name ++ more ∧
      (if inName then ∀ d ∈ name, plainChar.mem d = true
        else ∀ before behind, plainName.Reads before name behind) ∧
      ∀ before behind, Rounds pointName.Reads before more behind := by
  induction text generalizing inName with
  | nil =>
    obtain rfl : inName = true := h
    exact ⟨[], [], rfl, by simp, fun before behind => .nil before behind⟩
  | cons c text ih =>
    cases inName with
    | false =>
      obtain ⟨hc, h⟩ := Bool.and_eq_true_iff.1 h
      obtain ⟨name, more, rfl, hname, hmore⟩ := ih h
      exact ⟨c :: name, more, rfl, fun _ _ => reads_plainName_iff.2 ⟨c, name, rfl, hc, hname⟩, hmore⟩
    | true =>
      rw [isDotted] at h
      split at h
      · rename_i hc
        subst hc
        obtain ⟨name, more, rfl, hname, hmore⟩ := ih h
        refine ⟨[], '.' :: (name ++ more), rfl, by simp, fun before behind => ?_⟩
        exact .cons (s := '.' :: name) (List.cons_ne_nil _ _)
          ⟨['.'], name, rfl, reads_char_iff.2 rfl, hname _ _⟩ (hmore _ _)
      · obtain ⟨hc, h⟩ := Bool.and_eq_true_iff.1 h
        obtain ⟨name, more, rfl, hname, hmore⟩ := ih h
        exact ⟨c :: name, more, rfl, List.forall_mem_cons.2 ⟨hc, hname⟩, hmore⟩

theorem isWordChar_of_plainStart (h : plainStart.mem c = true) : Text.isWordChar c = true := by
  have hascii : c.toNat < 128 := by
    have hbelow {d : Char} (hcd : decide (c ≤ d) = true) (hd : d.toNat < 128) : c.toNat < 128 :=
      lt_of_le_of_lt (UInt32.le_iff_toNat_le.1 (of_decide_eq_true hcd)) hd
    rcases Bool.or_eq_true_iff.1 h with h | h
    · rcases Bool.or_eq_true_iff.1 h with h | h
      · exact hbelow (Bool.and_eq_true_iff.1 h).2 (by decide)
      · exact hbelow (Bool.and_eq_true_iff.1 h).2 (by decide)
    · obtain rfl : c = '_' := by simpa [CharSet.exactly, CharSet.mem] using h
      decide
  have hall : ((List.range 128).all fun n =>
      !plainStart.mem (Char.ofNat n) || Text.isWordChar (Char.ofNat n)) = true := by decide
  have := List.all_eq_true.1 hall c.toNat (List.mem_range.2 hascii)
  rw [Char.ofNat_toNat, h] at this
  exact this

/-- **A chain is a text of two or more names** that starts where a word does, and ends where one does or
behind a dollar sign that a word follows. -/
theorem reads_chain_iff : chain.Reads before text behind ↔
    isDotted false text = true ∧ '.' ∈ text ∧ before.any Text.isWordChar = false ∧
      text.getLast?.any Text.isWordChar ≠ behind.any Text.isWordChar := by
  constructor
  · rintro ⟨_, _, rfl,
      ⟨_, _, rfl, ⟨_, name, rfl, ⟨rfl, hstart⟩, hname⟩, first, others, rfl, hfirst, hothers⟩, rfl, hend⟩
    have hpoint : '.' ∈ first := by
      obtain ⟨_, own, rfl, hpoint, -⟩ := hfirst
      obtain rfl := reads_char_iff.1 hpoint
      exact List.mem_cons_self
    have hrounds := Rounds.cons (List.ne_nil_of_mem hpoint) hfirst hothers
    obtain ⟨c, own, rfl, hc, -⟩ := reads_plainName_iff.1 hname
    have hword := isWordChar_of_plainStart hc
    refine ⟨?_, by simp [hpoint], ?_, ?_⟩
    · rw [List.append_nil, List.nil_append, isDotted_plainName_append hname, isDotted_of_rounds hrounds]
    · simpa [hword] using hstart
    · simpa [List.getLast?_cons] using hend
  · rintro ⟨hdotted, hpoint, hbefore, hend⟩
    obtain ⟨name, more, rfl, hname, hmore⟩ := exists_rounds_of_isDotted hdotted
    have hname := hname before (more.head?.or behind)
    obtain ⟨c, own, rfl, hc, hown⟩ := reads_plainName_iff.1 hname
    -- the point is not in the first name, and so there is one more
    have hnoPoint : '.' ∉ c :: own := by
      rw [List.mem_cons, not_or]
      exact ⟨(ne_point_of_plainChar (plainChar_of_plainStart hc)).symm,
        fun hmem => ne_point_of_plainChar (hown '.' hmem) rfl⟩
    have hmore := hmore ((c :: own).getLast?.or before) behind
    have hmorePoint := (List.mem_append.1 hpoint).resolve_left hnoPoint
    have hplus : (plus pointName).Reads ((c :: own).getLast?.or before) more behind := by
      cases hmore with
      | nil => cases hmorePoint
      | cons hne first others => exact ⟨_, _, rfl, first, others⟩
    refine ⟨(c :: own) ++ more, [], by simp,
      ⟨c :: own, more, rfl, ⟨[], c :: own, rfl, ⟨rfl, ?_⟩, hname⟩, ?_⟩, rfl, ?_⟩
    · simp [hbefore, isWordChar_of_plainStart hc]
    · simpa using hplus
    · simpa [List.getLast?_cons] using hend

/-- A chain that starts inside another one goes on with it. -/
theorem reads_chain_append {before' behind' : Option Char} (h : chain.Reads before (s ++ t) behind)
    (hu : chain.Reads before' u behind') : chain.Reads before (s ++ u) behind' := by
  obtain ⟨hdotted, -, hbefore, -⟩ := reads_chain_iff.1 h
  obtain ⟨hdotted', hpoint, -, hend⟩ := reads_chain_iff.1 hu
  have hlast : (s ++ u).getLast? = u.getLast? := by
    rw [List.getLast?_append, List.getLast?_eq_some_getLast (List.ne_nil_of_mem hpoint), Option.some_or]
  exact reads_chain_iff.2 ⟨isDotted_append hdotted hdotted', List.mem_append_right s hpoint, hbefore,
    hlast ▸ hend⟩

/-! ### The match of a chain -/

theorem pairwise_reaches_plainName :
    (plainName.outcomes place groups).Pairwise (ReachesOver plainChar) :=
  pairwise_seq_of_single (length_outcomes_chars_le _) fun _ _ => pairwise_reaches_star_one

theorem outcomes_pointName_of_plainChar (hhead : place.rest.head? = some c)
    (hc : plainChar.mem c = true) : pointName.outcomes place groups = [] := by
  obtain ⟨rest, hrest⟩ := List.head?_eq_some_iff.1 hhead
  have hpoint : (CharSet.exactly '.').mem c = false := by
    simpa [CharSet.exactly, CharSet.mem] using ne_point_of_plainChar hc
  rw [pointName, outcomes_append, char, outcomes_one, hrest]
  simp [hpoint]

theorem pairwise_reaches_chain : (chain.outcomes place groups).Pairwise Reaches := by
  have hname (place : Cursor) (groups : List Group) :
      ((boundary ++ plainName).outcomes place groups).Pairwise (ReachesOver plainChar) :=
    pairwise_seq_of_single length_outcomes_boundary_le fun _ _ => pairwise_reaches_plainName
  have hpoint (place : Cursor) (groups : List Group) :
      (pointName.outcomes place groups).Pairwise (ReachesOver plainChar) :=
    pairwise_seq_of_single (length_outcomes_chars_le _) fun _ _ => pairwise_reaches_plainName
  have hnames : ((boundary ++ plainName ++ plus pointName).outcomes place groups).Pairwise Reaches := by
    refine pairwise_seq_of_none (hname place groups)
      (fun _ _ => pairwise_reaches_plus hpoint outcomes_pointName_of_plainChar (by decide)) ?_
    intro place c groups hhead hc
    rw [plus, outcomes_append, outcomes_pointName_of_plainChar hhead hc, List.flatMap_nil]
  refine pairwise_seq_of_fixed hnames (fun _ _ => length_outcomes_boundary_le) ?_
  intro o o' hreaches next hnext next' hnext'
  rw [outcomes] at hnext hnext'
  split at hnext
  · split at hnext'
    · rwa [List.mem_singleton.1 hnext, List.mem_singleton.1 hnext']
    · cases hnext'
  · cases hnext

/-- The match of a group is the match of its pattern. -/
theorem matchAt_group (name : String) (p : Pattern) (place : Cursor) :
    (group name p).matchAt place = (p.matchAt place).map fun m =>
      { m with groups := ⟨name, place.index, m.text⟩ :: m.groups } := by
  rw [matchAt_eq, matchAt_eq, outcomes, List.head?_map, Option.map_map, Option.map_map]
  rfl

theorem matchAt_alt (a b : Pattern) (place : Cursor) :
    (alt a b).matchAt place = (a.matchAt place).or (b.matchAt place) := by
  rw [matchAt_eq, matchAt_eq, matchAt_eq, outcomes, List.head?_append, Option.map_or]

/-! ### Placeholders -/

/-- A placeholder: two braces, and what goes on up to the next two closing ones. -/
def IsPlaceholder (text : List Char) : Prop :=
  ∃ x, text = openBrace :: openBrace :: (x ++ [closeBrace, closeBrace]) ∧ '\n' ∉ x ∧
    ¬[closeBrace, closeBrace] <:+: x ++ [closeBrace]

theorem reads_exactText_iff {own : List Char} :
    (exactText own).Reads before text behind ↔ text = own := by
  constructor
  · intro h
    have hown : List.Forall₂ (fun c d => (CharSet.exactly c).mem d = true) own text :=
      List.forall₂_map_left_iff.1 h
    clear h
    induction hown with
    | nil => rfl
    | @cons c d _ _ hd _ ih =>
      obtain rfl : d = c := by simpa [CharSet.exactly, CharSet.mem] using hd
      rw [ih]
  · rintro rfl
    exact ReadsAnywhere.exactText text before behind

theorem reads_placeholder_iff : placeholder.Reads before text behind ↔
    ∃ x, text = openBrace :: openBrace :: (x ++ [closeBrace, closeBrace]) ∧ '\n' ∉ x := by
  constructor
  · rintro ⟨_, _, rfl, ⟨_, x, rfl, hopen, hx⟩, hclose⟩
    obtain rfl := reads_exactText_iff.1 hopen
    obtain rfl := reads_exactText_iff.1 hclose
    exact ⟨x, by simp, reads_many_any_iff.1 hx⟩
  · rintro ⟨x, rfl, hx⟩
    exact ⟨openBrace :: openBrace :: x, _, rfl, ⟨[openBrace, openBrace], x, rfl,
      reads_exactText_iff.2 rfl, reads_many_any_iff.2 hx⟩, reads_exactText_iff.2 rfl⟩

theorem IsPlaceholder.reads (h : IsPlaceholder text) : placeholder.Reads before text behind := by
  obtain ⟨x, htext, hx, -⟩ := h
  exact reads_placeholder_iff.2 ⟨x, htext, hx⟩

theorem pairwise_reaches_placeholder :
    (placeholder.outcomes place groups).Pairwise fun o o' => Reaches o' o := by
  refine pairwise_seq_of_fixed
    (pairwise_seq_of_single (length_outcomes_chars_le _) fun _ _ => pairwise_reaches_lazy_one)
    (fun _ _ => length_outcomes_chars_le _) ?_
  intro o o' hreaches next hnext next' hnext'
  -- the closing braces take the same length from both
  have hlength {place : Cursor} {groups : List Group} {next : Cursor × List Group}
      (h : next ∈ (exactText [closeBrace, closeBrace]).outcomes place groups) :
      place.rest.length = 2 + next.1.rest.length := by
    obtain ⟨text, htext⟩ := spans_of_mem_outcomes h
    obtain rfl := reads_exactText_iff.1 (reads_of_mem_outcomes h htext)
    rw [htext.rest_eq, List.length_append]
    rfl
  have ho := hlength hnext
  have ho' := hlength hnext'
  rw [Reaches] at hreaches ⊢
  omega

theorem isPlaceholder_of_matchAt {index : Nat}
    (h : placeholder.matchAt ⟨before, index, m.text ++ rest⟩ = some m) : IsPlaceholder m.text := by
  obtain ⟨behind, -, hreads⟩ := reads_of_matchAt h
  obtain ⟨x, htext, hx⟩ := reads_placeholder_iff.1 hreads
  refine ⟨x, htext, hx, ?_⟩
  rintro ⟨y, z, hyz⟩
  have hy : '\n' ∉ y := by
    have hclosed : '\n' ∉ x ++ [closeBrace] := by simp [hx, closeBrace]
    rw [← hyz, List.append_assoc] at hclosed
    exact fun hmem => hclosed (List.mem_append_left _ hmem)
  -- the earlier braces would have ended the match
  have hline : m.text ++ rest =
      openBrace :: openBrace :: (y ++ [closeBrace, closeBrace]) ++ (z ++ closeBrace :: rest) := by
    have hx' : x ++ [closeBrace, closeBrace] = x ++ [closeBrace] ++ [closeBrace] := by simp
    rw [htext, hx', ← hyz]
    simp
  have hshorter := length_le_of_matchAt_shortest pairwise_reaches_placeholder h hline
    (reads_placeholder_iff.2 ⟨y, rfl, hy⟩)
  have hlength := congrArg List.length hyz
  rw [htext] at hshorter
  simp only [List.length_append, List.length_cons, List.length_nil] at hshorter hlength
  omega

/-- Text without closing braces between braces is a placeholder. -/
theorem isPlaceholder_of_not_mem (hclose : closeBrace ∉ text) (hfeed : '\n' ∉ text) :
    IsPlaceholder (openBrace :: openBrace :: (text ++ [closeBrace, closeBrace])) := by
  refine ⟨text, rfl, hfeed, fun h => ?_⟩
  have hcount := h.sublist.count_le closeBrace
  rw [List.count_append, List.count_eq_zero.2 hclose] at hcount
  exact absurd hcount (by decide)

theorem IsPlaceholder.head?_eq (h : IsPlaceholder text) : text.head? = some openBrace := by
  obtain ⟨x, rfl, -⟩ := h
  rfl

theorem IsPlaceholder.getLast?_eq (h : IsPlaceholder text) : text.getLast? = some closeBrace := by
  obtain ⟨x, rfl, -⟩ := h
  exact List.getLast?_eq_some_iff.2 ⟨openBrace :: openBrace :: (x ++ [closeBrace]), by simp⟩

/-- What is left of a placeholder from a brace on. -/
theorem IsPlaceholder.exists_tail (h : IsPlaceholder (s ++ t)) (ht : t.head? = some openBrace) :
    ∃ z, t = openBrace :: (z ++ [closeBrace, closeBrace]) := by
  obtain ⟨x, hx, -⟩ := h
  have hx : s ++ t = (openBrace :: openBrace :: x) ++ [closeBrace, closeBrace] := hx
  rcases List.append_eq_append_iff.1 hx with ⟨z, -, rfl⟩ | ⟨z, -, hz⟩
  · cases z with
    | nil => exact absurd ht (by decide)
    | cons c z =>
      obtain rfl : c = openBrace := by simpa using ht
      exact ⟨z, rfl⟩
  · obtain ⟨t, rfl⟩ := List.head?_eq_some_iff.1 ht
    have hmem : openBrace ∈ [closeBrace, closeBrace] := by rw [hz]; simp
    exact absurd hmem (by decide)

/-- A placeholder that starts inside another one does not go on behind it. -/
theorem IsPlaceholder.length_le {own : List Char} (h : IsPlaceholder (s ++ t)) (ht : t ≠ [])
    (hown : IsPlaceholder own) (heq : t ++ u = own ++ rest) : own.length ≤ t.length := by
  obtain ⟨y, rfl, -, hfirst⟩ := hown
  by_contra hlt
  have hhead : t.head? = some openBrace := by
    obtain ⟨c, t, rfl⟩ := List.exists_cons_of_ne_nil ht
    exact congrArg some (List.cons.inj heq).1
  obtain ⟨z, rfl⟩ := h.exists_tail hhead
  obtain ⟨more, hmore⟩ : openBrace :: (z ++ [closeBrace, closeBrace]) <+:
      openBrace :: openBrace :: (y ++ [closeBrace, closeBrace]) :=
    List.prefix_of_prefix_length_le ⟨u, rfl⟩ ⟨rest, heq.symm⟩ (Nat.le_of_not_le hlt)
  have hmore := (List.cons.inj hmore).2
  cases z with
  | nil => exact absurd (List.cons.inj hmore).1 (by decide)
  | cons c z =>
    have hmore : z ++ [closeBrace, closeBrace] ++ more = y ++ [closeBrace, closeBrace] :=
      (List.cons.inj hmore).2
    rcases List.eq_nil_or_concat' more with rfl | ⟨more, last, rfl⟩
    · rw [List.append_nil] at hmore
      exact hlt (by simp [List.append_cancel_right hmore])
    · refine hfirst ⟨z, more, ?_⟩
      have hlast : z ++ [closeBrace, closeBrace] ++ more ++ [last] =
          y ++ [closeBrace] ++ [closeBrace] := by simpa using hmore
      exact (List.append_inj' hlast rfl).1

/-! ### Matches -/

theorem toUpper_of_not_isLower (h : c.isLower = false) : c.toUpper = c := by
  refine dif_neg fun hlower => ?_
  have hc : c.isLower = true := Bool.and_eq_true_iff.2 ⟨decide_eq_true hlower.1, decide_eq_true hlower.2⟩
  rw [hc] at h
  cases h

/-- A chain is put in upper case. -/
theorem getD_raisedName_of_chain {chain : Group} (hm : placeholderOrChain.Matches m)
    (hchain : m.group? "chain" = some chain) :
    (raisedName m).getD m.text = m.text.map Char.toUpper := by
  rw [raisedName_of_chain hm hchain]
  split
  · rfl
  · rename_i hlower
    have hsame : ∀ c ∈ m.text, c.toUpper = c := fun c hc => toUpper_of_not_isLower (by
      simpa using List.any_eq_false.1 (Bool.eq_false_iff.2 hlower) c hc)
    rw [List.map_congr_left hsame, List.map_id']
    rfl

theorem group?_eq_none_of_matchAt {p : Pattern} {name : String} (hp : p.groupsNamed name = [])
    (h : p.matchAt place = some m) : m.group? name = none := by
  rw [matchAt_eq] at h
  obtain ⟨o, ho, rfl⟩ := Option.map_eq_some_iff.1 h
  refine List.find?_eq_none.2 fun g hg hname => ?_
  rw [← beq_iff_eq.1 hname] at hp
  cases mem_groups_of_groupsNamed_eq_nil (List.mem_of_mem_head? ho) hg hp

/-- **What a match is, and what takes its place**: a placeholder, which stays, or the longest chain at
its place, which is put in upper case. -/
theorem match_cases {index : Nat} {line : List Char}
    (h : placeholderOrChain.matchAt ⟨before, index, line⟩ = some m) (hline : line = m.text ++ rest) :
    (IsPlaceholder m.text ∧ (raisedName m).getD m.text = m.text) ∨
      (chain.Reads before m.text rest.head? ∧
        (raisedName m).getD m.text = m.text.map Char.toUpper ∧
        ∀ own behind, line = own ++ behind → chain.Reads before own behind.head? →
          own.length ≤ m.text.length) := by
  have hmatches : placeholderOrChain.Matches m := ⟨_, h⟩
  have halt : placeholderOrChain = alt placeholder (group "chain" chain) := rfl
  rw [halt, matchAt_alt, Option.or_eq_some_iff] at h
  rcases h with h | ⟨-, h⟩
  · have hgroup : m.group? "chain" = none := group?_eq_none_of_matchAt (by decide) h
    subst hline
    exact .inl ⟨isPlaceholder_of_matchAt h, by rw [raisedName_of_none hgroup]; rfl⟩
  · rw [matchAt_group] at h
    obtain ⟨own, hown, rfl⟩ := Option.map_eq_some_iff.1 h
    obtain ⟨behind, hbehind, hreads⟩ := reads_of_matchAt hown
    obtain rfl : behind = rest := List.append_cancel_left (hbehind.symm.trans hline)
    exact .inr ⟨hreads, getD_raisedName_of_chain hmatches rfl, fun text behind =>
      @length_le_of_matchAt_longest chain ⟨before, index, line⟩ own text behind pairwise_reaches_chain
        hown⟩

end SqlDialect.Rule
