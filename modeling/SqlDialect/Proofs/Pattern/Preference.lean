import SqlDialect.Proofs.Pattern.Inert

/-!
# Which match a search reports

Of the ways to match, a search reports the first: a greedy repetition takes all that it can get, a
lazy one as little as it has to, and the leftmost place with a match counts.

* `Pattern.head?_of_matchAt` : behind a greedy repetition of one set, there is no more of the set.
* `Pattern.not_reads_of_lazy` : before the end of a lazy repetition, the pattern behind it reads
  nothing.
* `Pattern.exists_first_of_find?` : nothing is read further left than the match of a search.
* `Pattern.exists_mem_matchesIn_of_reads` : if no text of the pattern starts within another one, every
  reading is that of a reported match.
-/

namespace SqlDialect.Pattern

variable {p : Pattern} {place : Cursor} {groups : List Group} {o : Cursor × List Group}
  {set : CharSet} {m : Match} {line : List Char} {c : Char}

theorem outcomes_one (set : CharSet) (place : Cursor) (groups : List Group) :
    (one set).outcomes place groups =
      match place.rest with
      | [] => []
      | c :: rest => if set.mem c then [(⟨some c, place.index + 1, rest⟩, groups)] else [] := by
  cases hrest : place.rest with
  | nil => simp [one, outcomes, Cursor.after?, hrest]
  | cons c rest => by_cases hc : set.mem c <;> simp [one, outcomes, Cursor.after?, hrest, hc]

/-- The first outcome of a sequence is the first behind some outcome of what comes first in it. -/
theorem exists_head?_of_append {a b : Pattern} (h : ((a ++ b).outcomes place groups).head? = some o) :
    ∃ o' ∈ a.outcomes place groups, (b.outcomes o'.1 o'.2).head? = some o := by
  change (List.flatMap (fun o : Cursor × List Group => b.outcomes o.1 o.2) _).head? = _ at h
  rw [List.head?_flatMap] at h
  exact List.exists_of_findSome?_eq_some h

/-! ### Greedy repetitions -/

/-- Whether every match ends with as many characters of the set as there are. -/
def isMaximal (set : CharSet) : Pattern → Bool
  | many greedy a => greedy && a == one set
  | seq _ b => b.isMaximal set
  | group _ a => a.isMaximal set
  | chars _ | lineStart | lineEnd | boundary | alt _ _ => false

theorem roundOutcomes_ne_nil {greedy : Bool}
    {step : Cursor → List Group → List (Cursor × List Group)} (bound : List Char) :
    roundOutcomes greedy step bound place groups ≠ [] := by
  cases bound with
  | nil => simp [roundOutcomes]
  | cons _ bound => cases greedy <;> simp [roundOutcomes]

theorem mem_eq_false_of_roundOutcomes {bound : List Char}
    (hbound : place.rest.length ≤ bound.length)
    (h : (roundOutcomes true (one set).outcomes bound place groups).head? = some o)
    (hc : o.1.rest.head? = some c) : set.mem c = false := by
  induction bound generalizing place groups with
  | nil =>
    obtain rfl := Option.some.inj h
    rw [List.length_eq_zero_iff.1 (Nat.eq_zero_of_le_zero hbound)] at hc
    cases hc
  | cons _ bound ih =>
    rw [roundOutcomes, if_pos rfl, outcomes_one] at h
    cases hrest : place.rest with
    | nil =>
      rw [hrest] at h
      obtain rfl := Option.some.inj h
      rw [hrest] at hc
      cases hc
    | cons d rest =>
      rw [hrest] at h hbound
      dsimp only at h
      split at h
      · -- a character of the set is taken
        rw [List.flatMap_singleton, List.head?_append_of_ne_nil _ (roundOutcomes_ne_nil bound)] at h
        exact ih (Nat.le_of_succ_le_succ hbound) h
      · rename_i hd
        obtain rfl := Option.some.inj h
        rw [hrest] at hc
        obtain rfl := Option.some.inj hc
        simpa using hd

theorem mem_eq_false_of_outcomes (hp : p.isMaximal set = true)
    (h : (p.outcomes place groups).head? = some o) (hc : o.1.rest.head? = some c) :
    set.mem c = false := by
  induction p generalizing place groups o with
  | many greedy a =>
    rw [isMaximal, Bool.and_eq_true, beq_iff_eq] at hp
    obtain ⟨rfl, rfl⟩ := hp
    exact mem_eq_false_of_roundOutcomes le_rfl h hc
  | seq a b _ ihb =>
    rw [outcomes, List.head?_flatMap] at h
    obtain ⟨o', -, h⟩ := List.exists_of_findSome?_eq_some h
    exact ihb hp h hc
  | group name a ih =>
    rw [outcomes, List.head?_map] at h
    obtain ⟨o', ho', rfl⟩ := Option.map_eq_some_iff.1 h
    exact ih hp ho' hc
  | chars | lineStart | lineEnd | boundary | alt => cases hp

/-- Behind a match that ends with a greedy repetition of one set, there is no more of the set. -/
theorem mem_eq_false_of_matchAt (hp : p.isMaximal set = true) (h : p.matchAt place = some m)
    {rest : List Char} (hrest : place.rest = m.text ++ rest) (hc : rest.head? = some c) :
    set.mem c = false := by
  obtain ⟨o, ho, htext, -, -⟩ := exists_outcome_of_matchAt h
  rw [htext.rest_eq, List.append_cancel_left_eq] at hrest
  rw [← hrest] at hc
  exact mem_eq_false_of_outcomes hp ho hc

/-! ### Lazy repetitions -/

/-- Before an outcome of a lazy repetition, there are those behind shorter texts. -/
theorem exists_shorter_of_roundOutcomes {bound s t : List Char}
    {before after : List (Cursor × List Group)}
    (h : roundOutcomes false (one set).outcomes bound place groups = before ++ o :: after)
    (ho : place.Spans o.1 (s ++ c :: t)) :
    ∃ o' ∈ before, place.Spans o'.1 s := by
  induction bound generalizing place before s with
  | nil =>
    rw [roundOutcomes, List.singleton_eq_append_iff] at h
    rcases h with ⟨-, h⟩ | ⟨-, h⟩
    · obtain ⟨rfl, -⟩ := List.cons.inj h
      exact absurd ho.eq_nil (by simp)
    · cases h
  | cons _ bound ih =>
    rw [roundOutcomes, if_neg Bool.false_ne_true, outcomes_one] at h
    cases before with
    | nil =>
      obtain ⟨rfl, -⟩ := List.cons.inj h
      exact absurd ho.eq_nil (by simp)
    | cons first before =>
      obtain ⟨hfirst, hmore⟩ := List.cons.inj h
      subst hfirst
      cases s with
      | nil => exact ⟨_, List.mem_cons_self, .refl place⟩
      | cons d s =>
        have hrest : place.rest = d :: (s ++ c :: t ++ o.1.rest) := ho.rest_eq
        rw [hrest] at hmore
        dsimp only at hmore
        split at hmore
        · -- one character is taken, and the shorter texts go on behind it
          rw [List.flatMap_singleton] at hmore
          set next : Cursor := ⟨some d, place.index + 1, s ++ c :: t ++ o.1.rest⟩
          have one : place.Spans next [d] := ⟨hrest, rfl, rfl⟩
          obtain ⟨o', ho', hspans⟩ := ih hmore (one.of_append ho)
          exact ⟨o', List.mem_cons_of_mem _ ho', one.trans hspans⟩
        · simp at hmore

/-- The outcomes of a group at the start of a line, and behind each of them those of the rest. -/
theorem outcomes_lineStart_group {p a b : Pattern} (name : String) (line : List Char) :
    (lineStart ++ group name p ++ a ++ b).outcomes (.start line) [] =
      (p.outcomes (.start line) []).flatMap fun o =>
        (a ++ b).outcomes o.1 (⟨name, 0, (Cursor.start line).between o.1⟩ :: o.2) := by
  change (seq (seq (seq lineStart (group name p)) a) b).outcomes _ _ =
    List.flatMap (fun o => (seq a b).outcomes _ _) _
  simp only [outcomes, Cursor.start, Option.isNone_none, if_true, List.flatMap_singleton,
    List.flatMap_map, List.flatMap_assoc]

/-- The text of a group that has none of its name within it or behind it. -/
theorem textOf_eq_of_mem_outcomes {p q : Pattern} {name : String} {start : Nat} {text : List Char}
    {stop : Cursor × List Group} (hp : p.groupsNamed name = []) (hq : q.groupsNamed name = [])
    (hstop : stop ∈ p.outcomes place []) (ho : o ∈ q.outcomes stop.1 (⟨name, start, text⟩ :: stop.2))
    (hgroups : m.groups = o.2) : m.textOf name = text := by
  refine Match.textOf_eq
    ⟨_, hgroups ▸ (groups_suffix_of_mem_outcomes ho).subset List.mem_cons_self, rfl⟩
    fun g hg hname => ?_
  rw [hgroups] at hg
  rcases List.mem_cons.1 (mem_groups_of_groupsNamed_eq_nil ho hg (hname ▸ hq)) with rfl | hg
  · rfl
  · cases mem_groups_of_groupsNamed_eq_nil hstop hg (hname ▸ hp)

/-- **Before the end of a lazy repetition**, what is behind it in the pattern reads nothing up to the
end of the line. -/
theorem not_reads_of_lazy {name : String} {a b : Pattern}
    (ha : a.groupsNamed name = []) (hb : b.groupsNamed name = [])
    (h : (lineStart ++ group name (many false (one set)) ++ a ++ b).find? line = some m)
    {s t text : List Char} (htext : m.textOf name = s ++ c :: t) (hline : line = s ++ text) :
    ¬(a ++ b).Reads s.getLast? text none := by
  obtain ⟨place, front, hfront, hmatch⟩ := exists_place_of_find? h
  obtain ⟨o, ho, -, -, hgroups⟩ := exists_outcome_of_matchAt hmatch
  obtain rfl := hfront.eq_of_previous
    (previous_of_mem_outcomes rfl (List.mem_of_mem_head? ho))
  rw [outcomes_lineStart_group, List.head?_flatMap] at ho
  obtain ⟨before, stop, after, hrounds, hstop, hbefore⟩ := List.findSome?_eq_some_iff.1 ho
  have hmem : stop ∈ (many false (one set)).outcomes (.start line) [] := by rw [hrounds]; simp
  obtain ⟨own, hown⟩ := spans_of_mem_outcomes hmem
  have hrest : (a ++ b).groupsNamed name = [] := List.append_eq_nil_iff.2 ⟨ha, hb⟩
  have hgroup : m.textOf name = own :=
    (textOf_eq_of_mem_outcomes rfl hrest hmem (List.mem_of_mem_head? hstop) hgroups).trans
      hown.between_eq
  rw [hgroup] at htext
  rw [htext] at hown
  obtain ⟨o', ho', hspans⟩ := exists_shorter_of_roundOutcomes hrounds hown
  intro hreads
  have hbehind : o'.1.rest = text ++ [] := by
    rw [List.append_nil]
    exact List.append_cancel_left (hspans.rest_eq.symm.trans hline)
  have hprevious : o'.1.previous = s.getLast? := by
    rw [hspans.previous_eq]
    exact Option.or_none
  rw [← hprevious, ← List.head?_nil] at hreads
  obtain ⟨o'', ho'', -⟩ := exists_outcome_of_reads _ hreads hbehind
  have hnil := List.head?_eq_none_iff.1 (hbefore o' ho')
  rw [hnil] at ho''
  cases ho''

/-! ### Leftmost matches -/

theorem findFrom_of_matchAt {before : Option Char} {index : Nat}
    (h : p.matchAt ⟨before, index, line⟩ = some m) : p.findFrom before index line = some m := by
  cases line with
  | nil => exact h
  | cons c rest => rw [findFrom, h]

theorem exists_first_of_findFrom {before : Option Char} {index : Nat}
    (h : p.findFrom before index line = some m) :
    ∃ a b, line = a ++ b ∧ m.start = index + a.length ∧
      p.matchAt ⟨a.getLast?.or before, index + a.length, b⟩ = some m ∧
      ∀ a' text rest, line = a' ++ (text ++ rest) → a'.length < a.length →
        ¬p.Reads (a'.getLast?.or before) text rest.head? := by
  have here {line : List Char} {before : Option Char} {index : Nat}
      (h : p.matchAt ⟨before, index, line⟩ = some m) :
      ∃ a b, line = a ++ b ∧ m.start = index + a.length ∧
        p.matchAt ⟨a.getLast?.or before, index + a.length, b⟩ = some m ∧
        ∀ a' text rest, line = a' ++ (text ++ rest) → a'.length < a.length →
          ¬p.Reads (a'.getLast?.or before) text rest.head? :=
    ⟨[], line, rfl, start_eq_of_matchAt h, h, fun _ _ _ _ hlt => absurd hlt (Nat.not_lt_zero _)⟩
  induction line generalizing before index with
  | nil => exact here h
  | cons d rest ih =>
    rw [findFrom] at h
    cases hmatch : p.matchAt ⟨before, index, d :: rest⟩ with
    | some found =>
      rw [hmatch] at h
      obtain rfl := Option.some.inj h
      exact here hmatch
    | none =>
      rw [hmatch] at h
      obtain ⟨a, b, rfl, hstart, hfound, hfirst⟩ := ih h
      rw [← getLast?_cons_or d a before] at hfound
      refine ⟨d :: a, b, rfl, ?_, ?_, fun a' text rest' hline hlt => ?_⟩
      · rw [hstart, List.length_cons]
        omega
      · rw [List.length_cons, Nat.add_comm a.length, ← Nat.add_assoc]
        exact hfound
      · cases a' with
        | nil => exact matchAt_eq_none_iff.1 hmatch text rest' hline
        | cons e a' =>
          obtain ⟨rfl, htail⟩ := List.cons.inj hline
          rw [getLast?_cons_or]
          exact hfirst a' text rest' htail (Nat.lt_of_succ_lt_succ hlt)

/-- **Nothing is read further left than the match of a search.** -/
theorem exists_first_of_find? (h : p.find? line = some m) :
    ∃ a b, line = a ++ b ∧ m.start = a.length ∧ p.matchAt ⟨a.getLast?, a.length, b⟩ = some m ∧
      ∀ a' text rest, line = a' ++ (text ++ rest) → a'.length < a.length →
        ¬p.Reads a'.getLast? text rest.head? := by
  rw [find?_eq] at h
  simpa using exists_first_of_findFrom h

theorem isSome_findFrom_of_reads {before : Option Char} {index : Nat} {a text rest : List Char}
    (hline : line = a ++ (text ++ rest)) (hreads : p.Reads (a.getLast?.or before) text rest.head?) :
    (p.findFrom before index line).isSome = true := by
  induction a generalizing before index line with
  | nil =>
    subst hline
    have hmatch : p.matchAt ⟨before, index, text ++ rest⟩ ≠ none :=
      fun hnone => matchAt_eq_none_iff.1 hnone text rest rfl hreads
    rw [List.nil_append]
    cases hrest : text ++ rest with
    | nil =>
      rw [hrest] at hmatch
      exact Option.isSome_iff_ne_none.2 hmatch
    | cons d rest =>
      rw [hrest] at hmatch
      rw [findFrom]
      split
      · rfl
      · rename_i hnone
        exact absurd hnone hmatch
  | cons d a ih =>
    subst hline
    rw [List.cons_append, findFrom]
    split
    · rfl
    · rw [getLast?_cons_or] at hreads
      exact ih rfl hreads

/-- A pattern occurs in a line if and only if it reads some stretch of it. -/
theorem occursIn_iff : p.occursIn line = true ↔
    ∃ a text rest, line = a ++ (text ++ rest) ∧ p.Reads a.getLast? text rest.head? := by
  rw [occursIn, find?_eq]
  constructor
  · intro h
    obtain ⟨m, hm⟩ := Option.isSome_iff_exists.1 h
    rw [← find?_eq] at hm
    obtain ⟨a, b, rfl, -, hmatch, -⟩ := exists_first_of_find? hm
    obtain ⟨rest, hrest, hreads⟩ := reads_of_matchAt hmatch
    have hrest : b = m.text ++ rest := hrest
    exact ⟨a, m.text, rest, by rw [hrest], hreads⟩
  · rintro ⟨a, text, rest, hline, hreads⟩
    exact isSome_findFrom_of_reads hline (by rwa [Option.or_none])

/-! ### All matches -/

theorem text_ne_nil_of_matchAt (hnil : p.readsEmpty = false) (h : p.matchAt place = some m) :
    m.text ≠ [] := by
  obtain ⟨rest, -, hreads⟩ := reads_of_matchAt h
  intro hempty
  rw [hempty] at hreads
  exact not_reads_nil hnil _ _ hreads

/-- What is read further right than a match starts behind it, if no text of the pattern starts within
another. -/
theorem length_text_le_of_reads (hp : startsWithin Side.all p p = true) {before : Option Char}
    {index : Nat} {a text rest : List Char}
    (hmatch : p.matchAt ⟨before, index, a ++ (text ++ rest)⟩ = some m) (ha : a ≠ [])
    (htext : text ≠ []) (hreads : p.Reads (a.getLast?.or before) text rest.head?) :
    m.text.length ≤ a.length := by
  by_contra hlt
  obtain ⟨old, hold, hm⟩ := reads_of_matchAt hmatch
  obtain ⟨b, hb⟩ : a <+: m.text :=
    List.prefix_of_prefix_length_le (List.prefix_append _ _) ⟨old, hold.symm⟩ (by omega)
  have hbne : b ≠ [] := by
    rintro rfl
    rw [← hb, List.append_nil] at hlt
    exact hlt (Nat.le_refl _)
  have hrest : b ++ old = text ++ rest := by
    refine (List.append_right_inj a).1 ?_
    rw [← List.append_assoc, hb]
    exact hold.symm
  rw [← hb] at hm
  exact not_reads_of_startsWithin hp hm (Side.mem_all _) ha hbne hrest htext hreads

theorem exists_mem_piecesFrom_of_reads (hp : startsWithin Side.all p p = true)
    (hnil : p.readsEmpty = false) {skip index : Nat} {before : Option Char} {a text rest : List Char}
    (hline : line = a ++ (text ++ rest)) (hskip : skip ≤ a.length)
    (hreads : p.Reads (a.getLast?.or before) text rest.head?) :
    ∃ m, .found m ∈ p.piecesFrom skip before index line ∧
      p.matchAt ⟨a.getLast?.or before, index + a.length, text ++ rest⟩ = some m := by
  have htext : text ≠ [] := by
    rintro rfl
    exact not_reads_nil hnil _ _ hreads
  induction line generalizing skip index before a with
  | nil => exact absurd (List.append_eq_nil_iff.1 (List.append_eq_nil_iff.1 hline.symm).2).1 htext
  | cons d line ih =>
    have further {skip : Nat} {a' : List Char} (ha : a = d :: a') (hle : skip ≤ a'.length) :
        ∃ m, .found m ∈ p.piecesFrom skip (some d) (index + 1) line ∧
          p.matchAt ⟨a.getLast?.or before, index + a.length, text ++ rest⟩ = some m := by
      subst ha
      rw [getLast?_cons_or] at hreads ⊢
      rw [List.length_cons, Nat.add_comm a'.length, ← Nat.add_assoc]
      exact ih (List.cons.inj hline).2 hle hreads
    cases a with
    | nil =>
      obtain rfl : skip = 0 := Nat.eq_zero_of_le_zero hskip
      have hline' : d :: line = text ++ rest := hline
      rcases p.piecesFrom_cons_cases before index d line with ⟨m, hmatch, -, hpieces⟩ | ⟨hempty, -⟩
      · exact ⟨m, hpieces ▸ List.mem_cons_self, hline' ▸ hmatch⟩
      · cases hmatch : p.matchAt ⟨before, index, d :: line⟩ with
        | none => exact absurd hreads (matchAt_eq_none_iff.1 hmatch text rest hline')
        | some m => exact absurd (hempty m hmatch) (text_ne_nil_of_matchAt hnil hmatch)
    | cons e a =>
      obtain ⟨rfl, htail⟩ := List.cons.inj hline
      cases skip with
      | succ skip => exact further rfl (Nat.le_of_succ_le_succ hskip)
      | zero =>
        rcases p.piecesFrom_cons_cases before index d line with ⟨m, hmatch, -, hpieces⟩ | ⟨-, hpieces⟩
        · rw [hline] at hmatch
          -- a match that starts before the text ends before it, and is skipped in time
          have hlength := length_text_le_of_reads hp hmatch (List.cons_ne_nil d a) htext hreads
          obtain ⟨m', hm', hmatch'⟩ := further rfl (Nat.sub_le_of_le_add hlength)
          exact ⟨m', hpieces ▸ List.mem_cons_of_mem _ hm', hmatch'⟩
        · obtain ⟨m', hm', hmatch'⟩ := further rfl (Nat.zero_le _)
          exact ⟨m', hpieces ▸ List.mem_cons_of_mem _ hm', hmatch'⟩

/-- **Every reading is that of a reported match** if no text of the pattern starts within another. -/
theorem exists_mem_matchesIn_of_reads (hp : startsWithin Side.all p p = true)
    (hnil : p.readsEmpty = false) {a text rest : List Char} (hline : line = a ++ (text ++ rest))
    (hreads : p.Reads a.getLast? text rest.head?) :
    ∃ m ∈ p.matchesIn line, p.matchAt ⟨a.getLast?, a.length, text ++ rest⟩ = some m := by
  rw [← Option.or_none (o := a.getLast?)] at hreads
  obtain ⟨m, hm, hmatch⟩ := @exists_mem_piecesFrom_of_reads p line hp hnil 0 0 _ _ _ _ hline
    (Nat.zero_le _) hreads
  rw [Option.or_none, Nat.zero_add] at hmatch
  refine ⟨m, ?_, hmatch⟩
  rw [matchesIn, pieces_eq]
  exact List.mem_filterMap.2 ⟨.found m, hm, rfl⟩

theorem le_start_of_mem_piecesFrom {skip index : Nat} {before : Option Char}
    (h : .found m ∈ p.piecesFrom skip before index line) : index + skip ≤ m.start := by
  obtain ⟨a, b, -, hskip, hmatch, -⟩ := exists_matchAt_of_mem_piecesFrom h
  rw [start_eq_of_matchAt hmatch]
  exact Nat.add_le_add_left hskip index

/-- **Reported matches stand one behind the other.** -/
theorem pairwise_matchesIn (p : Pattern) (line : List Char) :
    (p.matchesIn line).Pairwise fun m m' => m.stop ≤ m'.start := by
  have general : ∀ skip before index, ((p.piecesFrom skip before index line).filterMap
      Piece.match?).Pairwise fun m m' => m.stop ≤ m'.start := by
    induction line with
    | nil => intro skip before index; cases skip <;> simp [piecesFrom]
    | cons d line ih =>
      intro skip before index
      cases skip with
      | succ skip => exact ih _ _ _
      | zero =>
        rcases p.piecesFrom_cons_cases before index d line with
          ⟨m, hmatch, hne, hpieces⟩ | ⟨-, hpieces⟩
        · rw [hpieces]
          refine List.pairwise_cons.2 ⟨fun m' hm' => ?_, ih _ _ _⟩
          obtain ⟨piece, hpiece, hfound⟩ := List.mem_filterMap.1 hm'
          cases piece with
          | other c => cases hfound
          | found own =>
            obtain rfl : own = m' := by simpa [Piece.match?] using hfound
            have hle := le_start_of_mem_piecesFrom hpiece
            have hlength := List.length_pos_of_ne_nil hne
            rw [Match.stop, start_eq_of_matchAt hmatch]
            dsimp only
            omega
        · rw [hpieces]
          exact ih _ _ _
  rw [matchesIn, pieces_eq]
  exact general _ _ _

end SqlDialect.Pattern
