import SqlDialect.Proofs.Pattern.Preference

/-!
# How far the outcomes at a place reach

The outcomes at a place stand in order of preference.  For a repetition of one set of characters this is
an order by how far they reach: the greedy one gives the longest text first, the lazy one the shortest
(`Pattern.pairwise_reaches_star_one`, `Pattern.pairwise_reaches_lazy_one`).  The order carries over to a
sequence whose parts cannot make up for each other: behind a shorter text of the first part, nothing is
read by the second one (`Pattern.pairwise_reaches_plus`).

If all the outcomes stand in such an order, the match at a place is the longest text, or the shortest,
that is read there (`Pattern.length_le_of_matchAt_longest`, `Pattern.length_le_of_matchAt_shortest`).
-/

namespace SqlDialect.Pattern

variable {p x : Pattern} {set : CharSet} {place : Cursor} {groups : List Group} {bound : List Char}
  {o : Cursor × List Group} {m : Match} {text rest : List Char}

/-- The first outcome reaches further than the second. -/
def Reaches (o o' : Cursor × List Group) : Prop := o.1.rest.length < o'.1.rest.length

/-- The first outcome reaches further than the second, which ends before a character of the set. -/
def ReachesOver (set : CharSet) (o o' : Cursor × List Group) : Prop :=
  Reaches o o' ∧ ∃ c, o'.1.rest.head? = some c ∧ set.mem c = true

theorem length_rest_le_of_mem_outcomes (h : o ∈ p.outcomes place groups) :
    o.1.rest.length ≤ place.rest.length := by
  obtain ⟨text, htext⟩ := spans_of_mem_outcomes h
  rw [htext.rest_eq, List.length_append]
  exact Nat.le_add_left _ _

theorem length_rest_le_of_mem_roundOutcomes {greedy : Bool}
    (h : o ∈ roundOutcomes greedy p.outcomes bound place groups) :
    o.1.rest.length ≤ place.rest.length :=
  rel_of_mem_roundOutcomes (r := fun o o' => o'.1.rest.length ≤ o.1.rest.length)
    (fun _ => le_rfl) (fun h h' => h'.trans h) length_rest_le_of_mem_outcomes h

/-! ### One set of characters -/

theorem roundOutcomes_one_cons (greedy : Bool) (set : CharSet) (d : Char) (bound : List Char)
    (place : Cursor) (groups : List Group) :
    roundOutcomes greedy (one set).outcomes (d :: bound) place groups = [(place, groups)] ∨
      ∃ c rest, place.rest = c :: rest ∧ set.mem c = true ∧
        roundOutcomes greedy (one set).outcomes (d :: bound) place groups =
          let more := roundOutcomes greedy (one set).outcomes bound
            ⟨some c, place.index + 1, rest⟩ groups
          if greedy then more ++ [(place, groups)] else (place, groups) :: more := by
  rw [roundOutcomes, outcomes_one]
  cases hrest : place.rest with
  | nil => exact .inl (by cases greedy <;> rfl)
  | cons c rest =>
    by_cases hc : set.mem c = true
    · refine .inr ⟨c, rest, rfl, hc, ?_⟩
      simp only [hc, if_true, List.flatMap_singleton]
    · exact .inl (by cases greedy <;> simp [hc])

/-- A greedy repetition of a set reaches as far as it can first, and all others end within the set. -/
theorem pairwise_reaches_star_one :
    ((star (one set)).outcomes place groups).Pairwise (ReachesOver set) := by
  have general : ∀ bound place groups,
      (roundOutcomes true (one set).outcomes bound place groups).Pairwise (ReachesOver set) := by
    intro bound
    induction bound with
    | nil => exact fun _ _ => List.pairwise_singleton _ _
    | cons d bound ih =>
      intro place groups
      rcases roundOutcomes_one_cons true set d bound place groups with h | ⟨c, rest, hrest, hc, h⟩
      · exact h ▸ List.pairwise_singleton _ _
      · rw [h, if_pos rfl]
        refine List.pairwise_append.2 ⟨ih _ _, List.pairwise_singleton _ _, fun o ho o' ho' => ?_⟩
        obtain rfl := List.mem_singleton.1 ho'
        refine ⟨?_, c, by rw [hrest]; rfl, hc⟩
        rw [Reaches, hrest]
        exact Nat.lt_succ_of_le (length_rest_le_of_mem_roundOutcomes ho)
  exact general _ _ _

/-- A lazy repetition of a set reaches no further than it has to first. -/
theorem pairwise_reaches_lazy_one :
    ((many false (one set)).outcomes place groups).Pairwise fun o o' => Reaches o' o := by
  have general : ∀ bound place groups,
      (roundOutcomes false (one set).outcomes bound place groups).Pairwise
        fun o o' => Reaches o' o := by
    intro bound
    induction bound with
    | nil => exact fun _ _ => List.pairwise_singleton _ _
    | cons d bound ih =>
      intro place groups
      rcases roundOutcomes_one_cons false set d bound place groups with h | ⟨c, rest, hrest, hc, h⟩
      · exact h ▸ List.pairwise_singleton _ _
      · rw [h, if_neg Bool.false_ne_true]
        refine List.pairwise_cons.2 ⟨fun o ho => ?_, ih _ _⟩
        rw [Reaches, hrest]
        exact Nat.lt_succ_of_le (length_rest_le_of_mem_roundOutcomes ho)
  exact general _ _ _

/-! ### Sequences -/

theorem outcomes_append (a b : Pattern) (place : Cursor) (groups : List Group) :
    (a ++ b).outcomes place groups =
      (a.outcomes place groups).flatMap fun o => b.outcomes o.1 o.2 := rfl

theorem roundOutcomes_greedy_cons (step : Cursor → List Group → List (Cursor × List Group)) (d : Char)
    (bound : List Char) (place : Cursor) (groups : List Group) :
    roundOutcomes true step (d :: bound) place groups =
      ((step place groups).flatMap fun o => roundOutcomes true step bound o.1 o.2) ++
        [(place, groups)] := rfl

/-- Behind at most one text, the order of the second part is the order of the sequence. -/
theorem pairwise_seq_of_single {r : Cursor × List Group → Cursor × List Group → Prop} {a b : Pattern}
    (ha : (a.outcomes place groups).length ≤ 1)
    (hb : ∀ place groups, (b.outcomes place groups).Pairwise r) :
    ((a ++ b).outcomes place groups).Pairwise r := by
  rw [outcomes_append]
  refine List.pairwise_flatMap.2 ⟨fun o _ => hb o.1 o.2, ?_⟩
  cases houtcomes : a.outcomes place groups with
  | nil => exact .nil
  | cons o others =>
    rw [houtcomes, List.length_cons] at ha
    obtain rfl := List.length_eq_zero_iff.1 (Nat.le_zero.1 (Nat.le_of_succ_le_succ ha))
    exact List.pairwise_singleton _ _

theorem length_outcomes_chars_le (sets : List CharSet) :
    ((chars sets).outcomes place groups).length ≤ 1 :=
  Option.length_toList_le

theorem length_outcomes_boundary_le : (boundary.outcomes place groups).length ≤ 1 := by
  rw [outcomes]
  split <;> simp

/-- The order of the first part is the order of the sequence if the second one has the same length
everywhere. -/
theorem pairwise_seq_of_fixed {r : Cursor × List Group → Cursor × List Group → Prop} {a b : Pattern}
    (ha : (a.outcomes place groups).Pairwise r)
    (hone : ∀ place groups, (b.outcomes place groups).length ≤ 1)
    (hfixed : ∀ {o o'}, r o o' → ∀ next ∈ b.outcomes o.1 o.2, ∀ next' ∈ b.outcomes o'.1 o'.2,
      r next next') :
    ((a ++ b).outcomes place groups).Pairwise r := by
  rw [outcomes_append]
  refine List.pairwise_flatMap.2 ⟨fun o _ => ?_, ha.imp fun h => hfixed h⟩
  have hlength := hone o.1 o.2
  match hnext : b.outcomes o.1 o.2 with
  | [] => exact .nil
  | [next] => exact List.pairwise_singleton _ _
  | next :: next' :: more => simp [hnext] at hlength

/-- The order of the second part is the order of the sequence if it reads nothing before the set. -/
theorem pairwise_seq_of_none {r : Cursor × List Group → Cursor × List Group → Prop} {a b : Pattern}
    (ha : (a.outcomes place groups).Pairwise (ReachesOver set))
    (hb : ∀ place groups, (b.outcomes place groups).Pairwise r)
    (hnone : ∀ {place : Cursor} {c groups}, place.rest.head? = some c → set.mem c = true →
      b.outcomes place groups = []) :
    ((a ++ b).outcomes place groups).Pairwise r := by
  rw [outcomes_append]
  refine List.pairwise_flatMap.2 ⟨fun o _ => hb o.1 o.2, ha.imp fun {o o'} h next _ next' hnext' => ?_⟩
  obtain ⟨-, c, hhead, hc⟩ := h
  rw [hnone hhead hc] at hnext'
  cases hnext'

/-! ### Repetitions -/

section Plus

variable (hx : ∀ place groups, (x.outcomes place groups).Pairwise (ReachesOver set))
  (hnone : ∀ {place : Cursor} {c groups}, place.rest.head? = some c → set.mem c = true →
    x.outcomes place groups = [])
  (hnil : x.readsEmpty = false)

include hnone in
/-- Only behind the furthest of the texts, there is another round. -/
theorem pairwise_reaches_flatMap {all : List (Cursor × List Group)} {bound : Cursor → List Char}
    (hall : all.Pairwise (ReachesOver set))
    (hrounds : ∀ o : Cursor × List Group,
      (roundOutcomes true x.outcomes (bound o.1) o.1 o.2).Pairwise Reaches) :
    (all.flatMap fun o => roundOutcomes true x.outcomes (bound o.1) o.1 o.2).Pairwise Reaches := by
  refine List.pairwise_flatMap.2 ⟨fun o _ => hrounds o,
    hall.imp fun {o o'} h next hnext next' hnext' => ?_⟩
  obtain ⟨hreaches, c, hhead, hc⟩ := h
  have hlast : roundOutcomes true x.outcomes (bound o'.1) o'.1 o'.2 = [o'] := by
    cases bound o'.1 with
    | nil => rfl
    | cons d more => rw [roundOutcomes_greedy_cons, hnone hhead hc]; rfl
  rw [hlast, List.mem_singleton] at hnext'
  rw [hnext']
  exact lt_of_le_of_lt (length_rest_le_of_mem_roundOutcomes hnext) hreaches

include hx hnone hnil in
theorem pairwise_reaches_rounds (bound : List Char) (place : Cursor) (groups : List Group) :
    (roundOutcomes true x.outcomes bound place groups).Pairwise Reaches := by
  induction bound generalizing place groups with
  | nil => exact List.pairwise_singleton _ _
  | cons d bound ih =>
    rw [roundOutcomes_greedy_cons]
    have hrounds := @pairwise_reaches_flatMap x set hnone _ (fun _ => bound) (hx place groups)
      fun o => ih o.1 o.2
    refine List.pairwise_append.2 ⟨hrounds, List.pairwise_singleton _ _, fun o ho o' ho' => ?_⟩
    obtain rfl := List.mem_singleton.1 ho'
    obtain ⟨first, hfirst, ho⟩ := List.mem_flatMap.1 ho
    refine lt_of_le_of_lt (length_rest_le_of_mem_roundOutcomes ho) ?_
    obtain ⟨text, htext⟩ := spans_of_mem_outcomes hfirst
    have hne : text ≠ [] := by
      rintro rfl
      exact not_reads_nil hnil _ _ (reads_of_mem_outcomes hfirst htext)
    rw [htext.rest_eq, List.length_append]
    exact Nat.lt_add_of_pos_left (List.length_pos_of_ne_nil hne)

include hx hnone hnil in
/-- **Rounds that end within a set**, before which no round starts, reach as far as they can first. -/
theorem pairwise_reaches_plus : ((plus x).outcomes place groups).Pairwise Reaches :=
  @pairwise_reaches_flatMap x set hnone _ Cursor.rest (hx place groups) fun _ =>
    pairwise_reaches_rounds hx hnone hnil _ _ _

end Plus

/-! ### Matches -/

theorem exists_of_matchAt (h : p.matchAt place = some m) (hrest : place.rest = text ++ rest)
    (hreads : p.Reads place.previous text rest.head?) :
    ∃ o others, p.outcomes place [] = o :: others ∧ place.Spans o.1 m.text ∧
      ∃ o' ∈ o :: others, place.Spans o'.1 text := by
  obtain ⟨o, ho, hown, -, -⟩ := exists_outcome_of_matchAt h
  obtain ⟨others, hothers⟩ := List.head?_eq_some_iff.1 ho
  obtain ⟨o', ho', htext⟩ := exists_outcome_of_reads [] hreads hrest
  exact ⟨o, others, hothers, hown, o', hothers ▸ ho', htext⟩

/-- **The match is the longest text that is read**, if the outcomes reach as far as they can first. -/
theorem length_le_of_matchAt_longest (hp : (p.outcomes place []).Pairwise Reaches)
    (h : p.matchAt place = some m) (hrest : place.rest = text ++ rest)
    (hreads : p.Reads place.previous text rest.head?) : text.length ≤ m.text.length := by
  obtain ⟨o, others, hall, hown, o', ho', htext⟩ := exists_of_matchAt h hrest hreads
  rw [hall, List.pairwise_cons] at hp
  have hlength := congrArg List.length (hown.rest_eq.symm.trans htext.rest_eq)
  rw [List.length_append, List.length_append] at hlength
  rcases List.mem_cons.1 ho' with rfl | ho'
  · omega
  · have : o.1.rest.length < o'.1.rest.length := hp.1 o' ho'
    omega

/-- **The match is the shortest text that is read**, if the outcomes reach no further than they have to
first. -/
theorem length_le_of_matchAt_shortest (hp : (p.outcomes place []).Pairwise fun o o' => Reaches o' o)
    (h : p.matchAt place = some m) (hrest : place.rest = text ++ rest)
    (hreads : p.Reads place.previous text rest.head?) : m.text.length ≤ text.length := by
  obtain ⟨o, others, hall, hown, o', ho', htext⟩ := exists_of_matchAt h hrest hreads
  rw [hall, List.pairwise_cons] at hp
  have hlength := congrArg List.length (hown.rest_eq.symm.trans htext.rest_eq)
  rw [List.length_append, List.length_append] at hlength
  rcases List.mem_cons.1 ho' with rfl | ho'
  · omega
  · have : o'.1.rest.length < o.1.rest.length := hp.1 o' ho'
    omega

end SqlDialect.Pattern
