import SqlDialect.Proofs.Pattern.Reading
import SqlDialect.Proofs.Text.Case
import SqlDialect.Proofs.Text.Run

/-!
# What is left of a reading

A reading goes through its text character by character, and behind each of them there are patterns
that are still to be read.  A pattern leaves only finitely many such lists of patterns behind.

* `Pattern.readsAll_nil_iff` : `Pattern.readsNil` decides what the empty text is read by.
* `Pattern.leads_steps` : `Pattern.steps` lists what can be left behind the next character.
* `Pattern.remains_of_reads` : `Pattern.tails` lists what can be left behind any text that has been
  read of a pattern.
* `Pattern.eq_of_reads_of_ends` : a text that ends with its only character of a kind is the only one
  that is read from its place on.
-/

namespace SqlDialect

/-- What a pattern can tell of the character next to a text. -/
inductive Side where
  /-- There is no character. -/
  | edge
  /-- It is a word character. -/
  | word
  /-- It is some other character. -/
  | other
deriving Repr, DecidableEq

namespace Side

/-- What a pattern can tell of the character. -/
def of : Option Char → Side
  | none => edge
  | some c => if Text.isWordChar c then word else other

/-- Whether it is a word character. -/
def isWord : Side → Bool
  | word => true
  | edge | other => false

/-- Whether there is no character. -/
def isEdge : Side → Bool
  | edge => true
  | word | other => false

theorem isWord_of (c? : Option Char) : (of c?).isWord = c?.any Text.isWordChar := by
  cases c? with
  | none => rfl
  | some c => cases h : Text.isWordChar c <;> simp [of, isWord, h]

theorem isEdge_of {c? : Option Char} : (of c?).isEdge = true ↔ c? = none := by
  cases c? with
  | none => exact iff_of_true rfl rfl
  | some c => cases h : Text.isWordChar c <;> simp [of, isEdge, h]

/-- What can be told of a character that there is. -/
def present : List Side := [word, other]

theorem of_some_mem_present (c : Char) : of (some c) ∈ present := by
  cases h : Text.isWordChar c <;> simp [of, present, h]

/-- All that can be told. -/
def all : List Side := [edge, word, other]

theorem mem_all (side : Side) : side ∈ all := by
  cases side <;> simp [all]

end Side

namespace Pattern

variable {p : Pattern} {k : List Pattern} {before behind : Option Char} {c : Char}
  {s t text rest : List Char}

/-! ### The empty text -/

/-- Whether the pattern reads the empty text between characters of these sides. -/
def readsNil (before behind : Side) : Pattern → Bool
  | chars sets => sets.isEmpty
  | lineStart => before.isEdge
  | lineEnd => behind.isEdge
  | boundary => before.isWord != behind.isWord
  | seq a b => a.readsNil before behind && b.readsNil before behind
  | alt a b => a.readsNil before behind || b.readsNil before behind
  | many _ _ => true
  | group _ a => a.readsNil before behind

theorem reads_nil_iff :
    p.Reads before [] behind ↔ p.readsNil (.of before) (.of behind) = true := by
  induction p with
  | chars sets => cases sets <;> simp [Reads, readsNil]
  | lineStart => simp [Reads, readsNil, Side.isEdge_of]
  | lineEnd => simp [Reads, readsNil, Side.isEdge_of]
  | boundary => simp [Reads, readsNil, Side.isWord_of]
  | seq a b iha ihb =>
    rw [readsNil, Bool.and_eq_true, ← iha, ← ihb, Reads]
    constructor
    · rintro ⟨s, t, hnil, ha, hb⟩
      obtain ⟨rfl, rfl⟩ := List.append_eq_nil_iff.1 hnil.symm
      exact ⟨ha, hb⟩
    · rintro ⟨ha, hb⟩
      exact ⟨[], [], rfl, ha, hb⟩
  | alt a b iha ihb => rw [readsNil, Bool.or_eq_true, ← iha, ← ihb, Reads]
  | many greedy a => exact iff_of_true (.nil _ _) rfl
  | group name a ih => exact ih

/-! ### Patterns in a row -/

/-- Whether the patterns read the text, one behind the other. -/
def ReadsAll : List Pattern → Option Char → List Char → Option Char → Prop
  | [], _, text, _ => text = []
  | p :: k, before, text, behind =>
    ∃ s t, text = s ++ t ∧ p.Reads before s (t.head?.or behind) ∧
      ReadsAll k (s.getLast?.or before) t behind

theorem readsAll_singleton_iff : ReadsAll [p] before text behind ↔ p.Reads before text behind := by
  constructor
  · rintro ⟨s, t, rfl, hs, rfl⟩
    rwa [List.append_nil]
  · exact fun h => ⟨text, [], (List.append_nil text).symm, h, rfl⟩

theorem readsAll_nil_iff :
    ReadsAll k before [] behind ↔ (k.all (readsNil (.of before) (.of behind))) = true := by
  induction k with
  | nil => exact iff_of_true rfl rfl
  | cons p k ih =>
    rw [List.all_cons, Bool.and_eq_true, ← ih, ← reads_nil_iff, ReadsAll]
    constructor
    · rintro ⟨s, t, hnil, hp, hk⟩
      obtain ⟨rfl, rfl⟩ := List.append_eq_nil_iff.1 hnil.symm
      exact ⟨hp, hk⟩
    · rintro ⟨hp, hk⟩
      exact ⟨[], [], rfl, hp, hk⟩

/-- What is left to read behind a text, with the characters of `sets` before it. -/
def push : List CharSet → List Pattern → List Pattern
  | [], k => k
  | set :: sets, k => chars (set :: sets) :: k

theorem readsAll_push {sets : List CharSet}
    (hs : List.Forall₂ (fun set c => set.mem c = true) sets s)
    (hk : ReadsAll k (s.getLast?.or before) t behind) :
    ReadsAll (push sets k) before (s ++ t) behind := by
  cases hs with
  | nil => exact hk
  | cons hc hs => exact ⟨_, t, rfl, .cons hc hs, hk⟩

/-! ### The next character -/

/-- A way to read the next character. -/
structure Step where
  /-- A set to which the character belongs. -/
  set : CharSet
  /-- What is left to read. -/
  rest : List Pattern
  /-- Whether that is what there was to read before. -/
  stays : Bool

/-- The ways to read the next character, which is of the side `next`, by the pattern and by the
patterns `k` behind it; `skip` are those of `k` alone. -/
def stepsOnto (before next : Side) : Pattern → List Pattern → List Step → List Step
  | chars [], _, skip => skip
  | chars (set :: sets), k, _ => [⟨set, push sets k, false⟩]
  | lineStart, _, skip => if before.isEdge then skip else []
  | lineEnd, _, _ => []
  | boundary, _, skip => if before.isWord == next.isWord then [] else skip
  | seq a b, k, skip => a.stepsOnto before next (b :: k) (b.stepsOnto before next k skip)
  | alt a b, k, skip => a.stepsOnto before next k skip ++ b.stepsOnto before next k skip
  | many greedy a, k, skip => a.stepsOnto before next (many greedy a :: k) [] ++ skip
  | group _ a, k, skip => a.stepsOnto before next k skip

/-- The ways to read the next character by `p` and `k`.  A repetition of one set stays where it
is. -/
def stepsFrom (before next : Side) (p : Pattern) (k : List Pattern) (skip : List Step) :
    List Step :=
  match p with
  | many greedy (chars [set]) => ⟨set, many greedy (chars [set]) :: k, true⟩ :: skip
  | p => p.stepsOnto before next k skip

/-- The step as one that leaves something else. -/
def Step.moved (step : Step) : Step := { step with stays := false }

/-- The ways to read the next character, which is of the side `next`. -/
def steps (before next : Side) : List Pattern → List Step
  | [] => []
  | p :: k => stepsFrom before next p k ((steps before next k).map Step.moved)

/-- Whether some way reads the character and what is behind it. -/
def Leads (steps : List Step) (c : Char) (rest : List Char) (behind : Option Char) : Prop :=
  ∃ step ∈ steps, step.set.mem c = true ∧ ReadsAll step.rest (some c) rest behind

theorem Leads.append_left {a b : List Step} (h : Leads a c rest behind) :
    Leads (a ++ b) c rest behind := by
  obtain ⟨step, hstep, hreads⟩ := h
  exact ⟨step, List.mem_append_left _ hstep, hreads⟩

theorem Leads.append_right {a b : List Step} (h : Leads b c rest behind) :
    Leads (a ++ b) c rest behind := by
  obtain ⟨step, hstep, hreads⟩ := h
  exact ⟨step, List.mem_append_right _ hstep, hreads⟩

theorem leads_stepsOnto {skip : List Step} (hp : p.Reads before s (t.head?.or behind))
    (hk : ReadsAll k (s.getLast?.or before) t behind) (htext : s ++ t = c :: rest)
    (hskip : s = [] → Leads skip c rest behind) :
    Leads (p.stepsOnto (.of before) (.of (some c)) k skip) c rest behind := by
  -- `skip` is what reads the text where the pattern reads nothing of it
  induction p generalizing k skip before s t with
  | chars sets =>
    cases hp with
    | nil => exact hskip rfl
    | @cons set d sets s hd hs =>
      obtain ⟨rfl, rfl⟩ := List.cons.inj htext
      rw [getLast?_cons_or] at hk
      exact ⟨_, List.mem_singleton_self _, hd, readsAll_push hs hk⟩
  | lineStart =>
    obtain ⟨rfl, rfl⟩ := hp
    exact hskip rfl
  | lineEnd =>
    obtain ⟨rfl, hend⟩ := hp
    rw [List.nil_append] at htext
    rw [htext] at hend
    cases hend
  | boundary =>
    obtain ⟨rfl, hboundary⟩ := hp
    rw [List.nil_append] at htext
    rw [htext] at hboundary
    have hsides : ((Side.of before).isWord == (Side.of (some c)).isWord) = false := by
      rw [Side.isWord_of, Side.isWord_of]
      simpa using hboundary
    rw [stepsOnto, hsides]
    exact hskip rfl
  | seq a b iha ihb =>
    obtain ⟨s₁, s₂, rfl, ha, hb⟩ := hp
    rw [getLast?_append_or] at hk
    refine iha (k := b :: k) (t := s₂ ++ t) ?_ ⟨s₂, t, rfl, hb, hk⟩
      (by rw [← htext, List.append_assoc]) ?_
    · rwa [List.head?_append, Option.or_assoc]
    · rintro rfl
      refine ihb hb hk htext fun hnil => hskip ?_
      rw [hnil, List.nil_append]
  | alt a b iha ihb =>
    rcases hp with hp | hp
    · exact (iha hp hk htext hskip).append_left
    · exact (ihb hp hk htext hskip).append_right
  | many greedy a ih =>
    cases hp with
    | nil => exact (hskip rfl).append_right
    | @cons _ _ s₁ s₂ hne first more =>
      rw [getLast?_append_or] at hk
      -- a round that counts is not empty, and the repetition is read again behind it
      refine (ih (k := many greedy a :: k) (t := s₂ ++ t) ?_ ⟨s₂, t, rfl, more, hk⟩
        (by rw [← htext, List.append_assoc]) fun hnil => absurd hnil hne).append_left
      rwa [List.head?_append, Option.or_assoc]
  | group name a ih => exact ih hp hk htext hskip

/-- Every way to read a text starts with a way to read its first character. -/
theorem leads_steps (h : ReadsAll k before (c :: rest) behind) :
    Leads (steps (.of before) (.of (some c)) k) c rest behind := by
  induction k generalizing before with
  | nil => cases h
  | cons p k ih =>
    obtain ⟨s, t, htext, hp, hk⟩ := h
    -- where `p` reads nothing, the patterns behind it read the character
    have hskip : s = [] →
        Leads ((steps (.of before) (.of (some c)) k).map Step.moved) c rest behind := by
      rintro rfl
      rw [List.nil_append] at htext
      subst htext
      obtain ⟨step, hstep, hreads⟩ := ih hk
      exact ⟨_, List.mem_map.2 ⟨step, hstep, rfl⟩, hreads⟩
    rw [steps]
    unfold stepsFrom
    split
    · rename_i greedy set
      cases hp with
      | nil =>
        obtain ⟨step, hstep, hreads⟩ := hskip rfl
        exact ⟨step, List.mem_cons_of_mem _ hstep, hreads⟩
      | @cons _ _ s₁ s₂ _ first more =>
        obtain ⟨d, s₁, hd, hnil, rfl⟩ := List.forall₂_cons_left_iff.1 first
        obtain rfl := List.forall₂_nil_left_iff.1 hnil
        obtain ⟨rfl, rfl⟩ := List.cons.inj htext
        exact ⟨_, List.mem_cons_self, hd, s₂, t, rfl, more,
          by rwa [List.singleton_append, getLast?_cons_or] at hk⟩
    · exact leads_stepsOnto hp hk htext.symm hskip

theorem stays_of_mem_stepsOnto {sideBefore next : Side} {skip : List Step}
    (hskip : ∀ step ∈ skip, step.stays = false) :
    ∀ step ∈ p.stepsOnto sideBefore next k skip, step.stays = false := by
  induction p generalizing k skip with
  | chars sets =>
    cases sets with
    | nil => exact hskip
    | cons set sets => simp [stepsOnto]
  | lineStart =>
    rw [stepsOnto]
    split
    · exact hskip
    · simp
  | lineEnd => simp [stepsOnto]
  | boundary =>
    rw [stepsOnto]
    split
    · simp
    · exact hskip
  | seq a b iha ihb => exact iha (ihb hskip)
  | alt a b iha ihb => exact List.forall_mem_append.2 ⟨iha hskip, ihb hskip⟩
  | many greedy a ih => exact List.forall_mem_append.2 ⟨ih (by simp), hskip⟩
  | group name a ih => exact ih hskip

/-- A step that is marked so leaves what there was. -/
theorem rest_of_stays {sideBefore next : Side} {step : Step} (h : step ∈ steps sideBefore next k)
    (hstays : step.stays = true) : step.rest = k := by
  cases k with
  | nil => cases h
  | cons p k =>
    have hmoved : ∀ step ∈ (steps sideBefore next k).map Step.moved, step.stays = false := by
      intro step hstep
      obtain ⟨own, -, rfl⟩ := List.mem_map.1 hstep
      rfl
    rw [steps] at h
    unfold stepsFrom at h
    split at h
    · rcases List.mem_cons.1 h with rfl | h
      · rfl
      · rw [hmoved step h] at hstays
        cases hstays
    · rw [stays_of_mem_stepsOnto hmoved step h] at hstays
      cases hstays

/-! ### Any text -/

/-- What is left behind each character of the sets, with the set of that character. -/
def tailsOf (k : List Pattern) : List CharSet → List (CharSet × List Pattern)
  | [] => []
  | set :: sets => (set, push sets k) :: tailsOf k sets

/-- What can be left behind a text that the pattern has read, with the patterns `k` behind it, and
a set to which the last character of the text belongs. -/
def tails : Pattern → List Pattern → List (CharSet × List Pattern)
  | chars sets, k => tailsOf k sets
  | lineStart, _ | lineEnd, _ | boundary, _ => []
  | seq a b, k => a.tails (b :: k) ++ b.tails k
  | alt a b, k => a.tails k ++ b.tails k
  | many greedy a, k => a.tails (many greedy a :: k)
  | group _ a, k => a.tails k

/-- Whether one of `tails` can be left behind the character `last` and reads the text. -/
def Remains (tails : List (CharSet × List Pattern)) (last : Char) (text : List Char)
    (behind : Option Char) : Prop :=
  ∃ tail ∈ tails, tail.1.mem last = true ∧ ReadsAll tail.2 (some last) text behind

theorem Remains.append_left {a b : List (CharSet × List Pattern)} (h : Remains a c text behind) :
    Remains (a ++ b) c text behind := by
  obtain ⟨tail, htail, hreads⟩ := h
  exact ⟨tail, List.mem_append_left _ htail, hreads⟩

theorem Remains.append_right {a b : List (CharSet × List Pattern)} (h : Remains b c text behind) :
    Remains (a ++ b) c text behind := by
  obtain ⟨tail, htail, hreads⟩ := h
  exact ⟨tail, List.mem_append_right _ htail, hreads⟩

theorem remains_tailsOf {sets : List CharSet} {u v : List Char}
    (hs : List.Forall₂ (fun set c => set.mem c = true) sets (u ++ c :: v))
    (hk : ReadsAll k ((u ++ c :: v).getLast?.or before) t behind) :
    Remains (tailsOf k sets) c (v ++ t) behind := by
  induction u generalizing sets before with
  | nil =>
    cases hs with
    | cons hc hs =>
      rw [List.nil_append, getLast?_cons_or] at hk
      exact ⟨_, List.mem_cons_self, hc, readsAll_push hs hk⟩
  | cons d u ih =>
    cases hs with
    | cons _ hs =>
      rw [List.cons_append, getLast?_cons_or] at hk
      obtain ⟨tail, htail, hreads⟩ := ih hs hk
      exact ⟨tail, List.mem_cons_of_mem _ htail, hreads⟩

/-- The character `c` of a text in two halves is in one of them. -/
theorem append_cons_cases {u v a b : List Char} (h : u ++ c :: v = a ++ b) :
    (∃ w, a = u ++ c :: w ∧ v = w ++ b) ∨ ∃ w, u = a ++ w ∧ b = w ++ c :: v := by
  rcases List.append_eq_append_iff.1 h with ⟨w, ha, hb⟩ | ⟨w, hu, hb⟩
  · cases w with
    | nil => exact .inr ⟨[], by simpa using ha.symm, by simpa using hb.symm⟩
    | cons d w =>
      obtain ⟨rfl, rfl⟩ := List.cons.inj hb
      exact .inl ⟨w, ha, rfl⟩
  · exact .inr ⟨w, hu, hb⟩

theorem remains_tails {u v : List Char} (hp : p.Reads before (u ++ c :: v) (t.head?.or behind))
    (hk : ReadsAll k ((u ++ c :: v).getLast?.or before) t behind) :
    Remains (p.tails k) c (v ++ t) behind := by
  induction p generalizing k before u v t with
  | chars sets => exact remains_tailsOf hp hk
  | lineStart | lineEnd | boundary =>
    obtain ⟨hnil, -⟩ := hp
    simp at hnil
  | seq a b iha ihb =>
    obtain ⟨s₁, s₂, htext, ha, hb⟩ := hp
    rw [htext, getLast?_append_or] at hk
    rcases append_cons_cases htext with ⟨w, rfl, rfl⟩ | ⟨w, rfl, rfl⟩
    · rw [List.append_assoc]
      refine (iha (k := b :: k) (t := s₂ ++ t) ?_ ⟨s₂, t, rfl, hb, hk⟩).append_left
      rwa [List.head?_append, Option.or_assoc]
    · exact (ihb hb hk).append_right
  | alt a b iha ihb =>
    rcases hp with hp | hp
    · exact (iha hp hk).append_left
    · exact (ihb hp hk).append_right
  | many greedy a ih =>
    generalize htext : u ++ c :: v = text, hnext : t.head?.or behind = next at hp
    induction hp generalizing u v with
    | nil => simp at htext
    | @cons before next s₁ s₂ _ first more ihmore =>
      subst hnext
      rw [htext, getLast?_append_or] at hk
      rcases append_cons_cases htext with ⟨w, rfl, rfl⟩ | ⟨w, rfl, rfl⟩
      · rw [List.append_assoc]
        refine ih (k := many greedy a :: k) (t := s₂ ++ t) ?_ ⟨s₂, t, rfl, more, hk⟩
        rwa [List.head?_append, Option.or_assoc]
      · exact ihmore hk rfl rfl
  | group name a ih => exact ih hp hk

/-- Behind some of its text, what is left of a pattern is one of its tails. -/
theorem remains_of_reads {u v : List Char} (h : p.Reads before (u ++ c :: v) behind) :
    Remains (p.tails []) c v behind := by
  have := remains_tails (k := []) (t := []) h rfl
  rwa [List.append_nil] at this

/-! ### The characters of a text -/

/-- Every character of a text belongs to a set of the pattern. -/
theorem exists_tail_of_mem (h : p.Reads before text behind) (hc : c ∈ text) :
    ∃ tail ∈ p.tails [], tail.1.mem c = true := by
  obtain ⟨u, v, rfl⟩ := List.append_of_mem hc
  obtain ⟨tail, htail, hmem, -⟩ := remains_of_reads h
  exact ⟨tail, htail, hmem⟩

/-- Whether no text of the pattern holds the character. -/
def avoids (c : Char) (p : Pattern) : Bool :=
  (p.tails []).all fun tail => !tail.1.mem c

theorem not_mem_of_avoids (hp : p.avoids c = true) (h : p.Reads before text behind) :
    c ∉ text := by
  intro hc
  obtain ⟨tail, htail, hmem⟩ := exists_tail_of_mem h hc
  have := List.all_eq_true.1 hp tail htail
  rw [hmem] at this
  cases this

/-! ### Texts that end with their only character of a kind -/

theorem exists_of_reads_concat (hp : p.avoids c = true)
    (h : (p ++ char c).Reads before text behind) : ∃ s, text = s ++ [c] ∧ c ∉ s := by
  obtain ⟨s, _, rfl, hs, hc⟩ := h
  rw [reads_char_iff.1 hc]
  exact ⟨s, rfl, not_mem_of_avoids hp hs⟩

/-- What stands behind such a text makes no difference. -/
theorem reads_behind {behind' : Option Char} (h : (p ++ char c).Reads before text behind) :
    (p ++ char c).Reads before text behind' := by
  obtain ⟨s, _, rfl, hs, hc⟩ := h
  obtain rfl := reads_char_iff.1 hc
  exact ⟨s, [c], rfl, hs, reads_char_iff.2 rfl⟩

/-- Two such texts that start at the same place are equal. -/
theorem eq_of_reads_of_ends {before' behind' : Option Char} {u v : List Char}
    (hp : p.avoids c = true) (hs : (p ++ char c).Reads before s behind)
    (ht : (p ++ char c).Reads before' t behind') (h : s ++ u = t ++ v) : s = t := by
  obtain ⟨x, rfl, hx⟩ := exists_of_reads_concat hp hs
  obtain ⟨y, rfl, hy⟩ := exists_of_reads_concat hp ht
  rw [Text.eq_of_concat_eq hx hy h]

end Pattern

end SqlDialect
