import SqlDialect.Proofs.Line.Place
import SqlDialect.Proofs.Pattern.Inert
import SqlDialect.Proofs.Pattern.Preference

/-!
# Searching the pieces of a line

A pattern that reads no quotes, and takes a quote next to its text for an end of the line, finds in a
line what it finds in the pieces of the line (`Pattern.IsPiecewise`).  The leftmost place that it reads
then is in the first piece that it occurs in, and `Pattern.firstInCode` tells whether that is code.
-/

namespace SqlDialect.Pattern

variable {p : Pattern} {a u v text rest line left right piece : List Char}
  {front back : List (List Char)}

theorem ne_nil_of_occursIn (hvisible : p.readsEmpty = false) (h : p.occursIn piece = true) :
    piece ≠ [] := by
  rintro rfl
  obtain ⟨u, text, v, hnil, hreads⟩ := occursIn_iff.1 h
  obtain ⟨-, htext⟩ := List.append_eq_nil_iff.1 hnil.symm
  obtain ⟨rfl, -⟩ := List.append_eq_nil_iff.1 htext
  exact not_reads_nil hvisible _ _ hreads

/-! ### Texts without quotes -/

section Blind

variable (hblind : p.tells .edge .other = false ∧ p.tells .other .edge = false)

include hblind

/-- A quote next to a text is as good as an end of the line. -/
theorem tells_or (c? : Option Char) {d? : Option Char} (hd : d? = none ∨ d? = some '\'') :
    p.tells (.of c?) (.of (c?.or d?)) = false ∧ p.tells (.of (c?.or d?)) (.of c?) = false := by
  cases c? with
  | some c => exact ⟨tells_self p _, tells_self p _⟩
  | none =>
    rcases hd with rfl | rfl
    · exact ⟨tells_self p _, tells_self p _⟩
    · exact hblind

theorem reads_iff_of_pieces (hu : Literal.pieces u = front ++ [left])
    (hv : Literal.pieces v = right :: back) :
    p.Reads left.getLast? text right.head? ↔ p.Reads u.getLast? text v.head? := by
  have hquote (all : List (List Char)) : (if all = [] then none else some '\'') = none ∨
      (if all = [] then none else some '\'') = some '\'' := by
    split <;> simp
  have hleft := tells_or hblind left.getLast? (hquote front)
  have hright := tells_or hblind right.head? (hquote back)
  rw [Literal.getLast?_eq_of_pieces hu, Literal.head?_eq_of_pieces hv]
  exact ⟨reads_of_tells hleft.1 hright.1, reads_of_tells hleft.2 hright.2⟩

/-- A text without quotes that is read in a line is read in one of its pieces. -/
theorem exists_piece_of_reads (htext : '\'' ∉ text) (h : p.Reads u.getLast? text v.head?) :
    ∃ front piece back, Literal.pieces (u ++ (text ++ v)) = front ++ piece :: back ∧
      front.length = u.count '\'' ∧ p.occursIn piece = true := by
  obtain ⟨front, left, right, back, hu, hv, hlength, hcut⟩ := Literal.exists_cut u v
  refine ⟨front, left ++ text ++ right, back, ?_, hlength,
    occursIn_iff.2 ⟨left, text, right, List.append_assoc _ _ _,
      (reads_iff_of_pieces hblind hu hv).2 h⟩⟩
  rw [← List.append_assoc]
  exact hcut text htext

/-- What is read in a piece of a line is read in the line. -/
theorem exists_reads_of_piece (hline : Literal.pieces line = front ++ piece :: back)
    (h : p.occursIn piece = true) : ∃ u text v, line = u ++ (text ++ v) ∧
      p.Reads u.getLast? text v.head? ∧ u.count '\'' = front.length ∧ '\'' ∉ text := by
  obtain ⟨left, text, right, rfl, hreads⟩ := occursIn_iff.1 h
  obtain ⟨u, v, rfl, hu, hv⟩ := Literal.exists_split_of_pieces hline
  refine ⟨u, text, v, rfl, (reads_iff_of_pieces hblind hu hv).1 hreads, ?_, fun hmem => ?_⟩
  · have := Literal.length_pieces u
    rw [hu, List.length_append, List.length_singleton] at this
    exact (Nat.succ.inj this).symm
  · obtain ⟨-, hpiece, -⟩ := Literal.forall_quote_iff.1 (Literal.pieces_eq_iff.1 hline).2
    simp [hmem] at hpiece

/-- **A pattern matches in the code of a line if and only if it reads a text without quotes there.** -/
theorem codeMatches_iff (hvisible : p.readsEmpty = false) :
    Literal.codeMatches p line = true ↔ ∃ u text v, line = u ++ (text ++ v) ∧
      Literal.isClosed u = true ∧ '\'' ∉ text ∧ p.Reads u.getLast? text v.head? := by
  rw [Literal.codeMatches, List.any_eq_true]
  constructor
  · rintro ⟨piece, hpiece, hoccurs⟩
    obtain ⟨front, back, hline, heven⟩ :=
      Literal.exists_of_mem_everyOther (List.mem_filter.1 hpiece).1
    obtain ⟨u, text, v, rfl, hreads, hcount, htext⟩ := exists_reads_of_piece hblind hline hoccurs
    exact ⟨u, text, v, rfl, by rw [Literal.isClosed, hcount, heven]; rfl, htext, hreads⟩
  · rintro ⟨u, text, v, rfl, hclosed, htext, hreads⟩
    obtain ⟨front, piece, back, hline, hlength, hoccurs⟩ := exists_piece_of_reads hblind htext hreads
    have heven : front.length % 2 = 0 := by rw [hlength]; exact beq_iff_eq.1 hclosed
    refine ⟨piece, List.mem_filter.2 ⟨Literal.mem_everyOther hline heven, ?_⟩, hoccurs⟩
    have hne : piece ≠ [] := ne_nil_of_occursIn hvisible hoccurs
    simpa using hne

end Blind

/-! ### Patterns that read no quotes -/

/-- What makes a pattern find in a line what it finds in the pieces of the line. -/
structure IsPiecewise (p : Pattern) : Prop where
  avoids : p.avoids '\'' = true
  blind : p.tells .edge .other = false ∧ p.tells .other .edge = false
  visible : p.readsEmpty = false

/-- Whether the pattern occurs in a piece of the line, and the first one that it occurs in is code. -/
def firstInCode (p : Pattern) (line : List Char) : Bool :=
  ((Literal.pieces line).findIdx? p.occursIn).any (· % 2 == 0)

/-- The piece that a search of the pieces finds. -/
theorem exists_piece_of_findIdx? {k : Nat} (h : (Literal.pieces line).findIdx? p.occursIn = some k) :
    ∃ front piece back, Literal.pieces line = front ++ piece :: back ∧ front.length = k ∧
      p.occursIn piece = true := by
  obtain ⟨hlt, hoccurs, -⟩ := List.findIdx?_eq_some_iff_getElem.1 h
  refine ⟨(Literal.pieces line).take k, _, (Literal.pieces line).drop (k + 1), ?_,
    List.length_take_of_le hlt.le, hoccurs⟩
  rw [List.getElem_cons_drop, List.take_append_drop]

namespace IsPiecewise

/-- What is read in a line is read in one of its pieces. -/
theorem exists_piece (hp : p.IsPiecewise) (h : p.Reads u.getLast? text v.head?) :
    ∃ front piece back, Literal.pieces (u ++ (text ++ v)) = front ++ piece :: back ∧
      front.length = u.count '\'' ∧ p.occursIn piece = true :=
  exists_piece_of_reads hp.blind (not_mem_of_avoids hp.avoids h) h

/-- **The leftmost place that is read is in the first piece that the pattern occurs in.** -/
theorem firstInCode_of_first (hp : p.IsPiecewise) (h : p.Reads a.getLast? text rest.head?)
    (hfirst : ∀ u text' v, a ++ (text ++ rest) = u ++ (text' ++ v) → u.length < a.length →
      ¬p.Reads u.getLast? text' v.head?) :
    firstInCode p (a ++ (text ++ rest)) = Literal.isClosed a := by
  obtain ⟨front, piece, back, hline, hlength, hoccurs⟩ := hp.exists_piece h
  have hfront : ∀ own ∈ front, p.occursIn own = false := by
    intro own hown
    refine Bool.eq_false_iff.2 fun hoccurs => ?_
    obtain ⟨before, behind, rfl⟩ := List.append_of_mem hown
    obtain ⟨u, text', v, hu, hreads, hcount, -⟩ := exists_reads_of_piece hp.blind
      (by rw [hline, List.append_assoc, List.cons_append]) hoccurs
    refine hfirst u text' v hu ?_ hreads
    -- there are fewer quotes before the earlier place
    by_contra hle
    obtain ⟨more, rfl⟩ : a <+: u :=
      List.prefix_of_prefix_length_le ⟨_, rfl⟩ ⟨_, hu.symm⟩ (Nat.le_of_not_lt hle)
    rw [List.count_append] at hcount
    rw [List.length_append, List.length_cons] at hlength
    omega
  have hindex : (Literal.pieces (a ++ (text ++ rest))).findIdx? p.occursIn = some front.length := by
    rw [hline, List.findIdx?_append, List.findIdx?_eq_none_iff.2 hfront, List.findIdx?_cons, hoccurs]
    simp
  rw [firstInCode, hindex, hlength]
  rfl

theorem firstInCode_of_none (hp : p.IsPiecewise)
    (hnone : ∀ u text v, line = u ++ (text ++ v) → ¬p.Reads u.getLast? text v.head?) :
    firstInCode p line = false := by
  have hindex : (Literal.pieces line).findIdx? p.occursIn = none := by
    refine List.findIdx?_eq_none_iff.2 fun own hown => Bool.eq_false_iff.2 fun hoccurs => ?_
    obtain ⟨before, behind, hline⟩ := List.append_of_mem hown
    obtain ⟨u, text, v, hu, hreads, -⟩ := exists_reads_of_piece hp.blind hline hoccurs
    exact hnone u text v hu hreads
  rw [firstInCode, hindex]
  rfl

end IsPiecewise

/-- Whether no literal of the line holds the pattern. -/
def OutsideLiterals (p : Pattern) (line : List Char) : Prop :=
  ∀ piece ∈ Literal.literalPieces line, p.occursIn piece = false

instance (p : Pattern) (line : List Char) : Decidable (OutsideLiterals p line) :=
  inferInstanceAs (Decidable (∀ piece ∈ Literal.literalPieces line, p.occursIn piece = false))

/-- If no literal holds the pattern, it is read in code. -/
theorem IsPiecewise.isClosed_of_reads (hp : p.IsPiecewise) (h : p.Reads u.getLast? text v.head?)
    (hline : OutsideLiterals p (u ++ (text ++ v))) : Literal.isClosed u = true := by
  obtain ⟨front, piece, back, hpieces, hlength, hoccurs⟩ := hp.exists_piece h
  rw [Literal.isClosed, beq_iff_eq, ← hlength]
  rcases Nat.mod_two_eq_zero_or_one front.length with heven | hodd
  · exact heven
  · rw [hline piece (Literal.mem_literalPieces hpieces hodd)] at hoccurs
    cases hoccurs

/-- If no literal holds the pattern, nothing hides its occurrences in code. -/
theorem IsPiecewise.firstInCode_eq_codeMatches (hp : p.IsPiecewise) (h : OutsideLiterals p line) :
    firstInCode p line = Literal.codeMatches p line := by
  rw [Bool.eq_iff_iff, firstInCode, Option.any_eq_true, Literal.codeMatches, List.any_eq_true]
  constructor
  · rintro ⟨k, hk, heven⟩
    obtain ⟨front, piece, back, hline, rfl, hoccurs⟩ := exists_piece_of_findIdx? hk
    refine ⟨piece, List.mem_filter.2 ⟨Literal.mem_everyOther hline (beq_iff_eq.1 heven), ?_⟩, hoccurs⟩
    simpa using ne_nil_of_occursIn hp.visible hoccurs
  · rintro ⟨piece, hpiece, hoccurs⟩
    have hmem := Literal.mem_of_mem_everyOther (List.mem_filter.1 hpiece).1
    cases hk : (Literal.pieces line).findIdx? p.occursIn with
    | none =>
      rw [List.findIdx?_eq_none_iff.1 hk piece hmem] at hoccurs
      cases hoccurs
    | some k =>
      refine ⟨k, rfl, ?_⟩
      obtain ⟨front, first, back, hline, rfl, hfirst⟩ := exists_piece_of_findIdx? hk
      rcases Nat.mod_two_eq_zero_or_one front.length with heven | hodd
      · exact beq_iff_eq.2 heven
      · rw [h first (Literal.mem_literalPieces hline hodd)] at hfirst
        cases hfirst

end SqlDialect.Pattern
