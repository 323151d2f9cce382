import SqlDialect.Line.Segment
import SqlDialect.Proofs.Line.Place
import SqlDialect.Proofs.Text.Utf8

/-!
# The stretches of code are those before an even number of quotes

The walk over a line (`Literal.segments`) is followed from quote to quote (`Literal.quote_induction`):
`segmentsFrom_of_not_mem` and `segmentsFrom_append` say what it does with the text up to the next quote.

* `Literal.isCodeAt_iff` : an octet is code if and only if it is no quote and an even number of quotes
  precedes it.
* `Literal.segments_ordered`, `Literal.exists_of_mem_segments` : the stretches are not empty, follow each
  other and start and stop at characters.
* `Literal.mapSegments?_eq` : the line put together again is never cut inside a character, and only its
  stretches of code are changed.
* `Literal.map_text?_segments`, `Literal.mapSegments?_const`, `Literal.isCodeAt_octets` : the walk finds
  the code that the cut of the line into pieces finds.
-/

namespace SqlDialect

namespace Text

/-! ### Slices -/

theorem octets_cons (c : Char) (rest : List Char) : octets (c :: rest) = c.utf8Size + octets rest := rfl

theorem octets_pos_iff {text : List Char} : 0 < octets text ↔ text ≠ [] := by
  cases text with
  | nil => simp [octets]
  | cons c rest =>
    have := c.utf8Size_pos
    rw [octets_cons]
    exact iff_of_true (by omega) (List.cons_ne_nil _ _)

theorem dropOctets?_append (a b : List Char) : dropOctets? (octets a) (a ++ b) = some b := by
  induction a with
  | nil => cases b <;> rfl
  | cons c a ih =>
    obtain ⟨n, hn⟩ := Nat.exists_eq_add_one.2 (octets_pos_iff.2 (List.cons_ne_nil c a))
    rw [hn, List.cons_append, dropOctets?, ← hn, octets_cons, if_pos (Nat.le_add_right _ _),
      Nat.add_sub_cancel_left, ih]

theorem takeOctets?_append (a b : List Char) : takeOctets? (octets a) (a ++ b) = some a := by
  induction a with
  | nil => cases b <;> rfl
  | cons c a ih =>
    obtain ⟨n, hn⟩ := Nat.exists_eq_add_one.2 (octets_pos_iff.2 (List.cons_ne_nil c a))
    rw [hn, List.cons_append, takeOctets?, ← hn, octets_cons, if_pos (Nat.le_add_right _ _),
      Nat.add_sub_cancel_left, ih, Option.map_some]

theorem slice?_append (a b c : List Char) :
    slice? (a ++ b ++ c) (octets a) (octets (a ++ b)) = some b := by
  rw [octets_append, slice?, if_pos (Nat.le_add_right _ _), List.append_assoc, dropOctets?_append,
    Nat.add_sub_cancel_left, Option.bind_some, takeOctets?_append]

theorem exists_append_of_dropOctets? {n : Nat} {text rest : List Char}
    (h : dropOctets? n text = some rest) : ∃ before, text = before ++ rest ∧ octets before = n := by
  fun_induction dropOctets? n text with
  | case1 text => exact ⟨[], Option.some.inj h, rfl⟩
  | case2 n => cases h
  | case3 n c text hsize ih =>
    obtain ⟨before, rfl, hbefore⟩ := ih h
    exact ⟨c :: before, rfl, by rw [octets_cons, hbefore]; omega⟩
  | case4 n c text hsize => cases h

theorem exists_append_of_takeOctets? {n : Nat} {text front : List Char}
    (h : takeOctets? n text = some front) : ∃ rest, text = front ++ rest ∧ octets front = n := by
  fun_induction takeOctets? n text generalizing front with
  | case1 text =>
    obtain rfl := Option.some.inj h
    exact ⟨text, rfl, rfl⟩
  | case2 n => cases h
  | case3 n c text hsize ih =>
    obtain ⟨more, hmore, rfl⟩ := Option.map_eq_some_iff.1 h
    obtain ⟨rest, rfl, hfront⟩ := ih hmore
    exact ⟨rest, rfl, by rw [octets_cons, hfront]; omega⟩
  | case4 n c text hsize => cases h

/-- **A slice of a text** starts and stops at characters. -/
theorem slice?_eq_some_iff {text part : List Char} {start stop : Nat} :
    slice? text start stop = some part ↔ ∃ before behind, text = before ++ part ++ behind ∧
      start = octets before ∧ stop = octets (before ++ part) := by
  constructor
  · intro h
    rw [slice?] at h
    split at h
    · rename_i hle
      obtain ⟨rest, hdrop, htake⟩ := Option.bind_eq_some_iff.1 h
      obtain ⟨before, rfl, hbefore⟩ := exists_append_of_dropOctets? hdrop
      obtain ⟨behind, rfl, hpart⟩ := exists_append_of_takeOctets? htake
      exact ⟨before, behind, by simp, hbefore.symm, by rw [octets_append]; omega⟩
    · cases h
  · rintro ⟨before, behind, rfl, rfl, rfl⟩
    exact slice?_append before part behind

/-! ### Quotes among octets -/

theorem quote_mem_toUtf8_iff {text : List Char} : 0x27 ∈ toUtf8 text ↔ '\'' ∈ text := by
  rw [toUtf8_eq_flatMap, List.mem_flatMap]
  constructor
  · rintro ⟨c, hc, hquote⟩
    have hc' : c = '\'' := Char.toNat_inj.1 (eq_of_mem_utf8EncodeChar hquote (by decide))
    exact hc' ▸ hc
  · exact fun h => ⟨'\'', h, by decide⟩

theorem toUtf8_append_quote (text rest : List Char) :
    toUtf8 (text ++ '\'' :: rest) = toUtf8 text ++ 0x27 :: toUtf8 rest := by
  have hquote : String.utf8EncodeChar '\'' = [0x27] := by decide
  rw [toUtf8_append, toUtf8_cons, hquote, List.singleton_append]

end Text

namespace Literal

open Text (octets toUtf8)

/-- A line is a text without quotes, or such a text with a quote and a line behind it. -/
theorem quote_induction {motive : List Char → Prop} (plain : ∀ text, '\'' ∉ text → motive text)
    (quoted : ∀ text rest, '\'' ∉ text → motive rest → motive (text ++ '\'' :: rest))
    (line : List Char) : motive line := by
  have general (text : List Char) (htext : '\'' ∉ text) : motive (text ++ line) := by
    induction line generalizing text with
    | nil => simpa using plain text htext
    | cons c rest ih =>
      by_cases hc : c = '\''
      · subst hc
        exact quoted text rest htext (ih [] List.not_mem_nil)
      · rw [List.append_cons]
        exact ih (text ++ [c]) (by simp [htext, Ne.symm hc])
  exact general [] List.not_mem_nil

/-! ### The walk from quote to quote -/

/-- The stretch of code that a text without quotes is, if it is one. -/
def ownSegment (place : Nat) (inLiteral : Bool) (text : List Char) : List Segment :=
  if inLiteral || text.isEmpty then [] else [⟨place, place + octets text⟩]

theorem mem_ownSegment_iff {s : Segment} {place : Nat} {inLiteral : Bool} {text : List Char} :
    s ∈ ownSegment place inLiteral text ↔
      s = ⟨place, place + octets text⟩ ∧ inLiteral = false ∧ text ≠ [] := by
  rw [ownSegment]
  cases inLiteral with
  | true => simp
  | false => cases text <;> simp

/-- In a literal it does not matter where the code before it started. -/
theorem segmentsFrom_inLiteral (start start' place : Nat) (text : List Char) :
    segmentsFrom start true place text = segmentsFrom start' true place text := by
  induction text generalizing place with
  | nil => rfl
  | cons c rest ih =>
    rw [segmentsFrom, segmentsFrom]
    split
    · exact ih _
    · rfl

theorem segmentsFrom_skip {text : List Char} (htext : '\'' ∉ text) (start : Nat) (inLiteral : Bool)
    (place : Nat) (rest : List Char) : segmentsFrom start inLiteral place (text ++ rest) =
      segmentsFrom start inLiteral (place + octets text) rest := by
  induction text generalizing place with
  | nil => rfl
  | cons c text ih =>
    rw [List.mem_cons, not_or] at htext
    rw [List.cons_append, segmentsFrom, if_pos (by simpa using Ne.symm htext.1), ih htext.2,
      Text.octets_cons, Nat.add_assoc]

theorem segmentsFrom_of_not_mem {text : List Char} (htext : '\'' ∉ text) (place : Nat)
    (inLiteral : Bool) :
    segmentsFrom place inLiteral place text = ownSegment place inLiteral text := by
  have hskip := segmentsFrom_skip htext place inLiteral place []
  rw [List.append_nil] at hskip
  rw [hskip, segmentsFrom, ownSegment]
  cases inLiteral with
  | true => rfl
  | false =>
    by_cases hne : text = []
    · simp [hne, octets]
    · have := Text.octets_pos_iff.2 hne
      simp [hne, this]

theorem segmentsFrom_append {text : List Char} (htext : '\'' ∉ text) (place : Nat)
    (inLiteral : Bool) (rest : List Char) :
    segmentsFrom place inLiteral place (text ++ '\'' :: rest) =
      ownSegment place inLiteral text ++
        segmentsFrom (place + octets text + 1) (!inLiteral) (place + octets text + 1) rest := by
  have hsize : ('\'').utf8Size = 1 := by decide
  rw [segmentsFrom_skip htext, segmentsFrom, if_neg (by simp), ownSegment, hsize]
  cases inLiteral with
  | true => rfl
  | false =>
    by_cases hne : text = []
    · subst hne
      simpa [octets] using segmentsFrom_inLiteral _ _ _ _
    · have := Text.octets_pos_iff.2 hne
      simpa [hne, this] using segmentsFrom_inLiteral _ _ _ _

/-! ### What is code -/

/-- The octet is no quote, and the number of quotes before it is odd or even as `inLiteral` says. -/
def EvenQuotesBefore (inLiteral : Bool) (octets : List UInt8) (i : Nat) : Prop :=
  ∃ octet, octets[i]? = some octet ∧ octet ≠ 0x27 ∧
    (octets.take i).count 0x27 % 2 = inLiteral.toNat

theorem evenQuotesBefore_of_not_mem {text : List Char} (htext : '\'' ∉ text) (inLiteral : Bool)
    (i : Nat) : EvenQuotesBefore inLiteral (toUtf8 text) i ↔ inLiteral = false ∧ i < octets text := by
  have hoctets : 0x27 ∉ toUtf8 text := fun h => htext (Text.quote_mem_toUtf8_iff.1 h)
  have hcount : ((toUtf8 text).take i).count 0x27 = 0 :=
    List.count_eq_zero.2 fun h => hoctets (List.mem_of_mem_take h)
  rw [EvenQuotesBefore, hcount, ← Text.length_toUtf8]
  constructor
  · rintro ⟨octet, hoctet, -, hparity⟩
    refine ⟨?_, (List.getElem?_eq_some_iff.1 hoctet).1⟩
    cases inLiteral with
    | true => cases hparity
    | false => rfl
  · rintro ⟨rfl, hi⟩
    refine ⟨(toUtf8 text)[i], List.getElem?_eq_getElem hi, ?_, rfl⟩
    exact fun h => hoctets (h ▸ List.getElem_mem hi)

theorem evenQuotesBefore_append {text : List Char} (htext : '\'' ∉ text) (inLiteral : Bool)
    (rest : List Char) (i : Nat) :
    EvenQuotesBefore inLiteral (toUtf8 (text ++ '\'' :: rest)) i ↔
      (inLiteral = false ∧ i < octets text) ∨
        (octets text + 1 ≤ i ∧
          EvenQuotesBefore (!inLiteral) (toUtf8 rest) (i - (octets text + 1))) := by
  rw [← evenQuotesBefore_of_not_mem htext, Text.toUtf8_append_quote, ← Text.length_toUtf8]
  have hoctets : 0x27 ∉ toUtf8 text := fun h => htext (Text.quote_mem_toUtf8_iff.1 h)
  have hparity (n : Nat) : (n + 1) % 2 = inLiteral.toNat ↔ n % 2 = (!inLiteral).toNat := by
    cases inLiteral <;> simp <;> omega
  have hfar (j : Nat) (hj : (toUtf8 text).length ≤ j) : ¬ EvenQuotesBefore inLiteral (toUtf8 text) j := by
    rintro ⟨octet, hoctet, -⟩
    rw [List.getElem?_eq_none hj] at hoctet
    cases hoctet
  rcases Nat.lt_trichotomy i (toUtf8 text).length with hi | rfl | hi
  · -- before the quote
    rw [EvenQuotesBefore, List.getElem?_append_left hi, List.take_append_of_le_length (Nat.le_of_lt hi)]
    exact ⟨.inl, fun h => h.resolve_right fun h => by omega⟩
  · -- the quote
    rw [or_iff_right (hfar _ (Nat.le_refl _)), EvenQuotesBefore,
      List.getElem?_append_right (Nat.le_refl _), Nat.sub_self, List.getElem?_cons_zero]
    refine iff_of_false ?_ fun h => by omega
    rintro ⟨octet, hoctet, hne, -⟩
    exact hne (Option.some.inj hoctet).symm
  · obtain ⟨k, rfl⟩ := Nat.exists_eq_add_of_lt hi
    have hcount : (toUtf8 text).count 0x27 = 0 := List.count_eq_zero.2 hoctets
    have hindex : (toUtf8 text).length + k + 1 - (toUtf8 text).length = k + 1 := by omega
    have hrest : (toUtf8 text).length + k + 1 - ((toUtf8 text).length + 1) = k := by omega
    rw [or_iff_right (hfar _ (by omega)), and_iff_right (by omega), hrest, EvenQuotesBefore,
      EvenQuotesBefore, List.getElem?_append_right (by omega), hindex, List.getElem?_cons_succ,
      List.take_append, hindex, List.take_of_length_le (by omega), List.count_append, hcount,
      List.take_succ_cons, List.count_cons_self, Nat.zero_add, hparity]

theorem any_holds_ownSegment {place octet : Nat} {inLiteral : Bool} {text : List Char} :
    (ownSegment place inLiteral text).any (·.holds octet) = true ↔
      place ≤ octet ∧ inLiteral = false ∧ octet - place < octets text := by
  rw [List.any_eq_true]
  constructor
  · rintro ⟨s, hs, hholds⟩
    obtain ⟨rfl, hcode, -⟩ := mem_ownSegment_iff.1 hs
    simp only [Segment.holds, Bool.and_eq_true, decide_eq_true_eq] at hholds
    exact ⟨hholds.1, hcode, by omega⟩
  · rintro ⟨hplace, hcode, hoctet⟩
    refine ⟨_, mem_ownSegment_iff.2 ⟨rfl, hcode, Text.octets_pos_iff.1 (by omega)⟩, ?_⟩
    simp only [Segment.holds, Bool.and_eq_true, decide_eq_true_eq]
    omega

theorem any_holds_segmentsFrom (place octet : Nat) (inLiteral : Bool) (text : List Char) :
    (segmentsFrom place inLiteral place text).any (·.holds octet) = true ↔
      place ≤ octet ∧ EvenQuotesBefore inLiteral (toUtf8 text) (octet - place) := by
  induction text using quote_induction generalizing place inLiteral with
  | plain text htext =>
    rw [segmentsFrom_of_not_mem htext, any_holds_ownSegment, evenQuotesBefore_of_not_mem htext]
  | quoted text rest htext ih =>
    rw [segmentsFrom_append htext, List.any_append, Bool.or_eq_true_iff, any_holds_ownSegment, ih,
      evenQuotesBefore_append htext, and_or_left,
      show octet - (place + octets text + 1) = octet - place - (octets text + 1) by omega]
    refine or_congr_right ⟨?_, ?_⟩
    · exact fun ⟨hplace, heven⟩ => ⟨by omega, by omega, heven⟩
    · exact fun ⟨hplace, hle, heven⟩ => ⟨by omega, heven⟩

/-- **An octet is code** if and only if it is an octet of the line, no quote, and an even number of
quotes precedes it. -/
theorem isCodeAt_iff (line : List Char) (i : Nat) :
    isCodeAt line i = true ↔ ∃ h : i < (toUtf8 line).length, (toUtf8 line)[i] ≠ 0x27 ∧
      ((toUtf8 line).take i).count 0x27 % 2 = 0 := by
  rw [isCodeAt, segments, any_holds_segmentsFrom, and_iff_right (Nat.zero_le i), Nat.sub_zero]
  constructor
  · rintro ⟨octet, hoctet, hne, hcount⟩
    obtain ⟨hi, rfl⟩ := List.getElem?_eq_some_iff.1 hoctet
    exact ⟨hi, hne, hcount⟩
  · rintro ⟨hi, hne, hcount⟩
    exact ⟨_, List.getElem?_eq_getElem hi, hne, hcount⟩

theorem count_toUtf8 (text : List Char) : (toUtf8 text).count 0x27 = text.count '\'' := by
  induction text using quote_induction with
  | plain text htext =>
    rw [List.count_eq_zero.2 htext, List.count_eq_zero.2 fun h => htext (Text.quote_mem_toUtf8_iff.1 h)]
  | quoted text rest htext ih =>
    have hoctets : 0x27 ∉ toUtf8 text := fun h => htext (Text.quote_mem_toUtf8_iff.1 h)
    rw [Text.toUtf8_append_quote, List.count_append, List.count_append, List.count_cons_self,
      List.count_cons_self, ih, List.count_eq_zero.2 htext, List.count_eq_zero.2 hoctets]

/-- The walk says of every character what its place in the line says. -/
theorem isCodeAt_octets (line : List Char) (index : Nat) :
    isCodeAt line (octets (line.take index)) = inCode line index := by
  have hline : toUtf8 line = toUtf8 (line.take index) ++ toUtf8 (line.drop index) := by
    rw [← Text.toUtf8_append, List.take_append_drop]
  rw [Bool.eq_iff_iff, isCodeAt, segments, any_holds_segmentsFrom, and_iff_right (Nat.zero_le _),
    Nat.sub_zero, EvenQuotesBefore, hline, ← Text.length_toUtf8,
    List.getElem?_append_right (Nat.le_refl _), Nat.sub_self, List.take_left, count_toUtf8, inCode]
  cases line.drop index with
  | nil => simp
  | cons c rest =>
    obtain ⟨first, more, hfirst⟩ := List.exists_cons_of_ne_nil (String.utf8EncodeChar_ne_nil (c := c))
    have hquote : first = 0x27 ↔ c = '\'' := by
      constructor
      · rintro rfl
        exact Char.toNat_inj.1
          (Text.eq_of_mem_utf8EncodeChar (hfirst ▸ List.mem_cons_self) (by decide))
      · rintro rfl
        exact (List.cons.inj hfirst).1.symm
    rw [Text.toUtf8_cons, hfirst]
    simp [hquote]

/-! ### The order of the stretches -/

theorem bounds_of_mem_segmentsFrom {s : Segment} {place : Nat} {inLiteral : Bool} {text : List Char}
    (h : s ∈ segmentsFrom place inLiteral place text) : place ≤ s.start ∧ s.start < s.stop := by
  induction text using quote_induction generalizing place inLiteral with
  | plain text htext =>
    rw [segmentsFrom_of_not_mem htext] at h
    obtain ⟨rfl, -, hne⟩ := mem_ownSegment_iff.1 h
    exact ⟨Nat.le_refl _, Nat.lt_add_of_pos_right (Text.octets_pos_iff.2 hne)⟩
  | quoted text rest htext ih =>
    rw [segmentsFrom_append htext, List.mem_append] at h
    rcases h with h | h
    · obtain ⟨rfl, -, hne⟩ := mem_ownSegment_iff.1 h
      exact ⟨Nat.le_refl _, Nat.lt_add_of_pos_right (Text.octets_pos_iff.2 hne)⟩
    · have := ih h
      omega

/-- **The stretches of code follow each other**, with a quote between them. -/
theorem segments_ordered (line : List Char) :
    (segments line).Pairwise fun s t => s.stop < t.start := by
  have general (place : Nat) (inLiteral : Bool) :
      (segmentsFrom place inLiteral place line).Pairwise fun s t => s.stop < t.start := by
    induction line using quote_induction generalizing place inLiteral with
    | plain text htext =>
      rw [segmentsFrom_of_not_mem htext, ownSegment]
      split <;> simp
    | quoted text rest htext ih =>
      rw [segmentsFrom_append htext, List.pairwise_append]
      refine ⟨?_, ih _ _, fun s hs t ht => ?_⟩
      · rw [ownSegment]
        split <;> simp
      · obtain ⟨rfl, -, -⟩ := mem_ownSegment_iff.1 hs
        exact (bounds_of_mem_segmentsFrom ht).1
  exact general 0 false

/-! ### The texts of the stretches -/

theorem text?_ownSegment (before text behind : List Char) (inLiteral : Bool) :
    (ownSegment (octets before) inLiteral text).map (·.text? (before ++ text ++ behind)) =
      if inLiteral || text.isEmpty then [] else [some text] := by
  have hslice := Text.slice?_append before text behind
  rw [Text.octets_append] at hslice
  rw [ownSegment]
  split
  · rfl
  · simp only [List.map_cons, List.map_nil, Segment.text?, hslice]

/-- The walk finds the stretches that are code in the cut of the line into pieces. -/
theorem map_text?_segments (line : List Char) :
    (segments line).map (·.text? line) = (codePieces line).map some := by
  have general (before text : List Char) (inLiteral : Bool) :
      (segmentsFrom (octets before) inLiteral (octets before) text).map (·.text? (before ++ text)) =
        ((everyOther ((pieces text).drop inLiteral.toNat)).filter (!·.isEmpty)).map some := by
    induction text using quote_induction generalizing before inLiteral with
    | plain text htext =>
      have hown := text?_ownSegment before text [] inLiteral
      rw [List.append_nil] at hown
      rw [segmentsFrom_of_not_mem htext, hown, pieces_of_not_mem htext]
      cases inLiteral <;> cases text <;> rfl
    | quoted text rest htext ih =>
      have hplace : octets before + octets text + 1 = octets (before ++ text ++ ['\'']) := by
        rw [Text.octets_append, Text.octets_append]
        rfl
      have hown := text?_ownSegment before text ('\'' :: rest) inLiteral
      have hrest := ih (before ++ text ++ ['\'']) (!inLiteral)
      rw [List.append_assoc _ ['\''], List.singleton_append] at hrest
      rw [segmentsFrom_append htext, List.map_append, hplace, ← List.append_assoc, hown, hrest,
        pieces_append_cons, pieces_of_not_mem htext, List.singleton_append]
      cases inLiteral with
      | true => rfl
      | false => cases text <;> simp [everyOther_cons]
  exact general [] line false

/-- **A stretch of code** has the octets of some characters of the line that follow each other. -/
theorem exists_of_mem_segments {line : List Char} {s : Segment} (h : s ∈ segments line) :
    ∃ before code behind, line = before ++ code ++ behind ∧ code ∈ codePieces line ∧
      s = ⟨octets before, octets (before ++ code)⟩ := by
  have htext : s.text? line ∈ (segments line).map (·.text? line) := List.mem_map_of_mem h
  rw [map_text?_segments, List.mem_map] at htext
  obtain ⟨code, hcode, htext⟩ := htext
  obtain ⟨before, behind, hline, hstart, hstop⟩ := Text.slice?_eq_some_iff.1 htext.symm
  exact ⟨before, code, behind, hline, hcode, by rw [← hstart, ← hstop]⟩

/-! ### The line put together again -/

/-- The pieces of a line, those that are code being changed, from a place on. -/
def changedFrom (f : Segment → List Char → List Char) (place : Nat) (inLiteral : Bool) :
    List (List Char) → List (List Char)
  | [] => []
  | piece :: rest =>
    (if inLiteral || piece.isEmpty then piece else f ⟨place, place + octets piece⟩ piece) ::
      changedFrom f (place + octets piece + 1) (!inLiteral) rest

section Changed

variable {f : Segment → List Char → List Char} {line : List Char}

theorem changedFrom_ne_nil {place : Nat} {inLiteral : Bool} {all : List (List Char)} (h : all ≠ []) :
    changedFrom f place inLiteral all ≠ [] := by
  cases all with
  | nil => exact absurd rfl h
  | cons piece rest => exact List.cons_ne_nil _ _

theorem changedFrom_self (place : Nat) (inLiteral : Bool) (all : List (List Char)) :
    changedFrom (fun _ code => code) place inLiteral all = all := by
  induction all generalizing place inLiteral with
  | nil => rfl
  | cons piece rest ih => rw [changedFrom, ih, ite_self]

theorem changedFrom_const (f : List Char → List Char) (place : Nat) (inLiteral : Bool)
    (all : List (List Char)) :
    changedFrom (fun _ => f) place inLiteral all = mapPieces f (!inLiteral) all := by
  induction all generalizing place inLiteral with
  | nil => rfl
  | cons piece rest ih =>
    rw [changedFrom, mapPieces, ih, changed]
    cases inLiteral with
    | true => rfl
    | false => cases piece <;> rfl

theorem everyOther_drop_changedFrom (place : Nat) (inLiteral : Bool) (all : List (List Char)) :
    everyOther ((changedFrom f place inLiteral all).drop (!inLiteral).toNat) =
      everyOther (all.drop (!inLiteral).toNat) := by
  induction all generalizing place inLiteral with
  | nil => cases inLiteral <;> rfl
  | cons piece rest ih =>
    cases inLiteral with
    | true => simpa [changedFrom, everyOther_cons] using ih _ false
    | false => simpa [changedFrom] using ih _ true

theorem joinWith_cons_of_ne_nil (piece : List Char) {rest : List (List Char)} (h : rest ≠ []) :
    Text.joinWith ['\''] (piece :: rest) = piece ++ '\'' :: Text.joinWith ['\''] rest := by
  cases rest with
  | nil => exact absurd rfl h
  | cons next rest => simp [Text.joinWith]

theorem stitchFrom?_nil (before pending : List Char) :
    stitchFrom? f (before ++ pending) (octets before) [] = some pending := by
  have hslice := Text.slice?_append before pending []
  rwa [List.append_nil] at hslice

theorem stitchFrom?_cons (before pending code behind : List Char) (rest : List Segment) :
    stitchFrom? f (before ++ pending ++ code ++ behind) (octets before)
        (⟨octets (before ++ pending), octets (before ++ pending ++ code)⟩ :: rest) =
      (stitchFrom? f (before ++ pending ++ code ++ behind) (octets (before ++ pending ++ code)) rest).map
        (pending ++ f ⟨octets (before ++ pending), octets (before ++ pending ++ code)⟩ code ++ ·) := by
  have hpending := Text.slice?_append before pending (code ++ behind)
  have hcode := Text.slice?_append (before ++ pending) code behind
  rw [← List.append_assoc] at hpending
  rw [stitchFrom?, Segment.text?, hpending, hcode]
  cases stitchFrom? f (before ++ pending ++ code ++ behind) (octets (before ++ pending ++ code)) rest with
  | none => rfl
  | some behind => rfl

/-- The walk puts a line together from its pieces, behind text that is still to be copied (`pending`). -/
theorem stitchFrom?_segmentsFrom (before pending text : List Char) (inLiteral : Bool) :
    stitchFrom? f (before ++ pending ++ text) (octets before)
        (segmentsFrom (octets (before ++ pending)) inLiteral (octets (before ++ pending)) text) =
      some (pending ++ Text.joinWith ['\'']
        (changedFrom f (octets (before ++ pending)) inLiteral (pieces text))) := by
  induction text using quote_induction generalizing before pending inLiteral with
  | plain text htext =>
    rw [segmentsFrom_of_not_mem htext, pieces_of_not_mem htext, ownSegment, changedFrom, changedFrom,
      Text.joinWith, ← Text.octets_append]
    split
    · rw [List.append_assoc, stitchFrom?_nil]
    · have hcons := @stitchFrom?_cons f before pending text [] []
      have hnil := @stitchFrom?_nil f (before ++ pending ++ text) []
      rw [List.append_nil] at hcons hnil
      rw [hcons, hnil]
      simp
  | quoted text rest htext ih =>
    have hquote : octets ['\''] = 1 := by decide
    have hplace : octets (before ++ pending) + octets text + 1 =
        octets (before ++ pending ++ text ++ ['\'']) := by
      rw [Text.octets_append _ ['\''], hquote, Text.octets_append _ text]
    have hne (place : Nat) : changedFrom f place (!inLiteral) (pieces rest) ≠ [] :=
      changedFrom_ne_nil (pieces_ne_nil rest)
    rw [segmentsFrom_append htext, pieces_append_cons, pieces_of_not_mem htext, List.singleton_append,
      changedFrom, hplace, joinWith_cons_of_ne_nil _ (hne _), ownSegment, ← Text.octets_append]
    split
    · -- a literal, or nothing: it is copied later
      have hrest := ih before (pending ++ text ++ ['\'']) (!inLiteral)
      simp only [← List.append_assoc] at hrest
      rw [List.nil_append, List.append_cons _ _ rest, ← List.append_assoc, ← List.append_assoc, hrest]
      simp
    · have hrest := ih (before ++ pending ++ text) ['\''] (!inLiteral)
      rw [List.append_assoc _ ['\''], List.singleton_append, List.singleton_append] at hrest
      rw [List.singleton_append, ← List.append_assoc, stitchFrom?_cons, hrest]
      simp

/-- **The line put together again** is that of its changed pieces; it is never cut inside a character. -/
theorem mapSegments?_eq (f : Segment → List Char → List Char) (line : List Char) :
    mapSegments? f line = some (Text.joinWith ['\''] (changedFrom f 0 false (pieces line))) :=
  stitchFrom?_segmentsFrom [] [] line false

/-- A change that does not look at places is a change of the code of the line. -/
theorem mapSegments?_const (f : List Char → List Char) (line : List Char) :
    mapSegments? (fun _ => f) line = some (mapCode f line) := by
  rw [mapSegments?_eq, changedFrom_const, mapCode, ← mapPieces_true, Bool.not_false]

/-- Only what becomes of the stretches of the line counts. -/
theorem stitchFrom?_congr {g : Segment → List Char → List Char} {last : Nat} {stretches : List Segment}
    (h : ∀ s ∈ stretches, ∀ code, s.text? line = some code → f s code = g s code) :
    stitchFrom? f line last stretches = stitchFrom? g line last stretches := by
  induction stretches generalizing last with
  | nil => rfl
  | cons s rest ih =>
    obtain ⟨hs, hrest⟩ := List.forall_mem_cons.1 h
    rw [stitchFrom?, stitchFrom?, ih hrest]
    cases hcode : s.text? line with
    | none => rfl
    | some code => simp [hs code hcode]

/-- **New code without quotes** leaves the literals of the line as they are. -/
theorem literalPieces_mapSegments? (h : ∀ s ∈ segments line, ∀ code,
    s.text? line = some code → '\'' ∉ f s code) :
    ∃ new, mapSegments? f line = some new ∧ literalPieces new = literalPieces line := by
  -- what is no stretch of the line may as well become nothing
  let g : Segment → List Char → List Char := fun s code =>
    if s ∈ segments line ∧ s.text? line = some code then f s code else []
  have hg (s : Segment) (code : List Char) : '\'' ∉ g s code := by
    by_cases hs : s ∈ segments line ∧ s.text? line = some code
    · simpa only [g, if_pos hs] using h s hs.1 code hs.2
    · simp only [g, if_neg hs, List.not_mem_nil, not_false_eq_true]
  have hsame : mapSegments? f line = mapSegments? g line :=
    stitchFrom?_congr fun s hs code hcode => (if_pos ⟨hs, hcode⟩).symm
  have hquote (place : Nat) (inLiteral : Bool) (all : List (List Char))
      (hall : ∀ piece ∈ all, '\'' ∉ piece) :
      ∀ piece ∈ changedFrom g place inLiteral all, '\'' ∉ piece := by
    induction all generalizing place inLiteral with
    | nil => exact fun piece hpiece => absurd hpiece List.not_mem_nil
    | cons piece rest ih =>
      obtain ⟨hpiece, hrest⟩ := List.forall_mem_cons.1 hall
      rw [changedFrom, List.forall_mem_cons]
      refine ⟨?_, ih _ _ hrest⟩
      split
      · exact hpiece
      · exact hg _ _
  refine ⟨_, hsame.trans (mapSegments?_eq g line), ?_⟩
  rw [literalPieces, literalPieces, pieces_joinWith (changedFrom_ne_nil (pieces_ne_nil line))
    (hquote 0 false _ fun piece hpiece => Text.not_mem_of_mem_cutAt hpiece)]
  exact everyOther_drop_changedFrom 0 false _

end Changed

/-! ### All together -/

/-- **The stretches of code of a line are those before an even number of quotes.**  They are not empty,
follow each other and start and stop at characters.  The line that is put together again with the same
stretches is the line, and one that is put together with others has the same literals, if these have no
quotes. -/
theorem segments_spec (line : List Char) :
    (∀ i, isCodeAt line i = true ↔ ∃ h : i < (toUtf8 line).length, (toUtf8 line)[i] ≠ 0x27 ∧
      ((toUtf8 line).take i).count 0x27 % 2 = 0) ∧
    (∀ s ∈ segments line, s.start < s.stop ∧ ∃ before code behind, line = before ++ code ++ behind ∧
      s.start = octets before ∧ s.stop = octets (before ++ code)) ∧
    (segments line).Pairwise (fun s t => s.stop < t.start) ∧
    mapSegments? (fun _ code => code) line = some line ∧
    ∀ f : Segment → List Char → List Char,
      (∀ s ∈ segments line, ∀ code, s.text? line = some code → '\'' ∉ f s code) →
        ∃ new, mapSegments? f line = some new ∧ literalPieces new = literalPieces line := by
  refine ⟨isCodeAt_iff line, fun s hs => ?_, segments_ordered line, ?_, fun f hf =>
    literalPieces_mapSegments? hf⟩
  · obtain ⟨before, code, behind, hline, -, hsegment⟩ := exists_of_mem_segments hs
    exact ⟨(bounds_of_mem_segmentsFrom hs).2, before, code, behind, hline, by rw [hsegment],
      by rw [hsegment]⟩
  · rw [mapSegments?_eq, changedFrom_self, joinWith_pieces]

/-- A literal that follows the next one, a character of two octets, and a literal that stays open. -/
theorem segments_spec_openLiteral :
    let line := "SET a = 'x''y' || é, 'it".toList
    segments line = [⟨0, 8⟩, ⟨14, 22⟩] ∧ isCodeAt line 18 = true ∧ isCodeAt line 19 = true ∧
      (∀ s ∈ segments line, ∀ code, s.text? line = some code → '\'' ∉ code.map Char.toLower) ∧
      mapSegments? (fun _ => List.map Char.toLower) line = some "set a = 'x''y' || é, 'it".toList ∧
      ∃ new, mapSegments? (fun _ => List.map Char.toLower) line = some new ∧
        literalPieces new = ["x", "y", "it"].map String.toList := by
  intro line
  have hquote : ∀ s ∈ segments line, ∀ code, s.text? line = some code →
      '\'' ∉ code.map Char.toLower := by
    have hsegments : segments line = [⟨0, 8⟩, ⟨14, 22⟩] := by decide +kernel
    rw [hsegments]
    decide +kernel
  obtain ⟨new, hnew, hliterals⟩ := (segments_spec line).2.2.2.2 (fun _ => List.map Char.toLower) hquote
  exact ⟨by decide +kernel, by decide +kernel, by decide +kernel, hquote, by decide +kernel, new, hnew,
    hliterals.trans (by decide +kernel)⟩

end Literal

end SqlDialect
