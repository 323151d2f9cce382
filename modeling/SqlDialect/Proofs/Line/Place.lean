import SqlDialect.Proofs.Line.SameCode

/-!
# A place in the cut of a line

The quotes of a line cut it into pieces, and a place in the line stands in one of them:
`Literal.exists_cut` says which one, from the text before the place and the text behind it.  It is a
piece of code if and only if the literals of the text before the place are closed.

What is done to the code of a line is done to that piece by itself (`Literal.exists_mapCode`), so that a
change of code can be followed from one place to the next.
-/

namespace SqlDialect

namespace Literal

variable {u v line piece left right : List Char} {front back : List (List Char)}

/-! ### Lines and their pieces -/

theorem joinWith_cons (separator piece : List Char) (back : List (List Char)) :
    Text.joinWith separator (piece :: back) = piece ++ back.flatMap (separator ++ ·) := by
  induction back generalizing piece with
  | nil => simp [Text.joinWith]
  | cons next back ih =>
    rw [Text.joinWith, ih next]
    · simp
    · exact List.cons_ne_nil _ _

theorem joinWith_append_cons (separator : List Char) (front : List (List Char)) (piece : List Char)
    (back : List (List Char)) :
    Text.joinWith separator (front ++ piece :: back) =
      front.flatMap (· ++ separator) ++ piece ++ back.flatMap (separator ++ ·) := by
  induction front with
  | nil => exact joinWith_cons separator piece back
  | cons first front ih =>
    rw [List.cons_append, Text.joinWith, ih]
    · simp
    · simp

theorem mem_joinWith {separator : List Char} {all : List (List Char)} {c : Char}
    (h : c ∈ Text.joinWith separator all) : c ∈ separator ∨ ∃ piece ∈ all, c ∈ piece := by
  cases all with
  | nil => cases h
  | cons piece rest =>
    rw [joinWith_cons, List.mem_append, List.mem_flatMap] at h
    rcases h with h | ⟨next, hnext, h⟩
    · exact .inr ⟨piece, List.mem_cons_self, h⟩
    · exact (List.mem_append.1 h).imp_right fun h => ⟨next, List.mem_cons_of_mem _ hnext, h⟩

theorem subset_joinWith (separator : List Char) {all : List (List Char)} (h : piece ∈ all) :
    piece ⊆ Text.joinWith separator all := by
  obtain ⟨front, back, rfl⟩ := List.append_of_mem h
  intro c hc
  rw [joinWith_append_cons]
  simp [hc]

theorem joinWith_pieces (line : List Char) : Text.joinWith ['\''] (pieces line) = line := by
  induction line with
  | nil => rfl
  | cons c line ih =>
    obtain ⟨first, others, hpieces⟩ := List.exists_cons_of_ne_nil (pieces_ne_nil line)
    rw [hpieces, joinWith_cons] at ih
    rw [pieces] at hpieces ⊢
    by_cases hc : c = '\''
    · subst hc
      rw [Text.cutAt_cons_self, hpieces, joinWith_cons, ← ih]
      simp
    · rw [Text.cutAt_cons_of_ne hc, hpieces, List.modifyHead_cons, joinWith_cons, ← ih]
      rfl

/-- **A line has the pieces that it is put together from**, if there are no quotes in them. -/
theorem pieces_eq_iff :
    pieces line = front ++ piece :: back ↔
      line = front.flatMap (· ++ ['\'']) ++ piece ++ back.flatMap ('\'' :: ·) ∧
        ∀ own ∈ front ++ piece :: back, '\'' ∉ own := by
  have hjoin := joinWith_append_cons ['\''] front piece back
  constructor
  · intro h
    rw [← h, joinWith_pieces] at hjoin
    exact ⟨hjoin, fun own hown => Text.not_mem_of_mem_cutAt (h ▸ hown)⟩
  · rintro ⟨hline, hquote⟩
    rw [← pieces_joinWith (by simp) hquote, hjoin, hline]
    rfl

theorem pieces_eq_cons_iff :
    pieces line = piece :: back ↔
      line = piece ++ back.flatMap ('\'' :: ·) ∧ ∀ own ∈ piece :: back, '\'' ∉ own :=
  @pieces_eq_iff line piece [] back

theorem forall_quote_iff : (∀ own ∈ front ++ piece :: back, '\'' ∉ own) ↔
    (∀ own ∈ front, '\'' ∉ own) ∧ '\'' ∉ piece ∧ ∀ own ∈ back, '\'' ∉ own := by
  rw [List.forall_mem_append, List.forall_mem_cons]

theorem pieces_flatMap_append (hfront : ∀ own ∈ front, '\'' ∉ own) (hpiece : '\'' ∉ piece) :
    pieces (front.flatMap (· ++ ['\'']) ++ piece) = front ++ [piece] :=
  pieces_eq_iff.2 ⟨by simp, forall_quote_iff.2 ⟨hfront, hpiece, by simp⟩⟩

theorem pieces_append_flatMap (hpiece : '\'' ∉ piece) (hback : ∀ own ∈ back, '\'' ∉ own) :
    pieces (piece ++ back.flatMap ('\'' :: ·)) = piece :: back :=
  pieces_eq_cons_iff.2 ⟨rfl, List.forall_mem_cons.2 ⟨hpiece, hback⟩⟩

/-! ### The piece that has a place -/

/-- **The piece in which a place stands**, with any text without quotes put into the place. -/
theorem exists_cut (u v : List Char) : ∃ front left right back,
    pieces u = front ++ [left] ∧ pieces v = right :: back ∧ front.length = u.count '\'' ∧
      ∀ z, '\'' ∉ z → pieces (u ++ z ++ v) = front ++ (left ++ z ++ right) :: back := by
  obtain ⟨front, left, hu⟩ : ∃ front left, pieces u = front ++ [left] :=
    ⟨_, _, (List.dropLast_append_getLast (pieces_ne_nil u)).symm⟩
  obtain ⟨right, back, hv⟩ := List.exists_cons_of_ne_nil (pieces_ne_nil v)
  refine ⟨front, left, right, back, hu, hv, ?_, fun z hz => pieces_eq_iff.2 ?_⟩
  · have := length_pieces u
    rw [hu, List.length_append, List.length_singleton] at this
    exact Nat.succ.inj this
  · obtain ⟨hleft, hleftQuote⟩ := pieces_eq_iff.1 hu
    obtain ⟨hright, hrightQuote⟩ := pieces_eq_cons_iff.1 hv
    obtain ⟨hfront, hleftPiece, -⟩ := forall_quote_iff.1 hleftQuote
    obtain ⟨hrightPiece, hback⟩ := List.forall_mem_cons.1 hrightQuote
    refine ⟨?_, forall_quote_iff.2 ⟨hfront, ?_, hback⟩⟩
    · rw [hleft, hright]
      simp
    · simp [hleftPiece, hz, hrightPiece]

/-- A place in a piece, and the pieces of what stands before it and behind it. -/
theorem exists_split_of_pieces {z : List Char}
    (h : pieces line = front ++ (left ++ (z ++ right)) :: back) :
    ∃ u v, line = u ++ (z ++ v) ∧ pieces u = front ++ [left] ∧ pieces v = right :: back := by
  obtain ⟨hline, hquote⟩ := pieces_eq_iff.1 h
  obtain ⟨hfront, hpiece, hback⟩ := forall_quote_iff.1 hquote
  rw [List.mem_append, List.mem_append, not_or, not_or] at hpiece
  refine ⟨front.flatMap (· ++ ['\'']) ++ left, right ++ back.flatMap ('\'' :: ·), ?_,
    pieces_flatMap_append hfront hpiece.1, pieces_append_flatMap hpiece.2.2 hback⟩
  rw [hline]
  simp only [List.append_assoc]

theorem literalContains_eq (c : Char) (line : List Char) :
    literalContains c line = occursFrom true c line := by
  rw [literalContains, literalPieces, (any_everyOther_pieces c line).2]

theorem codeContains_or_literalContains {c : Char} (h : c ∈ line) (hc : c ≠ '\'') :
    (codeContains c line || literalContains c line) = true := by
  rw [codeContains_eq, literalContains_eq]
  induction line with
  | nil => cases h
  | cons x line ih =>
    rw [occursFrom, occursFrom]
    by_cases hx : x = '\''
    · subst hx
      have hline := ih ((List.mem_cons.1 h).resolve_left hc)
      simpa [Bool.or_comm] using hline
    · rcases List.mem_cons.1 h with rfl | h
      · simp [hx]
      · rcases Bool.or_eq_true_iff.1 (ih h) with hcode | hliteral
        · simp [hx, hcode]
        · simp [hx, hliteral]

theorem literalContains_append (c : Char) (hu : isClosed u = true) (v : List Char) :
    literalContains c (u ++ v) = (literalContains c u || literalContains c v) := by
  have hinside : insideAfter true u = true := by
    have hfalse := insideAfter_eq_false_iff.2 hu
    rw [insideAfter, Bool.false_xor] at hfalse
    rw [insideAfter, hfalse, Bool.xor_false]
  simp only [literalContains_eq, occursFrom_append, hinside]

/-! ### Lines with the same code -/

theorem everyOther_cons (piece : List Char) (rest : List (List Char)) :
    everyOther (piece :: rest) = piece :: everyOther (rest.drop 1) := by
  cases rest with
  | nil => rfl
  | cons next rest => rfl

theorem mem_literalPieces (hline : pieces line = front ++ piece :: back)
    (hfront : front.length % 2 = 1) : piece ∈ literalPieces line := by
  cases front with
  | nil => cases hfront
  | cons first front =>
    have heven : front.length % 2 = 0 := by
      rw [List.length_cons] at hfront
      omega
    rw [literalPieces, hline, List.cons_append, List.drop_one, List.tail_cons,
      everyOther_append heven, everyOther_cons]
    simp

theorem mem_everyOther (hline : pieces line = front ++ piece :: back)
    (hfront : front.length % 2 = 0) : piece ∈ everyOther (pieces line) := by
  rw [hline, everyOther_append hfront, everyOther_cons]
  simp

theorem exists_of_mem_everyOther {all : List (List Char)} (h : piece ∈ everyOther all) :
    ∃ front back, all = front ++ piece :: back ∧ front.length % 2 = 0 := by
  induction all using everyOther.induct with
  | case1 => cases h
  | case2 code =>
    obtain rfl := List.mem_singleton.1 h
    exact ⟨[], [], rfl, rfl⟩
  | case3 code literal rest ih =>
    rcases List.mem_cons.1 h with rfl | h
    · exact ⟨[], _, rfl, rfl⟩
    · obtain ⟨front, back, rfl, heven⟩ := ih h
      refine ⟨code :: literal :: front, back, rfl, ?_⟩
      rwa [List.length_cons, List.length_cons, Nat.add_assoc, Nat.add_mod_right]

theorem length_everyOther (all : List (List Char)) :
    (everyOther all).length = (all.length + 1) / 2 := by
  induction all using everyOther.induct with
  | case1 => rfl
  | case2 piece => simp [everyOther]
  | case3 piece literal rest ih =>
    rw [everyOther, List.length_cons, ih, List.length_cons, List.length_cons]
    omega

theorem SameCode.of_pieces {a b : List Char} (hlength : (pieces a).length = (pieces b).length)
    (hcode : everyOther (pieces a) = everyOther (pieces b)) : SameCode a b := by
  rw [length_pieces, length_pieces] at hlength
  exact ⟨Nat.succ.inj hlength, hcode⟩

theorem getLast?_eq_of_pieces (h : pieces u = front ++ [left]) :
    u.getLast? = left.getLast?.or (if front = [] then none else some '\'') := by
  obtain ⟨rfl, -⟩ := pieces_eq_iff.1 h
  rw [List.flatMap_nil, List.append_nil, List.getLast?_append]
  rcases List.eq_nil_or_concat' front with rfl | ⟨front, last, rfl⟩
  · rfl
  · simp

theorem head?_eq_of_pieces (h : pieces v = right :: back) :
    v.head? = right.head?.or (if back = [] then none else some '\'') := by
  obtain ⟨rfl, -⟩ := pieces_eq_cons_iff.1 h
  rw [List.head?_append]
  cases back with
  | nil => rfl
  | cons next back => simp

/-- **A place in the code of a line, and the place behind the same code of another line**: on either side
of it the lines have the same code, and the characters next to it are the same. -/
theorem SameCode.exists_append (h : SameCode (u ++ v) line) (hu : isClosed u = true) :
    ∃ u' v', line = u' ++ v' ∧ SameCode u u' ∧ SameCode v v' ∧ u'.getLast? = u.getLast? ∧
      v'.head? = v.head? := by
  obtain ⟨front, left, right, back, hleft, hright, hlength, hcut⟩ := exists_cut u v
  have hboth := hcut [] List.not_mem_nil
  rw [List.append_nil, List.append_nil] at hboth
  rw [isClosed, beq_iff_eq, ← hlength] at hu
  -- the other line has as many pieces, and the same one at the place
  have hcount : (pieces line).length = (front ++ (left ++ right) :: back).length := by
    rw [length_pieces, ← h.quotes_eq, ← length_pieces, hboth]
  obtain ⟨front', rest, hline, hfront⟩ : ∃ front' rest, pieces line = front' ++ rest ∧
      front'.length = front.length :=
    ⟨_, _, (List.take_append_drop front.length _).symm, List.length_take_of_le (by simp [hcount])⟩
  obtain ⟨piece, back', rfl⟩ : ∃ piece back', rest = piece :: back' := by
    refine List.exists_cons_of_ne_nil fun hnil => ?_
    rw [hline, hnil, List.length_append, List.length_append, List.length_cons, hfront,
      List.length_nil] at hcount
    omega
  have hcode := h.code_eq
  rw [hboth, hline, everyOther_append hu, everyOther_append (hfront ▸ hu)] at hcode
  obtain ⟨hfrontCode, hrestCode⟩ := List.append_inj hcode (by
    rw [length_everyOther, length_everyOther, hfront])
  rw [everyOther_cons, everyOther_cons] at hrestCode
  obtain ⟨rfl, hbackCode⟩ := List.cons.inj hrestCode
  have hback : back'.length = back.length := by
    rw [hline] at hcount
    simp only [List.length_append, List.length_cons, hfront] at hcount
    omega
  obtain ⟨u', v', rfl, hu', hv'⟩ := @exists_split_of_pieces line left right front' back' [] hline
  refine ⟨u', v', rfl, .of_pieces (by rw [hleft, hu']; simp [hfront]) ?_,
    .of_pieces (by rw [hright, hv']; simp [hback]) ?_, ?_, ?_⟩
  · rw [hleft, hu', everyOther_append hu, everyOther_append (hfront ▸ hu), hfrontCode]
  · rw [hright, hv', everyOther_cons, everyOther_cons, hbackCode]
  · rw [getLast?_eq_of_pieces hu', getLast?_eq_of_pieces hleft]
    simp only [← List.length_eq_zero_iff, hfront]
  · rw [head?_eq_of_pieces hv', head?_eq_of_pieces hright]
    simp only [← List.length_eq_zero_iff, hback]

theorem SameCode.symm {a b : List Char} (h : SameCode a b) : SameCode b a :=
  ⟨h.quotes_eq.symm, h.code_eq.symm⟩

theorem SameCode.isClosed_eq {a b : List Char} (h : SameCode a b) : isClosed a = isClosed b := by
  rw [isClosed, isClosed, h.quotes_eq]

theorem SameCode.eq_of_not_mem (h : SameCode u line) (hu : '\'' ∉ u) : line = u := by
  have hline : '\'' ∉ line := by
    rw [← List.count_eq_zero] at hu ⊢
    rw [← h.quotes_eq, hu]
  have hcode := h.code_eq
  rw [pieces_of_not_mem hu, pieces_of_not_mem hline] at hcode
  exact (List.cons.inj hcode).1.symm

/-- Text without quotes at the start of the code of a line stands there in another line as well. -/
theorem SameCode.exists_append_of_not_mem (h : SameCode (u ++ v) line) (hu : '\'' ∉ u) :
    ∃ v', line = u ++ v' ∧ SameCode v v' ∧ v'.head? = v.head? := by
  obtain ⟨u', v', rfl, hsame, hv, -, hhead⟩ := h.exists_append (isClosed_of_not_mem hu)
  exact ⟨v', by rw [hsame.eq_of_not_mem hu], hv, hhead⟩

/-- A character that is neither in the code nor in a literal of the other line is not in it. -/
theorem SameCode.not_mem {a b : List Char} {c : Char} (h : SameCode a b) (ha : c ∉ a)
    (hb : literalContains c b = false) (hc : c ≠ '\'') : c ∉ b := by
  have hcode : codeContains c b = false := by
    rw [codeContains, ← h.codePieces_eq, ← codeContains, codeContains_eq, occursFrom_of_not_mem ha]
  intro hmem
  have := codeContains_or_literalContains hmem hc
  rw [hcode, hb] at this
  cases this

/-! ### Changed code -/

/-- The pieces with `f` applied to those that are code, where `code` tells whether the first one is. -/
def mapPieces (f : List Char → List Char) : Bool → List (List Char) → List (List Char)
  | _, [] => []
  | code, piece :: rest => (if code then changed f piece else piece) :: mapPieces f (!code) rest

theorem mapPieces_true (f : List Char → List Char) (all : List (List Char)) :
    mapPieces f true all = mapEveryOther f all := by
  induction all using everyOther.induct with
  | case1 => rfl
  | case2 piece => rfl
  | case3 piece literal rest ih => simp [mapPieces, mapEveryOther, changed, ih]

theorem mapPieces_append (f : List Char → List Char) (code : Bool) (a b : List (List Char)) :
    mapPieces f code (a ++ b) =
      mapPieces f code a ++ mapPieces f (code ^^ decide (a.length % 2 = 1)) b := by
  induction a generalizing code with
  | nil => cases code <;> rfl
  | cons piece a ih =>
    have hflip : ((!code) ^^ decide (a.length % 2 = 1)) =
        (code ^^ decide ((a.length + 1) % 2 = 1)) := by
      rcases Nat.mod_two_eq_zero_or_one a.length with h | h
      · simp [h, Nat.add_mod]
      · simp [h, Nat.add_mod]
    rw [List.cons_append, mapPieces, ih, mapPieces, List.cons_append, List.length_cons, hflip]

/-- **A change of code, piece by piece.** -/
theorem mapCode_eq (f : List Char → List Char) (h : pieces line = front ++ piece :: back) :
    mapCode f line = (mapPieces f true front).flatMap (· ++ ['\'']) ++
      (if front.length % 2 = 0 then changed f piece else piece) ++
      (mapPieces f (decide (front.length % 2 = 1)) back).flatMap ('\'' :: ·) := by
  rw [mapCode, h, ← mapPieces_true, mapPieces_append, mapPieces, joinWith_append_cons]
  rcases Nat.mod_two_eq_zero_or_one front.length with hlength | hlength
  · simp [hlength]
  · simp [hlength]

/-- **A change of code around a place.**  The line is cut there into what stands before the piece that
has the place, the piece, and what stands behind it; the piece is changed by itself if it is code, and
stays if it is a literal. -/
theorem exists_mapCode (u v : List Char) : ∃ before left right behind,
    u = before ++ left ∧ v = right ++ behind ∧ '\'' ∉ left ∧ '\'' ∉ right ∧
      (before = [] ∨ before.getLast? = some '\'') ∧ (behind = [] ∨ behind.head? = some '\'') ∧
      ∀ f : List Char → List Char, ∃ before' behind', ∀ z, '\'' ∉ z →
        mapCode f (before ++ z ++ behind) =
            before' ++ (if isClosed u then changed f z else z) ++ behind' ∧
          mapCode f (before ++ z) = before' ++ (if isClosed u then changed f z else z) ∧
          (isClosed u = true → mapCode f (z ++ behind) = changed f z ++ behind') := by
  obtain ⟨front, left, right, back, hu, hv, hlength, -⟩ := exists_cut u v
  have hquotes : isClosed u = true ↔ front.length % 2 = 0 := by
    rw [hlength, isClosed, beq_iff_eq]
  obtain ⟨hleft, hleftQuote⟩ := pieces_eq_iff.1 hu
  obtain ⟨hright, hrightQuote⟩ := pieces_eq_cons_iff.1 hv
  obtain ⟨hfront, hleftPiece, -⟩ := forall_quote_iff.1 hleftQuote
  obtain ⟨hrightPiece, hback⟩ := List.forall_mem_cons.1 hrightQuote
  refine ⟨front.flatMap (· ++ ['\'']), left, right, back.flatMap ('\'' :: ·), by simpa using hleft,
    hright, hleftPiece, hrightPiece, ?_, ?_, fun f => ?_⟩
  · rcases List.eq_nil_or_concat front with rfl | ⟨front', last, rfl⟩
    · exact .inl rfl
    · exact .inr (by simp)
  · cases back with
    | nil => exact .inl rfl
    | cons next back => exact .inr rfl
  · refine ⟨(mapPieces f true front).flatMap (· ++ ['\'']),
      (mapPieces f (decide (front.length % 2 = 1)) back).flatMap ('\'' :: ·), fun z hz => ⟨?_, ?_,
        fun hclosed => ?_⟩⟩
    · simp only [hquotes]
      exact mapCode_eq f (pieces_eq_iff.2 ⟨rfl, forall_quote_iff.2 ⟨hfront, hz, hback⟩⟩)
    · simp only [hquotes]
      simpa [mapPieces] using mapCode_eq f (pieces_flatMap_append hfront hz)
    · rw [hquotes.1 hclosed]
      have hpieces : pieces (z ++ back.flatMap ('\'' :: ·)) = [] ++ z :: back :=
        pieces_append_flatMap hz hback
      simpa [mapPieces] using mapCode_eq f hpieces

/-- Text without quotes before a place does not go further back than to the last quote. -/
theorem exists_append_of_quote_before {before u s : List Char}
    (hbefore : before = [] ∨ before.getLast? = some '\'') (h : before ++ left = u ++ s)
    (hs : '\'' ∉ s) : ∃ u', u = before ++ u' ∧ left = u' ++ s := by
  rcases List.append_eq_append_iff.1 h with ⟨u', hu, hleft⟩ | ⟨w, rfl, rfl⟩
  · exact ⟨u', hu, hleft⟩
  · rcases List.eq_nil_or_concat' w with rfl | ⟨w, last, rfl⟩
    · exact ⟨[], by simp, rfl⟩
    · rcases hbefore with hbefore | hbefore
      · simp at hbefore
      · obtain rfl : last = '\'' := by simpa [List.getLast?_append] using hbefore
        simp at hs

/-- Text without quotes behind a place does not go further than to the next quote. -/
theorem exists_append_of_quote_behind {behind t v : List Char}
    (hbehind : behind = [] ∨ behind.head? = some '\'') (h : right ++ behind = t ++ v)
    (ht : '\'' ∉ t) : ∃ v', v = v' ++ behind ∧ right = t ++ v' := by
  rcases List.append_eq_append_iff.1 h with ⟨w, rfl, rfl⟩ | ⟨v', hright, hv⟩
  · cases w with
    | nil => exact ⟨[], by simp, by simp⟩
    | cons c w =>
      rcases hbehind with hbehind | hbehind
      · simp at hbehind
      · obtain rfl : c = '\'' := by simpa using hbehind
        simp at ht
  · exact ⟨v', hv, hright⟩

/-! ### Changes of single characters -/

/-- A change of code that replaces characters one by one does so in the whole line. -/
theorem forall₂_mapCode {r : Char → Char → Prop} (hr : ∀ c, r c c) {f : List Char → List Char}
    (hf : ∀ code, List.Forall₂ r code (f code)) (line : List Char) :
    List.Forall₂ r line (mapCode f line) := by
  have hsame (text : List Char) : List.Forall₂ r text text := List.forall₂_same.2 fun c _ => hr c
  have hpieces : ∀ all, List.Forall₂ (List.Forall₂ r) all (mapEveryOther f all) := by
    intro all
    have hchanged (piece : List Char) : List.Forall₂ r piece (changed f piece) := by
      rw [changed]
      split
      · rename_i hempty
        rw [List.isEmpty_iff.1 hempty]
        exact .nil
      · exact hf piece
    induction all using everyOther.induct with
    | case1 => exact .nil
    | case2 piece => exact .cons (hchanged piece) .nil
    | case3 piece literal rest ih => exact .cons (hchanged piece) (.cons (hsame literal) ih)
  have hjoin : ∀ {xs ys : List (List Char)}, List.Forall₂ (List.Forall₂ r) xs ys →
      List.Forall₂ r (Text.joinWith ['\''] xs) (Text.joinWith ['\''] ys) := by
    intro xs ys h
    cases h with
    | nil => exact .nil
    | cons hpiece hrest =>
      rw [joinWith_cons, joinWith_cons]
      exact List.rel_append hpiece (List.rel_flatMap hrest fun _ _ h => .cons (hr _) h)
  have hline := hjoin (hpieces (pieces line))
  rwa [joinWith_pieces] at hline

end Literal

end SqlDialect
