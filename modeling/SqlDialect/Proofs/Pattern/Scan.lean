import SqlDialect.Proofs.Pattern.Preference

/-!
# The scan of a line, place by place

A search for matches goes over a line from the left.  At a place with a match, the search goes on
behind the match (`Pattern.editedFrom_append`), at any other place it goes on behind the next character
(`Pattern.editedFrom_cons`).  So every place of a line is either looked at, or it stands inside a match
that is reported (`Pattern.exists_reported_or_reached`).
-/

namespace SqlDialect.Pattern

variable {p : Pattern} {edit : Match → Option (List Char)} {before : Option Char} {index : Nat}
  {m : Match} {line rest : List Char}

/-- The rest of a line from a place on, with its matches replaced. -/
def editedFrom (p : Pattern) (edit : Match → Option (List Char)) (before : Option Char) (index : Nat)
    (rest : List Char) : List Char :=
  (p.piecesFrom 0 before index rest).flatMap (Piece.edited edit)

theorem replaceIn_eq_editedFrom (p : Pattern) (edit : Match → Option (List Char)) (line : List Char) :
    p.replaceIn (fun m => (edit m).getD m.text) line = p.editedFrom edit none 0 line := by
  rw [replaceIn, pieces_eq]
  congr 1

theorem editedFrom_cons {c : Char} (h : p.matchAt ⟨before, index, c :: rest⟩ = none) :
    p.editedFrom edit before index (c :: rest) =
      c :: p.editedFrom edit (some c) (index + 1) rest := by
  rw [editedFrom, piecesFrom_cons h]
  rfl

theorem editedFrom_append (h : p.matchAt ⟨before, index, m.text ++ rest⟩ = some m)
    (hne : m.text ≠ []) :
    p.editedFrom edit before index (m.text ++ rest) = (edit m).getD m.text ++
      p.editedFrom edit (m.text.getLast?.or before) (index + m.text.length) rest := by
  rw [editedFrom, piecesFrom_found h hne]
  rfl

/-- Nothing is replaced where a search finds nothing. -/
theorem editedFrom_of_findFrom_eq_none (h : p.findFrom before index line = none) :
    p.editedFrom edit before index line = line := by
  induction line generalizing before index with
  | nil => rfl
  | cons c rest ih =>
    rw [findFrom] at h
    cases hmatch : p.matchAt ⟨before, index, c :: rest⟩ with
    | none =>
      rw [hmatch] at h
      rw [editedFrom_cons hmatch, ih h]
    | some m =>
      rw [hmatch] at h
      cases h

/-! ### The first match -/

theorem piecesFrom_of_none {a : List Char}
    (h : ∀ u c v, a = u ++ c :: v →
      p.matchAt ⟨u.getLast?.or before, index + u.length, c :: (v ++ rest)⟩ = none) :
    p.piecesFrom 0 before index (a ++ rest) =
      a.map .other ++ p.piecesFrom 0 (a.getLast?.or before) (index + a.length) rest := by
  induction a generalizing before index with
  | nil => rfl
  | cons c a ih =>
    have hrest := @ih (some c) (index + 1) fun u d v ha => by
      have := h (c :: u) d v (by rw [ha]; rfl)
      rwa [getLast?_cons_or, List.length_cons, Nat.add_comm u.length, ← Nat.add_assoc] at this
    have hfirst : p.matchAt ⟨before, index, c :: (a ++ rest)⟩ = none := h [] c a rfl
    rw [List.cons_append, piecesFrom_cons hfirst, hrest, getLast?_cons_or, List.length_cons,
      Nat.add_comm a.length, ← Nat.add_assoc]
    rfl

/-- **The first match of a line** is the leftmost. -/
theorem exists_matchesIn_eq_cons {a b : List Char}
    (hfirst : ∀ u c v, a = u ++ c :: v →
      p.matchAt ⟨u.getLast?, u.length, c :: (v ++ b)⟩ = none)
    (h : p.matchAt ⟨a.getLast?, a.length, b⟩ = some m) (hne : m.text ≠ []) :
    ∃ more, p.matchesIn (a ++ b) = m :: more := by
  obtain ⟨rest, rfl, -⟩ := reads_of_matchAt h
  have hfront : p.piecesFrom 0 none 0 (a ++ (m.text ++ rest)) =
      a.map .other ++ p.piecesFrom 0 (a.getLast?.or none) (0 + a.length) (m.text ++ rest) := by
    refine piecesFrom_of_none fun u c v ha => ?_
    rw [Option.or_none, Nat.zero_add]
    exact hfirst u c v ha
  have hothers : (a.map Piece.other).filterMap Piece.match? = [] := by
    rw [List.filterMap_map]
    exact List.filterMap_eq_nil_iff.2 fun _ _ => rfl
  refine ⟨(p.piecesFrom 0 (m.text.getLast?.or a.getLast?) (a.length + m.text.length) rest).filterMap
    Piece.match?, ?_⟩
  rw [matchesIn, pieces_eq, hfront, Option.or_none, Nat.zero_add, List.filterMap_append, hothers,
    piecesFrom_found h hne]
  rfl

/-! ### Edits that keep the length -/

/-- A match that is reported, where the search starts behind the character `before`: `front` is the text
before the match, and `rest` the text behind it. -/
structure Reported (p : Pattern) (edit : Match → Option (List Char)) (before : Option Char)
    (index : Nat) (line front : List Char) (m : Match) (rest : List Char) : Prop where
  line_eq : line = front ++ (m.text ++ rest)
  matchAt_eq : p.matchAt ⟨front.getLast?.or before, index + front.length, m.text ++ rest⟩ = some m
  exists_edited : ∃ new new', new.length = front.length ∧
    p.editedFrom edit before index line = new ++ (edit m).getD m.text ++ new'

theorem Reported.cons {front : List Char} {c : Char}
    (h : p.matchAt ⟨before, index, c :: line⟩ = none)
    (hline : p.Reported edit (some c) (index + 1) line front m rest) :
    p.Reported edit before index (c :: line) (c :: front) m rest where
  line_eq := congrArg (c :: ·) hline.line_eq
  matchAt_eq := by
    rw [getLast?_cons_or, List.length_cons, Nat.add_comm front.length, ← Nat.add_assoc]
    exact hline.matchAt_eq
  exists_edited := by
    obtain ⟨new, new', hnew, hedited⟩ := hline.exists_edited
    exact ⟨c :: new, new', congrArg Nat.succ hnew,
      (editedFrom_cons h).trans (congrArg (c :: ·) hedited)⟩

theorem Reported.append {front : List Char} {found : Match}
    (hedit : ∀ m, p.Matches m → ((edit m).getD m.text).length = m.text.length)
    (h : p.matchAt ⟨before, index, found.text ++ line⟩ = some found) (hne : found.text ≠ [])
    (hline : p.Reported edit (found.text.getLast?.or before) (index + found.text.length) line front m
      rest) :
    p.Reported edit before index (found.text ++ line) (found.text ++ front) m rest where
  line_eq := by rw [hline.line_eq, List.append_assoc]
  matchAt_eq := by
    rw [getLast?_append_or, List.length_append, ← Nat.add_assoc]
    exact hline.matchAt_eq
  exists_edited := by
    obtain ⟨new, new', hnew, hedited⟩ := hline.exists_edited
    refine ⟨(edit found).getD found.text ++ new, new', ?_, ?_⟩
    · rw [List.length_append, List.length_append, hedit found ⟨_, h⟩, hnew]
    · rw [editedFrom_append h hne, hedited]
      simp only [List.append_assoc]

/-- **Every place is reached by the search, or inside a reported match.** -/
theorem exists_reported_or_reached (hnil : ∀ before behind, ¬p.Reads before [] behind)
    (hedit : ∀ m, p.Matches m → ((edit m).getD m.text).length = m.text.length) {a b : List Char} :
    (∃ front m rest s t, p.Reported edit before index (a ++ b) front m rest ∧ a = front ++ s ∧
        m.text = s ++ t ∧ b = t ++ rest ∧ s ≠ [] ∧ t ≠ []) ∨
      ∃ new, new.length = a.length ∧ p.editedFrom edit before index (a ++ b) =
        new ++ p.editedFrom edit (a.getLast?.or before) (index + a.length) b := by
  -- the search goes on behind a match of any length, and so the induction is on the length
  induction hlength : a.length using Nat.strong_induction_on generalizing before index a with
  | _ n ih =>
    subst hlength
    cases a with
    | nil => exact .inr ⟨[], rfl, rfl⟩
    | cons c a =>
      cases hmatch : p.matchAt ⟨before, index, c :: a ++ b⟩ with
      | none =>
        rcases @ih a.length (Nat.lt_succ_self _) (some c) (index + 1) a rfl with
          ⟨front, m, rest, s, t, hreported, rfl, hparts⟩ | ⟨new, hnew, hedited⟩
        · exact .inl ⟨c :: front, m, rest, s, t, hreported.cons hmatch, rfl, hparts⟩
        · refine .inr ⟨c :: new, congrArg Nat.succ hnew, ?_⟩
          rw [getLast?_cons_or, List.length_cons, Nat.add_comm a.length, ← Nat.add_assoc]
          exact (editedFrom_cons hmatch).trans (congrArg (c :: ·) hedited)
      | some m =>
        obtain ⟨old, hold, hreads⟩ := reads_of_matchAt hmatch
        have hne : m.text ≠ [] := by
          intro hempty
          rw [hempty] at hreads
          exact hnil _ _ hreads
        have hline : c :: a ++ b = m.text ++ old := hold
        rw [hline] at hmatch ⊢
        have hstep : p.editedFrom edit before index (m.text ++ old) = _ :=
          editedFrom_append hmatch hne
        -- the match ends behind the place or at it, or in front of the place
        rcases List.append_eq_append_iff.1 hline with ⟨t, htext, rfl⟩ | ⟨a', ha, rfl⟩
        · by_cases ht : t = []
          · -- the match ends where the place is
            subst ht
            rw [List.append_nil] at htext
            refine .inr ⟨(edit m).getD m.text, by rw [hedit m ⟨_, hmatch⟩, htext], ?_⟩
            rw [← htext]
            exact hstep
          · exact .inl ⟨[], m, old, c :: a, t, ⟨rfl, hmatch, [], _, rfl, hstep⟩, rfl, htext, rfl,
              List.cons_ne_nil c a, ht⟩
        · have hshort : a'.length < (c :: a).length := by
            rw [ha, List.length_append]
            exact Nat.lt_add_of_pos_left (List.length_pos_of_ne_nil hne)
          rw [ha]
          rcases @ih a'.length hshort (m.text.getLast?.or before) (index + m.text.length) a' rfl with
            ⟨front, found, rest, s, t, hreported, rfl, hparts⟩ | ⟨new, hnew, hedited⟩
          · exact .inl ⟨m.text ++ front, found, rest, s, t, hreported.append hedit hmatch hne,
              (List.append_assoc _ _ _).symm, hparts⟩
          · refine .inr ⟨(edit m).getD m.text ++ new, ?_, ?_⟩
            · rw [List.length_append, List.length_append, hedit m ⟨_, hmatch⟩, hnew]
            · rw [hstep, hedited, getLast?_append_or, List.length_append, ← Nat.add_assoc,
                List.append_assoc]

/-- A match that is reported, with the text `s` of it before a place and the text `t` behind it. -/
structure ReportedOver (p : Pattern) (edit : Match → Option (List Char)) (before : Option Char)
    (index : Nat) (a b : List Char) (m : Match) (s t : List Char) : Prop where
  exists_front : ∃ front rest, p.Reported edit before index (a ++ b) front m rest ∧
    a = front ++ s ∧ b = t ++ rest
  text_eq : m.text = s ++ t
  ne_nil : t ≠ []

/-- A place with a match is the start of the reported match, or inside an earlier one. -/
theorem exists_reportedOver_of_matchAt (hnil : ∀ before behind, ¬p.Reads before [] behind)
    (hedit : ∀ m, p.Matches m → ((edit m).getD m.text).length = m.text.length) {a b : List Char}
    (h : p.matchAt ⟨a.getLast?.or before, index + a.length, b⟩ = some m) :
    ∃ m' s t, p.ReportedOver edit before index a b m' s t := by
  rcases exists_reported_or_reached hnil hedit with
    ⟨front, m', rest, s, t, hreported, ha, htext, hb, -, ht⟩ | ⟨new, hnew, hedited⟩
  · exact ⟨m', s, t, ⟨front, rest, hreported, ha, hb⟩, htext, ht⟩
  · obtain ⟨rest, hrest, hreads⟩ := reads_of_matchAt h
    have hb : b = m.text ++ rest := hrest
    have hne : m.text ≠ [] := by
      intro hempty
      rw [hempty] at hreads
      exact hnil _ _ hreads
    subst hb
    rw [editedFrom_append h hne] at hedited
    have hedited := hedited.trans (List.append_assoc new _ _).symm
    exact ⟨m, [], m.text, ⟨a, rest, ⟨rfl, h, new, _, hnew, hedited⟩, (List.append_nil a).symm, rfl⟩,
      rfl, hne⟩

/-- A character that is not in a reported match stays. -/
theorem exists_reportedOver_or_getElem? (hnil : ∀ before behind, ¬p.Reads before [] behind)
    (hedit : ∀ m, p.Matches m → ((edit m).getD m.text).length = m.text.length)
    {a b : List Char} {c : Char} :
    (∃ m s t, p.ReportedOver edit before index a (c :: b) m s t) ∨
      (p.editedFrom edit before index (a ++ c :: b))[a.length]? = some c := by
  cases hmatch : p.matchAt ⟨a.getLast?.or before, index + a.length, c :: b⟩ with
  | some m => exact .inl (exists_reportedOver_of_matchAt hnil hedit hmatch)
  | none =>
    rcases exists_reported_or_reached hnil hedit with
      ⟨front, m, rest, s, t, hreported, ha, htext, hb, -, ht⟩ | ⟨new, hnew, hedited⟩
    · exact .inl ⟨m, s, t, ⟨front, rest, hreported, ha, hb⟩, htext, ht⟩
    · refine .inr ?_
      rw [hedited, editedFrom_cons hmatch, ← hnew, List.getElem?_append_right le_rfl, Nat.sub_self]
      rfl

/-- What has become of a character in a reported match. -/
theorem ReportedOver.getElem?_eq {a b s t : List Char}
    (hedit : ∀ m, p.Matches m → ((edit m).getD m.text).length = m.text.length)
    (h : p.ReportedOver edit before index a b m s t) :
    (p.editedFrom edit before index (a ++ b))[a.length]? = ((edit m).getD m.text)[s.length]? := by
  obtain ⟨front, rest, hreported, rfl, rfl⟩ := h.exists_front
  obtain ⟨new, new', hnew, hedited⟩ := hreported.exists_edited
  have hlength : s.length < ((edit m).getD m.text).length := by
    rw [hedit m ⟨_, hreported.matchAt_eq⟩, h.text_eq, List.length_append]
    exact Nat.lt_add_of_pos_right (List.length_pos_of_ne_nil h.ne_nil)
  rw [hedited, List.append_assoc, List.length_append, ← hnew,
    List.getElem?_append_right (Nat.le_add_right _ _), Nat.add_sub_cancel_left,
    List.getElem?_append_left hlength]

theorem ReportedOver.head?_eq {a b s t : List Char} (h : p.ReportedOver edit before index a b m s t) :
    t.head? = b.head? := by
  obtain ⟨front, rest, -, -, rfl⟩ := h.exists_front
  obtain ⟨c, t, rfl⟩ := List.exists_cons_of_ne_nil h.ne_nil
  rfl

theorem ReportedOver.getElem?_text {a b s t : List Char} {c : Char}
    (h : p.ReportedOver edit before index a (c :: b) m s t) : m.text[s.length]? = some c := by
  rw [h.text_eq, List.getElem?_append_right le_rfl, Nat.sub_self, ← List.head?_eq_getElem?, h.head?_eq]
  rfl

/-- A place further on in a reported match. -/
theorem ReportedOver.exists_further {a x b s t : List Char}
    (h : p.ReportedOver edit before index a (x ++ b) m s t) (hlength : x.length < t.length) :
    ∃ t', t = x ++ t' ∧ p.ReportedOver edit before index (a ++ x) b m (s ++ x) t' := by
  obtain ⟨front, rest, hreported, rfl, hb⟩ := h.exists_front
  obtain ⟨t, rfl⟩ : x <+: t := List.prefix_of_prefix_length_le ⟨_, rfl⟩ ⟨_, hb.symm⟩ hlength.le
  refine ⟨t, rfl, ⟨front, rest, ?_, List.append_assoc _ _ _, ?_⟩, ?_, ?_⟩
  · simpa only [List.append_assoc] using hreported
  · rw [List.append_assoc] at hb
    exact List.append_cancel_left hb
  · rw [h.text_eq, List.append_assoc]
  · rintro rfl
    rw [List.append_nil] at hlength
    exact lt_irrefl _ hlength

end SqlDialect.Pattern
