import SqlDialect.Line.Identifier
import SqlDialect.Proofs.Line.Place
import SqlDialect.Proofs.Pattern.Group
import SqlDialect.Proofs.Pattern.Scan
import SqlDialect.Proofs.Text.Run

/-!
# Brackets around names

Which brackets a line loses is decided by what stands between them, and by nothing else:
`Identifier.bracket_stays_iff` says that an opening bracket in code stays if and only if the text up to
the next closing bracket is not a bare name, and a closing bracket stays if and only if the text behind
the last opening bracket is not one.  What stands before the opening bracket plays no part, so that a
subscript that is a name goes the way of a quoted name.

The brackets of a piece of code are dropped by `unbracket`, which goes over the piece in the two steps
of `unbracket_name` and `unbracket_cons`; `unbracket_append` and `unquote_append` put its results on the
two sides of a place together.
-/

namespace SqlDialect.Identifier

open Pattern

variable {before behind : Option Char} {index : Nat} {name text x y u v w rest : List Char} {c : Char}

/-! ### Bare names -/

/-- Whether the text is a bare name, which loses the brackets around it. -/
def isBareName : List Char → Bool
  | [] => false
  | c :: rest => nameStart.mem c && rest.all nameChar.mem

theorem reads_bareName_iff : bareName.Reads before text behind ↔ isBareName text = true := by
  constructor
  · rintro ⟨s, t, rfl, hs, ht⟩
    obtain ⟨c, rest, hc, hrest, rfl⟩ := List.forall₂_cons_left_iff.1 hs
    obtain rfl := List.forall₂_nil_left_iff.1 hrest
    exact Bool.and_eq_true_iff.2 ⟨hc, List.all_eq_true.2 (reads_star_one_iff.1 ht)⟩
  · intro h
    cases text with
    | nil => cases h
    | cons c rest =>
      obtain ⟨hc, hrest⟩ := Bool.and_eq_true_iff.1 h
      exact ⟨[c], rest, rfl, .cons hc .nil, reads_star_one_iff.2 (List.all_eq_true.1 hrest)⟩

theorem nameChar_of_mem (h : isBareName text = true) (hc : c ∈ text) : nameChar.mem c = true := by
  cases text with
  | nil => cases hc
  | cons d rest =>
    obtain ⟨hd, hrest⟩ := Bool.and_eq_true_iff.1 h
    rcases List.mem_cons.1 hc with rfl | hc
    · rcases Bool.or_eq_true_iff.1 hd with hd | hd
      · exact Bool.or_eq_true_iff.2 (.inl (Bool.or_eq_true_iff.2 (.inl hd)))
      · obtain rfl : c = '_' := by simpa [CharSet.exactly, CharSet.mem] using hd
        decide
    · exact List.all_eq_true.1 hrest c hc

theorem not_mem_of_isBareName (hc : nameChar.mem c = false) (h : isBareName text = true) :
    c ∉ text := by
  intro hmem
  rw [nameChar_of_mem h hmem] at hc
  cases hc

theorem reads_bracketed_iff :
    bracketed.Reads before text behind ↔
      ∃ name, text = '[' :: (name ++ [']']) ∧ isBareName name = true := by
  constructor
  · rintro ⟨_, _, rfl, ⟨_, name, rfl, hopen, hname⟩, hclose⟩
    rw [reads_char_iff.1 hopen, reads_char_iff.1 hclose]
    exact ⟨name, by simp, reads_bareName_iff.1 hname⟩
  · rintro ⟨name, rfl, hname⟩
    exact ⟨'[' :: name, [']'], by simp, ⟨['['], name, rfl, reads_char_iff.2 rfl,
      reads_bareName_iff.2 hname⟩, reads_char_iff.2 rfl⟩

/-! ### Names out of their brackets -/

/-- The rest of a line from a place on, without the brackets around names. -/
def unbracketFrom (before : Option Char) (index : Nat) (rest : List Char) : List Char :=
  bracketed.editedFrom (fun m => some (m.textOf "name")) before index rest

/-- A piece of code without the brackets around names. -/
def unbracket (piece : List Char) : List Char :=
  bracketed.replaceIn (·.textOf "name") piece

theorem unbracket_eq (piece : List Char) : unbracket piece = unbracketFrom none 0 piece :=
  replaceIn_eq_editedFrom bracketed (fun m => some (m.textOf "name")) piece

theorem unbracketFrom_name (h : isBareName name = true) :
    unbracketFrom before index ('[' :: (name ++ ']' :: rest)) =
      name ++ unbracketFrom (some ']') (index + (name.length + 2)) rest := by
  have hbehind : ∀ {name : List Char}, isBareName name = true → ']' ∉ name :=
    not_mem_of_isBareName (by decide)
  have hline : '[' :: (name ++ ']' :: rest) = '[' :: (name ++ [']']) ++ rest := by simp
  -- only the name up to the next closing bracket is read
  have hfound : ∀ {m : Match} {old : List Char}, bracketed.Reads before m.text old.head? →
      '[' :: (name ++ ']' :: rest) = m.text ++ old → m.text = '[' :: (name ++ [']']) ∧ old = rest := by
    intro m old hreads hold
    obtain ⟨own, htext, hown⟩ := reads_bracketed_iff.1 hreads
    rw [htext, List.cons_append, List.append_assoc] at hold
    obtain ⟨rfl, hrest⟩ := (Text.Run.of_not_mem (hbehind h)).eq_of_append_eq (.of_not_mem (hbehind hown))
      (List.cons.inj hold).2
    exact ⟨htext, (List.cons.inj hrest).2.symm⟩
  cases hmatch : bracketed.matchAt ⟨before, index, '[' :: (name ++ ']' :: rest)⟩ with
  | none =>
    exact absurd (reads_bracketed_iff.2 ⟨name, rfl, h⟩)
      (matchAt_eq_none_iff.1 hmatch ('[' :: (name ++ [']'])) rest hline)
  | some m =>
    obtain ⟨old, hold, hreads⟩ := reads_of_matchAt hmatch
    obtain ⟨htext, rfl⟩ := hfound hreads hold
    have hname : m.textOf "name" = name := by
      have haround : bracketed.around "name" =
          some (.char '[' ++ empty, bareName, empty ++ .char ']') := rfl
      obtain ⟨s, t, old', -, hparts, hreads'⟩ := exists_parts_of_matchAt haround hmatch
      obtain ⟨_, _, rfl, hs, hempty⟩ := hreads'.reads_left
      obtain ⟨_, _, rfl, hempty', ht⟩ := hreads'.reads_right
      obtain rfl := List.forall₂_nil_left_iff.1 hempty
      obtain rfl := List.forall₂_nil_left_iff.1 hempty'
      rw [reads_char_iff.1 hs, reads_char_iff.1 ht, htext] at hparts
      simpa using hparts.symm
    rw [show '[' :: (name ++ ']' :: old) = m.text ++ old from hold] at hmatch
    have hedited : unbracketFrom before index (m.text ++ old) = _ :=
      editedFrom_append hmatch (by rw [htext]; exact List.cons_ne_nil _ _)
    have hlast : m.text.getLast?.or before = some ']' := by
      rw [htext, ← List.cons_append, List.getLast?_concat]
      rfl
    have hlength : m.text.length = name.length + 2 := by simp [htext]
    rw [hline, ← htext, hedited, hlast, hlength, Option.getD_some, hname]
    rfl

theorem unbracketFrom_cons
    (h : ∀ name v, c :: rest = '[' :: (name ++ ']' :: v) → isBareName name = false) :
    unbracketFrom before index (c :: rest) = c :: unbracketFrom (some c) (index + 1) rest := by
  refine editedFrom_cons (matchAt_eq_none_iff.2 fun text v hline hreads => ?_)
  obtain ⟨name, rfl, hname⟩ := reads_bracketed_iff.1 hreads
  have := h name v (by simpa using hline)
  rw [hname] at this
  cases this

/-- A piece of code, taken apart as it is scanned: a name in brackets, or the next character. -/
theorem bracket_induction {motive : List Char → Prop} (nil : motive [])
    (name : ∀ name rest, isBareName name = true → motive rest →
      motive ('[' :: (name ++ ']' :: rest)))
    (cons : ∀ c rest, (∀ name v, c :: rest = '[' :: (name ++ ']' :: v) → isBareName name = false) →
      motive rest → motive (c :: rest))
    (piece : List Char) : motive piece := by
  induction hlength : piece.length using Nat.strong_induction_on generalizing piece with
  | _ n ih =>
    subst hlength
    cases piece with
    | nil => exact nil
    | cons c rest =>
      by_cases h : ∃ own v, c :: rest = '[' :: (own ++ ']' :: v) ∧ isBareName own = true
      · obtain ⟨own, v, hline, hown⟩ := h
        rw [hline] at ih ⊢
        exact name own v hown (ih v.length (by simp; omega) v rfl)
      · refine cons c rest (fun own v hline => ?_) (ih rest.length (Nat.lt_succ_self _) rest rfl)
        exact Bool.eq_false_iff.2 fun hown => h ⟨own, v, hline, hown⟩

/-- What stands before a piece plays no part. -/
theorem unbracketFrom_eq (before : Option Char) (index : Nat) (piece : List Char) :
    unbracketFrom before index piece = unbracket piece := by
  rw [unbracket_eq]
  suffices ∀ before' index', unbracketFrom before index piece = unbracketFrom before' index' piece from
    this none 0
  induction piece using bracket_induction generalizing before index with
  | nil => exact fun _ _ => rfl
  | name name rest h ih =>
    intro before' index'
    rw [unbracketFrom_name h, unbracketFrom_name h, ih]
  | cons c rest h ih =>
    intro before' index'
    rw [unbracketFrom_cons h, unbracketFrom_cons h, ih]

@[simp] theorem unbracket_nil : unbracket [] = [] := unbracket_eq []

theorem unbracket_name (h : isBareName name = true) (rest : List Char) :
    unbracket ('[' :: (name ++ ']' :: rest)) = name ++ unbracket rest := by
  rw [unbracket_eq, unbracketFrom_name h, unbracketFrom_eq]

theorem unbracket_cons
    (h : ∀ name v, c :: rest = '[' :: (name ++ ']' :: v) → isBareName name = false) :
    unbracket (c :: rest) = c :: unbracket rest := by
  rw [unbracket_eq, unbracketFrom_cons h, unbracketFrom_eq]

/-- **Brackets are dropped on both sides of a place by themselves**, unless there is a name in brackets
around it. -/
theorem unbracket_append
    (h : ∀ s t t' v, x = s ++ '[' :: t → y = t' ++ ']' :: v → isBareName (t ++ t') = false) :
    unbracket (x ++ y) = unbracket x ++ unbracket y := by
  induction x using bracket_induction with
  | nil => rfl
  | name name rest hname ih =>
    have hrest := ih fun s t t' v hx hy => h ('[' :: (name ++ ']' :: s)) t t' v (by simp [hx]) hy
    rw [unbracket_name hname, List.cons_append, List.append_assoc, List.cons_append,
      unbracket_name hname, hrest, List.append_assoc]
  | cons c rest hc ih =>
    have hrest := ih fun s t t' v hx hy => h (c :: s) t t' v (by simp [hx]) hy
    rw [unbracket_cons hc, List.cons_append, unbracket_cons, hrest, List.cons_append]
    intro name v hline
    obtain ⟨rfl, htail⟩ := List.cons.inj hline
    rcases List.append_eq_append_iff.1 htail with ⟨t', rfl, hy⟩ | ⟨t, rfl, hv⟩
    · exact h [] rest t' v rfl hy
    · cases t with
      | nil =>
        have := h [] name [] v (by simp) hv.symm
        rwa [List.append_nil] at this
      | cons d t =>
        obtain ⟨rfl, rfl⟩ := List.cons.inj hv
        exact hc name t rfl

theorem unbracket_of_not_mem (h : '[' ∉ x) : unbracket x = x := by
  induction x with
  | nil => rfl
  | cons c rest ih =>
    rw [List.mem_cons, not_or] at h
    rw [unbracket_cons fun _ _ hline => absurd (List.cons.inj hline).1.symm h.1, ih h.2]

/-! ### Lines -/

/-- Whether the text is a bare name once its backticks are dropped. -/
def isQuotedName (text : List Char) : Bool := isBareName (text.filter (· != backtick))

/-- What becomes of a piece of code. -/
def unquoteCode (piece : List Char) : List Char := unbracket (piece.filter (· != backtick))

theorem unquote_eq (line : List Char) : unquote line = Literal.mapCode unquoteCode line := rfl

theorem changed_unquoteCode (piece : List Char) :
    Literal.changed unquoteCode piece = unquoteCode piece := by
  rw [Literal.changed]
  split
  · rename_i h
    rw [List.isEmpty_iff.1 h]
    rfl
  · rfl

theorem unquoteCode_append
    (h : ∀ s t t' w, x = s ++ '[' :: t → y = t' ++ ']' :: w → isQuotedName (t ++ t') = false) :
    unquoteCode (x ++ y) = unquoteCode x ++ unquoteCode y := by
  rw [unquoteCode, List.filter_append]
  refine unbracket_append fun s t t' v hx hy => ?_
  obtain ⟨s', x', rfl, -, hx'⟩ := List.filter_eq_append_iff.1 hx
  obtain ⟨t'', y', rfl, rfl, hy'⟩ := List.filter_eq_append_iff.1 hy
  obtain ⟨a, x'', rfl, -, -, rfl⟩ := List.filter_eq_cons_iff.1 hx'
  obtain ⟨b, y'', rfl, hb, -, -⟩ := List.filter_eq_cons_iff.1 hy'
  have hquoted := h (s' ++ a) x'' (t'' ++ b) y'' (by simp) (by simp)
  rw [isQuotedName, List.filter_append, List.filter_append, List.filter_eq_nil_iff.2 hb,
    List.append_nil] at hquoted
  exact hquoted

/-- **A line loses its quoting on both sides of a place in code by themselves**, unless there is a name
in brackets around the place. -/
theorem unquote_append (hu : Literal.isClosed u = true)
    (h : ∀ s t t' w, u = s ++ '[' :: t → v = t' ++ ']' :: w → isQuotedName (t ++ t') = false) :
    unquote (u ++ v) = unquote u ++ unquote v := by
  obtain ⟨a, left, right, b, rfl, rfl, hleft, hright, -, -, hmap⟩ := Literal.exists_mapCode u v
  obtain ⟨a', b', hcode⟩ := hmap unquoteCode
  simp only [hu, if_true, changed_unquoteCode, true_implies] at hcode
  have hboth : '\'' ∉ left ++ right := by
    rw [List.mem_append, not_or]
    exact ⟨hleft, hright⟩
  have happend : unquoteCode (left ++ right) = unquoteCode left ++ unquoteCode right :=
    unquoteCode_append fun s t t' w hs ht => h (a ++ s) t t' (w ++ b) (by simp [hs]) (by simp [ht])
  have hline := (hcode (left ++ right) hboth).1
  rw [happend] at hline
  simp only [unquote_eq]
  rw [(hcode left hleft).2.1, (hcode right hright).2.2]
  simpa using hline

theorem unquote_of_not_mem (h : '\'' ∉ text) : unquote text = unquoteCode text := by
  rw [unquote, Literal.mapCode, Literal.pieces_of_not_mem h]
  exact changed_unquoteCode text

theorem not_mem_of_isQuotedName (hc : nameChar.mem c = false) (hback : c ≠ backtick)
    (h : isQuotedName text = true) : c ∉ text := fun hmem =>
  not_mem_of_isBareName hc h (List.mem_filter.2 ⟨hmem, by simpa using hback⟩)

/-- A name loses its brackets. -/
theorem unquote_name (h : isQuotedName name = true) (rest : List Char) :
    unquote ('[' :: (name ++ ']' :: rest)) = name.filter (· != backtick) ++ unquote rest := by
  have hquote : '\'' ∉ '[' :: (name ++ [']']) := by
    have := not_mem_of_isQuotedName (c := '\'') (by decide) (by decide) h
    simpa using this
  have hline : '[' :: (name ++ ']' :: rest) = '[' :: (name ++ [']']) ++ rest := by simp
  rw [hline, unquote_append (Literal.isClosed_of_not_mem hquote), unquote_of_not_mem hquote]
  · have hfilter : ('[' :: (name ++ [']'])).filter (· != backtick) =
        '[' :: (name.filter (· != backtick) ++ ']' :: []) := by
      rw [List.filter_cons_of_pos (by decide), List.filter_append]
      rfl
    rw [unquoteCode, hfilter, unbracket_name h, unbracket_nil, List.append_nil]
  · -- no name in brackets goes on over the closing bracket
    intro s t t' w hs _
    refine Bool.eq_false_iff.2 fun hname => ?_
    refine not_mem_of_isQuotedName (c := ']') (by decide) (by decide) hname ?_
    have hlast : (s ++ '[' :: t).getLast? = some ']' := by
      rw [← hs, ← List.cons_append, List.getLast?_concat]
    cases t with
    | nil => simp at hlast
    | cons d t =>
      rw [List.getLast?_append_of_ne_nil _ (List.cons_ne_nil _ _), List.getLast?_cons_cons] at hlast
      exact List.mem_append_left _ (List.mem_of_getLast? hlast)

/-- A bracket that opens no name stays. -/
theorem unquote_open (h : ∀ x v, w = x ++ ']' :: v → isQuotedName x = false) :
    unquote ('[' :: w) = '[' :: unquote w := by
  have hopen : unquote ['['] = ['['] := by decide
  rw [← List.singleton_append, unquote_append (by decide), hopen, List.singleton_append]
  intro s t t' v hs ht
  obtain rfl : t = [] := by
    cases s with
    | nil => exact (List.cons.inj hs).2.symm
    | cons d s => simp at hs
  exact h t' v ht

theorem unquote_close (w : List Char) : unquote (']' :: w) = ']' :: unquote w := by
  have hclose : unquote [']'] = [']'] := by decide
  rw [← List.singleton_append, unquote_append (by decide), hclose, List.singleton_append]
  intro s t t' v hs
  cases s <;> simp at hs

/-! ### The brackets of a line -/

theorem unquote_append_open (hu : Literal.isClosed u = true) (w : List Char) :
    unquote (u ++ '[' :: w) = unquote u ++ unquote ('[' :: w) := by
  refine unquote_append hu fun s t t' v _ ht => Bool.eq_false_iff.2 fun hname => ?_
  cases t' with
  | nil => cases ht
  | cons d t' =>
    obtain ⟨rfl, -⟩ := List.cons.inj ht
    exact not_mem_of_isQuotedName (c := '[') (by decide) (by decide) hname (by simp)

theorem unquote_append_close (hu : Literal.isClosed u = true)
    (h : ∀ s x, u = s ++ '[' :: x → isQuotedName x = false) (w : List Char) :
    unquote (u ++ ']' :: w) = unquote u ++ unquote (']' :: w) := by
  refine unquote_append hu fun s t t' v hs ht => ?_
  cases t' with
  | nil => simpa using h s t hs
  | cons d t' =>
    obtain ⟨rfl, -⟩ := List.cons.inj ht
    refine Bool.eq_false_iff.2 fun hname => ?_
    exact not_mem_of_isQuotedName (c := ']') (by decide) (by decide) hname (by simp)

/-- **Which brackets a line keeps.**  An opening bracket in code is lost if and only if the text up to
the next closing bracket is a bare name, whatever stands before it; that name then takes the place of
the two brackets.  A closing bracket in code is lost if and only if it is the other one of the two. -/
theorem bracket_stays_iff (u w : List Char) (hu : Literal.isClosed u = true) :
    (unquote (u ++ '[' :: w) = unquote u ++ '[' :: unquote w ↔
        ∀ x v, w = x ++ ']' :: v → isQuotedName x = false) ∧
      (∀ x v, w = x ++ ']' :: v → isQuotedName x = true →
        unquote (u ++ '[' :: w) = unquote u ++ (x.filter (· != backtick) ++ unquote v)) ∧
      (unquote (u ++ ']' :: w) = unquote u ++ ']' :: unquote w ↔
        ∀ s x, u = s ++ '[' :: x → isQuotedName x = false) := by
  have lost {u x v : List Char} (hu : Literal.isClosed u = true) (hx : isQuotedName x = true) :
      unquote (u ++ '[' :: (x ++ ']' :: v)) =
        unquote u ++ (x.filter (· != backtick) ++ unquote v) := by
    rw [unquote_append_open hu, unquote_name hx]
  refine ⟨⟨fun hstays x v hw => Bool.eq_false_iff.2 fun hx => ?_, fun h => ?_⟩, fun x v hw hx => ?_,
    ⟨fun hstays s x hs => Bool.eq_false_iff.2 fun hx => ?_, fun h => ?_⟩⟩
  · subst hw
    rw [lost hu hx, List.append_cancel_left_eq] at hstays
    -- a name does not start with a bracket
    obtain ⟨c, name, hname⟩ : ∃ c name, x.filter (· != backtick) = c :: name := by
      refine List.exists_cons_of_ne_nil fun hnil => ?_
      rw [isQuotedName, hnil] at hx
      cases hx
    have hmem : c ∈ x := (List.mem_filter.1 (hname ▸ List.mem_cons_self)).1
    rw [hname] at hstays
    obtain ⟨rfl, -⟩ := List.cons.inj hstays
    exact not_mem_of_isQuotedName (by decide) (by decide) hx hmem
  · rw [unquote_append_open hu, unquote_open h]
  · subst hw
    exact lost hu hx
  · subst hs
    have hquote : '\'' ∉ '[' :: x := by
      simpa using not_mem_of_isQuotedName (c := '\'') (by decide) (by decide) hx
    have hs : Literal.isClosed s = true := by
      rw [Literal.isClosed, List.count_append, List.count_eq_zero_of_not_mem hquote] at hu
      exact hu
    have hclose : ∀ y v, x = y ++ ']' :: v → isQuotedName y = false := fun y v hy =>
      absurd (hy ▸ by simp) (not_mem_of_isQuotedName (c := ']') (by decide) (by decide) hx)
    have hname : unquote x = x.filter (· != backtick) := by
      rw [unquote_of_not_mem (List.not_mem_of_not_mem_cons hquote), unquoteCode]
      exact unbracket_of_not_mem (not_mem_of_isBareName (by decide) hx)
    rw [List.append_assoc, List.cons_append, lost hs hx, unquote_append_open hs, unquote_open hclose,
      hname] at hstays
    have := congrArg List.length hstays
    simp only [List.length_append, List.length_cons] at this
    omega
  · rw [unquote_append_close hu h, unquote_close]

/-- A subscript that starts with a digit stays, here behind a call. -/
theorem bracket_stays_digit :
    Literal.isClosed "SELECT PARSE_JSON(tags)".toList = true ∧
      unquote ("SELECT PARSE_JSON(tags)".toList ++ '[' :: "0] FROM t;".toList) =
        unquote "SELECT PARSE_JSON(tags)".toList ++ '[' :: unquote "0] FROM t;".toList := by
  have hclosed : Literal.isClosed "SELECT PARSE_JSON(tags)".toList = true := by decide
  refine ⟨hclosed, (bracket_stays_iff _ _ hclosed).1.2 fun x v hw => ?_⟩
  cases x with
  | nil => exact absurd (List.cons.inj hw).1 (by decide)
  | cons d x =>
    obtain ⟨rfl, -⟩ := List.cons.inj hw
    rfl

/-- A subscript that is a name is taken for a quoted name, and is glued to what it is a subscript of. -/
theorem bracket_lost_subscript :
    Literal.isClosed "SELECT arr".toList = true ∧
      unquote ("SELECT arr".toList ++ '[' :: ("i".toList ++ ']' :: " FROM t;".toList)) ≠
        unquote "SELECT arr".toList ++ '[' :: (unquote "i".toList ++ ']' :: unquote " FROM t;".toList) ∧
      unquote "SELECT arr[i] FROM t;".toList = "SELECT arri FROM t;".toList := by
  decide

end SqlDialect.Identifier
