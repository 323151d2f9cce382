import SqlDialect.Proofs.Text.Trim

/-!
# Cutting texts

* `Text.cutAt_eq_splitOn` : the pieces around a character are those of the library.
* `Text.cutAt_unlines`, `Text.unlines_flatMap_cutAt` : a text with a line feed behind every line and
  its lines determine each other.
* `Text.lines_unlines` : lines are read back from their text, but for a carriage return at the end
  of a line; `Text.eq_of_unlines_eq` : which the text would miss.
-/

namespace SqlDialect.Text

/-! ### Pieces around a character -/

theorem cutAt_eq_splitOn (c : Char) (text : List Char) : cutAt c text = text.splitOn c := by
  induction text with
  | nil => simp [cutAt]
  | cons x rest ih =>
    rw [cutAt, ih, List.splitOn_cons_eq_if_modifyHead]
    split
    · rfl
    · obtain ⟨piece, pieces, hpieces⟩ := List.exists_cons_of_ne_nil (List.splitOn_ne_nil c rest)
      rw [hpieces]
      rfl

theorem cutAt_ne_nil (c : Char) (text : List Char) : cutAt c text ≠ [] := by
  rw [cutAt_eq_splitOn]
  exact List.splitOn_ne_nil c text

theorem cutAt_cons_self (c : Char) (rest : List Char) :
    cutAt c (c :: rest) = [] :: cutAt c rest := by
  rw [cutAt, if_pos (beq_self_eq_true c)]

theorem cutAt_cons_of_ne {c x : Char} (h : x ≠ c) (rest : List Char) :
    cutAt c (x :: rest) = (cutAt c rest).modifyHead (x :: ·) := by
  rw [cutAt_eq_splitOn, cutAt_eq_splitOn, List.splitOn_cons_eq_if_modifyHead,
    if_neg (by simpa using h)]

theorem cutAt_of_not_mem {c : Char} {text : List Char} (h : c ∉ text) : cutAt c text = [text] := by
  rw [cutAt_eq_splitOn, List.splitOn_eq_singleton h]

theorem flatMap_cutAt_of_not_mem {c : Char} {texts : List (List Char)}
    (h : ∀ text ∈ texts, c ∉ text) :
    texts.flatMap (cutAt c) = texts := by
  induction texts with
  | nil => rfl
  | cons text texts ih =>
    rw [List.forall_mem_cons] at h
    rw [List.flatMap_cons, cutAt_of_not_mem h.1, ih h.2]
    rfl

theorem flatMap_cutAt_eq_nil {c : Char} {texts : List (List Char)}
    (h : texts.flatMap (cutAt c) = []) : texts = [] := by
  cases texts with
  | nil => rfl
  | cons text texts =>
    rw [List.flatMap_cons, List.append_eq_nil_iff] at h
    exact absurd h.1 (cutAt_ne_nil c text)

theorem not_mem_of_mem_cutAt {c : Char} {text piece : List Char} (h : piece ∈ cutAt c text) :
    c ∉ piece := by
  induction text generalizing piece with
  | nil =>
    rw [cutAt, List.mem_singleton] at h
    simp [h]
  | cons x rest ih =>
    by_cases hx : x = c
    · subst hx
      rw [cutAt_cons_self, List.mem_cons] at h
      rcases h with rfl | h
      · simp
      · exact ih h
    · obtain ⟨first, others, hpieces⟩ := List.exists_cons_of_ne_nil (cutAt_ne_nil c rest)
      rw [cutAt_cons_of_ne hx, hpieces, List.modifyHead_cons, List.mem_cons] at h
      rw [hpieces] at ih
      rcases h with rfl | h
      · rw [List.mem_cons, not_or]
        exact ⟨Ne.symm hx, ih List.mem_cons_self⟩
      · exact ih (List.mem_cons_of_mem _ h)

theorem not_mem_of_mem_flatMap_cutAt {c : Char} {texts : List (List Char)} :
    ∀ piece ∈ texts.flatMap (cutAt c), c ∉ piece := by
  intro piece hpiece
  obtain ⟨text, -, hmem⟩ := List.mem_flatMap.1 hpiece
  exact not_mem_of_mem_cutAt hmem

/-! ### Texts with a line feed behind every line -/

/-- The lines with a line feed behind each of them. -/
def unlines (lines : List (List Char)) : List Char :=
  lines.flatMap fun line => line ++ ['\n']

@[simp] theorem unlines_nil : unlines [] = [] := rfl

theorem unlines_cons (line : List Char) (lines : List (List Char)) :
    unlines (line :: lines) = line ++ '\n' :: unlines lines := by
  simp [unlines]

theorem unlines_append (a b : List (List Char)) : unlines (a ++ b) = unlines a ++ unlines b :=
  List.flatMap_append

theorem cutAt_unlines (lines : List (List Char)) :
    cutAt '\n' (unlines lines) = lines.flatMap (cutAt '\n') ++ [[]] := by
  induction lines with
  | nil => rfl
  | cons line lines ih =>
    rw [unlines_cons, cutAt_eq_splitOn, List.splitOn_append_cons_self, ← cutAt_eq_splitOn,
      ← cutAt_eq_splitOn, ih, List.flatMap_cons, List.append_assoc]

theorem unlines_cutAt (text : List Char) : unlines (cutAt '\n' text) = text ++ ['\n'] := by
  induction text with
  | nil => rfl
  | cons x rest ih =>
    by_cases hx : x = '\n'
    · subst hx
      rw [cutAt_cons_self, unlines_cons, ih]
      rfl
    · obtain ⟨first, others, hpieces⟩ := List.exists_cons_of_ne_nil (cutAt_ne_nil '\n' rest)
      rw [hpieces, unlines_cons] at ih
      rw [cutAt_cons_of_ne hx, hpieces, List.modifyHead_cons, unlines_cons, List.cons_append, ih]
      rfl

/-- Lines that hold line feeds themselves may as well be cut at these. -/
theorem unlines_flatMap_cutAt (lines : List (List Char)) :
    unlines (lines.flatMap (cutAt '\n')) = unlines lines := by
  induction lines with
  | nil => rfl
  | cons line lines ih =>
    rw [List.flatMap_cons, unlines_append, ih, unlines_cutAt, unlines_cons, List.append_assoc]
    rfl

/-- The line without the carriage return at its end, if there is one. -/
def dropReturn (line : List Char) : List Char := endLine '\r' line.reverse

theorem linesFrom_append {line : List Char} (h : '\n' ∉ line) (current : List Char)
    (done : List (List Char)) (rest : List Char) :
    linesFrom '\n' '\r' current done (line ++ '\n' :: rest) =
      linesFrom '\n' '\r' [] (endLine '\r' (line.reverse ++ current) :: done) rest := by
  induction line generalizing current with
  | nil => simp [linesFrom]
  | cons x line ih =>
    rw [List.mem_cons, not_or] at h
    rw [List.cons_append, linesFrom, if_neg (Ne.symm h.1), ih h.2]
    simp

/-- Lines are read back from their text, but for a carriage return at their end. -/
theorem lines_unlines {lines : List (List Char)} (h : ∀ line ∈ lines, '\n' ∉ line) :
    Text.lines '\n' '\r' (unlines lines) = lines.map dropReturn := by
  have general : ∀ done, linesFrom '\n' '\r' [] done (unlines lines) =
      done.reverse ++ lines.map dropReturn := by
    induction lines with
    | nil => simp [linesFrom]
    | cons line lines ih =>
      intro done
      rw [unlines_cons, linesFrom_append (h line List.mem_cons_self),
        ih fun l hl => h l (List.mem_cons_of_mem _ hl)]
      simp [dropReturn]
  exact general []

theorem not_mem_dropReturn {line : List Char} (h : '\n' ∉ line) : '\n' ∉ dropReturn line := by
  rw [← List.mem_reverse] at h
  rw [dropReturn]
  cases hline : line.reverse with
  | nil => simp [endLine]
  | cons x rest =>
    rw [hline, List.mem_cons, not_or] at h
    rw [endLine]
    split
    · simpa using h.2
    · simpa [not_or] using ⟨h.2, h.1⟩

theorem dropReturn_eq_self {line : List Char} (h : trimEnd line = line) :
    dropReturn line = line := by
  rw [dropReturn]
  rcases List.eq_nil_or_concat' line with rfl | ⟨init, last, rfl⟩
  · rfl
  · rw [List.reverse_append, List.reverse_singleton, List.singleton_append, endLine]
    split
    · rename_i hlast
      -- a carriage return is white space, which the line does not end with
      have hblank : ∀ c ∈ [last], isBlank c = true := by
        intro c hc
        rw [List.mem_singleton.1 hc, hlast]
        rfl
      rw [trimEnd_append_blank hblank] at h
      have hle : (trimEnd init).length ≤ init.length := (List.rdropWhile_prefix _ _).length_le
      rw [h, List.length_append, List.length_singleton] at hle
      omega
    · simp

/-- Lines without their carriage returns make up the same text, maybe with more lines behind them,
only if there are no carriage returns and no more lines. -/
theorem eq_of_unlines_eq {lines more : List (List Char)} (hfree : ∀ line ∈ lines, '\n' ∉ line)
    (h : unlines (lines.map dropReturn ++ more) = unlines lines) :
    more = [] ∧ lines.map dropReturn = lines := by
  have hfreeAgain : ∀ line ∈ lines.map dropReturn, '\n' ∉ line := by
    intro line hline
    obtain ⟨own, hown, rfl⟩ := List.mem_map.1 hline
    exact not_mem_dropReturn (hfree own hown)
  -- both texts have the same cut into lines
  have hcut : lines.map dropReturn ++ more.flatMap (cutAt '\n') = lines := by
    have hpieces := congrArg (cutAt '\n') h
    rw [cutAt_unlines, cutAt_unlines, flatMap_cutAt_of_not_mem hfree, List.flatMap_append,
      flatMap_cutAt_of_not_mem hfreeAgain] at hpieces
    exact List.append_cancel_right hpieces
  have hmore : more = [] := by
    have hlength := congrArg List.length hcut
    rw [List.length_append, List.length_map, Nat.add_eq_left, List.length_eq_zero_iff] at hlength
    exact flatMap_cutAt_eq_nil hlength
  refine ⟨hmore, ?_⟩
  rwa [hmore, List.flatMap_nil, List.append_nil] at hcut

end SqlDialect.Text
