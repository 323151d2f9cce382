import SqlDialect.Proofs.Pattern.Piecewise
import SqlDialect.Proofs.Pattern.Scan
import SqlDialect.Rule.Basic

/-!
# Names replaced in the code of a line

Many rules put one text in the place of all that a pattern reads in the code of a line.
`Pattern.Renamed` says how a line and its result go together, read from the left with the whole text
before each place, so that nothing is said about the cut of the line at its quotes.

* `Pattern.exists_renamed_substitute` : the line that such a rule leaves is described so.
* `Pattern.Renamed.unique` : the description fixes the result.
* `Pattern.Renamed.exists_cut`, `Pattern.Renamed.exists_cut_result` : the places of the line and of the
  result that correspond.
-/

namespace SqlDialect.Pattern

variable {p q : Pattern} {new front line result text rest u v a b : List Char}
  {behind behind' : List (List Char)}

/-- The pattern reads the text in the code of a line, between `front` and `rest`. -/
structure ReadsInCode (p : Pattern) (front text rest : List Char) : Prop where
  isClosed : Literal.isClosed front = true
  reads : p.Reads front.getLast? text rest.head?

/-- What makes a pattern read one text at most at a place, and nothing within that text. -/
structure IsRenamable (p : Pattern) : Prop extends p.IsPiecewise where
  apart : startsWithin Side.all p p = true
  eq_of_reads : ∀ {before : Option Char} {s s' r r' : List Char}, s ++ r = s' ++ r' →
    p.Reads before s r.head? → p.Reads before s' r'.head? → s = s'

/-- How the rest of a line behind `front` goes together with what it becomes when `new` takes the place of
all that the pattern reads in code; `behind` has the result behind each such place. -/
inductive Renamed (p : Pattern) (new : List Char) :
    List Char → List Char → List Char → List (List Char) → Prop
  | nil (front : List Char) : Renamed p new front [] [] []
  /-- A character at which nothing is read in code. -/
  | keep {front : List Char} {c : Char} {rest result : List Char} {behind : List (List Char)}
      (hnone : ∀ text rest', c :: rest = text ++ rest' → ¬p.ReadsInCode front text rest')
      (hrest : Renamed p new (front ++ [c]) rest result behind) :
      Renamed p new front (c :: rest) (c :: result) behind
  /-- A text that is replaced. -/
  | swap {front text rest result : List Char} {behind : List (List Char)}
      (hreads : p.ReadsInCode front text rest)
      (hrest : Renamed p new (front ++ text) rest result behind) :
      Renamed p new front (text ++ rest) (new ++ result) (result :: behind)

namespace ReadsInCode

theorem ne_nil (hp : p.IsPiecewise) (h : p.ReadsInCode front text rest) : text ≠ [] := by
  rintro rfl
  exact not_reads_nil hp.visible _ _ h.reads

theorem not_mem (hp : p.IsPiecewise) (h : p.ReadsInCode front text rest) : '\'' ∉ text :=
  not_mem_of_avoids hp.avoids h.reads

/-- A text of `q` does not start behind the start of a text of `p`. -/
theorem not_within (hcheck : startsWithin Side.all q p = true) (hq : q.readsEmpty = false)
    {x s t y : List Char} (h : p.ReadsInCode x (s ++ t) y) (hs : s ≠ []) (ht : t ≠ [])
    (hline : t ++ y = text ++ rest) : ¬q.ReadsInCode (x ++ s) text rest := by
  rintro ⟨-, hreads⟩
  rw [List.getLast?_append] at hreads
  refine not_reads_of_startsWithin hcheck h.reads (Side.mem_all _) hs ht hline ?_ hreads
  rintro rfl
  exact not_reads_nil hq _ _ hreads

end ReadsInCode

namespace Renamed

/-- A stretch of characters at which nothing is read in code. -/
theorem keepAll (hnone : ∀ x c y text' rest', text = x ++ c :: y → c :: (y ++ rest) = text' ++ rest' →
      ¬p.ReadsInCode (front ++ x) text' rest')
    (hrest : Renamed p new (front ++ text) rest result behind) :
    Renamed p new front (text ++ rest) (text ++ result) behind := by
  induction text generalizing front with
  | nil => simpa using hrest
  | cons c text ih =>
    refine .keep (fun text' rest' heq => ?_) (ih (fun x d y text' rest' htext heq => ?_) ?_)
    · simpa using hnone [] c text text' rest' rfl heq
    · simpa using hnone (c :: x) d y text' rest' (by rw [htext]; rfl) heq
    · simpa using hrest

/-! ### One step -/

/-- Where a text is read in code, it is replaced. -/
theorem of_reads (hp : p.IsRenamable) (h : Renamed p new front (text ++ rest) result behind)
    (hreads : p.ReadsInCode front text rest) :
    ∃ result' behind', result = new ++ result' ∧ behind = result' :: behind' ∧
      Renamed p new (front ++ text) rest result' behind' := by
  generalize hline : text ++ rest = line at h
  cases h with
  | nil => exact absurd (List.append_eq_nil_iff.1 hline).1 (hreads.ne_nil hp.toIsPiecewise)
  | keep hnone _ => exact absurd hreads (hnone text rest hline.symm)
  | swap hreads' hrest =>
    obtain rfl := hp.eq_of_reads hline hreads.reads hreads'.reads
    obtain rfl := List.append_cancel_left hline
    exact ⟨_, _, rfl, rfl, hrest⟩

/-- Where nothing is read in code, a character is kept. -/
theorem of_none {c : Char} (h : Renamed p new front (c :: rest) result behind)
    (hnone : ∀ text rest', c :: rest = text ++ rest' → ¬p.ReadsInCode front text rest') :
    ∃ result', result = c :: result' ∧ Renamed p new (front ++ [c]) rest result' behind := by
  generalize hline : c :: rest = line at h
  cases h with
  | nil => cases hline
  | keep _ hrest =>
    obtain ⟨rfl, rfl⟩ := List.cons_eq_cons.1 hline
    exact ⟨_, rfl, hrest⟩
  | swap hreads _ => exact absurd hreads (hnone _ _ hline)

/-- **The description fixes the result.** -/
theorem unique (hp : p.IsRenamable) (h : Renamed p new front line result behind) {result' : List Char}
    (h' : Renamed p new front line result' behind') : result = result' ∧ behind = behind' := by
  induction h generalizing result' behind' with
  | nil front =>
    generalize hline : ([] : List Char) = line at h'
    cases h' with
    | nil => exact ⟨rfl, rfl⟩
    | keep => cases hline
    | swap hreads _ =>
      exact absurd (List.append_eq_nil_iff.1 hline.symm).1 (hreads.ne_nil hp.toIsPiecewise)
  | keep hnone _ ih =>
    obtain ⟨result', rfl, hrest⟩ := h'.of_none hnone
    obtain ⟨rfl, rfl⟩ := ih hrest
    exact ⟨rfl, rfl⟩
  | swap hreads _ ih =>
    obtain ⟨result', behind', rfl, rfl, hrest⟩ := h'.of_reads hp hreads
    obtain ⟨rfl, rfl⟩ := ih hrest
    exact ⟨rfl, rfl⟩

end Renamed

/-! ### Places that correspond -/

/-- The place between `u` and `v` in the rest of a line, and the place between `a` and `b` in the result,
are reached at once.  The characters before them are the same, or `new` is what stands before it in the
result. -/
structure Aligned (p : Pattern) (new front u v a b : List Char) (behind : List (List Char)) : Prop where
  renamed : Renamed p new (front ++ u) v b behind
  count_eq : a.count '\'' = u.count '\''
  last : (∀ d, a.getLast?.or d = u.getLast?.or d) ∨
    ∃ x text y, u = x ++ text ∧ a = y ++ new ∧ p.ReadsInCode (front ++ x) text v

namespace Aligned

theorem start (h : Renamed p new front v b behind) : Aligned p new front [] v [] b behind where
  renamed := by rwa [List.append_nil]
  count_eq := rfl
  last := .inl fun _ => rfl

theorem keep {c : Char} (h : Aligned p new (front ++ [c]) u v a b behind) :
    Aligned p new front (c :: u) v (c :: a) b behind where
  renamed := by
    have := h.renamed
    rwa [List.append_assoc] at this
  count_eq := by rw [List.count_cons, List.count_cons, h.count_eq]
  last := by
    rcases h.last with hlast | ⟨x, text, y, rfl, rfl, hreads⟩
    · refine .inl fun d => ?_
      rw [getLast?_cons_or, getLast?_cons_or]
      exact hlast _
    · rw [List.append_assoc] at hreads
      exact .inr ⟨c :: x, text, c :: y, rfl, rfl, hreads⟩

theorem swap (hp : p.IsPiecewise) (hnew : '\'' ∉ new) (hreads : p.ReadsInCode front text (u ++ v))
    (h : Aligned p new (front ++ text) u v a b behind) :
    Aligned p new front (text ++ u) v (new ++ a) b behind where
  renamed := by
    have := h.renamed
    rwa [List.append_assoc] at this
  count_eq := by
    rw [List.count_append, List.count_append, List.count_eq_zero.2 hnew,
      List.count_eq_zero.2 (hreads.not_mem hp), h.count_eq]
  last := by
    rcases h.last with hlast | ⟨x, text', y, rfl, rfl, hreads'⟩
    · cases u with
      | nil =>
        obtain rfl : a = [] := by simpa using hlast none
        exact .inr ⟨[], text, [], by simp, by simp, by simpa using hreads⟩
      | cons c u =>
        refine .inl fun d => ?_
        rw [getLast?_append_or, getLast?_append_or, hlast,
          List.getLast?_eq_getLast_of_ne_nil (List.cons_ne_nil c u), Option.some_or, Option.some_or]
    · rw [List.append_assoc] at hreads'
      exact .inr ⟨text ++ x, text', new ++ y, by simp, by simp, hreads'⟩

/-- As much of the result is code as of the line. -/
theorem isClosed_eq (h : Aligned p new front u v a b behind) :
    Literal.isClosed a = Literal.isClosed u := by
  rw [Literal.isClosed, Literal.isClosed, h.count_eq]

end Aligned

namespace Renamed

/-- **A place of the line** that no text stands around has a place of the result. -/
theorem exists_cut (hp : p.IsPiecewise) (hnew : '\'' ∉ new)
    (h : Renamed p new front line result behind) (hline : line = u ++ v)
    (hcut : ∀ x s t y, u = x ++ s → v = t ++ y → s ≠ [] → t ≠ [] →
      ¬p.ReadsInCode (front ++ x) (s ++ t) y) :
    ∃ a b behind', result = a ++ b ∧ behind' <:+ behind ∧ Aligned p new front u v a b behind' := by
  induction h generalizing u with
  | nil front =>
    obtain ⟨rfl, rfl⟩ := List.append_eq_nil_iff.1 hline.symm
    exact ⟨[], [], [], rfl, List.suffix_refl _, .start (.nil front)⟩
  | @keep front c rest result behind hnone hrest ih =>
    cases u with
    | nil =>
      rw [List.nil_append] at hline
      subst hline
      exact ⟨[], _, _, rfl, List.suffix_refl _, .start (.keep hnone hrest)⟩
    | cons d u =>
      obtain ⟨rfl, htail⟩ := List.cons_eq_cons.1 hline
      obtain ⟨a, b, behind', rfl, hsuffix, haligned⟩ := ih htail fun x s t y hu hv hs ht => by
        rw [List.append_assoc]
        exact hcut (c :: x) s t y (by rw [hu]; rfl) hv hs ht
      exact ⟨c :: a, b, behind', rfl, hsuffix, haligned.keep⟩
  | @swap front text rest result behind hreads hrest ih =>
    by_cases hu : u = []
    · rw [hu, List.nil_append] at hline
      subst hu hline
      exact ⟨[], _, _, rfl, List.suffix_refl _, .start (.swap hreads hrest)⟩
    -- the place is behind the text that is swapped, or at its end, but not within it
    rcases List.append_eq_append_iff.1 hline with ⟨u', rfl, htail⟩ | ⟨t, rfl, rfl⟩
    · obtain ⟨a, b, behind', rfl, hsuffix, haligned⟩ := ih htail fun x s t y hu hv hs ht => by
        rw [List.append_assoc]
        exact hcut (text ++ x) s t y (by rw [hu, List.append_assoc]) hv hs ht
      exact ⟨new ++ a, b, behind', (List.append_assoc _ _ _).symm,
        hsuffix.trans (List.suffix_cons _ _), haligned.swap hp hnew (htail ▸ hreads)⟩
    · cases t with
      | nil =>
        rw [List.append_nil] at hreads hrest
        have haligned := (Aligned.start hrest).swap hp hnew hreads
        rw [List.append_nil, List.append_nil] at haligned
        exact ⟨new, result, behind, rfl, List.suffix_cons _ _, haligned⟩
      | cons c t =>
        have := hcut [] u (c :: t) rest rfl rfl hu (List.cons_ne_nil c t)
        rw [List.append_nil] at this
        exact absurd hreads this

/-- **A place of the result** that is not within new text has a place of the line. -/
theorem exists_cut_result (hp : p.IsPiecewise) (hnew : '\'' ∉ new)
    (h : Renamed p new front line result behind) (hresult : result = a ++ b)
    (hcut : ∀ x s t y, a = x ++ s → b = t ++ y → s ≠ [] → t ≠ [] → new ≠ s ++ t) :
    ∃ u v behind', line = u ++ v ∧ Aligned p new front u v a b behind' := by
  induction h generalizing a with
  | nil front =>
    obtain ⟨rfl, rfl⟩ := List.append_eq_nil_iff.1 hresult.symm
    exact ⟨[], [], [], rfl, .start (.nil front)⟩
  | @keep front c rest result behind hnone hrest ih =>
    cases a with
    | nil =>
      rw [List.nil_append] at hresult
      subst hresult
      exact ⟨[], _, _, rfl, .start (.keep hnone hrest)⟩
    | cons d a =>
      obtain ⟨rfl, htail⟩ := List.cons_eq_cons.1 hresult
      obtain ⟨u, v, behind', rfl, haligned⟩ := ih htail fun x s t y ha =>
        hcut (c :: x) s t y (by rw [ha]; rfl)
      exact ⟨c :: u, v, behind', rfl, haligned.keep⟩
  | @swap front text rest result behind hreads hrest ih =>
    by_cases ha : a = []
    · rw [ha, List.nil_append] at hresult
      subst ha hresult
      exact ⟨[], _, _, rfl, .start (.swap hreads hrest)⟩
    -- the place is behind the new text, or at its end, but not within it
    rcases List.append_eq_append_iff.1 hresult with ⟨a', rfl, htail⟩ | ⟨t, hsplit, rfl⟩
    · obtain ⟨u, v, behind', rfl, haligned⟩ := ih htail fun x s t y ha =>
        hcut (new ++ x) s t y (by rw [ha, List.append_assoc])
      exact ⟨text ++ u, v, behind', (List.append_assoc _ _ _).symm,
        haligned.swap hp hnew hreads⟩
    · cases t with
      | nil =>
        obtain rfl : new = a := by rw [hsplit, List.append_nil]
        have haligned := (Aligned.start hrest).swap hp hnew hreads
        rw [List.append_nil, List.append_nil] at haligned
        exact ⟨text, rest, behind, rfl, haligned⟩
      | cons c t => exact absurd hsplit (hcut [] a (c :: t) result rfl rfl ha (List.cons_ne_nil c t))

/-- Where a text is read in code, the place before it has a place of the result, and `new` stands behind
that. -/
theorem exists_append_of_reads (hp : p.IsRenamable) (hnew : '\'' ∉ new)
    (h : Renamed p new front (u ++ (text ++ v)) result behind)
    (hreads : p.ReadsInCode (front ++ u) text v) :
    ∃ a b more behind', result = a ++ (new ++ b) ∧ b ∈ behind ∧
      Aligned p new front u (text ++ v) a (new ++ b) more ∧
      Renamed p new (front ++ (u ++ text)) v b behind' := by
  obtain ⟨a, b, more, rfl, hsuffix, haligned⟩ :=
    h.exists_cut hp.toIsPiecewise hnew rfl fun x s t y hu hv hs ht hwithin => by
      rw [hu, ← List.append_assoc] at hreads
      exact hwithin.not_within hp.apart hp.visible hs ht hv.symm hreads
  obtain ⟨result', behind', rfl, rfl, hrest⟩ := haligned.renamed.of_reads hp hreads
  rw [List.append_assoc] at hrest
  exact ⟨a, result', _, behind', rfl, hsuffix.subset List.mem_cons_self, haligned, hrest⟩

/-- Behind each place with new text, there is what becomes of the rest of the line there. -/
theorem mem_behind_iff (hp : p.IsRenamable) (hnew : '\'' ∉ new)
    (h : Renamed p new front line result behind) :
    b ∈ behind ↔ ∃ u text v behind', line = u ++ (text ++ v) ∧ p.ReadsInCode (front ++ u) text v ∧
      Renamed p new (front ++ (u ++ text)) v b behind' := by
  constructor
  · intro hb
    induction h with
    | nil => cases hb
    | @keep front c rest result behind _ _ ih =>
      obtain ⟨u, text, v, behind', rfl, hreads, hrest⟩ := ih hb
      exact ⟨c :: u, text, v, behind', rfl, by simpa using hreads, by simpa using hrest⟩
    | @swap front text rest result behind hreads hrest ih =>
      rcases List.mem_cons.1 hb with rfl | hb
      · exact ⟨[], text, rest, behind, rfl, by simpa using hreads, hrest⟩
      · obtain ⟨u, text', v, behind', rfl, hreads', hrest'⟩ := ih hb
        exact ⟨text ++ u, text', v, behind', by simp, by simpa using hreads', by simpa using hrest'⟩
  · rintro ⟨u, text, v, behind', rfl, hreads, hrest⟩
    obtain ⟨a, b', more, behind'', -, hmem, -, hrest'⟩ := h.exists_append_of_reads hp hnew hreads
    obtain ⟨rfl, -⟩ := hrest'.unique hp hrest
    exact hmem

/-- Behind a text that is read in code, `new` stands before the place of the result. -/
theorem exists_append_of_aligned (hp : p.IsRenamable) (hnew : '\'' ∉ new)
    (h : Renamed p new front (u ++ (text ++ v)) (a ++ b) behind)
    (hreads : p.ReadsInCode (front ++ u) text v)
    (haligned : Aligned p new front (u ++ text) v a b behind') : ∃ y, a = y ++ new := by
  obtain ⟨y, b', more, behind'', hresult, -, -, hrest⟩ := h.exists_append_of_reads hp hnew hreads
  obtain ⟨rfl, -⟩ := hrest.unique hp haligned.renamed
  rw [← List.append_assoc] at hresult
  exact ⟨y, List.append_cancel_right hresult⟩

/-! ### Characters that are kept -/

/-- A stretch of the line at which nothing is read in code is kept. -/
theorem exists_kept (h : Renamed p new front (text ++ v) result behind)
    (hnone : ∀ x c y text' rest', text = x ++ c :: y → c :: (y ++ v) = text' ++ rest' →
      ¬p.ReadsInCode (front ++ x) text' rest') :
    ∃ b, result = text ++ b ∧ Renamed p new (front ++ text) v b behind := by
  induction text generalizing front result with
  | nil => exact ⟨result, rfl, by simpa using h⟩
  | cons c text ih =>
    obtain ⟨result, rfl, hrest⟩ := h.of_none fun text' rest' heq => by
      simpa using hnone [] c text text' rest' rfl heq
    obtain ⟨b, rfl, hmore⟩ := ih hrest fun x d y text' rest' htext heq => by
      simpa using hnone (c :: x) d y text' rest' (by rw [htext]; rfl) heq
    exact ⟨b, rfl, by simpa using hmore⟩

/-- A stretch of the result has been kept, if nothing is read in code where it stands. -/
theorem exists_keeping (h : Renamed p new front line (text ++ b) behind)
    (hnone : ∀ x c y text' rest', text = x ++ c :: y → line = x ++ (text' ++ rest') →
      ¬p.ReadsInCode (front ++ x) text' rest') :
    ∃ v, line = text ++ v ∧ Renamed p new (front ++ text) v b behind := by
  induction text generalizing front line with
  | nil => exact ⟨line, rfl, by simpa using h⟩
  | cons c text ih =>
    generalize hresult : c :: text ++ b = result at h
    cases h with
    | nil => cases hresult
    | keep _ hrest =>
      obtain ⟨rfl, rfl⟩ := List.cons_eq_cons.1 hresult
      obtain ⟨v, rfl, hmore⟩ := ih hrest fun x d y text' rest' htext hline => by
        simpa using hnone (c :: x) d y text' rest' (by rw [htext]; rfl) (by rw [hline]; rfl)
      exact ⟨v, rfl, by simpa using hmore⟩
    | swap hreads _ => exact absurd (by simpa using hreads) (hnone [] c text _ _ rfl rfl)

/-- The line and the result start alike, unless a text at the start is replaced. -/
theorem head?_eq_or (h : Renamed p new front line result behind) :
    result.head? = line.head? ∨ ∃ text rest result', p.ReadsInCode front text rest ∧
      line = text ++ rest ∧ result = new ++ result' := by
  cases h with
  | nil => exact .inl rfl
  | keep => exact .inl rfl
  | swap hreads _ => exact .inr ⟨_, _, _, hreads, rfl, rfl⟩

end Renamed

/-! ### What a rule does -/

/-- The search of a piece of code, as a part of the line. -/
theorem Rewritten.exists_renamed (hp : p.IsPiecewise) {before : Option Char} {piece piece' back : List Char}
    (h : p.Rewritten (fun _ => True) (fun _ => some new) before piece piece') (hpiece : '\'' ∉ piece)
    (hclosed : Literal.isClosed front = true) (hback : back = [] ∨ back.head? = some '\'')
    (hbefore : p.tells (.of before) (.of front.getLast?) = false ∧
      p.tells (.of front.getLast?) (.of before) = false)
    (hrest : Renamed p new (front ++ piece) back result behind) :
    ∃ behind', Renamed p new front (piece ++ back) (piece' ++ result) behind' := by
  -- a quote behind the piece is as good as its end
  have hend (rest : List Char) : p.tells (.of rest.head?) (.of (rest ++ back).head?) = false ∧
      p.tells (.of (rest ++ back).head?) (.of rest.head?) = false := by
    rw [List.head?_append]
    refine tells_or hp.blind _ ?_
    rcases hback with rfl | hback
    · exact .inl rfl
    · exact .inr hback
  induction h generalizing front with
  | nil before => exact ⟨behind, by simpa using hrest⟩
  | @keep before c rest piece' hskips _ ih =>
    have hc : '\'' ∉ [c] := fun hmem => hpiece (List.mem_append_left rest hmem)
    obtain ⟨behind', hmore⟩ := @ih (front ++ [c]) (fun hmem => hpiece (List.mem_cons_of_mem _ hmem))
      (by rw [Literal.isClosed_append_of_not_mem hc, hclosed])
      (by rw [List.getLast?_concat]; exact ⟨tells_self p _, tells_self p _⟩) (by simpa using hrest)
    refine ⟨behind', .keep (fun text rest' heq hreads => ?_) hmore⟩
    have heq : (c :: rest) ++ back = text ++ rest' := heq
    obtain ⟨r, rfl, hline⟩ := Literal.exists_append_of_quote_behind hback heq (hreads.not_mem hp)
    exact hskips text r hline (hreads.ne_nil hp) (reads_of_tells hbefore.2 (hend r).2 hreads.reads)
      trivial
  | @swap before m old text piece' hswap _ ih =>
    obtain rfl : new = text := Option.some.inj hswap.edit_eq
    rw [List.mem_append, not_or] at hpiece
    have hreads : p.ReadsInCode front m.text (old ++ back) :=
      ⟨hclosed, reads_of_tells hbefore.1 (hend old).1 hswap.reads⟩
    have hlast : (front ++ m.text).getLast? = m.text.getLast?.or before := by
      rw [List.getLast?_append, List.getLast?_eq_getLast_of_ne_nil hswap.text_ne_nil, Option.some_or,
        Option.some_or]
    obtain ⟨behind', hmore⟩ := @ih (front ++ m.text) hpiece.2
      (by rw [Literal.isClosed_append_of_not_mem hpiece.1, hclosed])
      (by rw [hlast]; exact ⟨tells_self p _, tells_self p _⟩) (by simpa using hrest)
    rw [List.append_assoc, List.append_assoc]
    exact ⟨_, .swap hreads hmore⟩

/-- A literal stays, with the quotes around it. -/
theorem Renamed.literal (hp : p.IsPiecewise) {literal back : List Char} (hliteral : '\'' ∉ literal)
    (hclosed : Literal.isClosed front = true)
    (hrest : Renamed p new (front ++ '\'' :: literal) back result behind) :
    Renamed p new front ('\'' :: (literal ++ back)) ('\'' :: (literal ++ result)) behind := by
  refine .keep (fun text rest' heq hreads => ?_) (keepAll (fun x c y text' rest' htext heq hreads => ?_) ?_)
  · obtain ⟨c, text, rfl⟩ := List.exists_cons_of_ne_nil (hreads.ne_nil hp)
    obtain rfl : '\'' = c := (List.cons_eq_cons.1 heq).1
    exact hreads.not_mem hp List.mem_cons_self
  · have hx : '\'' ∉ x := fun hmem => hliteral (htext ▸ List.mem_append_left _ hmem)
    have := hreads.isClosed
    rw [Literal.isClosed_append_of_not_mem hx, Literal.isClosed_append_quote, hclosed] at this
    cases this
  · simpa using hrest

theorem flatMap_quote {all : List (List Char)} (h : all ≠ []) :
    all.flatMap ('\'' :: ·) = '\'' :: Text.joinWith ['\''] all := by
  obtain ⟨first, all, rfl⟩ := List.exists_cons_of_ne_nil h
  rw [Literal.joinWith_cons]
  rfl

/-- One piece of code of the line, between literals. -/
theorem exists_renamed_piece (hp : p.IsPiecewise) {piece back result : List Char}
    {behind : List (List Char)} (hquote : '\'' ∉ piece) (hclosed : Literal.isClosed front = true)
    (hfront : front = [] ∨ front.getLast? = some '\'') (hback : back = [] ∨ back.head? = some '\'')
    (hrest : Renamed p new (front ++ piece) back result behind) :
    ∃ behind', Renamed p new front (piece ++ back)
      (Literal.changed (p.replaceIn fun _ => new) piece ++ result) behind' := by
  rw [Literal.changed]
  split
  · rename_i hempty
    obtain rfl := List.isEmpty_iff.1 hempty
    exact ⟨behind, by simpa using hrest⟩
  · refine (rewritten_replaceIn (fun _ _ h => absurd h (Option.some_ne_none _))
      (fun _ _ => not_reads_nil hp.visible _ _) piece).exists_renamed hp hquote hclosed hback ?_ hrest
    rcases hfront with rfl | hfront
    · exact ⟨tells_self p _, tells_self p _⟩
    · rw [hfront]
      exact hp.blind

/-- The pieces of a line, with those of code searched, from one that is code. -/
theorem exists_renamed_pieces (hp : p.IsPiecewise) {all : List (List Char)} (hall : all ≠ [])
    (hquote : ∀ own ∈ all, '\'' ∉ own) (hclosed : Literal.isClosed front = true)
    (hfront : front = [] ∨ front.getLast? = some '\'') :
    ∃ behind, Renamed p new front (Text.joinWith ['\''] all)
      (Text.joinWith ['\''] (Literal.mapEveryOther (p.replaceIn fun _ => new) all)) behind := by
  induction all using Literal.everyOther.induct generalizing front with
  | case1 => exact absurd rfl hall
  | case2 piece =>
    obtain ⟨behind, h⟩ :=
      exists_renamed_piece hp (hquote piece (by simp)) hclosed hfront (.inl rfl) (.nil _)
    exact ⟨behind, by simpa [Text.joinWith, Literal.mapEveryOther, Literal.changed] using h⟩
  | case3 piece literal rest ih =>
    have hliteral : '\'' ∉ literal := hquote literal (by simp)
    have hbehind : Literal.isClosed (front ++ piece) = true := by
      rw [Literal.isClosed_append_of_not_mem (hquote piece (by simp)), hclosed]
    have hopen : Literal.isClosed (front ++ piece ++ '\'' :: literal) = false := by
      rw [List.append_cons, Literal.isClosed_append_of_not_mem hliteral, Literal.isClosed_append_quote,
        hbehind]
      rfl
    -- a literal stays with both of its quotes, and the rest goes on behind it
    obtain ⟨behind, hmore⟩ : ∃ behind, Renamed p new (front ++ piece ++ '\'' :: literal)
        (rest.flatMap ('\'' :: ·))
        ((Literal.mapEveryOther (p.replaceIn fun _ => new) rest).flatMap ('\'' :: ·)) behind := by
      by_cases hnil : rest = []
      · subst hnil
        exact ⟨[], .nil _⟩
      · obtain ⟨behind, h⟩ := @ih (front ++ piece ++ '\'' :: literal ++ ['\'']) hnil
          (fun own hown => hquote own (by simp [hown]))
          (by rw [Literal.isClosed_append_quote, hopen]; rfl) (.inr (List.getLast?_concat ..))
        have hmapped : Literal.mapEveryOther (p.replaceIn fun _ => new) rest ≠ [] := by
          rw [← List.length_pos_iff, Literal.length_mapEveryOther]
          exact List.length_pos_of_ne_nil hnil
        rw [flatMap_quote hnil, flatMap_quote hmapped]
        refine ⟨behind, .keep (fun _ _ _ hreads => ?_) h⟩
        rw [hreads.isClosed] at hopen
        cases hopen
    obtain ⟨behind', h⟩ := exists_renamed_piece hp (hquote piece (by simp)) hclosed hfront (.inr rfl)
      (Renamed.literal hp hliteral hbehind hmore)
    refine ⟨behind', ?_⟩
    rw [Literal.mapEveryOther, Literal.joinWith_cons, Literal.joinWith_cons]
    simpa [Literal.changed] using h

/-- **What a search of the code of a line does to the line.** -/
theorem exists_renamed_mapCode (hp : p.IsPiecewise) (new line : List Char) :
    ∃ behind, Renamed p new [] line (Literal.mapCode (p.replaceIn fun _ => new) line) behind := by
  have hpieces := @exists_renamed_pieces p new [] hp _ (Literal.pieces_ne_nil line)
    (fun _ hown => Text.not_mem_of_mem_cutAt hown) rfl (.inl rfl)
  rwa [Literal.joinWith_pieces] at hpieces

/-- Without a match in code, nothing is replaced. -/
theorem renamed_self (hp : p.IsRenamable) (h : Literal.editCode p (fun _ => some new) line = none) :
    Renamed p new [] line line [] := by
  rw [Literal.editCode_eq_none_iff] at h
  have hline : Renamed p new [] (line ++ []) (line ++ []) [] := by
    refine .keepAll (fun x c y text rest htext heq hreads => ?_) (.nil _)
    have hmatches : Literal.codeMatches p line = true := by
      refine (codeMatches_iff hp.blind hp.visible).2 ⟨x, text, rest, ?_, hreads.isClosed,
        hreads.not_mem hp.toIsPiecewise, hreads.reads⟩
      rw [htext, ← heq, List.append_nil]
    obtain ⟨piece, hpiece, hoccurs⟩ := List.any_eq_true.1 hmatches
    obtain ⟨u, own, v, hline, hreads⟩ := occursIn_iff.1 hoccurs
    obtain ⟨m, hm, -⟩ := exists_mem_matchesIn_of_reads hp.apart hp.visible hline hreads
    cases h piece hpiece m hm
  simpa using hline

/-- **What a rule that puts one text in the place of others leaves of a line.** -/
theorem exists_renamed_substitute (hp : p.IsRenamable) (new line : List Char) :
    ∃ behind, Renamed p new [] line
      (((Rule.substitute p (fun _ => new) line).map Edit.line).getD line) behind := by
  rw [Rule.substitute]
  cases hedit : Literal.editCode p (fun _ => some new) line with
  | none => exact ⟨[], renamed_self hp hedit⟩
  | some found =>
    obtain ⟨result, note⟩ := found
    obtain rfl := Literal.line_of_editCode hedit
    exact exists_renamed_mapCode hp.toIsPiecewise new line

end SqlDialect.Pattern
