import SqlDialect.Proofs.Rule.CallSpan
import SqlDialect.Proofs.Rule.Settled.Average

/-!
# Rules that change calls

What such a rule makes of a call by octets is what it makes of it by characters (`CallRewriter.Follows`),
so that the visits by octets and those by characters come to the same line
(`CallTour.exists_mirrors`).  What it replaces goes on behind the call (`Rule.Reaches`), and so the
places of the other calls stay right (`CallTour.keeps_places`).
-/

namespace SqlDialect

open Pattern
open Text (octets toUtf8 slice?)

namespace Text

variable {text s t : List Char} {i j n : Nat}

/-! ### Places of characters -/

theorem octets_le_of_isPrefix (h : s <+: t) : octets s ≤ octets t := by
  obtain ⟨more, rfl⟩ := h
  rw [octets_append]
  exact Nat.le_add_right _ _

theorem octets_take_succ {c : Char} (h : text[i]? = some c) :
    octets (text.take (i + 1)) = octets (text.take i) + c.utf8Size := by
  rw [List.take_add_one, h, octets_append]
  rfl

theorem take_append_drop_take (text : List Char) (h : i ≤ j) :
    text.take i ++ (text.take j).drop i = text.take j := by
  have hmin : (text.take j).take i = text.take i := by rw [List.take_take, Nat.min_eq_left h]
  rw [← hmin, List.take_append_drop]

theorem slice?_take (text : List Char) (h : i ≤ j) :
    slice? text (octets (text.take i)) (octets (text.take j)) = some ((text.take j).drop i) := by
  have hslice := slice?_append (text.take i) ((text.take j).drop i) (text.drop j)
  rwa [take_append_drop_take text h, List.take_append_drop] at hslice

theorem slice?_drop (text : List Char) (i : Nat) :
    slice? text (octets (text.take i)) (octets text) = some (text.drop i) := by
  have hslice := slice?_append (text.take i) (text.drop i) []
  rwa [List.append_nil, List.take_append_drop] at hslice

theorem replaceOctets?_take (text new : List Char) (h : i ≤ j) :
    replaceOctets? text (octets (text.take i)) (octets (text.take j)) new =
      some (text.take i ++ new ++ text.drop j) := by
  have hnew := replaceOctets?_append (text.take i) ((text.take j).drop i) (text.drop j) new
  rwa [take_append_drop_take text h, List.take_append_drop] at hnew

theorem eq_of_toUtf8_eq (h : toUtf8 s = toUtf8 t) : s = t := by
  have hdecoded := congrArg ofUtf8? h
  rw [ofUtf8?_toUtf8, ofUtf8?_toUtf8] at hdecoded
  exact Option.some.inj hdecoded

end Text

/-- The search by octets for a closing parenthesis, from a character on. -/
theorem Line.closingPlace_octets_take (line : List Char) (i : Nat) :
    closingPlace line (octets (line.take i)) =
      match matchingParen line i with
      | none => .missing
      | some j => .found (octets (line.take j)) := by
  cases hmatch : matchingParen line i with
  | some j => exact closingPlace_eq_found_iff_matchingParen.2 ⟨i, j, hmatch, rfl, rfl⟩
  | none =>
    cases h : closingPlace line (octets (line.take i)) with
    | missing => rfl
    | underflow => exact absurd h (closingPlace_ne_underflow _ _)
    | found stop =>
      obtain ⟨i', j', hmatch', hoctets, -⟩ := closingPlace_eq_found_iff_matchingParen.1 h
      obtain ⟨before, args, behind, hline, hi', -⟩ := exists_of_matchingParen hmatch'
      have hsame := congrArg List.length
        (Text.eq_of_isPrefix (List.take_prefix i line) (List.take_prefix i' line) hoctets)
      have hlength := congrArg List.length hline
      simp only [List.length_take, List.length_append, List.length_cons] at hsame hlength
      obtain rfl : i = i' := by omega
      rw [hmatch] at hmatch'
      cases hmatch'

/-- From a parenthesis to the one that closes it. -/
theorem Line.slice?_of_matchingParen {text : List Char} {i j : Nat} (h : matchingParen text i = some j) :
    octets (text.take (j + 1)) = octets (text.take j) + 1 ∧
      slice? text (octets (text.take i)) (octets (text.take j) + 1) = some ((text.take (j + 1)).drop i) := by
  have hclosing : text[j]? = some ')' := by
    obtain ⟨before, args, behind, htext, -, rfl, -⟩ := exists_of_matchingParen h
    have htext' : text = (before ++ '(' :: args) ++ ')' :: behind := by simp [htext]
    rw [htext', List.getElem?_append_right (Nat.le_refl _), Nat.sub_self]
    rfl
  have hend : octets (text.take (j + 1)) = octets (text.take j) + 1 := Text.octets_take_succ hclosing
  have hlt := lt_of_matchingParen h
  refine ⟨hend, ?_⟩
  rw [← hend]
  exact Text.slice?_take text (by omega)

/-! ### Patterns that end with a character -/

namespace Pattern

variable {q : Pattern} {c : Char} {m : Match} {text : List Char}

theorem exists_concat_of_matchAt {place : Cursor} (h : (q ++ char c).matchAt place = some m) :
    ∃ s rest, m.text = s ++ [c] ∧ place.rest = s ++ c :: rest := by
  obtain ⟨rest, hrest, s, t, htext, -, hc⟩ := reads_of_matchAt h
  obtain rfl := reads_char_iff.1 hc
  exact ⟨s, rest, htext, by rw [hrest, htext, List.append_assoc]; rfl⟩

theorem getLast?_text_of_mem_matchesIn (h : m ∈ (q ++ char c).matchesIn text) :
    m.text.getLast? = some c := by
  obtain ⟨a, b, rfl, hmatch, -⟩ := exists_matchAt_of_mem_matchesIn h
  obtain ⟨s, -, htext, -⟩ := exists_concat_of_matchAt hmatch
  exact List.getLast?_eq_some_iff.2 ⟨s, htext⟩

theorem exists_stop_of_find? (h : (q ++ char c).find? text = some m) :
    ∃ i, m.stop = i + 1 ∧ text[i]? = some c := by
  obtain ⟨a, b, rfl, hstart, hmatch, -⟩ := exists_first_of_find? h
  obtain ⟨s, rest, htext, hrest⟩ := exists_concat_of_matchAt hmatch
  have hrest : b = s ++ c :: rest := hrest
  refine ⟨(a ++ s).length, ?_, ?_⟩
  · rw [Match.stop, hstart, htext, List.length_append, List.length_append, List.length_singleton,
      Nat.add_assoc]
  · rw [hrest, ← List.append_assoc, List.getElem?_append_right (Nat.le_refl _), Nat.sub_self]
    rfl

end Pattern

/-! ### Edits by octets -/

variable {p : Pattern} {f : CallRewriter (Option (List Char))} {edit : Call → CallEdit}
  {a b w x y line : List Char} {tour tour' : CallTour (Option (List Char))} {seen : CallVisit}

/-- What is to be done with a call, by octets, and what is kept: the call that was flagged first. -/
def Call.inOctets (call : Call) (kept : Option (List Char)) :
    CallEdit → Option CallReplacement × Option (List Char)
  | .keep => (none, kept)
  | .flag => (none, kept.or (some (Text.trim call.text)))
  | .replace text stop => (some ⟨text, octets (call.line.take stop)⟩, kept)

/-- What becomes of a call by octets is what becomes of it by characters. -/
def CallRewriter.Follows (f : CallRewriter (Option (List Char))) (edit : Call → CallEdit) : Prop :=
  ∀ kept a w x y, Line.Closes 0 none x →
    f kept (CallSpan.of a w x y) = some ((Call.of a w x y).inOctets kept (edit (Call.of a w x y)))

/-- What is replaced goes on behind the call. -/
def Rule.Reaches (edit : Call → CallEdit) : Prop :=
  ∀ a w x y text stop, Line.Closes 0 none x → edit (Call.of a w x y) = .replace text stop →
    (Call.of a w x y).closing < stop

namespace Call

/-- The line is cut at the closing parenthesis. -/
theorem line_eq_append_closing : (of a w x y).line = (a ++ w ++ ['('] ++ x) ++ ')' :: y ∧
    (of a w x y).closing = (a ++ w ++ ['('] ++ x).length := by
  refine ⟨by simp [of], ?_⟩
  simp only [of, List.length_append, List.length_singleton]

theorem octets_take_closing :
    octets ((of a w x y).line.take (of a w x y).closing) = (CallSpan.of a w x y).closing := by
  obtain ⟨hline, hclosing⟩ := line_eq_append_closing (a := a) (w := w) (x := x) (y := y)
  rw [hline, hclosing, List.take_left, Text.octets_append _ x, Text.octets_append _ ['('],
    CallSpan.octets_paren.1]
  rfl

theorem getElem?_closing : (of a w x y).line[(of a w x y).closing]? = some ')' := by
  obtain ⟨hline, hclosing⟩ := line_eq_append_closing (a := a) (w := w) (x := x) (y := y)
  rw [hline, hclosing, List.getElem?_append_right (Nat.le_refl _), Nat.sub_self]
  rfl

theorem octets_take_start :
    octets ((of a w x y).line.take (of a w x y).start) = (CallSpan.of a w x y).start :=
  congrArg octets List.take_left

theorem octets_take_closing_succ :
    octets ((of a w x y).line.take ((of a w x y).closing + 1)) = (CallSpan.of a w x y).closing + 1 := by
  rw [Text.octets_take_succ getElem?_closing, octets_take_closing]
  rfl

/-- A place behind the call. -/
theorem octets_take_behind (i : Nat) :
    octets ((of a w x y).line.take ((of a w x y).closing + (i + 1))) =
      (CallSpan.of a w x y).closing + octets (y.take i) + 1 := by
  have hdrop : (of a w x y).line.drop ((of a w x y).closing + 1) = y := drop_closing
  rw [Nat.add_comm i, ← Nat.add_assoc, List.take_add, hdrop, Text.octets_append,
    octets_take_closing_succ]
  omega

end Call

theorem CallRewriter.Follows.contained (h : f.Follows edit) (hedit : Rule.Reaches edit) :
    f.Contained := by
  intro kept call hcall
  obtain ⟨a, w, x, y, rfl, hx⟩ := CallSpan.isProper_iff.1 hcall
  refine ⟨_, _, h kept a w x y hx, fun replacement hreplacement => ?_⟩
  cases hcases : edit (Call.of a w x y) with
  | keep | flag =>
    rw [hcases] at hreplacement
    cases hreplacement
  | replace text stop =>
    rw [hcases] at hreplacement
    obtain rfl := Option.some.inj hreplacement
    refine ⟨?_, _, Text.slice?_zero_eq_some_iff.2 ⟨List.take_prefix stop _, rfl⟩⟩
    have hle := Text.octets_le_of_isPrefix
      (List.take_prefix_take_left (l := (Call.of a w x y).line) (hedit a w x y text stop hx hcases))
    rwa [Call.octets_take_closing_succ] at hle

/-! ### Visits by octets and by characters -/

namespace CallTour

/-- The visits by octets have come as far as those by characters. -/
structure Mirrors (tour : CallTour (Option (List Char))) (seen : CallVisit) : Prop where
  line : tour.line = seen.line
  note : tour.note = seen.note
  kept : tour.kept = seen.flagged

/-- **One visit.** -/
theorem Mirrors.visit (hf : f.Follows edit) (hreaches : Rule.Reaches edit) (h : tour.Mirrors seen)
    (hline : tour.line = a ++ (w ++ '(' :: b))
    (hvisit : tour.visit? f ⟨octets a, octets (a ++ w)⟩ = some tour') :
    tour'.Mirrors (seen.visit edit a.length (a.length + w.length)) := by
  have hseen : seen.line = a ++ (w ++ '(' :: b) := h.line.symm.trans hline
  by_cases hclosed : ∃ x y, b = x ++ ')' :: y ∧ Line.Closes 0 none x
  · obtain ⟨x, y, rfl, hx⟩ := hclosed
    rw [visit?_of_closed hline hx, hf _ a w x y hx, Option.bind_some] at hvisit
    rw [Rule.visit_of_closed hseen hx]
    cases hedit : edit (Call.of a w x y) with
    | keep =>
      rw [hedit] at hvisit
      obtain rfl := Option.some.inj hvisit
      exact ⟨h.line, h.note, h.kept⟩
    | flag =>
      rw [hedit] at hvisit
      obtain rfl := Option.some.inj hvisit
      exact ⟨h.line, h.note, congrArg (Option.or · _) h.kept⟩
    | replace text stop =>
      rw [hedit] at hvisit
      obtain ⟨line, hreplace, rfl⟩ := Option.map_eq_some_iff.1 hvisit
      have hstart : (Call.of a w x y).line.take a.length = a := List.take_left
      have hle : a.length ≤ stop := by
        have hlt := hreaches a w x y text stop hx hedit
        simp only [Call.of] at hlt
        omega
      -- what stands in front of the call is `a` both times
      have hnew := Text.replaceOctets?_take (Call.of a w x y).line text hle
      rw [hstart] at hnew
      rw [hline] at hreplace
      refine ⟨Option.some.inj (hreplace.symm.trans hnew), ?_, h.kept⟩
      rw [Call.text_of]
      rfl
  · simp only [not_exists, not_and] at hclosed
    rw [visit?_of_open hline hclosed] at hvisit
    obtain rfl := Option.some.inj hvisit
    rw [Rule.visit_of_open hseen hclosed]
    exact ⟨h.line, h.note, h.kept⟩

/-- **All visits** to the calls further right. -/
theorem mirrors_foldrM (hp : ∀ m ∈ p.matchesIn line, m.text.getLast? = some '(') (hf : f.Follows edit)
    (hreaches : Rule.Reaches edit) {left right : List Match}
    (hmatches : left ++ right = (p.matchesIn line).filter fun m => Literal.inCode line m.start)
    (h : (right.map (.ofMatch line)).foldrM (visit? f) ⟨line, none, []⟩ = some tour) :
    tour.Mirrors (right.foldr (fun m seen => seen.visit edit m.start (m.stop - 1)) ⟨line, none, none⟩) := by
  -- the induction is on the calls that have been visited; that the others are where they were comes from
  -- `exists_intact`
  induction right generalizing left tour with
  | nil =>
    obtain rfl := Option.some.inj h
    exact ⟨rfl, rfl, rfl⟩
  | cons m right ih =>
    have hm : m ∈ p.matchesIn line := by
      have hmem : m ∈ left ++ m :: right := by simp
      rw [hmatches] at hmem
      exact (List.mem_filter.1 hmem).1
    have hmatches' : (left ++ [m]) ++ right = left ++ m :: right := by simp
    have hplaces : (left ++ [m]).map (.ofMatch line) ++ right.map (.ofMatch line) =
        callPlaces p line := by
      rw [callPlaces_eq, ← List.map_append, hmatches', hmatches]
    obtain ⟨tour₀, htour₀, hintact⟩ := exists_intact hp (hf.contained hreaches) none hplaces
    rw [List.map_cons, List.foldrM_cons, htour₀] at h
    rw [List.map_append] at hintact
    obtain ⟨a, w, _, b', -, hstart, hstop, -, hline, hplace⟩ := hintact.exists_call hm (hp m hm)
    have hvisit : visit? f (.ofMatch line m) tour₀ = some tour := h
    rw [hplace] at hvisit
    have hopening : m.stop - 1 = a.length + w.length := by omega
    rw [List.foldr_cons, hstart, hopening]
    exact Mirrors.visit hf hreaches (ih (hmatches'.trans hmatches) htour₀) hline hvisit

/-- **The visits by octets and those by characters come to the same line.** -/
theorem exists_mirrors (hp : ∀ m ∈ p.matchesIn line, m.text.getLast? = some '(') (hf : f.Follows edit)
    (hreaches : Rule.Reaches edit) :
    ∃ tour, run? p f none line = some tour ∧ Intact p line [] tour ∧
      tour.Mirrors (CallVisit.run p edit line) := by
  obtain ⟨tour, hrun, hintact⟩ := exists_intact hp (hf.contained hreaches) none
    (List.nil_append (callPlaces p line))
  refine ⟨tour, hrun, hintact, mirrors_foldrM hp hf hreaches (List.nil_append _) ?_⟩
  rwa [← callPlaces_eq]

/-- A line of which no call has been replaced is as it came. -/
theorem Intact.line_eq {σ : Type} {tour : CallTour σ} (h : Intact p line [] tour)
    (hnote : tour.note = none) : tour.line = line := by
  have hnone : ∀ turn ∈ tour.turns, turn.note = none := List.findSome?_eq_none_iff.1 hnote
  have hsame := h.before (max (octets tour.line) (octets line)) fun turn hturn hsome => by
    rw [hnone turn hturn] at hsome
    cases hsome
  rw [List.take_of_length_le (by rw [Text.length_toUtf8]; omega),
    List.take_of_length_le (by rw [Text.length_toUtf8]; omega)] at hsame
  exact Text.eq_of_toUtf8_eq hsame

end CallTour

/-! ### What the rules make of a call -/

namespace Rule

theorem average_follows : CallRewriter.average.Follows truncateAverage := by
  intro kept a w x y hx
  rw [CallRewriter.average, CallSpan.before?_of, CallSpan.after?_of, CallSpan.text?_of, truncateAverage,
    truncOpening, overClause, Call.before_of, Call.after_of, Call.text_of]
  dsimp only [Option.bind_eq_bind, Option.bind_some]
  split
  · rfl
  · rw [Call.inOctets, Call.octets_take_closing_succ]

theorem singleArgument_follows : CallRewriter.singleArgument.Follows padSingleArgument := by
  intro kept a w x y hx
  rw [CallRewriter.singleArgument, CallSpan.args?_of, padSingleArgument, Call.args_of]
  dsimp only [Option.bind_eq_bind, Option.bind_some]
  rw [Line.argumentTexts?_eq, Option.bind_some]
  have hle : (Call.of a w x y).start ≤ (Call.of a w x y).closing := by
    simp only [Call.of]
    omega
  have hfront := Text.slice?_take (Call.of a w x y).line hle
  rw [Call.octets_take_start, Call.octets_take_closing] at hfront
  rcases Line.splitArgs x with - | ⟨arg, - | ⟨second, rest⟩⟩
  · rfl
  · dsimp only
    split
    · rfl
    · rw [Call.inOctets, Call.octets_take_closing_succ]
      exact congrArg (Option.bind · _) hfront
  · rfl

theorem arrayElement_follows : CallRewriter.arrayElement.Follows subscriptElement := by
  intro kept a w x y hx
  rw [CallRewriter.arrayElement, CallSpan.args?_of, subscriptElement, Call.args_of]
  dsimp only [Option.bind_eq_bind, Option.bind_some]
  rw [Line.argumentTexts?_eq, Option.bind_some]
  rcases Line.splitArgs x with - | ⟨json, - | ⟨index, rest⟩⟩
  · rfl
  · rfl
  · dsimp only
    rw [Call.inOctets, Call.octets_take_closing_succ]

theorem distinctList_follows : CallRewriter.distinctList.Follows distinctListEdit := by
  intro kept a w x y hx
  rw [CallRewriter.distinctList, CallSpan.args?_of, distinctListEdit, Call.args_of]
  dsimp only [Option.bind_eq_bind, Option.bind_some]
  cases hdistinct : distinctWord.find? x with
  | none => rfl
  | some distinct =>
    dsimp only
    rw [Text.slice?_drop, CallSpan.after?_of, Call.after_of]
    dsimp only [Option.bind_eq_bind, Option.bind_some]
    cases hwithin : withinGroup.find? y with
    | none =>
      rw [CallSpan.text?_of, ← Call.text_of]
      rfl
    | some within =>
      -- the parenthesis of the group is counted from the closing one of the call, in octets of `y`
      obtain ⟨i, hstop, hopen⟩ := exists_stop_of_find? hwithin
      have hopening : (CallSpan.of a w x y).closing + octets (y.take within.stop) =
          octets ((Call.of a w x y).line.take ((Call.of a w x y).closing + within.stop)) := by
        rw [hstop, Call.octets_take_behind, Text.octets_take_succ hopen]
        rfl
      have hclosing : Line.closingPlace (CallSpan.of a w x y).line _ = _ :=
        Line.closingPlace_octets_take (Call.of a w x y).line ((Call.of a w x y).closing + within.stop)
      dsimp only
      rw [hopening, hclosing, Line.argumentTexts?_eq]
      cases hgroup : Line.matchingParen (Call.of a w x y).line ((Call.of a w x y).closing + within.stop) with
      | none => rfl
      | some groupClosing =>
        obtain ⟨hend, hslice⟩ := Line.slice?_of_matchingParen hgroup
        dsimp only [Option.bind_some]
        rw [Call.inOctets, hend]
        exact congrArg (Option.bind · _) hslice

theorem reaches_truncateAverage : Reaches truncateAverage := by
  intro a w x y text stop _ h
  rw [truncateAverage] at h
  split at h
  · cases h
  · obtain ⟨-, rfl⟩ := CallEdit.replace.inj h
    exact Nat.lt_succ_self _

theorem reaches_padSingleArgument : Reaches padSingleArgument := by
  intro a w x y text stop _ h
  rw [padSingleArgument] at h
  split at h
  · split at h
    · cases h
    · obtain ⟨-, rfl⟩ := CallEdit.replace.inj h
      exact Nat.lt_succ_self _
  · cases h

theorem reaches_subscriptElement : Reaches subscriptElement := by
  intro a w x y text stop _ h
  rw [subscriptElement] at h
  split at h
  · obtain ⟨-, rfl⟩ := CallEdit.replace.inj h
    exact Nat.lt_succ_self _
  · cases h

/-- The group stands behind the call, and is replaced with it. -/
theorem reaches_distinctListEdit : Reaches distinctListEdit := by
  intro a w x y text stop _ h
  rw [distinctListEdit] at h
  split at h
  · cases h
  · dsimp only at h
    split at h
    · cases h
    · split at h
      · cases h
      · rename_i within _ _ groupClosing hgroup
        obtain ⟨-, rfl⟩ := CallEdit.replace.inj h
        have hlt := Line.lt_of_matchingParen hgroup
        omega

/-! ### The rules -/

/-- A rule that changes the calls of a function. -/
structure CallRule where
  /-- The rule. -/
  rule : Rule
  /-- The name of the function. -/
  function : String
  /-- What the rule makes of a call, by octets. -/
  rewriter : CallRewriter (Option (List Char))
  /-- What it makes of a call, by characters. -/
  edit : Call → CallEdit
  follows : rewriter.Follows edit
  reaches : Reaches edit
  /-- The rule changes the line as the visits do, or keeps it if they replace nothing. -/
  line_eq : ∀ {ctx line e}, rule.edit? ctx line = some e →
    e.line = (CallVisit.run (callOf function) edit line).line ∨
      ((CallVisit.run (callOf function) edit line).note = none ∧ e.line = line)

theorem line_eq_of_editCalls {e : Edit} (h : editCalls p edit line = some e) :
    e.line = (CallVisit.run p edit line).line := by
  obtain ⟨note, -, rfl⟩ := Option.map_eq_some_iff.1 h
  rfl

/-- A rule may pass over some lines. -/
theorem line_eq_of_guarded {guard : Bool} {e : Edit}
    (h : (if guard then none else editCalls p edit line) = some e) :
    e.line = (CallVisit.run p edit line).line := by
  split at h
  · cases h
  · exact line_eq_of_editCalls h

theorem line_eq_of_distinctList {ctx : Context} {e : Edit} (h : distinctList.edit? ctx line = some e) :
    e.line = (CallVisit.run (callOf "LISTAGG") distinctListEdit line).line ∨
      ((CallVisit.run (callOf "LISTAGG") distinctListEdit line).note = none ∧ e.line = line) := by
  rw [distinctList] at h
  dsimp only at h
  split at h
  · obtain rfl := Option.some.inj h
    exact .inl rfl
  · rename_i hnote
    obtain ⟨call, -, rfl⟩ := Option.map_eq_some_iff.1 h
    exact .inr ⟨hnote, rfl⟩

/-- The rules that change the calls of a function. -/
def callRules : List CallRule := [
  { rule := truncatedAverage
    function := "AVG"
    rewriter := .average
    edit := truncateAverage
    follows := average_follows
    reaches := reaches_truncateAverage
    line_eq := fun h => .inl (line_eq_of_guarded h) },
  { rule := distinctList
    function := "LISTAGG"
    rewriter := .distinctList
    edit := distinctListEdit
    follows := distinctList_follows
    reaches := reaches_distinctListEdit
    line_eq := line_eq_of_distinctList },
  { rule := coalesce
    function := "COALESCE"
    rewriter := .singleArgument
    edit := padSingleArgument
    follows := singleArgument_follows
    reaches := reaches_padSingleArgument
    line_eq := fun h => .inl (line_eq_of_editCalls h) },
  { rule := nvl
    function := "NVL"
    rewriter := .singleArgument
    edit := padSingleArgument
    follows := singleArgument_follows
    reaches := reaches_padSingleArgument
    line_eq := fun h => .inl (line_eq_of_guarded h) },
  { rule := jsonArrayElement
    function := "JSON_EXTRACT_ARRAY_ELEMENT_TEXT"
    rewriter := .arrayElement
    edit := subscriptElement
    follows := arrayElement_follows
    reaches := reaches_subscriptElement
    line_eq := fun h => .inl (line_eq_of_editCalls h) }]

end Rule

namespace CallTour

open Rule

/-- The line that a rule comes to is the one that the visits by octets come to. -/
theorem exists_run?_of_callRule (r : CallRule) (line : List Char) :
    ∃ tour, run? (callOf r.function) r.rewriter none line = some tour ∧
      tour.Mirrors (CallVisit.run (callOf r.function) r.edit line) ∧
      ∀ ctx e, r.rule.edit? ctx line = some e → e.line = tour.line := by
  have hp : ∀ m ∈ (callOf r.function).matchesIn line, m.text.getLast? = some '(' :=
    fun _ => getLast?_text_of_mem_matchesIn
  obtain ⟨tour, hrun, hintact, hmirrors⟩ := exists_mirrors hp r.follows r.reaches
  refine ⟨tour, hrun, hmirrors, fun ctx e h => ?_⟩
  rcases r.line_eq h with hline | ⟨hnote, hline⟩
  · exact hline.trans hmirrors.line.symm
  · exact hline.trans (hintact.line_eq (hmirrors.note.trans hnote)).symm

/-- **The places of calls stay right.**  If the matches of the pattern end with a parenthesis, and the rule
replaces text that goes on behind the call, then no slice is wrong.  Every place has its visit, at which it
is still that of the call, and in front of the calls that are replaced the line stays as it came.  So it is
for all rules that change the calls of a function, and the line is the one that these come to. -/
theorem keeps_places :
    (∀ {σ : Type} {p : Pattern} {f : CallRewriter σ} {line : List Char} (kept : σ),
      (∀ m ∈ p.matchesIn line, m.text.getLast? = some '(') → f.Contained →
      ∃ tour, run? p f kept line = some tour ∧ tour.turns.map (·.place) = callPlaces p line ∧
        (∀ turn ∈ tour.turns, turn.Holds p line) ∧
        ∀ n, (∀ turn ∈ tour.turns, turn.note.isSome = true → n ≤ turn.place.start) →
          (toUtf8 tour.line).take n = (toUtf8 line).take n) ∧
    callRules.map (·.rule.id) = ["FUNC011", "FUNC012", "FUNC013", "FUNC014", "FUNC015"] ∧
    ∀ r ∈ callRules, r.rewriter.Contained ∧ ∀ line,
      (∀ m ∈ (callOf r.function).matchesIn line, m.text.getLast? = some '(') ∧
      ∃ tour, run? (callOf r.function) r.rewriter none line = some tour ∧
        tour.Mirrors (CallVisit.run (callOf r.function) r.edit line) ∧
        ∀ ctx e, r.rule.edit? ctx line = some e → e.line = tour.line := by
  refine ⟨fun kept hp hf => ?_, rfl, fun r _ => ⟨r.follows.contained r.reaches, fun line =>
    ⟨fun _ => getLast?_text_of_mem_matchesIn, exists_run?_of_callRule r line⟩⟩⟩
  obtain ⟨tour, hrun, hintact⟩ := exists_intact hp hf kept (List.nil_append _)
  exact ⟨tour, hrun, hintact.places, hintact.turns, hintact.before⟩

/-- Behind a character of two octets: the inner list is changed first, and is then replaced with the group
of the outer one. -/
theorem keeps_places_nested :
    let line := "é LISTAGG(DISTINCT a) WITHIN GROUP (LISTAGG(DISTINCT b) WITHIN GROUP (b))".toList
    ∃ tour, run? (callOf "LISTAGG") .distinctList none line = some tour ∧
      tour.turns.map (·.place) = [⟨3, 10⟩, ⟨37, 44⟩] ∧
      (∀ turn ∈ tour.turns, turn.Holds (callOf "LISTAGG") line) ∧
      tour.line = ("é f_list_distinct(LISTAGG(a) WITHIN GROUP (" ++
        "f_list_distinct(LISTAGG(b) WITHIN GROUP (b), '')), '')").toList := by
  intro line
  obtain ⟨hcontained, hrule⟩ := keeps_places.2.2 _ (.tail _ (.head _))
  obtain ⟨tour, hrun, hplaces, hturns, -⟩ := keeps_places.1 none (hrule line).1 hcontained
  have hall : callPlaces (callOf "LISTAGG") line = [⟨3, 10⟩, ⟨37, 44⟩] := by decide +kernel
  refine ⟨tour, hrun, hplaces.trans hall, hturns, ?_⟩
  have hline : (([⟨3, 10⟩, ⟨37, 44⟩] : List CallPlace).foldrM (visit? .distinctList)
      ⟨line, none, []⟩).map (·.line) =
        some ("é f_list_distinct(LISTAGG(a) WITHIN GROUP (" ++
          "f_list_distinct(LISTAGG(b) WITHIN GROUP (b), '')), '')").toList := by
    decide +kernel
  have hvisits : ([⟨3, 10⟩, ⟨37, 44⟩] : List CallPlace).foldrM (visit? .distinctList) ⟨line, none, []⟩ =
      some tour := by
    rw [← hall]
    exact hrun
  rw [hvisits] at hline
  exact Option.some.inj hline

end CallTour

end SqlDialect
