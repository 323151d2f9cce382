import SqlDialect.Proofs.Line.Code
import SqlDialect.Proofs.Pattern.Inert
import SqlDialect.Rule.Basic

/-!
# Rules that are done after one application

A rule settles if it has no edit for a line that it has just edited.  For rules that replace matches
of a pattern, that is a matter of the pattern and of the new text:

* `Pattern.isInert` decides it for a pattern and a pattern that reads the new text.
* `Rule.settles_of_substitute`, `Rule.settles_of_replaceAnywhere` : such rules settle.
-/

namespace SqlDialect

/-- Whatever the rule makes of a line, it leaves alone. -/
def Rule.Settles (rule : Rule) : Prop :=
  ∀ (ctx : Context) (line : List Char) (edit : Edit), '\n' ∉ line →
    rule.edit? ctx line = some edit → rule.edit? ctx edit.line = none

namespace Pattern

variable {p a b : Pattern} {text s t : List Char}

/-! ### Texts that are read everywhere -/

/-- The pattern reads the text between any two characters. -/
def ReadsAnywhere (p : Pattern) (text : List Char) : Prop :=
  ∀ before behind, p.Reads before text behind

namespace ReadsAnywhere

theorem append (ha : a.ReadsAnywhere s) (hb : b.ReadsAnywhere t) :
    (a ++ b).ReadsAnywhere (s ++ t) :=
  fun before behind => ⟨s, t, rfl, ha before _, hb _ behind⟩

theorem exactText (text : List Char) : (exactText text).ReadsAnywhere text := by
  intro before behind
  change List.Forall₂ _ (text.map CharSet.exactly) text
  rw [List.forall₂_map_left_iff, List.forall₂_same]
  exact fun c _ => by simp [CharSet.exactly, CharSet.mem]

end ReadsAnywhere

theorem Stretch.readsAnywhere (h : p.Stretch text) (hp : p.isFree = true) :
    p.ReadsAnywhere text := by
  obtain ⟨before, behind, hreads⟩ := h.exists_reads
  exact reads_of_isFree hp hreads

/-- The text of a group that takes part in every match is read by the pattern of the group. -/
theorem Matches.readsAnywhere_textOf {m : Match} (h : p.Matches m) {name : String}
    (hbinds : p.binds name = true) (hgroup : p.groupsNamed name = [a]) (ha : a.isFree = true) :
    a.ReadsAnywhere (m.textOf name) := by
  obtain ⟨a', ha', hstretch⟩ := h.stretch_textOf hbinds
  rw [hgroup, List.mem_singleton] at ha'
  exact (ha' ▸ hstretch).readsAnywhere ha

/-! ### Rewritten lines -/

variable {wanted : List Char → Prop} {edit : Match → Option (List Char)}

/-- A character of a rewritten line was there before, or is one of new text. -/
theorem Rewritten.exists_swap_of_mem {before : Option Char} {line new : List Char}
    (h : p.Rewritten wanted edit before line new) {c : Char} (hc : c ∈ new) (hline : c ∉ line) :
    ∃ before m rest text, p.Swap edit before m rest text ∧ c ∈ text := by
  induction h with
  | nil => cases hc
  | keep _ _ ih =>
    rw [List.mem_cons, not_or] at hline
    exact ih ((List.mem_cons.1 hc).resolve_left hline.1) hline.2
  | swap hswap _ ih =>
    rw [List.mem_append, not_or] at hline
    rcases List.mem_append.1 hc with hc | hc
    · exact ⟨_, _, _, _, hswap, hc⟩
    · exact ih hc hline.2

/-- Whether replacing the matches of `p` by texts of `q` gives rise to no match. -/
def isInert (p q : Pattern) : Bool :=
  !p.readsEmpty && !q.readsEmpty && neverStarts p p q && neverWithin p p q && neverBehind p p q &&
    neverInto p p q && neverBefore p p q

variable {q : Pattern} {f : Match → List Char}

theorem rewritten_of_isInert (hcheck : isInert p q = true) (line : List Char) :
    p.Rewritten (fun _ => True) (fun m => some (f m)) none line (p.replaceIn f line) := by
  simp only [isInert, Bool.and_eq_true, Bool.not_eq_true'] at hcheck
  exact rewritten_replaceIn (fun _ _ h => absurd h (by simp))
    (not_reads_nil hcheck.1.1.1.1.1.1) line

theorem skipsAll_of_isInert (hcheck : isInert p q = true)
    (hq : ∀ m, p.Matches m → q.ReadsAnywhere (f m)) (line : List Char) :
    p.SkipsAll (fun _ => True) none (p.replaceIn f line) := by
  have hline := rewritten_of_isInert (f := f) hcheck line
  simp only [isInert, Bool.and_eq_true, Bool.not_eq_true'] at hcheck
  obtain ⟨⟨⟨⟨⟨⟨-, hq'⟩, hstarts⟩, hwithin⟩, hbehind⟩, hinto⟩, hbefore⟩ := hcheck
  have hdescribes : Describes p p q (fun _ => True) (fun m => some (f m)) :=
    ⟨fun h _ => h, fun hm htext => Option.some.inj htext ▸ hq _ hm, hq'⟩
  exact (hdescribes.inert hstarts hwithin hbehind hinto hbefore).skipsAll hline

end Pattern

namespace Rule

open Pattern

variable {p q : Pattern} {f note : Match → List Char} {rule : Rule}

/-! ### Shapes of rules -/

/-- A rule that is an edit of the line on some lines, and does nothing on the others, settles if the
edit does. -/
theorem settles_of_guarded (edit? : List Char → Option Edit)
    (hrule : ∀ ctx line, rule.edit? ctx line = none ∨ rule.edit? ctx line = edit? line)
    (hedit : ∀ line e, '\n' ∉ line → edit? line = some e → edit? e.line = none) :
    rule.Settles := by
  intro ctx line e hline h
  rcases hrule ctx line with hnone | hsome
  · rw [hnone] at h
    cases h
  · rw [hsome] at h
    rcases hrule ctx e.line with hnone | hsome
    · exact hnone
    · rw [hsome]
      exact hedit line e hline h

/-- Nothing is substituted in the code of a line after a substitution that leaves no accepted match
in any stretch of code. -/
theorem substituteSome_eq_none (edit : Match → Option (List Char)) {line : List Char} {e : Edit}
    (hquote : ∀ code, '\'' ∉ code → '\'' ∉ p.replaceIn (fun m => (edit m).getD m.text) code)
    (hnone : ∀ code, '\'' ∉ code →
      ∀ m ∈ p.matchesIn (p.replaceIn (fun m => (edit m).getD m.text) code), edit m = none)
    (h : substituteSome p edit line = some e) : substituteSome p edit e.line = none := by
  obtain ⟨⟨new, own⟩, hcode, rfl⟩ := Option.map_eq_some_iff.1 h
  obtain rfl := Literal.line_of_editCode hcode
  rw [substituteSome, Option.map_eq_none_iff]
  refine Literal.editCode_eq_none_iff.2 fun piece hpiece m hm => ?_
  obtain ⟨code, hcode, hpiece⟩ := Literal.mem_codePieces_mapCode
    (fun code hcode => Literal.isClosed_of_not_mem
      (hquote code (Literal.not_mem_of_mem_codePieces hcode))) hpiece
  have hfree := Literal.not_mem_of_mem_codePieces hcode
  rw [Literal.eq_of_mem_codePieces (hquote code hfree) hpiece] at hm
  exact hnone code hfree m hm

theorem substitute_eq_none (hcheck : isInert p q = true) (hquote : q.avoids '\'' = true)
    (hq : ∀ m, p.Matches m → q.ReadsAnywhere (f m)) {line : List Char} {e : Edit}
    (h : substitute p f line = some e) : substitute p f e.line = none := by
  refine substituteSome_eq_none (fun m => some (f m)) ?_ ?_ h
  · intro code hcode hmem
    obtain ⟨_, m, _, text, hswap, htext⟩ :=
      (rewritten_of_isInert (f := f) hcheck code).exists_swap_of_mem hmem hcode
    rw [← Option.some.inj hswap.edit_eq] at htext
    exact not_mem_of_avoids hquote (hq m hswap.isMatch none none) htext
  · intro code _ m hm
    exact absurd hm ((skipsAll_of_isInert hcheck hq code).not_mem_matchesIn trivial)

/-- A rule that replaces matches in code settles if the new text gives rise to no match. -/
theorem settles_of_substitute (hrule : ∀ ctx line, rule.edit? ctx line = substitute p f line)
    (hcheck : isInert p q = true) (hquote : q.avoids '\'' = true)
    (hq : ∀ m, p.Matches m → q.ReadsAnywhere (f m)) : rule.Settles := by
  intro ctx line e _ h
  rw [hrule] at h ⊢
  exact substitute_eq_none hcheck hquote hq h

/-- A rule that replaces matches by the same text everywhere settles if that text gives rise to no
match. -/
theorem settles_of_constant {text : List Char}
    (hrule : ∀ ctx line, rule.edit? ctx line = substitute p (fun _ => text) line)
    (hcheck : isInert p (exactText text) = true) (hquote : (exactText text).avoids '\'' = true) :
    rule.Settles :=
  settles_of_substitute hrule hcheck hquote fun _ _ => .exactText text

/-- A rule that replaces matches anywhere settles if the new text gives rise to no match. -/
theorem settles_of_replaceAnywhere
    (hrule : ∀ ctx line, rule.edit? ctx line = replaceAnywhere p f note line)
    (hcheck : isInert p q = true) (hq : ∀ m, p.Matches m → q.ReadsAnywhere (f m)) :
    rule.Settles := by
  intro ctx line e _ h
  rw [hrule] at h ⊢
  obtain ⟨m, -, rfl⟩ := Option.map_eq_some_iff.1 h
  have hempty : p.readsEmpty = false := by
    simp only [isInert, Bool.and_eq_true, Bool.not_eq_true'] at hcheck
    exact hcheck.1.1.1.1.1.1
  rw [replaceAnywhere, Option.map_eq_none_iff]
  exact (skipsAll_of_isInert hcheck hq line).find?_eq_none (not_reads_nil hempty)

end Rule

end SqlDialect
