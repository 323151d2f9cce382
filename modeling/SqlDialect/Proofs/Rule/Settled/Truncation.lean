import SqlDialect.Proofs.Pattern.Group
import SqlDialect.Proofs.Rule.Settled
import SqlDialect.Rule.Catalogue

/-!
# Truncations of timestamps

The new text for the truncation of a timestamp holds a literal, so that it cuts the code around it in
two.  What is found in one of the stretches holds no quote, and is read in the whole new text as well,
since the pattern cannot tell a quote next to it from an end of the line.
-/

namespace SqlDialect

/-! ### Stretches between quotes -/

namespace Text

theorem exists_of_cutAt_eq {c : Char} {text first : List Char} {others : List (List Char)}
    (h : cutAt c text = first :: others) :
    (∃ b, text = first ++ b ∧ (b = [] ∨ b.head? = some c)) ∧
      ∀ piece ∈ others, ∃ a b, text = a ++ (piece ++ b) ∧ a.getLast? = some c ∧
        (b = [] ∨ b.head? = some c) := by
  induction text generalizing first others with
  | nil =>
    rw [cutAt, List.cons.injEq] at h
    obtain ⟨rfl, rfl⟩ := h
    exact ⟨⟨[], rfl, .inl rfl⟩, by simp⟩
  | cons x text ih =>
    obtain ⟨own, rest, hpieces⟩ := List.exists_cons_of_ne_nil (cutAt_ne_nil c text)
    obtain ⟨⟨b, hown, hb⟩, hrest⟩ := ih hpieces
    by_cases hx : x = c
    · subst hx
      rw [cutAt_cons_self, hpieces, List.cons.injEq] at h
      obtain ⟨rfl, rfl⟩ := h
      refine ⟨⟨x :: text, rfl, .inr rfl⟩, fun piece hpiece => ?_⟩
      rcases List.mem_cons.1 hpiece with rfl | hpiece
      · exact ⟨[x], b, by rw [hown]; rfl, rfl, hb⟩
      · obtain ⟨a, b, rfl, ha, hb⟩ := hrest piece hpiece
        exact ⟨x :: a, b, rfl, by rw [List.getLast?_cons, ha]; rfl, hb⟩
    · rw [cutAt_cons_of_ne hx, hpieces, List.modifyHead_cons, List.cons.injEq] at h
      obtain ⟨rfl, rfl⟩ := h
      refine ⟨⟨b, by rw [hown]; rfl, hb⟩, fun piece hpiece => ?_⟩
      obtain ⟨a, b, rfl, ha, hb⟩ := hrest piece hpiece
      exact ⟨x :: a, b, rfl, by rw [List.getLast?_cons, ha]; rfl, hb⟩

/-- A piece of a text that is cut stands between the characters at which it is cut, or ends of the
text. -/
theorem exists_of_mem_cutAt {c : Char} {text piece : List Char} (h : piece ∈ cutAt c text) :
    ∃ a b, text = a ++ (piece ++ b) ∧ (a = [] ∨ a.getLast? = some c) ∧
      (b = [] ∨ b.head? = some c) := by
  obtain ⟨first, others, hpieces⟩ := List.exists_cons_of_ne_nil (cutAt_ne_nil c text)
  obtain ⟨⟨b, hfirst, hb⟩, hothers⟩ := exists_of_cutAt_eq hpieces
  rw [hpieces] at h
  rcases List.mem_cons.1 h with rfl | h
  · exact ⟨[], b, hfirst, .inl rfl, hb⟩
  · obtain ⟨a, b, htext, ha, hb⟩ := hothers piece h
    exact ⟨a, b, htext, .inr ha, hb⟩

theorem mem_of_mem_trim {c : Char} {text : List Char} (h : c ∈ trim text) : c ∈ text :=
  (List.dropWhile_suffix _).subset ((List.rdropWhile_prefix _ _).subset h)

end Text

namespace Pattern

variable {p q : Pattern} {before behind : Option Char} {text line new : List Char}

/-- What is read nowhere in a text, up to what holds quotes, is read nowhere in its code. -/
theorem SkipsAll.of_codePieces (h : p.SkipsAll (fun text => '\'' ∉ text) none line)
    (htells : p.tells .edge .other = false) {piece : List Char}
    (hpiece : piece ∈ Literal.codePieces line) : p.SkipsAll (fun _ => True) none piece := by
  obtain ⟨x, y, rfl, hx, hy⟩ := Text.exists_of_mem_cutAt
    (Literal.mem_of_mem_everyOther (List.mem_filter.1 hpiece).1)
  have hquote := Literal.not_mem_of_mem_codePieces hpiece
  rintro a b rfl text rest rfl hne hreads -
  have hbefore : p.tells (.of (a.getLast?.or none)) (.of ((x ++ a).getLast?.or none)) = false := by
    rw [getLast?_append_or]
    refine tells_getLast?_or ?_ a
    rcases hx with rfl | hx
    · exact tells_self p _
    · rw [hx]
      exact htells
  have hbehind : p.tells (.of rest.head?) (.of (rest ++ y).head?) = false := by
    rw [List.head?_append, ← Option.or_none (o := rest.head?), Option.or_assoc, Option.none_or]
    refine tells_head?_or ?_ rest
    rcases hy with rfl | hy
    · exact tells_self p _
    · rw [hy]
      exact htells
  refine h (x ++ a) (text ++ (rest ++ y)) (by simp) text (rest ++ y) rfl hne
    (reads_of_tells hbefore hbehind hreads) ?_
  simp_all

/-! ### Texts without a character -/

end Pattern

/-- The set without the character, if it is a set of all characters but some. -/
def CharSet.without (c : Char) : CharSet → CharSet
  | except (oneOf others) => except (oneOf (c :: others))
  | set => set

theorem CharSet.mem_without {set : CharSet} {c d : Char} (hd : d ≠ c) (h : set.mem d = true) :
    (set.without c).mem d = true := by
  cases set with
  | except a => cases a <;> simp_all [without, mem]
  | _ => exact h

namespace Pattern

variable {p q : Pattern} {before behind : Option Char} {text line new : List Char}

/-- The pattern with the character left out of its sets. -/
def without (c : Char) : Pattern → Pattern
  | chars sets => chars (sets.map (CharSet.without c))
  | seq a b => seq (a.without c) (b.without c)
  | alt a b => alt (a.without c) (b.without c)
  | many greedy a => many greedy (a.without c)
  | group name a => group name (a.without c)
  | lineStart => lineStart
  | lineEnd => lineEnd
  | boundary => boundary

theorem reads_without {c : Char} (h : p.Reads before text behind) (hc : c ∉ text) :
    (p.without c).Reads before text behind := by
  induction p generalizing before behind text with
  | chars sets =>
    rw [Reads] at h
    rw [without, Reads, List.forall₂_map_left_iff]
    induction h with
    | nil => exact .nil
    | cons hd _ ih =>
      rw [List.mem_cons, not_or] at hc
      exact .cons (CharSet.mem_without (Ne.symm hc.1) hd) (ih hc.2)
  | lineStart | lineEnd | boundary => exact h
  | seq a b iha ihb =>
    obtain ⟨s, t, rfl, ha, hb⟩ := h
    rw [List.mem_append, not_or] at hc
    exact ⟨s, t, rfl, iha ha hc.1, ihb hb hc.2⟩
  | alt a b iha ihb => exact h.imp (iha · hc) (ihb · hc)
  | many greedy a ih =>
    rw [Reads] at h
    generalize hreads : a.Reads = r at h
    induction h with
    | nil => exact .nil _ _
    | cons hne first _ ihmore =>
      subst hreads
      rw [List.mem_append, not_or] at hc
      exact .cons hne (ih first hc.1) (ihmore hc.2)
  | group name a ih => exact ih h hc

/-! ### Values -/

/-- A value has three parts, of which the second is in parentheses if there is anything in it. -/
theorem reads_value_iff : Rule.truncatedValue.Reads before text behind ↔
    ∃ x y z, text = x ++ (y ++ z) ∧ (∀ c ∈ x, (CharSet.noneOf "()").mem c = true) ∧
      (Rule.flatParens.Reads none y none ∨ y = []) ∧
      ∀ c ∈ z, (CharSet.noneOf "()").mem c = true := by
  constructor
  · rintro ⟨_, z, rfl, ⟨x, y, rfl, hx, hy⟩, hz⟩
    refine ⟨x, y, z, List.append_assoc _ _ _, reads_star_one_iff.1 hx, ?_,
      reads_star_one_iff.1 hz⟩
    rcases hy with hy | hy
    · exact .inl (reads_of_isFree rfl hy _ _)
    · exact .inr (List.forall₂_nil_left_iff.1 hy)
  · rintro ⟨x, y, z, rfl, hx, hy, hz⟩
    refine ⟨x ++ y, z, (List.append_assoc _ _ _).symm,
      ⟨x, y, rfl, reads_star_one_iff.2 hx, ?_⟩, reads_star_one_iff.2 hz⟩
    rcases hy with hy | rfl
    · exact .inl (reads_of_isFree rfl hy _ _)
    · exact .inr .nil

theorem exists_of_reads_flatParens (h : Rule.flatParens.Reads before text behind) :
    ∃ inner, text = '(' :: (inner ++ [')']) := by
  obtain ⟨_, _, rfl, ⟨_, inner, rfl, hopen, -⟩, hclose⟩ := h
  rw [reads_char_iff] at hopen hclose
  exact ⟨inner, by rw [hopen, hclose]; simp⟩

/-- A value without the white space before it is a value. -/
theorem reads_value_of_cons {c : Char} (hc : Text.isBlank c = true)
    (h : Rule.truncatedValue.Reads none (c :: text) none) : Rule.truncatedValue.Reads none text none := by
  obtain ⟨x, y, z, hsplit, hx, hy, hz⟩ := reads_value_iff.1 h
  cases x with
  | cons d x =>
    obtain ⟨rfl, rfl⟩ := List.cons.inj hsplit
    exact reads_value_iff.2 ⟨x, y, z, rfl, fun e he => hx e (List.mem_cons_of_mem _ he), hy, hz⟩
  | nil =>
    rcases hy with hy | rfl
    · obtain ⟨inner, rfl⟩ := exists_of_reads_flatParens hy
      obtain ⟨rfl, -⟩ := List.cons.inj hsplit
      cases hc
    · rw [List.nil_append, List.nil_append] at hsplit
      subst hsplit
      exact reads_value_iff.2
        ⟨[], [], text, rfl, hx, .inr rfl, fun e he => hz e (List.mem_cons_of_mem _ he)⟩

/-- A value without the white space behind it is a value. -/
theorem reads_value_of_concat {c : Char} (hc : Text.isBlank c = true)
    (h : Rule.truncatedValue.Reads none (text ++ [c]) none) : Rule.truncatedValue.Reads none text none := by
  obtain ⟨x, y, z, hsplit, hx, hy, hz⟩ := reads_value_iff.1 h
  rcases z.eq_nil_or_concat' with rfl | ⟨z, d, rfl⟩
  · rcases hy with hy | rfl
    · obtain ⟨inner, rfl⟩ := exists_of_reads_flatParens hy
      rw [List.append_nil, ← List.cons_append, ← List.append_assoc] at hsplit
      obtain ⟨-, hlast⟩ := List.append_inj' hsplit rfl
      obtain rfl : c = ')' := by simpa using hlast
      cases hc
    · rw [List.append_nil, List.append_nil] at hsplit
      subst hsplit
      exact reads_value_iff.2 ⟨text, [], [], by simp,
        fun e he => hx e (List.mem_append_left _ he), .inr rfl, hz⟩
  · rw [← List.append_assoc, ← List.append_assoc] at hsplit
    obtain ⟨rfl, -⟩ := List.append_inj' hsplit rfl
    exact reads_value_iff.2 ⟨x, y, z, List.append_assoc _ _ _, hx, hy,
      fun e he => hz e (List.mem_append_left _ he)⟩

theorem reads_value_trim (h : Rule.truncatedValue.Reads none text none) :
    Rule.truncatedValue.Reads none (Text.trim text) none := by
  have hstart : Rule.truncatedValue.Reads none (Text.trimStart text) none := by
    induction text with
    | nil => exact h
    | cons c text ih =>
      rw [Text.trimStart, List.dropWhile_cons]
      split
      · rename_i hc
        exact ih (reads_value_of_cons hc h)
      · exact h
  rw [Text.trim]
  generalize Text.trimStart text = start at hstart
  induction start using List.reverseRecOn with
  | nil => exact hstart
  | append_singleton start c ih =>
    by_cases hc : Text.isBlank c = true
    · rw [Text.trimEnd_eq, List.rdropWhile_concat_pos _ _ _ hc, ← Text.trimEnd_eq]
      exact ih (reads_value_of_concat hc hstart)
    · rw [Text.trimEnd_concat (by simpa using hc)]
      exact hstart

/-! ### Closed literals -/

/-- A line without quotes has closed literals when texts with closed literals have been put into
it. -/
theorem Rewritten.isClosed {wanted : List Char → Prop} {edit : Match → Option (List Char)}
    (h : p.Rewritten wanted edit before line new) (hline : '\'' ∉ line)
    (hedit : ∀ {before m rest text}, p.Swap edit before m rest text → '\'' ∉ m.text →
      Literal.isClosed text = true) : Literal.isClosed new = true := by
  induction h with
  | nil => rfl
  | keep _ _ ih =>
    rw [List.mem_cons, not_or] at hline
    rw [Literal.isClosed, List.count_cons_of_ne (Ne.symm hline.1), ← Literal.isClosed]
    exact ih hline.2
  | swap hswap _ ih =>
    rw [List.mem_append, not_or] at hline
    have htext := hedit hswap hline.1
    have hnew := ih hline.2
    rw [Literal.isClosed, beq_iff_eq] at htext hnew ⊢
    rw [List.count_append]
    omega

end Pattern

namespace Rule

open Pattern

/-- The truncation of a value to its day. -/
def truncatedDay : Pattern := exactText "DATE_TRUNC('DAY', ".toList ++ Rule.truncatedValue ++ exactText [')']

theorem readsAnywhere_dayOf {m : Match} (hm : truncation.Matches m) :
    truncatedDay.ReadsAnywhere (dayOf m) := by
  have hvalue : Rule.truncatedValue.ReadsAnywhere (m.textOf "value") := hm.readsAnywhere_textOf rfl rfl rfl
  have htrim : Rule.truncatedValue.ReadsAnywhere (Text.trim (m.textOf "value")) :=
    fun _ _ => reads_of_isFree rfl (reads_value_trim (hvalue none none)) _ _
  exact ((ReadsAnywhere.exactText _).append htrim).append (.exactText _)

/-- The new text of a match without quotes has one literal. -/
theorem isClosed_dayOf {m : Match} (hm : truncation.Matches m) (hquote : '\'' ∉ m.text) :
    Literal.isClosed (dayOf m) = true := by
  have haround : (truncation.around "value").isSome = true := by decide
  obtain ⟨⟨l, g, r⟩, haround⟩ := Option.isSome_iff_exists.1 haround
  obtain ⟨place, hmatch⟩ := hm
  obtain ⟨s, u, rest, -, htext, -⟩ := exists_parts_of_matchAt haround hmatch
  have hvalue : '\'' ∉ Text.trim (m.textOf "value") := by
    intro hmem
    refine hquote ?_
    rw [htext]
    simp [Text.mem_of_mem_trim hmem]
  have hname : "DATE_TRUNC('DAY', ".toList.count '\'' = 2 := by decide
  unfold dayOf
  generalize "DATE_TRUNC('DAY', ".toList = name at hname ⊢
  simp [Literal.isClosed, hname, List.count_eq_zero.2 hvalue]

theorem truncTimestamp_settles : truncTimestamp.Settles := by
  have hdescribes : Describes truncation (truncation.without '\'') truncatedDay
      (fun text => '\'' ∉ text) (fun m => some (dayOf m)) :=
    ⟨fun h hquote => reads_without h hquote,
      fun hm htext => Option.some.inj htext ▸ readsAnywhere_dayOf hm, by decide⟩
  have hinert := hdescribes.inert (by decide) (by decide) (by decide)
    (by decide) (by decide)
  have hrewritten (code : List Char) : truncation.Rewritten (fun text => '\'' ∉ text)
      (fun m => some (dayOf m)) none code (truncation.replaceIn dayOf code) :=
    rewritten_replaceIn (fun _ _ h => absurd h (by simp))
      (not_reads_nil (by decide)) code
  intro ctx line edit _ h
  change substitute truncation dayOf line = some edit at h
  change substitute truncation dayOf edit.line = none
  obtain ⟨⟨new, own⟩, hcode, rfl⟩ := Option.map_eq_some_iff.1 h
  obtain rfl := Literal.line_of_editCode hcode
  rw [substitute, Option.map_eq_none_iff]
  refine Literal.editCode_eq_none_iff.2 fun piece hpiece m hm => ?_
  obtain ⟨code, hcode, hpiece⟩ := Literal.mem_codePieces_mapCode (fun code hcode =>
    (hrewritten code).isClosed (Literal.not_mem_of_mem_codePieces hcode)
      fun hswap hquote => Option.some.inj hswap.edit_eq ▸ isClosed_dayOf hswap.isMatch hquote)
    hpiece
  have hskips := (hinert.skipsAll (hrewritten code)).of_codePieces (by decide) hpiece
  exact absurd hm (hskips.not_mem_matchesIn trivial)

end Rule

end SqlDialect
