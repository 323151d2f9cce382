import SqlDialect.Proofs.Rule.Settled
import SqlDialect.Rule.Catalogue

/-!
# Rules whose new text gives rise to nothing

Most rules replace the matches of a pattern by text that the pattern has nothing to do with, wherever
that text ends up.  What the new text looks like is a pattern as well, and `Pattern.isInert` compares
the two.

The rules about columns with a default keep some of what they have matched, so that the pattern of
their new text has to be written down; most others have but one new text.
-/

namespace SqlDialect.Rule

open Pattern

/-! ### One new text -/

theorem constant_settles : ∀ rule ∈ ([nvarchar, nchar, sizedFloat, longText, paddedChar,
    characterVarying, intDisplayWidth, integer, dateAdd, dateDiff, datePart, ceiling, now] :
      List Rule), rule.Settles := by
  simp only [List.forall_mem_cons, List.not_mem_nil, IsEmpty.forall_iff, implies_true, and_true]
  refine ⟨?_, ?_, ?_, ?_, ?_, ?_, ?_, ?_, ?_, ?_, ?_, ?_, ?_⟩
  all_goals exact settles_of_constant (fun _ _ => rfl) (by decide +kernel) (by decide)

theorem nowLiteral_settles : nowLiteral.Settles :=
  settles_of_replaceAnywhere (fun _ _ => rfl) (by decide +kernel) fun _ _ => .exactText _

theorem defaultZero_settles : defaultZero.Settles :=
  settles_of_replaceAnywhere (fun _ _ => rfl) (by decide +kernel) fun _ _ => .exactText _

theorem createTable_settles : createTable.Settles := by
  intro ctx line edit _ h
  simp only [createTable] at h ⊢
  split at h
  · cases h
  · split
    · rfl
    · exact substitute_eq_none (by decide +kernel) (by decide) (fun _ _ => .exactText _) h

/-! ### New text that keeps groups -/

theorem charLengthUnit_settles : charLengthUnit.Settles := by
  refine settles_of_substitute
    (q := charName ++ exactText ['('] ++ digits ++
      exactText [')'])
    (fun _ _ => rfl) (by decide +kernel) (by decide) fun m hm => ?_
  have htype : charName.ReadsAnywhere (m.textOf "type") :=
    hm.readsAnywhere_textOf rfl rfl rfl
  have hlength : digits.ReadsAnywhere (m.textOf "length") := hm.readsAnywhere_textOf rfl rfl rfl
  exact ((htype.append (.exactText _)).append hlength).append (.exactText _)

theorem json_settles : json.Settles := by
  refine settles_of_substitute (q := typeLead ++ exactText "VARIANT".toList)
    (fun _ _ => rfl) (by decide +kernel) (by decide) fun m hm => ?_
  have hlead : typeLead.ReadsAnywhere (m.textOf "lead") :=
    hm.readsAnywhere_textOf rfl rfl rfl
  exact hlead.append (.exactText _)

theorem identity_settles : identity.Settles := by
  refine settles_of_replaceAnywhere
    (q := exactText " IDENTITY(".toList ++ signedDigits ++ exactText [','] ++ signedDigits ++
      exactText [')'])
    (fun _ _ => rfl) (by decide +kernel) fun m hm => ?_
  have hseed : signedDigits.ReadsAnywhere (m.textOf "seed") := hm.readsAnywhere_textOf rfl rfl rfl
  have hstep : signedDigits.ReadsAnywhere (m.textOf "step") := hm.readsAnywhere_textOf rfl rfl rfl
  exact ((((ReadsAnywhere.exactText _).append hseed).append (.exactText _)).append hstep).append
    (.exactText _)

/-- What a default ends with, apart from the end of the line. -/
def defaultEnd : Pattern := optional (one .blank <|> char ',')

/-- The end of a default is kept, without asking for the end of the line. -/
theorem readsAnywhere_after {a : Pattern} {m : Match} (h : (a ++ afterDefault).Matches m)
    (ha : a.groupsNamed "after" = []) : defaultEnd.ReadsAnywhere (m.textOf "after") := by
  obtain ⟨b, hb, hstretch⟩ := h.stretch_textOf
    (show binds "after" _ = true from Bool.or_eq_true_iff.2 (.inr rfl))
  have hnamed : (a ++ afterDefault).groupsNamed "after" =
      a.groupsNamed "after" ++ [one .blank <|> char ',' <|> lineEnd] := rfl
  rw [hnamed, ha, List.nil_append, List.mem_singleton] at hb
  subst hb
  obtain ⟨before, behind, hblank | hcomma | ⟨hnil, -⟩⟩ := hstretch.exists_reads
  · exact fun _ _ => .inl (.inl hblank)
  · exact fun _ _ => .inl (.inr hcomma)
  · rw [hnil]
    exact fun _ _ => .inr .nil

theorem defaultZeroDate_settles : defaultZeroDate.Settles :=
  settles_of_replaceAnywhere
    (q := zeroDate ++ exactText "::DATE".toList ++
      defaultEnd)
    (fun _ _ => rfl) (by decide +kernel) fun _ hm =>
      ((hm.readsAnywhere_textOf rfl rfl rfl).append (.exactText _)).append
        (readsAnywhere_after hm rfl)

theorem defaultZeroTimestamp_settles : defaultZeroTimestamp.Settles :=
  settles_of_replaceAnywhere
    (q := zeroTimestamp ++ exactText "::TIMESTAMP".toList ++
      defaultEnd)
    (fun _ _ => rfl) (by decide +kernel) fun _ hm =>
      ((hm.readsAnywhere_textOf rfl rfl rfl).append (.exactText _)).append
        (readsAnywhere_after hm rfl)

end SqlDialect.Rule
