import SqlDialect.Proofs.Pattern.Place
import SqlDialect.Proofs.Pattern.Raised
import SqlDialect.Proofs.Rule.Settled
import SqlDialect.Rule.Expression

/-!
# Names in upper case

The rule about qualified names only changes the case of letters, which the search does not see, so that
it comes upon the same chains of names again (`Pattern.exists_of_mem_matchesIn_raised`).  By then they
are in upper case.
-/

namespace SqlDialect.Rule

open Pattern

variable {m n : Match} {code : List Char}

/-- The chain of a match is all of it. -/
theorem text_of_chain (hm : placeholderOrChain.Matches m) {chain : Group}
    (hchain : m.group? "chain" = some chain) : chain.text = m.text := by
  obtain ⟨place, hmatch⟩ := hm
  obtain ⟨o, ho, htext, -, hgroups⟩ := exists_outcome_of_matchAt hmatch
  have hmem : chain ∈ o.2 := hgroups ▸ List.mem_of_find?_eq_some hchain
  have hname : chain.name = "chain" := by simpa using List.find?_some hchain
  rcases mem_outcomes_alt.1 (List.mem_of_mem_head? ho) with ho | ho
  · -- a placeholder has no groups
    have := mem_groups_of_groupsNamed_eq_nil ho hmem (by rw [hname]; decide)
    cases this
  · rcases eq_of_mem_groups_group ho hmem (by rw [hname]; decide) with rfl | hnone
    · exact htext.between_eq
    · cases hnone

theorem raisedName_of_none (h : m.group? "chain" = none) : raisedName m = none := by
  rw [raisedName, h]
  rfl

theorem raisedName_of_chain (hm : placeholderOrChain.Matches m) {chain : Group}
    (hchain : m.group? "chain" = some chain) :
    raisedName m = if m.text.any Char.isLower then some (m.text.map Char.toUpper) else none := by
  rw [raisedName, hchain, ← text_of_chain hm hchain]
  rfl

theorem forall₂_raisedName (hm : placeholderOrChain.Matches m) :
    List.Forall₂ Text.Raised m.text ((raisedName m).getD m.text) := by
  cases hchain : m.group? "chain" with
  | none =>
    rw [raisedName_of_none hchain]
    exact Text.forall₂_raised_refl m.text
  | some chain =>
    rw [raisedName_of_chain hm hchain]
    split
    · exact Text.forall₂_raised_map_toUpper m.text
    · exact Text.forall₂_raised_refl m.text

theorem isLower_toUpper (c : Char) : c.toUpper.isLower = false := by
  refine Text.toUpper_induction (motive := fun _ d => d.isLower = false) (by decide) ?_ c
  intro c hc
  change (decide (c.val ≥ 'a'.val) && decide (c.val ≤ 'z'.val)) = false
  rw [Bool.and_eq_false_iff, decide_eq_false_iff_not, decide_eq_false_iff_not]
  refine .inr fun hlower => absurd (UInt32.le_iff_toNat_le.1 hlower) (Nat.not_le.2 ?_)
  exact Nat.lt_of_lt_of_le (by decide) hc

/-- No chain of names with lower-case letters comes of a chain. -/
theorem isLower_raisedName (hm : placeholderOrChain.Matches m) {chain : Group}
    (hchain : m.group? "chain" = some chain) :
    ((raisedName m).getD m.text).any Char.isLower = false := by
  rw [raisedName_of_chain hm hchain]
  split
  · rw [Option.getD_some, List.any_map, List.any_eq_false]
    intro c _
    exact Bool.eq_false_iff.1 (isLower_toUpper c)
  · rename_i hlower
    simpa using hlower

theorem group?_of_raised (h : m.Raised n) {name : String} {g : Group}
    (hgroup : n.group? name = some g) : ∃ g', m.group? name = some g' := by
  obtain ⟨g', hg', hraised⟩ := exists_of_mem_right h.groups (List.mem_of_find?_eq_some hgroup)
  have hname : (g'.name == name) = true := by
    have hfound := List.find?_some hgroup
    rwa [← hraised.name] at hfound
  exact Option.isSome_iff_exists.1 (List.find?_isSome.2 ⟨g', hg', hname⟩)

theorem raisedName_of_mem_matchesIn
    (hn : n ∈ placeholderOrChain.matchesIn
      (placeholderOrChain.replaceIn (fun m => (raisedName m).getD m.text) code)) :
    raisedName n = none := by
  have hn' := matches_of_mem_matchesIn hn
  cases hchain : n.group? "chain" with
  | none => exact raisedName_of_none hchain
  | some chain =>
    obtain ⟨m, hm, hraised, htext⟩ := exists_of_mem_matchesIn_raised (by decide +kernel)
      (fun m hm => forall₂_raisedName hm) hn
    obtain ⟨chain', hchain'⟩ := group?_of_raised hraised hchain
    have hlower := isLower_raisedName (matches_of_mem_matchesIn hm).1 hchain'
    rw [raisedName_of_chain hn'.1 hchain, htext, hlower]
    rfl

theorem qualifiedNameCase_settles : qualifiedNameCase.Settles := by
  refine settles_of_guarded (substituteSome placeholderOrChain raisedName) (fun ctx line => ?_)
    fun line e _ h => ?_
  · unfold qualifiedNameCase
    dsimp only
    split
    · exact .inl rfl
    · exact .inr rfl
  · refine substituteSome_eq_none raisedName (fun code hcode => ?_) (fun code _ m hm => ?_) h
    · exact CharSet.not_mem_of_raised (by decide)
        (forall₂_raised_replaceIn (fun m hm => forall₂_raisedName hm) code) hcode
    · exact raisedName_of_mem_matchesIn hm

end SqlDialect.Rule
