import DiceNotation.Proofs.Coverage
import DiceNotation.Proofs.Shares
import DiceNotation.Proofs.Strictness

/-!
Usable texts are those of which at least half is understood.

* `isUsable_iff`: usable is what can be read, has a term and is covered by one half;
* `half_le_coverage_iff`: the coverage of a text of fewer than 2^53 characters is one half or more
  just where no more is skipped than recognized, however it was rounded;
* `half_le_coverage_of_unskipped`: where nothing is skipped the text may be longer;
* `usable_iff_half_understood`: both in the words of the text and its diagnostics.
-/
namespace DiceNotation
set_option autoImplicit false

theorem isUsable_iff (text : String) :
    isUsable text = true ↔ ∃ formula, Formula.ofText text = .ok formula ∧ formula.terms ≠ [] ∧
      formula.coverage ≥ 0.5 := by
  unfold isUsable
  cases Formula.ofText text with
  | error error =>
    constructor
    · intro h
      cases h
    · rintro ⟨_, h, -⟩
      cases h
  | ok formula =>
    simp only [Bool.and_eq_true, Bool.not_eq_true', Formula.isEmpty, List.isEmpty_eq_false_iff,
      decide_eq_true_eq]
    constructor
    · intro h
      exact ⟨formula, rfl, h⟩
    · rintro ⟨_, ⟨⟩, h⟩
      exact h

/-! ## Coverage -/

section Coverage
variable {formula : Formula}

theorem coverage_eq (hpos : 0 < formula.recognized + formula.skipped)
    (hlt : formula.recognized + formula.skipped < 18446744073709551616) :
    formula.coverage = (UInt64.ofNat formula.recognized).toFloat /
      (UInt64.ofNat (formula.recognized + formula.skipped)).toFloat := by
  refine if_neg fun hzero => ?_
  have hword := congrArg UInt64.toNat hzero
  rw [UInt64.toNat_ofNat_of_lt' hlt] at hword
  exact Nat.ne_of_gt hpos hword

theorem half_le_coverage_iff (hpos : 0 < formula.recognized + formula.skipped)
    (hlt : formula.recognized + formula.skipped < 9007199254740992) :
    formula.coverage ≥ 0.5 ↔ 2 * formula.skipped ≤ formula.recognized + formula.skipped := by
  rw [coverage_eq hpos (by omega), half_le_share hpos hlt (Nat.le_add_right ..)]
  omega

theorem half_le_coverage_of_unskipped (hpos : 0 < formula.recognized)
    (hlt : formula.recognized < 18446744073709551616) (hskipped : formula.skipped = 0) :
    formula.coverage ≥ 0.5 := by
  rw [coverage_eq (by omega) (by omega), hskipped, Nat.add_zero]
  exact half_le_self hpos hlt

end Coverage

/-! ## Texts -/

/-- The counters of a reading tell its visible characters, and there is one for each term. -/
theorem counts_of_ofText {text : String} {options : ReadOptions} {formula : Formula}
    (h : Formula.ofText text options = .ok formula) :
    formula.recognized + formula.skipped = (visible text.toList).length ∧
      formula.recognized + formula.skipped ≤ text.length ∧
      (formula.terms ≠ [] → 0 < formula.recognized) := by
  obtain ⟨htotal, hterms⟩ := (placed_segments text.toList).counts h
  rw [Nat.zero_add] at htotal
  refine ⟨htotal, ?_, fun hne => ?_⟩
  · rw [htotal, ← String.length_toList]
    exact List.length_filter_le _ _
  · exact Nat.lt_of_lt_of_le (List.length_pos_iff.mpr hne) hterms

theorem ofText_strictly_iff (text : String) (formula : Formula) :
    Formula.ofText text .strictly = .ok formula ↔
      Formula.ofText text = .ok formula ∧ formula.diagnostics = [] :=
  (agree_ofSegments Term.maxCount (segments (lexemes text.toList))).ok_iff formula

/-- A text of fewer than 2^53 characters is usable just where a lenient reading finds a term in it
and its skipped stretches are at most half of its visible characters. A text in which a strict
reading finds a term is usable at any length that a word can count. -/
theorem usable_iff_half_understood (text : String) :
    (text.length < 9007199254740992 →
      (isUsable text = true ↔ ∃ formula, Formula.ofText text = .ok formula ∧ formula.terms ≠ [] ∧
        2 * (formula.skips.flatMap fun skip => skip.text.toList).length ≤
          (visible text.toList).length)) ∧
    (text.length < 18446744073709551616 → ∀ formula,
      Formula.ofText text .strictly = .ok formula → formula.terms ≠ [] → isUsable text = true) := by
  constructor
  · intro hlength
    rw [isUsable_iff]
    refine exists_congr fun formula => and_congr_right fun hread => and_congr_right fun hne => ?_
    obtain ⟨htotal, hle, hpos⟩ := counts_of_ofText hread
    rw [← skipped_of_ofSegments hread, ← htotal]
    have hrecognized := hpos hne
    exact half_le_coverage_iff (by omega) (by omega)
  · intro hlength formula hstrict hne
    obtain ⟨hread, hnil⟩ := (ofText_strictly_iff text formula).mp hstrict
    obtain ⟨-, hle, hpos⟩ := counts_of_ofText hread
    have hskipped : formula.skipped = 0 := by
      rw [skipped_of_ofSegments hread, Formula.skips, hnil]
      rfl
    exact (isUsable_iff text).mpr ⟨formula, hread, hne,
      half_le_coverage_of_unskipped (hpos hne) (by omega) hskipped⟩

/-- Half of the first text is skipped, and more of the second; of the third nothing is. -/
theorem usable_iff_half_understood_boundary :
    isUsable "2d6 xyz" = true ∧ ¬isUsable "2d6 wxyz" = true ∧ isUsable "d20 - 1" = true := by
  have hhalf : ((Formula.ofText "2d6 xyz").map fun formula => (formula.terms.isEmpty,
      formula.skips.flatMap fun skip => skip.text.toList)).toOption =
        some (false, ['x', 'y', 'z']) := by decide +kernel
  have hless : ((Formula.ofText "2d6 wxyz").map fun formula =>
      formula.skips.flatMap fun skip => skip.text.toList).toOption =
        some ['w', 'x', 'y', 'z'] := by decide +kernel
  have hstrict : ((Formula.ofText "d20 - 1" .strictly).map fun formula =>
      formula.terms.isEmpty).toOption = some false := by decide +kernel
  refine ⟨((usable_iff_half_understood "2d6 xyz").1 (by decide)).mpr ?_, fun husable => ?_, ?_⟩
  · obtain ⟨formula, hread, hshown⟩ := exists_ok_of_shown hhalf
    obtain ⟨hterms, hskips⟩ := Prod.mk.inj hshown
    refine ⟨formula, hread, List.isEmpty_eq_false_iff.mp hterms, ?_⟩
    rw [hskips]
    decide
  · obtain ⟨formula, hread, -, hle⟩ :=
      ((usable_iff_half_understood "2d6 wxyz").1 (by decide)).mp husable
    rw [hread] at hless
    have hskips : (formula.skips.flatMap fun skip => skip.text.toList) = ['w', 'x', 'y', 'z'] :=
      Option.some.inj hless
    rw [hskips] at hle
    exact absurd hle (by decide)
  · obtain ⟨formula, hread, hterms⟩ := exists_ok_of_shown hstrict
    exact (usable_iff_half_understood "d20 - 1").2 (by decide) formula hread
      (List.isEmpty_eq_false_iff.mp hterms)

end DiceNotation
