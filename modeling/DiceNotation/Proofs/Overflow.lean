import DiceNotation.Proofs.Rounding
import DiceNotation.Proofs.RoundTrip
import DiceNotation.Proofs.Usability
import DiceNotation.Proofs.Validity

/-!
Coverage as a share, and where the sum of its two counters overflows.

The counters of a text add up to its visible characters, so their sum fits a word. Counters from
JSON are any two words, and a sum of these that does not fit comes out below the recognized part.

* `Formula.measured`: the total that a word keeps of the counters;
* `Formula.IsShare`: the recognized part is not above that total, and the coverage is from zero to
  one;
* `isShare_iff`: this holds just where the sum fits a word; `coverage_of_overflow` says what the
  coverage is elsewhere;
* `Formula.Arises`: the ways to get a formula, and `arises_of_fitsWord`: from JSON the counters are
  any two words;
* `coverage_is_share_unless_overflow`: what this says of every formula that arises.
-/
namespace DiceNotation
set_option autoImplicit false

open Json

/-- The total by which the coverage divides: what a word keeps of the sum of the counters. -/
def Formula.measured (formula : Formula) : Nat :=
  (UInt64.ofNat (formula.recognized + formula.skipped)).toNat

structure Formula.IsShare (formula : Formula) : Prop where
  recognized_le : formula.recognized ≤ formula.measured
  zero_le : 0 ≤ formula.coverage
  le_one : formula.coverage ≤ 1

/-! ## Counters -/

section Counters
variable {formula : Formula}

theorem measured_eq (formula : Formula) :
    formula.measured = (formula.recognized + formula.skipped) % 18446744073709551616 :=
  UInt64.toNat_ofNat'

theorem measured_eq_zero_iff :
    formula.measured = 0 ↔ UInt64.ofNat (formula.recognized + formula.skipped) = 0 :=
  UInt64.toNat_inj (b := 0)

theorem coverage_of_measured_eq_zero (h : formula.measured = 0) : formula.coverage = 0 :=
  if_pos (measured_eq_zero_iff.mp h)

theorem coverage_eq_share (h : formula.measured ≠ 0) :
    formula.coverage = (UInt64.ofNat formula.recognized).toFloat /
      (UInt64.ofNat formula.measured).toFloat := by
  rw [Formula.measured, UInt64.ofNat_toNat]
  exact if_neg fun hzero => h (measured_eq_zero_iff.mpr hzero)

theorem isShare_of_recognized_le (hle : formula.recognized ≤ formula.measured) :
    formula.IsShare := by
  have hlt : formula.measured < 18446744073709551616 := by
    rw [measured_eq]
    exact Nat.mod_lt _ (by decide)
  by_cases hzero : formula.measured = 0
  · refine ⟨hle, ?_, ?_⟩ <;> rw [coverage_of_measured_eq_zero hzero, le_iff_unpack] <;> rfl
  · have hpos := Nat.pos_of_ne_zero hzero
    refine ⟨hle, ?_, ?_⟩ <;> rw [coverage_eq_share hzero]
    · exact zero_le_share (Nat.lt_of_le_of_lt hle hlt) hpos hlt
    · exact share_le_one hpos hlt hle

theorem isShare_of_lt (hlt : formula.recognized + formula.skipped < 18446744073709551616) :
    formula.IsShare := by
  refine isShare_of_recognized_le ?_
  rw [measured_eq, Nat.mod_eq_of_lt hlt]
  exact Nat.le_add_right ..

/-- A sum that does not fit loses 2^64, which is more than the skipped part. -/
theorem measured_lt_recognized (hskipped : formula.skipped < 18446744073709551616)
    (hrecognized : formula.recognized < 18446744073709551616)
    (hle : 18446744073709551616 ≤ formula.recognized + formula.skipped) :
    formula.measured < formula.recognized := by
  rw [measured_eq]
  omega

theorem isShare_iff (hrecognized : formula.recognized < 18446744073709551616)
    (hskipped : formula.skipped < 18446744073709551616) :
    formula.IsShare ↔ formula.recognized + formula.skipped < 18446744073709551616 := by
  refine ⟨fun hshare => ?_, isShare_of_lt⟩
  by_contra hle
  have hless := measured_lt_recognized hskipped hrecognized (Nat.le_of_not_lt hle)
  have hle := hshare.recognized_le
  omega

/-- After an overflow the coverage is zero if nothing is left of the sum, and one or more if the
recognized part is divided by what is left. -/
theorem coverage_of_overflow (hrecognized : formula.recognized < 18446744073709551616)
    (hskipped : formula.skipped < 18446744073709551616)
    (hle : 18446744073709551616 ≤ formula.recognized + formula.skipped) :
    if formula.measured = 0 then formula.coverage = 0 else 1 ≤ formula.coverage := by
  have hless := measured_lt_recognized hskipped hrecognized hle
  split
  · next hzero => exact coverage_of_measured_eq_zero hzero
  · next hne =>
    rw [coverage_eq_share hne]
    exact one_le_share (Nat.pos_of_ne_zero hne) hrecognized (Nat.le_of_lt hless)

end Counters

/-! ## Counters from texts and from JSON -/

theorem sum_lt_of_ofText {text : String} {options : ReadOptions} {formula : Formula}
    (hlength : text.length < 18446744073709551616)
    (h : Formula.ofText text options = .ok formula) :
    formula.recognized + formula.skipped < 18446744073709551616 :=
  Nat.lt_of_le_of_lt (counts_of_ofText h).2.1 hlength

theorem lt_of_word64 {json : Json} {n : Nat} (h : word64 json = .ok n) :
    n < 18446744073709551616 := by
  obtain ⟨value, hvalue, rfl⟩ := map_eq_ok.mp h
  obtain ⟨-, hlow, hhigh⟩ := integerIn_eq_ok_iff.mp hvalue
  omega

theorem counters_fit_of_ofJson {json : Json} {formula : Formula}
    (h : Formula.ofJson json = .ok formula) :
    formula.recognized < 18446744073709551616 ∧ formula.skipped < 18446744073709551616 := by
  have hshows := Formula.ofJson_eq_ok_iff.mp h
  obtain ⟨recognized, -, hrecognized⟩ := hshows.exists_within (.tail _ (.tail _ (.head _))) id
  obtain ⟨skipped, -, hskipped⟩ :=
    hshows.exists_within (.tail _ (.tail _ (.tail _ (.head _)))) id
  exact ⟨lt_of_word64 hrecognized, lt_of_word64 hskipped⟩

/-! ## Every formula -/

/-- The ways to get a formula. No text has as many characters as a word can count. -/
inductive Formula.Arises (formula : Formula) : Prop
  | ofText (text : String) (options : ReadOptions) (hlength : text.length < 18446744073709551616)
      (h : Formula.ofText text options = .ok formula)
  | ofTerms (terms : List Term) (h : formula = { terms := terms })
  | ofJson (json : Json) (h : Formula.ofJson json = .ok formula)

/-- Counters and offsets are all possible. -/
theorem arises_of_fitsWord {formula : Formula} (h : formula.FitsWord) : formula.Arises :=
  .ofJson formula.toJson (Formula.ofJson_toJson h)

namespace Formula.Arises
variable {formula : Formula}

/-- Only in formulas from JSON the sum of the counters may overflow. -/
theorem sum_lt_or_exists_json (h : formula.Arises) :
    formula.recognized + formula.skipped < 18446744073709551616 ∨
      ∃ json, Formula.ofJson json = .ok formula := by
  cases h with
  | ofText text options hlength hread => exact .inl (sum_lt_of_ofText hlength hread)
  | ofTerms terms heq =>
    rw [heq]
    exact .inl (show 0 < 18446744073709551616 by decide)
  | ofJson json hdecoded => exact .inr ⟨json, hdecoded⟩

theorem counters_fit (h : formula.Arises) :
    formula.recognized < 18446744073709551616 ∧ formula.skipped < 18446744073709551616 := by
  rcases h.sum_lt_or_exists_json with hlt | ⟨json, hdecoded⟩
  · exact ⟨by omega, by omega⟩
  · exact counters_fit_of_ofJson hdecoded

end Formula.Arises

/-- However a formula was made, its coverage is a share just where the sum of its counters fits a
word. Where it does not, the formula is from JSON and the coverage is zero, one or more than one. -/
theorem coverage_is_share_unless_overflow {formula : Formula} (h : formula.Arises) :
    (formula.IsShare ↔ formula.recognized + formula.skipped < 18446744073709551616) ∧
    (18446744073709551616 ≤ formula.recognized + formula.skipped →
      (∃ json, Formula.ofJson json = .ok formula) ∧
        if formula.measured = 0 then formula.coverage = 0 else 1 ≤ formula.coverage) := by
  obtain ⟨hrecognized, hskipped⟩ := h.counters_fit
  refine ⟨isShare_iff hrecognized hskipped, fun hle => ⟨?_, ?_⟩⟩
  · rcases h.sum_lt_or_exists_json with hlt | hjson
    · exact absurd hlt (Nat.not_lt.mpr hle)
    · exact hjson
  · exact coverage_of_overflow hrecognized hskipped hle

/-- The sum of the counters is one above 2^64. -/
def overflowingFormula : Formula where
  terms := []
  recognized := 9223372036854775808
  skipped := 9223372036854775809

theorem fitsWord_overflowingFormula : overflowingFormula.FitsWord :=
  ⟨List.forall_mem_nil _, by decide, by decide⟩

/-- A text of which a half is skipped, and counters whose sum does not fit a word. -/
theorem coverage_is_share_unless_overflow_wrapped :
    (∃ formula, Formula.ofText "2d6 xyz" = .ok formula ∧ formula.IsShare) ∧
      ¬overflowingFormula.IsShare ∧ 1 ≤ overflowingFormula.coverage := by
  have hshown : ((Formula.ofText "2d6 xyz").map fun formula =>
      (formula.recognized, formula.skipped)).toOption = some (3, 3) := by decide +kernel
  obtain ⟨formula, hread, hcounters⟩ := exists_ok_of_shown hshown
  obtain ⟨hrecognized, hskipped⟩ := Prod.mk.inj hcounters
  obtain ⟨hread', -⟩ := coverage_is_share_unless_overflow (.ofText _ _ (by decide) hread)
  obtain ⟨hdecoded, hcoverage⟩ :=
    coverage_is_share_unless_overflow (arises_of_fitsWord fitsWord_overflowingFormula)
  refine ⟨⟨formula, hread, hread'.mpr (by omega)⟩, fun h => ?_, (hcoverage (by decide)).2⟩
  exact absurd (hdecoded.mp h) (by decide)

/-- One is left of the sum, and by that the recognized part is divided. -/
theorem coverage_of_overflowing_above_one :
    overflowingFormula.Arises ∧
      ¬overflowingFormula.recognized + overflowingFormula.skipped < 18446744073709551616 ∧
      overflowingFormula.measured = 1 ∧
      ¬overflowingFormula.recognized ≤ overflowingFormula.measured ∧
      ¬overflowingFormula.coverage ≤ 1 := by
  refine ⟨arises_of_fitsWord fitsWord_overflowingFormula, by decide, by decide +kernel,
    by decide +kernel, ?_⟩
  rw [le_iff_unpack]
  decide +kernel

end DiceNotation
