import DiceNotation.Proofs.Frames
import DiceNotation.Proofs.Supply
import Mathlib.Algebra.BigOperators.Ring.List
import Mathlib.Algebra.GroupWithZero.Nat
import Mathlib.Algebra.Order.BigOperators.Group.List
import Mathlib.Algebra.Order.Group.Nat
import Mathlib.Algebra.Ring.Int.Defs

/-!
Totals of terms that stay away from the limits.

The reach of a term is its count times the largest absolute value of its die. While the reaches of
all terms add up to a score, no partial sum leaves the range of scores, in whatever order the values
are added and whether or not the terms are summed up first. So nothing saturates.

* `Die.magnitude` and `Term.reach`: how far a die and a term can move a total;
* `subtotal_exact`: what one term contributes;
* `total_exact` and `frameTotal_exact`: totals and frames, both the exact sum of the same values;
* `contributions_exact`: the ends of the range of totals, which are totals of equal values;
* `totals_exact_of_reach`: so all of them are exact.
-/
namespace DiceNotation
set_option autoImplicit false

/-! ## How far a term reaches -/

theorem Die.possibleValues_ne_nil (die : Die) : die.possibleValues ≠ [] :=
  List.ne_nil_of_mem die.least_mem

/-- The largest absolute value that the die shows. -/
def Die.magnitude (die : Die) : Nat :=
  (die.possibleValues.map fun value => value.toInt.natAbs).max (by
    simpa using die.possibleValues_ne_nil)

def Term.reach (term : Term) : Nat := term.count * term.die.magnitude

theorem natAbs_le_magnitude {die : Die} {value : Score} (h : value ∈ die.possibleValues) :
    value.toInt.natAbs ≤ die.magnitude :=
  List.le_max_of_mem (List.mem_map_of_mem (f := fun value => value.toInt.natAbs) h)

/-! ## Signs -/

namespace Sign

theorem natAbs_apply_le (sign : Sign) (a : Score) :
    (sign.apply a).toInt.natAbs ≤ a.toInt.natAbs := by
  cases sign with
  | plus => exact Nat.le_refl _
  | minus =>
    rw [apply, Score.toInt_neg]
    omega

theorem toInt_apply {sign : Sign} {a : Score} (h : a.toInt.natAbs ≤ 2147483647) :
    (sign.apply a).toInt = sign.coefficient * a.toInt := by
  cases sign with
  | plus => exact (Int.one_mul _).symm
  | minus =>
    rw [apply, coefficient, Score.toInt_neg]
    omega

end Sign

/-! ## One term -/

theorem natAbs_le_reach {term : Term} {value : Score} (h : value ∈ term.die.possibleValues) :
    value.toInt.natAbs ≤ term.reach :=
  Nat.le_trans (natAbs_le_magnitude h) (Nat.le_mul_of_pos_left _ term.count_pos)

section Term
variable {roll : TermRoll}

theorem sum_natAbs_values_le (h : roll.term.IsRolled roll.values) :
    (roll.values.map fun value => value.toInt.natAbs).sum ≤ roll.term.reach := by
  have hsum := List.sum_le_card_nsmul (roll.values.map fun value => value.toInt.natAbs)
    roll.term.die.magnitude
    (List.forall_mem_map.mpr fun value hvalue => natAbs_le_magnitude (h.possible value hvalue))
  rw [List.length_map, h.length_eq] at hsum
  exact hsum

theorem sum_natAbs_signedValues_le (h : roll.term.IsRolled roll.values) :
    (roll.signedValues.map fun value => value.toInt.natAbs).sum ≤ roll.term.reach := by
  rw [TermRoll.signedValues, List.map_map]
  exact Nat.le_trans (List.sum_le_sum fun value _ => roll.term.sign.natAbs_apply_le value)
    (sum_natAbs_values_le h)

theorem sum_signedValues (h : roll.term.IsRolled roll.values)
    (hreach : roll.term.reach ≤ 2147483647) :
    (roll.signedValues.map Score.toInt).sum =
      roll.term.sign.coefficient * (roll.values.map Score.toInt).sum := by
  rw [TermRoll.signedValues, List.map_map, ← List.sum_map_mul_left]
  refine congrArg List.sum (List.map_congr_left fun value hvalue => Sign.toInt_apply ?_)
  exact Nat.le_trans (natAbs_le_reach (h.possible value hvalue)) hreach

theorem subtotal_exact (h : roll.term.IsRolled roll.values)
    (hreach : roll.term.reach ≤ 2147483647) :
    roll.subtotal.toInt = (roll.signedValues.map Score.toInt).sum := by
  have habs := Nat.le_trans (sum_natAbs_values_le h) hreach
  have hle := Score.natAbs_sum_le roll.values
  have hsum := Score.toInt_sum habs
  rw [sum_signedValues h hreach, TermRoll.subtotal, Sign.toInt_apply (by rw [hsum]; omega), hsum]

theorem natAbs_subtotal_le (h : roll.term.IsRolled roll.values)
    (hreach : roll.term.reach ≤ 2147483647) : roll.subtotal.toInt.natAbs ≤ roll.term.reach := by
  rw [subtotal_exact h hreach]
  exact Nat.le_trans (Score.natAbs_sum_le _) (sum_natAbs_signedValues_le h)

end Term

/-! ## All terms -/

section Terms
variable {rolled : List TermRoll}

/-- The exact sum of everything that was rolled. -/
def exactTotal (rolled : List TermRoll) : Int :=
  ((rolled.flatMap TermRoll.signedValues).map Score.toInt).sum

theorem exactTotal_eq (rolled : List TermRoll) :
    exactTotal rolled =
      (rolled.map fun roll => (roll.signedValues.map Score.toInt).sum).sum := by
  rw [exactTotal, List.map_flatMap, List.flatMap_def, List.sum_flatten, List.map_map]
  rfl

theorem reach_le_sum {terms : List Term} {term : Term} (h : term ∈ terms) :
    term.reach ≤ (terms.map Term.reach).sum :=
  List.le_sum_of_mem (List.mem_map_of_mem h)

theorem total_exact (h : ∀ roll ∈ rolled, roll.term.IsRolled roll.values)
    (hreach : (rolled.map fun roll => roll.term.reach).sum ≤ 2147483647) :
    (Score.sum (rolled.map TermRoll.subtotal)).toInt = exactTotal rolled := by
  have hone : ∀ roll ∈ rolled, roll.term.reach ≤ 2147483647 := by
    intro roll hroll
    have hle := List.le_sum_of_mem
      (List.mem_map_of_mem (f := fun roll : TermRoll => roll.term.reach) hroll)
    omega
  have habs : (rolled.map fun roll => roll.subtotal.toInt.natAbs).sum ≤
      (rolled.map fun roll => roll.term.reach).sum :=
    List.sum_le_sum fun roll hroll => natAbs_subtotal_le (h roll hroll) (hone roll hroll)
  rw [Score.toInt_sum, exactTotal_eq, List.map_map]
  · exact congrArg List.sum (List.map_congr_left fun roll hroll =>
      subtotal_exact (h roll hroll) (hone roll hroll))
  · rw [List.map_map]
    exact Nat.le_trans habs hreach

theorem frameTotal_exact (h : ∀ roll ∈ rolled, roll.term.IsRolled roll.values)
    (hreach : (rolled.map fun roll => roll.term.reach).sum ≤ 2147483647) :
    (frameTotal rolled).toInt = exactTotal rolled := by
  refine Score.toInt_sum (Nat.le_trans ?_ hreach)
  rw [List.map_flatMap, List.flatMap_def, List.sum_flatten, List.map_map]
  exact List.sum_le_sum fun roll hroll => sum_natAbs_signedValues_le (h roll hroll)

theorem sum_signedValue_eq (rolled : List TermRoll) :
    ((rolled.flatMap TermRoll.dieRolls).map fun roll => roll.signedValue.toInt).sum =
      exactTotal rolled := by
  rw [exactTotal, List.map_flatMap, List.map_flatMap]
  simp [TermRoll.dieRolls, TermRoll.signedValues, DieRoll.signedValue, Function.comp_def]

/-- What the term contributes, exactly, when each of its dice shows one value. -/
def Term.exact (term : Term) (value : Score) : Int :=
  term.sign.coefficient * (term.count * value.toInt)

/-- Both ends of the range of totals are totals in which all dice of a term show one value. -/
theorem contributions_exact {terms : List Term} {value contribution : Term → Score}
    (hmem : ∀ term : Term, value term ∈ term.die.possibleValues)
    (hcontribution : ∀ term : Term, term.sign.apply
      (Score.sum (List.replicate term.count (value term))) = contribution term)
    (hreach : (terms.map Term.reach).sum ≤ 2147483647) :
    (Score.sum (terms.map contribution)).toInt =
      (terms.map fun term => term.exact (value term)).sum := by
  have hrolled : ∀ roll ∈ terms.map (Term.rollAll value), roll.term.IsRolled roll.values :=
    List.forall_mem_map.mpr fun term _ => Term.isRolled_replicate (hmem term)
  have hterms : (terms.map (Term.rollAll value)).map (fun roll => roll.term.reach) =
      terms.map Term.reach := by
    rw [List.map_map]
    rfl
  rw [← subtotals_rollAll hcontribution, total_exact hrolled (by rw [hterms]; exact hreach),
    exactTotal_eq, List.map_map]
  refine congrArg List.sum (List.map_congr_left fun term hterm => ?_)
  have hterm' := sum_signedValues (hrolled _ (List.mem_map_of_mem hterm))
    (Nat.le_trans (reach_le_sum hterm) hreach)
  simpa [Term.rollAll, Term.exact] using hterm'

end Terms

/-- If the reaches of the terms add up to a score at most, nothing saturates: a total is the exact
sum of the signed values, a frame is the total that is rolled with the same words, and the range of
totals and the best total are exact sums of products. -/
theorem totals_exact_of_reach (formula : Formula)
    (h : (formula.terms.map Term.reach).sum ≤ 2147483647) :
    (evaluate formula.terms).Ends ∧
    (∀ words outcome rest, evaluate formula.terms words = some (outcome, rest) →
      outcome.total.toInt = (outcome.rolls.map fun roll => roll.signedValue.toInt).sum) ∧
    (∀ words, formula.frame words =
      (evaluate formula.terms words).map fun result => (result.1.total, result.2)) ∧
    formula.possibleTotals.1.toInt = (formula.terms.map fun term => term.exact term.worst).sum ∧
    formula.possibleTotals.2.toInt = (formula.terms.map fun term => term.exact term.best).sum ∧
    (bestTotal formula.terms).toInt =
      max (formula.terms.map fun term => term.exact term.best).sum 1 := by
  obtain ⟨terms, diagnostics, recognized, skipped⟩ := formula
  have hbest := contributions_exact Term.best_mem Term.apply_sum_best h
  have hrolled (words rest : List Word) (rolled : List TermRoll)
      (hroll : rollTerms terms words = some (rolled, rest)) :
      (Score.sum (rolled.map TermRoll.subtotal)).toInt = exactTotal rolled ∧
        (frameTotal rolled).toInt = exactTotal rolled := by
    obtain ⟨rfl, hvalues⟩ := isRolled_of_rollTerms hroll
    rw [List.map_map] at h
    exact ⟨total_exact hvalues h, frameTotal_exact hvalues h⟩
  refine ⟨ends_evaluate terms, ?_, ?_, contributions_exact Term.worst_mem Term.apply_sum_worst h,
    hbest, ?_⟩
  · intro words outcome rest houtcome
    obtain ⟨rolled, hroll, rfl⟩ := evaluate_eq_some.mp houtcome
    exact (hrolled words rest rolled hroll).1.trans (sum_signedValue_eq rolled).symm
  · intro words
    show Formula.frame { terms := terms } words = _
    rw [frame_eq_map, evaluate_eq_map, Option.map_map]
    cases hroll : rollTerms terms words with
    | none => rfl
    | some drawn =>
      obtain ⟨htotal, hframe⟩ := hrolled words drawn.2 drawn.1 hroll
      exact congrArg (fun total => some (total, drawn.2))
        (Score.ext (hframe.trans htotal.symm))
  · rw [bestTotal, Score.toInt_max]
    exact congrArg (max · 1) hbest

/-- Two dice that show nearly half of the highest score or seven, less one that shows one or minus
one. -/
def limitTerms : List Term :=
  [⟨.plus, 2,
      .custom (.ofNonempty [⟨1073741823, by decide, by decide⟩, ⟨7, by decide, by decide⟩]
        (List.cons_ne_nil _ _)), Nat.zero_lt_two, Term.two_le_maxCount, fun h => by cases h⟩,
    ⟨.minus, 1, .custom (.ofNonempty [Score.one.neg, .one] (List.cons_ne_nil _ _)), Nat.zero_lt_one,
      Term.one_le_maxCount, fun h => by cases h⟩]

/-- Their reach is the highest score, and so is the total when every die shows its best. -/
theorem totals_exact_of_reach_limit :
    (limitTerms.map Term.reach).sum = 2147483647 ∧
    (Formula.possibleTotals { terms := limitTerms }).2.toInt = 2 * 1073741823 + 1 ∧
    ∃ outcome, evaluate limitTerms [0, 0, 0] = some (outcome, []) ∧
      outcome.total = .highest ∧
      outcome.total.toInt = (outcome.rolls.map fun roll => roll.signedValue.toInt).sum ∧
      Formula.frame { terms := limitTerms } [0, 0, 0] = some (.highest, []) := by
  have hreach : (limitTerms.map Term.reach).sum = 2147483647 := by decide +kernel
  have hroll : (evaluate limitTerms [0, 0, 0]).map
      (fun result => (result.1.total, result.2)) = some (.highest, []) := by decide +kernel
  obtain ⟨outcome, houtcome, htotal⟩ := draw_map_eq_some.mp hroll
  obtain ⟨-, hsum, hframe, -, hbest, -⟩ :=
    totals_exact_of_reach { terms := limitTerms } (Nat.le_of_eq hreach)
  refine ⟨hreach, hbest.trans (by decide +kernel), outcome, houtcome, htotal,
    hsum _ _ _ houtcome, ?_⟩
  rw [hframe]
  exact hroll

end DiceNotation
