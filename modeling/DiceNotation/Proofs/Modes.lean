import DiceNotation.Proofs.Supply
import DiceNotation.Proofs.Totals

/-!
Modes as views of the same rolls.

Advantage and disadvantage roll a formula twice on the same words, and differ only in which of the
two outcomes counts; the normal mode makes the first of these rolls.

* `Formula.rollTwice`: two rolls, one behind the other;
* `Mode.select_advantage` and `Mode.select_disadvantage`: which outcome counts and which is kept;
* `rollWithMode_normal` and `rollWithMode_twice`: what the modes draw;
* `modes_view_same_rolls`: so the two modes keep the same outcomes, swapped unless they tie.
-/
namespace DiceNotation
set_option autoImplicit false

/-! ## Two rolls -/

/-- Two rolls of the formula, one behind the other. -/
def Formula.rollTwice (formula : Formula) : Draw (Outcome × Outcome) := do
  let first ← formula.roll
  let second ← formula.roll
  return (first, second)

theorem rollTwice_eq_some {formula : Formula} {words rest : List Word} {first second : Outcome} :
    formula.rollTwice words = some ((first, second), rest) ↔
      ∃ mid, formula.roll words = some (first, mid) ∧ formula.roll mid = some (second, rest) := by
  rw [Formula.rollTwice, draw_bind_eq_some]
  constructor
  · rintro ⟨first', mid, hfirst, hrest⟩
    obtain ⟨second', hsecond, heq⟩ := draw_return_eq_some.mp hrest
    cases heq
    exact ⟨mid, hfirst, hsecond⟩
  · rintro ⟨mid, hfirst, hsecond⟩
    exact ⟨first, mid, hfirst, draw_return_eq_some.mpr ⟨second, hsecond, rfl⟩⟩

theorem ends_rollTwice (formula : Formula) : formula.rollTwice.Ends :=
  formula.ends_roll.bind fun first => formula.ends_roll.bind fun second => .pure (first, second)

/-! ## Which outcome counts -/

namespace Mode
variable (first second : Outcome)

theorem select_advantage : Mode.advantage.select first second =
    ⟨.advantage, if first.total < second.total then second else first,
      some (if first.total < second.total then first else second)⟩ := by
  by_cases h : first.total < second.total <;> simp [select, prefersSecond, h]

theorem select_disadvantage : Mode.disadvantage.select first second =
    ⟨.disadvantage, if second.total < first.total then second else first,
      some (if second.total < first.total then first else second)⟩ := by
  by_cases h : second.total < first.total <;> simp [select, prefersSecond, h]

theorem worst_le_best : (Mode.disadvantage.select first second).primary.total ≤
    (Mode.advantage.select first second).primary.total := by
  rw [select_advantage, select_disadvantage]
  simp only [Score.le_iff, Score.lt_iff]
  split <;> split <;> omega

/-- Outcomes that do not tie are swapped. -/
theorem select_swap (h : first.total ≠ second.total) :
    (Mode.advantage.select first second).secondary =
        some (Mode.disadvantage.select first second).primary ∧
      (Mode.disadvantage.select first second).secondary =
        some (Mode.advantage.select first second).primary := by
  have hne : first.total.toInt ≠ second.total.toInt := fun heq => h (Score.ext heq)
  rw [select_advantage, select_disadvantage]
  by_cases hlt : first.total < second.total
  · have hnot : ¬second.total < first.total := by
      rw [Score.lt_iff] at hlt ⊢
      omega
    simp [hlt, hnot]
  · have hgt : second.total < first.total := by
      rw [Score.lt_iff] at hlt ⊢
      omega
    simp [hlt, hgt]

/-- A tie keeps the first outcome. -/
theorem select_tie (h : first.total = second.total) (mode : Mode) :
    mode.select first second = ⟨mode, first, some second⟩ := by
  have hnot : ¬second.total < second.total := by
    rw [Score.lt_iff]
    omega
  cases mode <;> simp [select, prefersSecond, h, hnot]

end Mode

/-! ## Rolls under a mode -/

section Rolls
variable {formula : Formula} (hblank : formula.isBlank = false)
include hblank

theorem rollWithMode_normal (words : List Word) :
    formula.rollWithMode .normal words =
      (formula.roll words).map fun drawn => (⟨.normal, drawn.1, none⟩, drawn.2) := by
  rw [← draw_map_apply (ModeOutcome.mk .normal · none)]
  simp [Formula.rollWithMode, Formula.roll, Mode.evaluate, hblank]

theorem rollWithMode_twice (mode : Mode) (hmode : mode ≠ .normal) (words : List Word) :
    formula.rollWithMode mode words =
      (formula.rollTwice words).map fun drawn =>
        (mode.select drawn.1.1 drawn.1.2, drawn.2) := by
  rw [← draw_map_apply fun pair : Outcome × Outcome => mode.select pair.1 pair.2]
  simp [Formula.rollWithMode, Formula.rollTwice, Formula.roll, hblank,
    Mode.evaluate_of_ne_normal hmode]

end Rolls

/-- The normal mode keeps the first roll. Advantage and disadvantage make the same two rolls, keep
the second one only if its total is better, or worse, and the other one beside it. So they swap
outcomes that do not tie and agree on others, and advantage is never worse. -/
theorem modes_view_same_rolls {formula : Formula} (hblank : formula.isBlank = false) :
    formula.rollTwice.Ends ∧
    (∀ words, formula.rollWithMode .normal words =
      (formula.roll words).map fun drawn => (⟨.normal, drawn.1, none⟩, drawn.2)) ∧
    (∀ words, formula.rollWithMode .advantage words =
      (formula.rollTwice words).map fun ((first, second), rest) =>
        (⟨.advantage, if first.total < second.total then second else first,
          some (if first.total < second.total then first else second)⟩, rest)) ∧
    (∀ words, formula.rollWithMode .disadvantage words =
      (formula.rollTwice words).map fun ((first, second), rest) =>
        (⟨.disadvantage, if second.total < first.total then second else first,
          some (if second.total < first.total then first else second)⟩, rest)) ∧
    ∀ words first mid second rest,
      formula.roll words = some (first, mid) → formula.roll mid = some (second, rest) →
      ∃ best worst, formula.rollWithMode .advantage words = some (best, rest) ∧
        formula.rollWithMode .disadvantage words = some (worst, rest) ∧
        worst.primary.total ≤ best.primary.total ∧
        (first.total ≠ second.total →
          best.secondary = some worst.primary ∧ worst.secondary = some best.primary) ∧
        (first.total = second.total →
          best = ⟨.advantage, first, some second⟩ ∧
            worst = ⟨.disadvantage, first, some second⟩) := by
  have hadvantage := rollWithMode_twice hblank .advantage nofun
  have hdisadvantage := rollWithMode_twice hblank .disadvantage nofun
  refine ⟨ends_rollTwice formula, rollWithMode_normal hblank, ?_, ?_, ?_⟩
  · intro words
    simp only [hadvantage, Mode.select_advantage]
  · intro words
    simp only [hdisadvantage, Mode.select_disadvantage]
  · intro words first mid second rest hfirst hsecond
    have htwice := rollTwice_eq_some.mpr ⟨mid, hfirst, hsecond⟩
    refine ⟨Mode.advantage.select first second, Mode.disadvantage.select first second, ?_, ?_,
      Mode.worst_le_best first second, Mode.select_swap first second,
      fun htie => ⟨Mode.select_tie first second htie _, Mode.select_tie first second htie _⟩⟩
    · rw [hadvantage, htwice]
      rfl
    · rw [hdisadvantage, htwice]
      rfl

/-- One die of twenty faces and a modifier. -/
def checkFormula : Formula where
  terms := [⟨.plus, 1, .standard ⟨20, by decide, by decide⟩, Nat.zero_lt_one,
      Term.one_le_maxCount, fun h => by cases h⟩,
    Term.flat .plus .one]

/-- A low roll and a high one behind it: only advantage prefers the second. -/
theorem modes_view_same_rolls_check : checkFormula.isBlank = false ∧ ∃ first second,
    checkFormula.roll [0, 4000000000] = some (first, [4000000000]) ∧
    checkFormula.roll [4000000000] = some (second, []) ∧
    first.total.toInt = 2 ∧ second.total.toInt = 20 ∧
    checkFormula.rollWithMode .advantage [0, 4000000000] =
      some (⟨.advantage, second, some first⟩, []) ∧
    checkFormula.rollWithMode .disadvantage [0, 4000000000] =
      some (⟨.disadvantage, first, some second⟩, []) := by
  have hlow : (checkFormula.roll [0, 4000000000]).map
      (fun result => (result.1.total, result.2)) =
        some (⟨2, by decide, by decide⟩, [4000000000]) := by decide +kernel
  have hhigh : (checkFormula.roll [4000000000]).map
      (fun result => (result.1.total, result.2)) =
        some (⟨20, by decide, by decide⟩, []) := by decide +kernel
  obtain ⟨first, hfirst, hfirstTotal⟩ := draw_map_eq_some.mp hlow
  obtain ⟨second, hsecond, hsecondTotal⟩ := draw_map_eq_some.mp hhigh
  have hblank : checkFormula.isBlank = false := by decide
  obtain ⟨-, -, hadvantage, hdisadvantage, -⟩ := modes_view_same_rolls hblank
  have htwice := rollTwice_eq_some.mpr ⟨[4000000000], hfirst, hsecond⟩
  have hlt : first.total < second.total := by
    rw [hfirstTotal, hsecondTotal]
    decide
  have hnot : ¬second.total < first.total := by
    rw [hfirstTotal, hsecondTotal]
    decide
  refine ⟨hblank, first, second, hfirst, hsecond, congrArg Score.toInt hfirstTotal,
    congrArg Score.toInt hsecondTotal, ?_, ?_⟩
  · simp [hadvantage, htwice, hlt]
  · simp [hdisadvantage, htwice, hnot]

end DiceNotation
