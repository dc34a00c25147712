import DiceNotation.Proofs.Drawing
import DiceNotation.Proofs.Saturation
import Mathlib.Logic.Basic

/-!
The best and the worst that dice and terms can do.

* `least_mem`, `least_le`, `greatest_mem` and `le_greatest`: the least and the greatest value of a
  die are possible values and bound all others;
* `Sign.Prefers`: one value serves a signed total no less than another;
* `Term.best` and `Term.worst`: the values that a term contributes most and least with;
* `apply_sum_best`, `apply_sum_worst` and `IsRolled.mem_contributions`: its contributions, best and
  worst, are met by these values and bound those of all values.
-/
namespace DiceNotation
set_option autoImplicit false

/-! ## The extremes of a die -/

namespace Die

theorem least_mem (die : Die) : die.least ∈ die.possibleValues := by
  cases die with
  | standard faces => exact List.mem_map.mpr ⟨⟨0, faces.pos⟩, List.mem_finRange _, rfl⟩
  | custom list => exact list.bounds.least_mem
  | weighted table => exact table.bounds.least_mem
  | constant value => exact List.mem_singleton.mpr rfl

theorem greatest_mem (die : Die) : die.greatest ∈ die.possibleValues := by
  cases die with
  | standard faces =>
    have hpos := faces.pos
    refine List.mem_map.mpr ⟨⟨faces.count - 1, by omega⟩, List.mem_finRange _, Score.ext ?_⟩
    show ((faces.count - 1 : Nat) : Int) + 1 = faces.count
    omega
  | custom list => exact list.bounds.greatest_mem
  | weighted table => exact table.bounds.greatest_mem
  | constant value => exact List.mem_singleton.mpr rfl

theorem least_le {die : Die} {value : Score} (h : value ∈ die.possibleValues) :
    die.least ≤ value := by
  cases die with
  | standard faces =>
    obtain ⟨i, -, rfl⟩ := List.mem_map.mp h
    show (1 : Int) ≤ (i : Nat) + 1
    omega
  | custom list => exact list.bounds.least_le value h
  | weighted table => exact table.bounds.least_le value h
  | constant face => exact Score.le_iff.mpr (Int.le_of_eq (List.mem_singleton.mp h ▸ rfl))

theorem le_greatest {die : Die} {value : Score} (h : value ∈ die.possibleValues) :
    value ≤ die.greatest := by
  cases die with
  | standard faces =>
    obtain ⟨i, -, rfl⟩ := List.mem_map.mp h
    show ((i : Nat) : Int) + 1 ≤ faces.count
    omega
  | custom list => exact list.bounds.le_greatest value h
  | weighted table => exact table.bounds.le_greatest value h
  | constant face => exact Score.le_iff.mpr (Int.le_of_eq (List.mem_singleton.mp h ▸ rfl))

end Die

/-! ## The extremes of a term -/

namespace Sign

/-- `a` serves a total no less than `b`: a value that is subtracted should be small. -/
def Prefers : Sign → Score → Score → Prop
  | .plus, a, b => b ≤ a
  | .minus, a, b => a ≤ b

theorem Prefers.apply_le {sign : Sign} {a b : Score} (h : sign.Prefers a b) :
    sign.apply b ≤ sign.apply a := by
  cases sign with
  | plus => exact h
  | minus => exact Score.neg_le_neg h

end Sign

namespace Term

/-- The value that a term contributes most with. -/
def best (term : Term) : Score :=
  match term.sign with
  | .plus => term.die.greatest
  | .minus => term.die.least

def worst (term : Term) : Score :=
  match term.sign with
  | .plus => term.die.least
  | .minus => term.die.greatest

variable {term : Term}

theorem best_mem (term : Term) : term.best ∈ term.die.possibleValues := by
  unfold best
  cases term.sign with
  | plus => exact term.die.greatest_mem
  | minus => exact term.die.least_mem

theorem worst_mem (term : Term) : term.worst ∈ term.die.possibleValues := by
  unfold worst
  cases term.sign with
  | plus => exact term.die.least_mem
  | minus => exact term.die.greatest_mem

theorem prefers_best {value : Score} (h : value ∈ term.die.possibleValues) :
    term.sign.Prefers term.best value := by
  unfold best
  cases term.sign with
  | plus => exact Die.le_greatest h
  | minus => exact Die.least_le h

theorem prefers_worst {value : Score} (h : value ∈ term.die.possibleValues) :
    term.sign.Prefers value term.worst := by
  unfold worst
  cases term.sign with
  | plus => exact Die.least_le h
  | minus => exact Die.le_greatest h

theorem isRolled_replicate {value : Score} (h : value ∈ term.die.possibleValues) :
    term.IsRolled (List.replicate term.count value) where
  length_eq := List.length_replicate
  possible _ hvalue := List.eq_of_mem_replicate hvalue ▸ h

theorem apply_sum_best (term : Term) :
    term.sign.apply (Score.sum (List.replicate term.count term.best)) = term.maxContribution := by
  unfold best maxContribution
  rw [Score.sum_replicate]
  cases term.sign <;> rfl

theorem apply_sum_worst (term : Term) :
    term.sign.apply (Score.sum (List.replicate term.count term.worst)) = term.minContribution := by
  unfold worst minContribution
  rw [Score.sum_replicate]
  cases term.sign <;> rfl

end Term

/-- A sum of values no better than others is no better than the sum of those. -/
theorem Sign.prefers_sum_map {α : Type} {sign : Sign} {items : List α} {f g : α → Score}
    (h : ∀ item ∈ items, sign.Prefers (f item) (g item)) :
    sign.Prefers (Score.sum (items.map f)) (Score.sum (items.map g)) := by
  cases sign with
  | plus => exact Score.sum_map_le h
  | minus => exact Score.sum_map_le h

theorem Term.IsRolled.mem_contributions {term : Term} {values : List Score}
    (h : term.IsRolled values) :
    term.minContribution ≤ term.sign.apply (Score.sum values) ∧
      term.sign.apply (Score.sum values) ≤ term.maxContribution := by
  have hbest := Sign.prefers_sum_map fun value hvalue => prefers_best (h.possible value hvalue)
  have hworst := Sign.prefers_sum_map fun value hvalue => prefers_worst (h.possible value hvalue)
  rw [List.map_const', List.map_id', h.length_eq] at hbest hworst
  rw [← apply_sum_best, ← apply_sum_worst]
  exact ⟨hworst.apply_le, hbest.apply_le⟩

end DiceNotation
