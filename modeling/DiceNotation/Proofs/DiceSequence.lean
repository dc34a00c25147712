import DiceNotation.Proofs.Frames
import DiceNotation.Proofs.Supply

/-!
What is drawn depends on the sequence of dice only.

A roll draws its dice one after the other, and a modifier takes no word. So signs, modifiers and
the way in which equal dice are gathered into counts change neither the values that the dice show
nor the words that they take, of a roll or of a frame.

* `drawnDice`: the dice of the terms, one for each time they are drawn;
* `repeated_eq_mapM`: the draws of one term;
* `shownValues_rollTerms`: what a roll shows is drawn from these dice, one by one;
* `map_snd_frame`: a frame takes the words of a roll;
* `dice_alone_decide_values`: so equal dice show equal values and leave equal words.
-/
namespace DiceNotation
set_option autoImplicit false

/-- The dice that the terms draw, each as often as its term counts, and no modifiers. -/
def drawnDice (terms : List Term) : List Die :=
  (terms.flatMap fun term => List.replicate term.count term.die).filter fun die => !die.isConstant

/-- The values that the dice of an outcome show, without the modifiers. -/
def Outcome.shownValues (outcome : Outcome) : List Score :=
  (outcome.rolls.filter fun roll => !roll.die.isConstant).map DieRoll.value

/-- The values that the dice of a term show; a modifier shows none. -/
def TermRoll.shownValues (roll : TermRoll) : List Score :=
  if roll.term.die.isConstant then [] else roll.values

theorem drawnDice_cons (term : Term) (more : List Term) :
    drawnDice (term :: more) =
      (if term.die.isConstant then [] else List.replicate term.count term.die) ++
        drawnDice more := by
  rw [drawnDice, drawnDice, List.flatMap_cons, List.filter_append]
  congr 1
  split <;> simp [*]

theorem shownValues_ofRolled (terms : List Term) (rolled : List TermRoll) :
    (Outcome.ofRolled terms rolled).shownValues = rolled.flatMap TermRoll.shownValues := by
  rw [Outcome.shownValues, Outcome.ofRolled, List.filter_flatMap, List.map_flatMap]
  refine congrArg (rolled.flatMap ·) (funext fun roll => ?_)
  unfold TermRoll.shownValues TermRoll.dieRolls
  split <;> simp [List.filter_map, Function.comp_def, *]

/-! ## Draws in a row -/

theorem repeated_eq_mapM (die : Die) (n : Nat) :
    Draw.repeated die.draw n = (List.replicate n die).mapM Die.draw := by
  induction n with
  | zero => simp [Draw.repeated]
  | succ n ih => simp [Draw.repeated, List.replicate_succ, List.mapM_cons, ih]

theorem repeated_pure {α : Type} (a : α) (n : Nat) :
    Draw.repeated (pure a) n = pure (List.replicate n a) := by
  induction n with
  | zero => rfl
  | succ n ih =>
    rw [Draw.repeated, ih]
    rfl

theorem shownValues_roll (term : Term) :
    TermRoll.shownValues <$> term.roll =
      (if term.die.isConstant then [] else List.replicate term.count term.die).mapM Die.draw := by
  unfold Term.roll Term.draw
  cases hdie : term.die with
  | constant value => simp [Die.draw, repeated_pure, TermRoll.shownValues, hdie, Die.isConstant]
  | standard | custom | weighted =>
    simp [repeated_eq_mapM, TermRoll.shownValues, hdie, Die.isConstant]

theorem shownValues_rollTerms (terms : List Term) :
    (fun rolled => rolled.flatMap TermRoll.shownValues) <$> rollTerms terms =
      (drawnDice terms).mapM Die.draw := by
  induction terms with
  | nil => simp [rollTerms, drawnDice]
  | cons term more ih =>
    rw [drawnDice_cons, List.mapM_append, ← shownValues_roll, ← ih]
    simp [rollTerms]

/-! ## Rolls and frames -/

theorem shownValues_evaluate (terms : List Term) (words : List Word) :
    (evaluate terms words).map (fun result => (result.1.shownValues, result.2)) =
      (drawnDice terms).mapM Die.draw words := by
  rw [← shownValues_rollTerms, ← draw_map_apply]
  simp [evaluate, shownValues_ofRolled]

theorem map_snd_frame (terms : List Term) (words : List Word) :
    (Formula.frame { terms := terms } words).map Prod.snd =
      (evaluate terms words).map Prod.snd := by
  rw [frame_eq_map, evaluate_eq_map, Option.map_map, Option.map_map]
  rfl

/-- Terms with the same sequence of dice show the same values and leave the same words, if their
rolls end at all, and frames of either leave these words too. -/
theorem dice_alone_decide_values {terms terms' : List Term}
    (h : drawnDice terms = drawnDice terms') (words : List Word) :
    (evaluate terms).Ends ∧
    (evaluate terms words).map (fun result => (result.1.shownValues, result.2)) =
      (evaluate terms' words).map (fun result => (result.1.shownValues, result.2)) ∧
    (Formula.frame { terms := terms } words).map Prod.snd =
      (evaluate terms words).map Prod.snd ∧
    (Formula.frame { terms := terms' } words).map Prod.snd =
      (evaluate terms words).map Prod.snd := by
  have hvalues : (evaluate terms words).map (fun result => (result.1.shownValues, result.2)) =
      (evaluate terms' words).map (fun result => (result.1.shownValues, result.2)) := by
    rw [shownValues_evaluate, shownValues_evaluate, h]
  have hwords := congrArg (Option.map Prod.snd) hvalues
  rw [Option.map_map, Option.map_map] at hwords
  refine ⟨ends_evaluate terms, hvalues, map_snd_frame terms words, ?_⟩
  rw [map_snd_frame]
  exact hwords.symm

def tenFaces : Die := .standard ⟨10, by decide, by decide⟩

/-- Two dice, a subtracted modifier and a third die. -/
def pairFirst : List Term :=
  [⟨.plus, 2, tenFaces, Nat.zero_lt_two, Term.two_le_maxCount, fun h => by cases h⟩,
    Term.flat .minus .one,
    ⟨.plus, 1, tenFaces, Nat.zero_lt_one, Term.one_le_maxCount, fun h => by cases h⟩]

/-- One die, an added modifier and two subtracted dice. -/
def pairLast : List Term :=
  [⟨.plus, 1, tenFaces, Nat.zero_lt_one, Term.one_le_maxCount, fun h => by cases h⟩,
    Term.flat .plus .one,
    ⟨.minus, 2, tenFaces, Nat.zero_lt_two, Term.two_le_maxCount, fun h => by cases h⟩]

/-- The totals differ, the values do not. -/
theorem dice_alone_decide_values_regrouped :
    drawnDice pairFirst = drawnDice pairLast ∧
    ∃ outcome outcome',
      evaluate pairFirst [0, 2000000000, 4000000000, 7] = some (outcome, [7]) ∧
      evaluate pairLast [0, 2000000000, 4000000000, 7] = some (outcome', [7]) ∧
      outcome.total.toInt = 15 ∧ outcome'.total.toInt = -13 ∧
      outcome.shownValues = outcome'.shownValues := by
  have hfirst : (evaluate pairFirst [0, 2000000000, 4000000000, 7]).map
      (fun result => (result.1.total.toInt, result.2)) = some (15, [7]) := by decide +kernel
  have hlast : (evaluate pairLast [0, 2000000000, 4000000000, 7]).map
      (fun result => (result.1.total.toInt, result.2)) = some (-13, [7]) := by decide +kernel
  have hdice : drawnDice pairFirst = drawnDice pairLast := by decide
  obtain ⟨outcome, houtcome, htotal⟩ :=
    (draw_map_eq_some (f := fun outcome : Outcome => outcome.total.toInt)).mp hfirst
  obtain ⟨outcome', houtcome', htotal'⟩ :=
    (draw_map_eq_some (f := fun outcome : Outcome => outcome.total.toInt)).mp hlast
  obtain ⟨-, hvalues, -, -⟩ := dice_alone_decide_values hdice [0, 2000000000, 4000000000, 7]
  rw [houtcome, houtcome'] at hvalues
  exact ⟨hdice, outcome, outcome', houtcome, houtcome', htotal, htotal',
    congrArg Prod.fst (Option.some.inj hvalues)⟩

end DiceNotation
