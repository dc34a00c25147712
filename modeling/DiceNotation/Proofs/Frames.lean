import DiceNotation.Proofs.Totals

/-!
Which values the frames of an animation show, and when they are possible totals.

A frame adds every value to the running sum at once, where a total adds up each term by itself
first. The two sums saturate at different places, so a frame may lie beyond all possible totals.

* `frame_eq_some`: a frame is a sum over the values that a roll of the terms would show;
* `uniformFrame`: the frame in which all dice of a term show the same value;
* `frame_mem_range` and `exists_frame_eq`: the frames lie between the one of the worst and the one
  of the best values, and these two are drawn;
* `frames_possible_iff`: so just these two decide whether all frames are possible totals;
* `frame_possible_of_unsaturated`: they are if no term saturates by itself.
-/
namespace DiceNotation
set_option autoImplicit false

/-! ## Frames as sums -/

def TermRoll.signedValues (roll : TermRoll) : List Score := roll.values.map roll.term.sign.apply

def frameTotal (rolled : List TermRoll) : Score := Score.sum (rolled.flatMap TermRoll.signedValues)

theorem frameFrom_eq_some {terms : List Term} {total frame : Score} {words rest : List Word} :
    Formula.frameFrom total terms words = some (frame, rest) ↔
      ∃ rolled, rollTerms terms words = some (rolled, rest) ∧
        frame = (rolled.flatMap TermRoll.signedValues).foldl Score.add total := by
  induction terms generalizing total words with
  | nil =>
    rw [Formula.frameFrom, rollTerms]
    simp only [draw_pure_eq_some]
    constructor
    · rintro ⟨rfl, rfl⟩
      exact ⟨[], ⟨rfl, rfl⟩, rfl⟩
    · rintro ⟨rolled, ⟨rfl, rfl⟩, rfl⟩
      exact ⟨rfl, rfl⟩
  | cons term more ih =>
    have hvalues (values : List Score) (sum : Score) :
        values.foldl (fun sum value => sum.add (term.sign.apply value)) sum =
          (TermRoll.mk term values).signedValues.foldl Score.add sum := List.foldl_map.symm
    rw [Formula.frameFrom, draw_bind_eq_some]
    constructor
    · rintro ⟨values, mid, hdraw, hmore⟩
      obtain ⟨rolled, hrolled, rfl⟩ := ih.mp hmore
      refine ⟨_, rollTerms_cons_eq_some.mpr ⟨values, mid, rolled, hdraw, hrolled, rfl⟩, ?_⟩
      rw [List.flatMap_cons, List.foldl_append, hvalues]
    · rintro ⟨_, hroll, rfl⟩
      obtain ⟨values, mid, rolled, hdraw, hrolled, rfl⟩ := rollTerms_cons_eq_some.mp hroll
      refine ⟨values, mid, hdraw, ih.mpr ⟨rolled, hrolled, ?_⟩⟩
      rw [List.flatMap_cons, List.foldl_append, hvalues]

theorem frame_eq_some {terms : List Term} {frame : Score} {words rest : List Word} :
    Formula.frame { terms := terms } words = some (frame, rest) ↔
      ∃ rolled, rollTerms terms words = some (rolled, rest) ∧ frame = frameTotal rolled :=
  frameFrom_eq_some

theorem frame_eq_map (terms : List Term) (words : List Word) :
    Formula.frame { terms := terms } words =
      (rollTerms terms words).map fun drawn => (frameTotal drawn.1, drawn.2) := by
  refine Option.ext fun ⟨frame, rest⟩ => ?_
  rw [frame_eq_some, draw_map_eq_some]
  simp only [eq_comm]

/-! ## The range of frames -/

def uniformFrame (value : Term → Score) (terms : List Term) : Score :=
  Score.sum (terms.flatMap fun term =>
    List.replicate term.count (term.sign.apply (value term)))

theorem frameTotal_rollAll (value : Term → Score) (terms : List Term) :
    frameTotal (terms.map (Term.rollAll value)) = uniformFrame value terms := by
  rw [frameTotal, uniformFrame, List.flatMap_map]
  congr 2
  funext term
  exact List.map_replicate

theorem frameTotal_mem_range {rolled : List TermRoll}
    (h : ∀ roll ∈ rolled, roll.term.IsRolled roll.values) :
    uniformFrame Term.worst (rolled.map TermRoll.term) ≤ frameTotal rolled ∧
      frameTotal rolled ≤ uniformFrame Term.best (rolled.map TermRoll.term) := by
  have hreplicate (value : Term → Score) (roll : TermRoll) (hroll : roll ∈ rolled) :
      List.replicate roll.term.count (roll.term.sign.apply (value roll.term)) =
        roll.values.map fun _ => roll.term.sign.apply (value roll.term) := by
    rw [List.map_const', (h roll hroll).length_eq]
  rw [uniformFrame, uniformFrame, List.flatMap_map, List.flatMap_map]
  constructor
  · refine Score.foldl_add_flatMap_le (fun roll hroll a b hab => ?_) (Int.le_refl _)
    rw [hreplicate Term.worst roll hroll]
    exact Score.foldl_add_map_le (fun value hvalue =>
      (Term.prefers_worst ((h roll hroll).possible value hvalue)).apply_le) hab
  · refine Score.foldl_add_flatMap_le (fun roll hroll a b hab => ?_) (Int.le_refl _)
    rw [hreplicate Term.best roll hroll]
    exact Score.foldl_add_map_le (fun value hvalue =>
      (Term.prefers_best ((h roll hroll).possible value hvalue)).apply_le) hab

theorem frame_mem_range {terms : List Term} {frame : Score} {words rest : List Word}
    (h : Formula.frame { terms := terms } words = some (frame, rest)) :
    uniformFrame Term.worst terms ≤ frame ∧ frame ≤ uniformFrame Term.best terms := by
  obtain ⟨rolled, hrolled, rfl⟩ := frame_eq_some.mp h
  obtain ⟨rfl, hvalues⟩ := isRolled_of_rollTerms hrolled
  exact frameTotal_mem_range hvalues

theorem exists_frame_eq {terms : List Term} {value : Term → Score}
    (hfits : ∀ term ∈ terms, term.die.FitsWord)
    (h : ∀ term : Term, value term ∈ term.die.possibleValues) :
    ∃ words rest,
      Formula.frame { terms := terms } words = some (uniformFrame value terms, rest) := by
  obtain ⟨words, rest, hroll⟩ := (reaches_rollAll hfits h).exists_words
  exact ⟨words, rest, frame_eq_some.mpr ⟨_, hroll, (frameTotal_rollAll value terms).symm⟩⟩

/-- All frames are possible totals just if the worst and the best of them are. -/
theorem frames_possible_iff (terms : List Term) (hfits : ∀ term ∈ terms, term.die.FitsWord) :
    (∀ words rest frame, Formula.frame { terms := terms } words = some (frame, rest) →
      (Formula.possibleTotals { terms := terms }).1 ≤ frame ∧
        frame ≤ (Formula.possibleTotals { terms := terms }).2) ↔
    (Formula.possibleTotals { terms := terms }).1 ≤ uniformFrame Term.worst terms ∧
      uniformFrame Term.best terms ≤ (Formula.possibleTotals { terms := terms }).2 := by
  constructor
  · intro h
    obtain ⟨words, rest, hworst⟩ := exists_frame_eq hfits Term.worst_mem
    obtain ⟨words', rest', hbest⟩ := exists_frame_eq hfits Term.best_mem
    exact ⟨(h words rest _ hworst).1, (h words' rest' _ hbest).2⟩
  · rintro ⟨hmin, hmax⟩ words rest frame h
    obtain ⟨hworst, hbest⟩ := frame_mem_range h
    exact ⟨Int.le_trans hmin hworst, Int.le_trans hbest hmax⟩

/-- Two dice that can only show the highest score. -/
def twiceHighest : Term :=
  ⟨.plus, 2, .custom (.ofNonempty [.highest] (List.cons_ne_nil _ _)), Nat.zero_lt_two,
    Term.two_le_maxCount, fun h => by cases h⟩

/-- Frames that saturate can be possible totals nevertheless. -/
theorem twiceHighest_frames_possible :
    (∀ term ∈ [twiceHighest], term.die.FitsWord) ∧
      Formula.possibleTotals { terms := [twiceHighest] } = (.highest, .highest) ∧
      ∀ words rest frame, Formula.frame { terms := [twiceHighest] } words = some (frame, rest) →
        (Formula.possibleTotals { terms := [twiceHighest] }).1 ≤ frame ∧
          frame ≤ (Formula.possibleTotals { terms := [twiceHighest] }).2 := by
  have hfits : ∀ term ∈ [twiceHighest], term.die.FitsWord :=
    List.forall_mem_singleton.mpr (show 1 < 4294967296 by decide)
  exact ⟨hfits, by decide, (frames_possible_iff [twiceHighest] hfits).mpr (by decide)⟩

/-- A modifier that two dice outweigh only one after the other: the possible totals are zero and
nothing else, and the frame is the highest score. -/
def overtakenTerms : List Term := [Term.flat .minus .highest, twiceHighest]

theorem overtakenTerms_frame_beyond :
    Formula.possibleTotals { terms := overtakenTerms } = (.zero, .zero) ∧
      Formula.frame { terms := overtakenTerms } [0, 0] = some (.highest, []) ∧
      ¬∀ words rest frame, Formula.frame { terms := overtakenTerms } words = some (frame, rest) →
        (Formula.possibleTotals { terms := overtakenTerms }).1 ≤ frame ∧
          frame ≤ (Formula.possibleTotals { terms := overtakenTerms }).2 := by
  have hframe : Formula.frame { terms := overtakenTerms } [0, 0] = some (.highest, []) := by
    decide +kernel
  refine ⟨by decide, hframe, fun h => ?_⟩
  exact absurd (h [0, 0] [] .highest hframe).2 (by decide)

/-! ## Terms that do not saturate -/

/-- The best and the worst contribution of the term are exact products. -/
structure Term.Unsaturated (term : Term) : Prop where
  max_eq : term.maxContribution.toInt = (term.sign.apply term.best).toInt * term.count
  min_eq : term.minContribution.toInt = (term.sign.apply term.worst).toInt * term.count

theorem uniformFrame_eq_sum {terms : List Term} {value contribution : Term → Score}
    (h : ∀ term ∈ terms, (contribution term).toInt =
      (term.sign.apply (value term)).toInt * term.count) :
    uniformFrame value terms = Score.sum (terms.map contribution) := by
  unfold uniformFrame Score.sum
  generalize Score.zero = total
  induction terms generalizing total with
  | nil => rfl
  | cons term more ih =>
    obtain ⟨hterm, hmore⟩ := List.forall_mem_cons.mp h
    rw [List.flatMap_cons, List.foldl_append, Score.foldl_add_replicate, ← hterm]
    exact ih hmore _

theorem frame_possible_of_unsaturated {terms : List Term} {frame : Score} {words rest : List Word}
    (hexact : ∀ term ∈ terms, term.Unsaturated)
    (h : Formula.frame { terms := terms } words = some (frame, rest)) :
    (Formula.possibleTotals { terms := terms }).1 ≤ frame ∧
      frame ≤ (Formula.possibleTotals { terms := terms }).2 := by
  have hrange := frame_mem_range h
  rw [uniformFrame_eq_sum fun term hterm => (hexact term hterm).min_eq,
    uniformFrame_eq_sum fun term hterm => (hexact term hterm).max_eq] at hrange
  exact hrange

end DiceNotation
