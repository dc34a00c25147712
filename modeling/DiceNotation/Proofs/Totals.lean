import DiceNotation.Formula
import DiceNotation.Proofs.Extremes

/-!
Which totals a formula rolls: none outside the range of its possible totals, and both ends of it.

* `isRolled_of_rollTerms` and `reaches_rollTerms`: what is rolled for terms is possible values for
  each of them, and all such values are rolled with some words;
* `evaluate_eq_some`: an outcome is computed from the values rolled;
* `possibleTotals_exact`: the range is exact, saturation included.
-/
namespace DiceNotation
set_option autoImplicit false

/-! ## What is rolled for terms -/

theorem rollTerms_cons_eq_some {term : Term} {more : List Term} {words rest : List Word}
    {rolled : List TermRoll} :
    rollTerms (term :: more) words = some (rolled, rest) ↔
      ∃ values mid others, term.draw words = some (values, mid) ∧
        rollTerms more mid = some (others, rest) ∧ rolled = ⟨term, values⟩ :: others := by
  rw [rollTerms, draw_bind_eq_some]
  constructor
  · rintro ⟨first, mid, hfirst, hmore⟩
    obtain ⟨values, hvalues, rfl⟩ := draw_return_eq_some.mp hfirst
    obtain ⟨others, hothers, rfl⟩ := draw_return_eq_some.mp hmore
    exact ⟨values, mid, others, hvalues, hothers, rfl⟩
  · rintro ⟨values, mid, others, hvalues, hothers, rfl⟩
    exact ⟨⟨term, values⟩, mid, draw_return_eq_some.mpr ⟨values, hvalues, rfl⟩,
      draw_return_eq_some.mpr ⟨others, hothers, rfl⟩⟩

theorem isRolled_of_rollTerms {terms : List Term} {words rest : List Word} {rolled : List TermRoll}
    (h : rollTerms terms words = some (rolled, rest)) :
    rolled.map TermRoll.term = terms ∧ ∀ roll ∈ rolled, roll.term.IsRolled roll.values := by
  induction terms generalizing words rolled with
  | nil =>
    obtain ⟨rfl, -⟩ := draw_pure_eq_some.mp h
    exact ⟨rfl, List.forall_mem_nil _⟩
  | cons term more ih =>
    obtain ⟨values, mid, others, hvalues, hothers, rfl⟩ := rollTerms_cons_eq_some.mp h
    obtain ⟨hterms, hall⟩ := ih hothers
    exact ⟨congrArg (term :: ·) hterms, List.forall_mem_cons.mpr ⟨isRolled_of_draw hvalues, hall⟩⟩

theorem reaches_rollTerms {rolled : List TermRoll}
    (hfits : ∀ roll ∈ rolled, roll.term.die.FitsWord)
    (h : ∀ roll ∈ rolled, roll.term.IsRolled roll.values) :
    (rollTerms (rolled.map TermRoll.term)).Reaches rolled := by
  induction rolled with
  | nil => exact .pure []
  | cons roll more ih =>
    obtain ⟨hfirst, hmore⟩ := List.forall_mem_cons.mp h
    obtain ⟨hfits, hfitsMore⟩ := List.forall_mem_cons.mp hfits
    have hroll : roll.term.roll.Reaches roll :=
      (reaches_of_isRolled hfits hfirst).map (TermRoll.mk roll.term)
    exact hroll.bind ((ih hfitsMore hmore).map (roll :: ·))

theorem evaluate_eq_some {terms : List Term} {words rest : List Word} {outcome : Outcome} :
    evaluate terms words = some (outcome, rest) ↔
      ∃ rolled, rollTerms terms words = some (rolled, rest) ∧
        outcome = .ofRolled terms rolled :=
  draw_return_eq_some

theorem evaluate_eq_map (terms : List Term) (words : List Word) :
    evaluate terms words =
      (rollTerms terms words).map fun drawn => (.ofRolled terms drawn.1, drawn.2) := by
  rw [← draw_map_apply]
  simp [evaluate]

/-! ## One value for every die of a term -/

/-- Every die of the term shows the same value. -/
def Term.rollAll (value : Term → Score) (term : Term) : TermRoll :=
  ⟨term, List.replicate term.count (value term)⟩

theorem reaches_rollAll {terms : List Term} {value : Term → Score}
    (hfits : ∀ term ∈ terms, term.die.FitsWord)
    (h : ∀ term : Term, value term ∈ term.die.possibleValues) :
    (rollTerms terms).Reaches (terms.map (Term.rollAll value)) := by
  have hterms : (terms.map (Term.rollAll value)).map TermRoll.term = terms := by
    rw [List.map_map]
    exact List.map_id terms
  have hrolled : ∀ roll ∈ terms.map (Term.rollAll value), roll.term.IsRolled roll.values :=
    List.forall_mem_map.mpr fun term _ => Term.isRolled_replicate (h term)
  have hreaches := reaches_rollTerms (List.forall_mem_map.mpr hfits) hrolled
  rwa [hterms] at hreaches

/-! ## Totals -/

theorem mem_range_of_isRolled {rolled : List TermRoll}
    (h : ∀ roll ∈ rolled, roll.term.IsRolled roll.values) :
    Score.sum ((rolled.map TermRoll.term).map Term.minContribution) ≤
        Score.sum (rolled.map TermRoll.subtotal) ∧
      Score.sum (rolled.map TermRoll.subtotal) ≤
        Score.sum ((rolled.map TermRoll.term).map Term.maxContribution) := by
  rw [List.map_map, List.map_map]
  exact ⟨Score.sum_map_le fun roll hroll => (h roll hroll).mem_contributions.1,
    Score.sum_map_le fun roll hroll => (h roll hroll).mem_contributions.2⟩

theorem subtotals_rollAll {terms : List Term} {value contribution : Term → Score}
    (h : ∀ term : Term, term.sign.apply
      (Score.sum (List.replicate term.count (value term))) = contribution term) :
    (terms.map (Term.rollAll value)).map TermRoll.subtotal = terms.map contribution := by
  rw [List.map_map]
  exact List.map_congr_left fun term _ => h term

/-- The total of every roll lies in the range of possible totals, both ends of the range are the
total of a roll, and the best total that rolls report is the upper end, but at least one. -/
theorem possibleTotals_exact (terms : List Term) (hfits : ∀ term ∈ terms, term.die.FitsWord) :
    (∀ words rest outcome, evaluate terms words = some (outcome, rest) →
      (Formula.possibleTotals { terms := terms }).1 ≤ outcome.total ∧
        outcome.total ≤ (Formula.possibleTotals { terms := terms }).2 ∧
        outcome.maxTotal = max (Formula.possibleTotals { terms := terms }).2 .one) ∧
    (∃ words rest outcome, evaluate terms words = some (outcome, rest) ∧
      outcome.total = (Formula.possibleTotals { terms := terms }).2) ∧
    ∃ words rest outcome, evaluate terms words = some (outcome, rest) ∧
      outcome.total = (Formula.possibleTotals { terms := terms }).1 := by
  refine ⟨fun words rest outcome h => ?_, ?_, ?_⟩
  · obtain ⟨rolled, hrolled, rfl⟩ := evaluate_eq_some.mp h
    obtain ⟨rfl, hvalues⟩ := isRolled_of_rollTerms hrolled
    obtain ⟨hmin, hmax⟩ := mem_range_of_isRolled hvalues
    exact ⟨hmin, hmax, rfl⟩
  · obtain ⟨words, rest, hroll⟩ := (reaches_rollAll hfits Term.best_mem).exists_words
    refine ⟨words, rest, _, evaluate_eq_some.mpr ⟨_, hroll, rfl⟩, ?_⟩
    exact congrArg Score.sum (subtotals_rollAll Term.apply_sum_best)
  · obtain ⟨words, rest, hroll⟩ := (reaches_rollAll hfits Term.worst_mem).exists_words
    refine ⟨words, rest, _, evaluate_eq_some.mpr ⟨_, hroll, rfl⟩, ?_⟩
    exact congrArg Score.sum (subtotals_rollAll Term.apply_sum_worst)

theorem Term.one_le_maxCount : 1 ≤ maxCount := by decide

theorem Term.two_le_maxCount : 2 ≤ maxCount := by decide

/-- Ten thousand dice with all faces there are, less two dice that may show the lowest score. -/
def saturatingTerms : List Term :=
  [⟨.plus, 10000, .standard ⟨2147483647, by decide, by decide⟩, Term.one_le_maxCount, by decide,
      fun h => by cases h⟩,
    ⟨.minus, 2, .custom (.ofNonempty [.lowest, ⟨5, by decide, by decide⟩] (List.cons_ne_nil _ _)),
      Nat.zero_lt_two, Term.two_le_maxCount, fun h => by cases h⟩]

/-- Their totals reach from 9990 to the highest score. -/
theorem possibleTotals_saturatingTerms :
    (∀ term ∈ saturatingTerms, term.die.FitsWord) ∧
    (∀ words rest outcome, evaluate saturatingTerms words = some (outcome, rest) →
      9990 ≤ outcome.total.toInt) ∧
    (∃ words rest outcome, evaluate saturatingTerms words = some (outcome, rest) ∧
      outcome.total = .highest) ∧
    ∃ words rest outcome, evaluate saturatingTerms words = some (outcome, rest) ∧
      outcome.total.toInt = 9990 := by
  have hfits : ∀ term ∈ saturatingTerms, term.die.FitsWord :=
    List.forall_mem_cons.mpr ⟨trivial, List.forall_mem_singleton.mpr
      (show 2 < 4294967296 by decide)⟩
  have hrange : Formula.possibleTotals { terms := saturatingTerms } =
      (⟨9990, by decide, by decide⟩, .highest) := by decide
  obtain ⟨hwithin, hmax, hmin⟩ := possibleTotals_exact saturatingTerms hfits
  rw [hrange] at hwithin hmax hmin
  refine ⟨hfits, fun words rest outcome h => (hwithin words rest outcome h).1, hmax, ?_⟩
  obtain ⟨words, rest, outcome, h, htotal⟩ := hmin
  exact ⟨words, rest, outcome, h, congrArg Score.toInt htotal⟩

end DiceNotation
