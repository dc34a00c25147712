import DiceNotation.Proofs.Coverage
import DiceNotation.Proofs.Supply
import DiceNotation.Proofs.Totals

/-!
Blank formulas: those that were read from blanks only.

Whether a formula is blank is decided from its terms and its skipped characters, and an outcome
tells it again by having no rolls and a best total of zero, or by its breakdown.

* `isBlank_iff_of_placed`: a formula is blank just if its text had no segment;
* `one_le_bestTotal` and `head_breakdown`: what sets every evaluation apart from the empty outcome;
* `Outcome.Tells` and `ModeOutcome.Tells`: what an outcome says of the formula it was rolled from;
* `blank_text_alone_is_empty`: so text, formula and outcomes agree on what is blank.
-/
namespace DiceNotation
set_option autoImplicit false

/-! ## Blank texts -/

theorem Formula.isBlank_iff {formula : Formula} :
    formula.isBlank = true ↔ formula.terms = [] ∧ formula.skipped = 0 := by
  rw [Formula.isBlank, Bool.and_eq_true, List.isEmpty_iff, beq_iff_eq]

/-- A term is kept and a skipped stretch is counted, so no segment goes unnoticed. -/
theorem isBlank_iff_of_placed {text : List Char} {k : Nat} {found : List Segment}
    {options : ReadOptions} {formula : Formula} (hplaced : Placed text k found)
    (h : Formula.ofSegments options found = .ok formula) :
    formula.isBlank = true ↔ found = [] := by
  cases hplaced with
  | done =>
    cases h
    exact ⟨fun _ => rfl, fun _ => rfl⟩
  | @next _ segment more _ hwidth _ =>
    obtain ⟨diagnostics, terms, rest, -, hterms, -, rfl⟩ := ofSegments_cons_eq_ok h
    refine ⟨fun hblank => ?_, fun hnil => by cases hnil⟩
    obtain ⟨hnone, hskipped⟩ := Formula.isBlank_iff.mp hblank
    cases segment with
    | term form =>
      obtain ⟨term, -, rfl⟩ := terms_eq_ok hterms
      cases hnone
    | skipped first others =>
      have hzero : (Segment.skipped first others).recognized = 0 := rfl
      rw [Segment.width, hzero] at hwidth
      simp only at hskipped
      omega

theorem isBlank_iff_visible {text : String} {options : ReadOptions} {formula : Formula}
    (h : Formula.ofText text options = .ok formula) :
    formula.isBlank = true ↔ visible text.toList = [] := by
  have hplaced := placed_segments text.toList
  rw [ofText_eq] at h
  obtain ⟨htotal, hterms⟩ := hplaced.counts h
  rw [Nat.zero_add] at htotal
  constructor
  · intro hblank
    rw [(isBlank_iff_of_placed hplaced h).mp hblank] at h
    cases h
    exact List.length_eq_zero_iff.mp htotal.symm
  · intro hvisible
    rw [hvisible, List.length_nil] at htotal
    exact Formula.isBlank_iff.mpr ⟨List.length_eq_zero_iff.mp (by omega), by omega⟩

/-! ## Outcomes of an evaluation -/

theorem one_le_bestTotal (terms : List Term) : 1 ≤ (bestTotal terms).toInt := by
  rw [bestTotal, Score.toInt_max]
  exact Int.le_max_right _ _

theorem bestTotal_ne_zero (terms : List Term) : bestTotal terms ≠ .zero := by
  intro hzero
  have hone := one_le_bestTotal terms
  rw [hzero] at hone
  exact absurd hone (by decide)

theorem maxTotal_eq_zero_iff {formula : Formula} :
    formula.maxTotal = .zero ↔ formula.isBlank = true := by
  rw [Formula.maxTotal]
  split
  · next hblank => exact ⟨fun _ => hblank, fun _ => rfl⟩
  · next hblank =>
    exact ⟨fun hzero => absurd hzero (bestTotal_ne_zero _), fun h => absurd h hblank⟩

/-- How a number or a term begins: with a digit or a minus. -/
def IsNumeric (c : Char) : Prop := c.isDigit = true ∨ c = '-'

theorem head_digits (n : Nat) (more : List Char) :
    ∃ c cs, Decimal.digits n ++ more = c :: cs ∧ IsNumeric c := by
  obtain ⟨c, cs, hcs⟩ := List.exists_cons_of_ne_nil (Decimal.digits_ne_nil n)
  have hc : c ∈ Decimal.digits n := by
    rw [hcs]
    exact List.mem_cons_self ..
  refine ⟨c, cs ++ more, ?_, .inl (Decimal.isDigit_of_mem_digits hc)⟩
  rw [hcs, List.cons_append]

theorem head_termSpelling (term : Term) (more : List Char) :
    ∃ c cs, term.spelling ++ more = c :: cs ∧ IsNumeric c := by
  unfold Term.spelling
  split
  · next value _ =>
    unfold Score.spelling
    split
    · exact ⟨'-', _, rfl, .inr rfl⟩
    · exact head_digits _ more
  · rw [List.append_assoc]
    exact head_digits _ _

/-- A breakdown has nothing in it, or it begins with a digit or a minus. -/
theorem head_breakdown (rolled : List TermRoll) :
    ∀ c ∈ (TermRoll.breakdown true rolled).head?, IsNumeric c := by
  intro c hc
  cases rolled with
  | nil => cases hc
  | cons roll more =>
    rw [TermRoll.breakdown, List.append_assoc, List.append_assoc] at hc
    cases hsign : roll.term.sign with
    | plus =>
      obtain ⟨first, others, hspelling, hfirst⟩ :=
        head_termSpelling roll.term (roll.group ++ TermRoll.breakdown false more)
      rw [hsign, Sign.operator, if_pos rfl, List.nil_append, hspelling] at hc
      cases hc
      exact hfirst
    | minus =>
      rw [hsign, Sign.operator, if_pos rfl] at hc
      cases hc
      exact .inr rfl

theorem breakdown_ne_empty (rolled : List TermRoll) :
    String.ofList (TermRoll.breakdown true rolled) ≠ "Empty" := by
  intro h
  have hhead := head_breakdown rolled 'E'
  have hlist : TermRoll.breakdown true rolled = ['E', 'm', 'p', 't', 'y'] := by
    rw [← String.toList_ofList (l := TermRoll.breakdown true rolled), h]
    rfl
  rw [hlist] at hhead
  rcases hhead rfl with hdigit | hminus
  · exact absurd hdigit (by decide)
  · exact absurd hminus (by decide)

/-! ## Outcomes of a formula -/

/-- What an outcome tells of the formula that it was rolled from. -/
structure Outcome.Tells (outcome : Outcome) (formula : Formula) : Prop where
  isEmpty : outcome.isEmpty = true ↔ formula.isBlank = true
  breakdown : outcome.breakdown = "Empty" ↔ formula.isBlank = true
  maxTotal : outcome.maxTotal = formula.maxTotal

theorem tells_empty {formula : Formula} (hblank : formula.isBlank = true) :
    Outcome.empty.Tells formula where
  isEmpty := ⟨fun _ => hblank, fun _ => rfl⟩
  breakdown := ⟨fun _ => hblank, fun _ => rfl⟩
  maxTotal := (maxTotal_eq_zero_iff.mpr hblank).symm

theorem tells_of_evaluate {formula : Formula} (hblank : formula.isBlank = false)
    {words rest : List Word} {outcome : Outcome}
    (h : evaluate formula.terms words = some (outcome, rest)) : outcome.Tells formula := by
  obtain ⟨rolled, -, rfl⟩ := evaluate_eq_some.mp h
  have hnot : ¬formula.isBlank = true := by rw [hblank]; decide
  refine ⟨⟨fun hempty => ?_, fun h => absurd h hnot⟩,
    ⟨fun hbreakdown => ?_, fun h => absurd h hnot⟩, ?_⟩
  · rw [Outcome.isEmpty, Bool.and_eq_true, beq_iff_eq] at hempty
    exact absurd hempty.2 (bestTotal_ne_zero _)
  · exact absurd hbreakdown (breakdown_ne_empty rolled)
  · rw [Formula.maxTotal, if_neg hnot]
    rfl

/-! ## Modes -/

/-- One of two outcomes counts and the other one is kept. -/
theorem Mode.select_cases (mode : Mode) (first second : Outcome) :
    mode.select first second = ⟨mode, first, some second⟩ ∨
      mode.select first second = ⟨mode, second, some first⟩ := by
  unfold Mode.select
  split
  · exact .inr rfl
  · exact .inl rfl

theorem Mode.evaluate_twice {mode : Mode} (hmode : mode ≠ .normal) {terms : List Term}
    {words rest : List Word} {result : ModeOutcome} :
    mode.evaluate terms words = some (result, rest) ↔
      ∃ first mid second, DiceNotation.evaluate terms words = some (first, mid) ∧
        DiceNotation.evaluate terms mid = some (second, rest) ∧
        result = mode.select first second := by
  rw [Mode.evaluate_of_ne_normal hmode, draw_bind_eq_some]
  constructor
  · rintro ⟨first, mid, hfirst, hrest⟩
    obtain ⟨second, hsecond, rfl⟩ := draw_return_eq_some.mp hrest
    exact ⟨first, mid, second, hfirst, hsecond, rfl⟩
  · rintro ⟨first, mid, second, hfirst, hsecond, rfl⟩
    exact ⟨first, mid, hfirst, draw_return_eq_some.mpr ⟨second, hsecond, rfl⟩⟩

/-- Each outcome under a mode tells of the formula, and there is a second one but in normal mode. -/
structure ModeOutcome.Tells (result : ModeOutcome) (mode : Mode) (formula : Formula) : Prop where
  primary : result.primary.Tells formula
  secondary : ∀ outcome ∈ result.secondary, outcome.Tells formula
  single : result.secondary = none ↔ mode = .normal

theorem tells_single {formula : Formula} {outcome : Outcome} (h : outcome.Tells formula) :
    ModeOutcome.Tells ⟨.normal, outcome, none⟩ .normal formula where
  primary := h
  secondary _ hnone := by cases hnone
  single := ⟨fun _ => rfl, fun _ => rfl⟩

theorem tells_pair {formula : Formula} {mode : Mode} {first second : Outcome}
    (hmode : mode ≠ .normal) (hfirst : first.Tells formula) (hsecond : second.Tells formula) :
    ModeOutcome.Tells ⟨mode, first, some second⟩ mode formula where
  primary := hfirst
  secondary outcome houtcome := Option.some.inj houtcome ▸ hsecond
  single := ⟨fun hnone => (by cases hnone), fun hnormal => absurd hnormal hmode⟩

theorem tells_of_mode_evaluate {formula : Formula} (hblank : formula.isBlank = false) {mode : Mode}
    {words rest : List Word} {result : ModeOutcome}
    (h : mode.evaluate formula.terms words = some (result, rest)) :
    result.Tells mode formula := by
  by_cases hmode : mode = .normal
  · subst hmode
    obtain ⟨outcome, houtcome, rfl⟩ := draw_return_eq_some.mp h
    exact tells_single (tells_of_evaluate hblank houtcome)
  · obtain ⟨first, mid, second, hfirst, hsecond, rfl⟩ := (Mode.evaluate_twice hmode).mp h
    have htells := tells_of_evaluate hblank hfirst
    have htells' := tells_of_evaluate hblank hsecond
    rcases mode.select_cases first second with hselect | hselect
    · rw [hselect]
      exact tells_pair hmode htells htells'
    · rw [hselect]
      exact tells_pair hmode htells' htells

theorem tells_empty_mode {formula : Formula} (hblank : formula.isBlank = true) (mode : Mode) :
    ModeOutcome.Tells ⟨mode, .empty, if mode = .normal then none else some .empty⟩ mode
      formula := by
  have hempty := tells_empty hblank
  by_cases hmode : mode = .normal
  · subst hmode
    exact tells_single hempty
  · rw [if_neg hmode]
    exact tells_pair hmode hempty hempty

/-! ## Rolls of a formula -/

theorem roll_of_blank {formula : Formula} (hblank : formula.isBlank = true) (words : List Word) :
    formula.roll words = some (.empty, words) := by
  rw [Formula.roll, if_pos hblank]
  rfl

theorem rollWithMode_of_blank {formula : Formula} (hblank : formula.isBlank = true) (mode : Mode)
    (words : List Word) :
    formula.rollWithMode mode words =
      some (⟨mode, .empty, if mode = .normal then none else some .empty⟩, words) := by
  rw [Formula.rollWithMode, if_pos hblank]
  rfl

theorem tells_of_roll {formula : Formula} {words rest : List Word} {outcome : Outcome}
    (h : formula.roll words = some (outcome, rest)) : outcome.Tells formula := by
  cases hblank : formula.isBlank with
  | true =>
    rw [roll_of_blank hblank] at h
    cases h
    exact tells_empty hblank
  | false =>
    rw [Formula.roll, hblank] at h
    exact tells_of_evaluate hblank h

theorem tells_of_rollWithMode {formula : Formula} {mode : Mode} {words rest : List Word}
    {result : ModeOutcome} (h : formula.rollWithMode mode words = some (result, rest)) :
    result.Tells mode formula := by
  cases hblank : formula.isBlank with
  | true =>
    rw [rollWithMode_of_blank hblank] at h
    cases h
    exact tells_empty_mode hblank mode
  | false =>
    rw [Formula.rollWithMode, hblank] at h
    exact tells_of_mode_evaluate hblank h

/-- A formula read from a text is blank just if the text is, and so its best total tells and every
outcome that is rolled from it, alone or under a mode; every roll ends, given enough words, and a
blank formula takes none. -/
theorem blank_text_alone_is_empty {text : String} {options : ReadOptions} {formula : Formula}
    (h : Formula.ofText text options = .ok formula) :
    ((∀ c ∈ text.toList, isBlank c = true) ↔ formula.isBlank = true) ∧
    (formula.maxTotal = .zero ↔ formula.isBlank = true) ∧
    (formula.roll.Ends ∧
      ∀ words outcome rest, formula.roll words = some (outcome, rest) → outcome.Tells formula) ∧
    (∀ mode, (formula.rollWithMode mode).Ends ∧
      ∀ words result rest, formula.rollWithMode mode words = some (result, rest) →
        result.Tells mode formula) ∧
    (formula.isBlank = true → ∀ words,
      (∃ outcome, formula.roll words = some (outcome, words)) ∧
      ∀ mode, ∃ result, formula.rollWithMode mode words = some (result, words)) := by
  refine ⟨?_, maxTotal_eq_zero_iff, ⟨formula.ends_roll, fun words outcome rest => tells_of_roll⟩,
    fun mode => ⟨formula.ends_rollWithMode mode, fun words result rest => tells_of_rollWithMode⟩,
    ?_⟩
  · rw [isBlank_iff_visible h, visible, List.filter_eq_nil_iff]
    refine forall₂_congr fun c _ => ?_
    rw [Bool.not_eq_true', Bool.not_eq_false]
  · intro hblank words
    have hmode (mode : Mode) := rollWithMode_of_blank hblank mode words
    exact ⟨⟨_, roll_of_blank hblank words⟩, fun mode => ⟨_, hmode mode⟩⟩

/-- A text that is not blank and has no term: its outcome has no rolls and is not empty. -/
theorem blank_text_alone_is_empty_skipped : ∃ formula outcome,
    Formula.ofText "x" = .ok formula ∧ formula.terms = [] ∧
    formula.roll [] = some (outcome, []) ∧ outcome.rolls = [] ∧
    ¬(∀ c ∈ "x".toList, isBlank c = true) ∧ outcome.Tells formula := by
  have hterms : ((Formula.ofText "x").map Formula.terms).toOption = some [] := by decide +kernel
  have hmem : 'x' ∈ "x".toList := by decide
  have hvisible : ¬∀ c ∈ "x".toList, isBlank c = true :=
    fun h => absurd (h 'x' hmem) (by decide)
  cases hread : Formula.ofText "x" with
  | error error =>
    rw [hread] at hterms
    cases hterms
  | ok formula =>
    rw [hread] at hterms
    have hnone : formula.terms = [] := Option.some.inj hterms
    obtain ⟨hblank, -, ⟨-, hroll⟩, -, -⟩ := blank_text_alone_is_empty hread
    have hnot : ¬formula.isBlank = true := fun h => hvisible (hblank.mpr h)
    have houtcome : formula.roll [] = some (.ofRolled [] [], []) := by
      rw [Formula.roll, if_neg hnot, hnone]
      rfl
    exact ⟨formula, _, rfl, hnone, houtcome, rfl, hvisible, hroll _ _ _ houtcome⟩

end DiceNotation
