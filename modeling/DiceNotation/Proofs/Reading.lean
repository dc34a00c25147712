import DiceNotation.Formula.Reading

/-!
Reading segment by segment: what one segment more does to a reading, and which segments a text has.

* `ofSegments_cons_eq_ok` and `terms_eq_ok`: how a reading came by its formula, and a segment by its
  terms;
* `segments_of_takeTerm` and `segments_cons_of_none`: the segments of lexemes, by their front.
-/
namespace DiceNotation
set_option autoImplicit false

theorem ofText_eq (text : String) (options : ReadOptions) :
    Formula.ofText text options = Formula.ofSegments options (segments (lexemes text.toList)) := rfl

/-- A reading shows something of its formula only if it succeeds. -/
theorem exists_ok_of_shown {α : Type} {result : Except FormulaError Formula} {shown : Formula → α}
    {value : α} (h : (result.map shown).toOption = some value) :
    ∃ formula, result = .ok formula ∧ shown formula = value := by
  cases result with
  | error error => cases h
  | ok formula => exact ⟨formula, rfl, Option.some.inj h⟩

/-! ## One segment more -/

section Cons
variable {options : ReadOptions} {segment : Segment} {more : List Segment}

theorem report_lenient (maxCount : Nat) (issues : List Diagnostic) :
    ReadOptions.report ⟨false, maxCount⟩ issues = .ok issues := rfl

theorem report_nil (options : ReadOptions) : options.report [] = .ok [] := by
  rw [ReadOptions.report, ite_self]

/-- A strict reading keeps no issue. -/
theorem report_strict_eq_ok {maxCount : Nat} {issues diagnostics : List Diagnostic}
    (h : ReadOptions.report ⟨true, maxCount⟩ issues = .ok diagnostics) :
    issues = [] ∧ diagnostics = [] := by
  cases issues with
  | nil =>
    cases h
    exact ⟨rfl, rfl⟩
  | cons issue more => cases h

theorem ofSegments_cons_error {error : FormulaError}
    (h : options.report (segment.issues options.maxCount) = .error error) :
    Formula.ofSegments options (segment :: more) = .error error := by
  rw [Formula.ofSegments, h]
  rfl

theorem ofSegments_cons_flawed {diagnostics : List Diagnostic} {error : FormulaError}
    (hissues : options.report (segment.issues options.maxCount) = .ok diagnostics)
    (h : segment.terms options.maxCount = .error error) :
    Formula.ofSegments options (segment :: more) = .error error := by
  rw [Formula.ofSegments, hissues, h]
  rfl

theorem ofSegments_cons_ok {diagnostics : List Diagnostic} {terms : List Term}
    (hissues : options.report (segment.issues options.maxCount) = .ok diagnostics)
    (hterms : segment.terms options.maxCount = .ok terms) :
    Formula.ofSegments options (segment :: more) =
      (Formula.ofSegments options more).map fun rest => {
        terms := terms ++ rest.terms
        diagnostics := diagnostics ++ rest.diagnostics
        recognized := segment.recognized + rest.recognized
        skipped := segment.skippedWidth + rest.skipped } := by
  rw [Formula.ofSegments, hissues, hterms]
  rfl

theorem ofSegments_cons_eq_ok {formula : Formula}
    (h : Formula.ofSegments options (segment :: more) = .ok formula) :
    ∃ diagnostics terms rest,
      options.report (segment.issues options.maxCount) = .ok diagnostics ∧
      segment.terms options.maxCount = .ok terms ∧
      Formula.ofSegments options more = .ok rest ∧
      formula = {
        terms := terms ++ rest.terms
        diagnostics := diagnostics ++ rest.diagnostics
        recognized := segment.recognized + rest.recognized
        skipped := segment.skippedWidth + rest.skipped } := by
  cases hissues : options.report (segment.issues options.maxCount) with
  | error error =>
    rw [ofSegments_cons_error hissues] at h
    cases h
  | ok diagnostics =>
    cases hterms : segment.terms options.maxCount with
    | error error =>
      rw [ofSegments_cons_flawed hissues hterms] at h
      cases h
    | ok terms =>
      rw [ofSegments_cons_ok hissues hterms] at h
      cases hmore : Formula.ofSegments options more with
      | error error =>
        rw [hmore] at h
        cases h
      | ok rest =>
        rw [hmore] at h
        cases h
        exact ⟨diagnostics, terms, rest, rfl, rfl, rfl, rfl⟩

end Cons

section Terms
variable {maxCount : Nat} {form : TermForm}

theorem terms_of_term {term : Term} (h : form.term maxCount = .ok term) :
    (Segment.term form).terms maxCount = .ok [term] := by
  rw [Segment.terms, h]

theorem terms_of_flaw {flaw : DieFlaw} (h : form.term maxCount = .error flaw) :
    (Segment.term form).terms maxCount =
      .error (.located form.start (.die (.invalidDie flaw))) := by
  rw [Segment.terms, h]

theorem terms_eq_ok {terms : List Term} (h : (Segment.term form).terms maxCount = .ok terms) :
    ∃ term, form.term maxCount = .ok term ∧ terms = [term] := by
  cases hterm : form.term maxCount with
  | error flaw =>
    rw [terms_of_flaw hterm] at h
    cases h
  | ok term =>
    rw [terms_of_term hterm] at h
    cases h
    exact ⟨term, rfl, rfl⟩

end Terms

/-! ## The segments of some lexemes -/

theorem segments_of_takeTerm {lexemes rest : List Lexeme} {form : TermForm}
    (h : takeTerm lexemes = some (form, rest)) :
    segments lexemes = .term form :: segments rest := by
  cases lexemes with
  | nil => cases h
  | cons lexeme more =>
    rw [segments]
    split
    · next found after hfound =>
      rw [h] at hfound
      cases hfound
      rfl
    · next hnone =>
      rw [h] at hnone
      cases hnone

theorem segments_cons_of_none {lexeme : Lexeme} {more : List Lexeme}
    (h : takeTerm (lexeme :: more) = none) :
    segments (lexeme :: more) = Segment.skip lexeme (segments more) := by
  rw [segments]
  split
  · next hsome =>
    rw [h] at hsome
    cases hsome
  · rfl

theorem segments_nil : segments [] = [] := by
  rw [segments]

theorem skip_eq_cons (lexeme : Lexeme) (segments : List Segment) :
    ∃ more others, Segment.skip lexeme segments = .skipped lexeme more :: others := by
  cases segments with
  | nil => exact ⟨[], [], rfl⟩
  | cons segment others =>
    cases segment with
    | term form => exact ⟨[], .term form :: others, rfl⟩
    | skipped first more => exact ⟨first :: more, others, rfl⟩

theorem segments_eq_nil_iff {lexemes : List Lexeme} : segments lexemes = [] ↔ lexemes = [] := by
  constructor
  · intro h
    cases lexemes with
    | nil => rfl
    | cons lexeme more =>
      cases htake : takeTerm (lexeme :: more) with
      | none =>
        obtain ⟨_, _, hskip⟩ := skip_eq_cons lexeme (segments more)
        rw [segments_cons_of_none htake, hskip] at h
        cases h
      | some found =>
        rw [segments_of_takeTerm htake] at h
        cases h
  · rintro rfl
    exact segments_nil

theorem takeTerm_of_segments {lexemes : List Lexeme} {form : TermForm} {others : List Segment}
    (h : segments lexemes = .term form :: others) :
    ∃ rest, takeTerm lexemes = some (form, rest) ∧ segments rest = others := by
  cases lexemes with
  | nil =>
    rw [segments_nil] at h
    cases h
  | cons lexeme more =>
    cases htake : takeTerm (lexeme :: more) with
    | none =>
      obtain ⟨_, _, hskip⟩ := skip_eq_cons lexeme (segments more)
      rw [segments_cons_of_none htake, hskip] at h
      cases h
    | some found =>
      rw [segments_of_takeTerm htake] at h
      cases h
      exact ⟨found.2, rfl, rfl⟩

/-- The forms that are taken as terms. -/
def Segment.forms : Segment → List TermForm
  | .term form => [form]
  | .skipped _ _ => []

theorem forms_skip (lexeme : Lexeme) (segments : List Segment) :
    (Segment.skip lexeme segments).flatMap Segment.forms = segments.flatMap Segment.forms := by
  cases segments with
  | nil => rfl
  | cons segment more => cases segment <;> rfl

end DiceNotation
