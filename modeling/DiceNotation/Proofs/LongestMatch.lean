import DiceNotation.Proofs.Lexing
import DiceNotation.Proofs.Meaning
import DiceNotation.Proofs.Reading

/-!
What a lenient reading does with any text: it takes the longest term where one stands, skips one
lexeme where none does, and reads each term it took.

* `LongestCut lexemes forms`: the terms that are taken from the lexemes, from left to right;
* `longestCut_segments` and `LongestCut.eq_segments`: there is exactly one such cut, and the
  segments have its terms;
* `meanings`: the terms that are meant, or the flaw of the first die that does not exist.
-/
namespace DiceNotation
set_option autoImplicit false

/-! ## Cutting -/

inductive LongestCut : List Lexeme → List TermForm → Prop
  | done : LongestCut [] []
  | take {form : TermForm} {taken rest : List Lexeme} {forms : List TermForm}
      (hlongest : IsLongest form taken rest) (hrest : LongestCut rest forms) :
      LongestCut (taken ++ rest) (form :: forms)
  | skip {lexeme : Lexeme} {rest : List Lexeme} {forms : List TermForm}
      (hnone : ∀ form taken rest', taken ++ rest' = lexeme :: rest → ¬TermSpelled form taken)
      (hrest : LongestCut rest forms) : LongestCut (lexeme :: rest) forms

theorem longestCut_segments (lexemes : List Lexeme) :
    LongestCut lexemes ((segments lexemes).flatMap Segment.forms) := by
  fun_induction segments lexemes with
  | case1 => exact .done
  | case2 lexeme more form rest htake ih =>
    obtain ⟨taken, hlexemes, hlongest⟩ := takeTerm_eq_some_iff.mp htake
    rw [hlexemes]
    exact .take hlongest ih
  | case3 lexeme more htake ih =>
    rw [forms_skip]
    exact .skip (takeTerm_eq_none_iff.mp htake) ih

theorem LongestCut.eq_segments {lexemes : List Lexeme} {forms : List TermForm}
    (h : LongestCut lexemes forms) : forms = (segments lexemes).flatMap Segment.forms := by
  induction h with
  | done => rw [segments_nil, List.flatMap_nil]
  | @take form taken rest forms hlongest _ ih =>
    rw [segments_of_takeTerm hlongest.takeTerm_eq, List.flatMap_cons, ← ih]
    rfl
  | @skip lexeme rest forms hnone _ ih =>
    rw [segments_cons_of_none (takeTerm_eq_none_iff.mpr hnone), forms_skip, ih]

/-! ## Meaning of a cut -/

/-- The terms that forms mean, in order, or the flaw of the first die that does not exist, at the
start of its term. -/
def meanings (maxCount : Nat) : List TermForm → Except FormulaError (List PlainTerm)
  | [] => .ok []
  | form :: more =>
    match (form.plain (.tolerant maxCount)).die.flaw with
    | some flaw => .error (.located form.start (.die (.invalidDie flaw)))
    | none => (meanings maxCount more).map (form.plain (.tolerant maxCount) :: ·)

theorem meanings_eq_ok {maxCount : Nat} {forms : List TermForm} {terms : List PlainTerm}
    (h : meanings maxCount forms = .ok terms) :
    terms = forms.map (TermForm.plain (.tolerant maxCount)) ∧
      ∀ form ∈ forms, (form.plain (.tolerant maxCount)).die.Valid := by
  induction forms generalizing terms with
  | nil =>
    cases h
    exact ⟨rfl, nofun⟩
  | cons form more ih =>
    unfold meanings at h
    split at h
    · cases h
    · next hflaw =>
      cases hmore : meanings maxCount more with
      | error error =>
        rw [hmore] at h
        cases h
      | ok rest =>
        rw [hmore] at h
        cases h
        obtain ⟨rfl, hvalid⟩ := ih hmore
        exact ⟨rfl, List.forall_mem_cons.mpr ⟨PlainDie.flaw_eq_none_iff.mp hflaw, hvalid⟩⟩

theorem meanings_eq_error {maxCount : Nat} {forms : List TermForm} {error : FormulaError}
    (h : meanings maxCount forms = .error error) :
    ∃ before form after flaw, forms = before ++ form :: after ∧
      (∀ earlier ∈ before, (earlier.plain (.tolerant maxCount)).die.Valid) ∧
      (form.plain (.tolerant maxCount)).die.flaw = some flaw ∧
      error = .located form.start (.die (.invalidDie flaw)) := by
  induction forms with
  | nil => cases h
  | cons form more ih =>
    unfold meanings at h
    split at h
    · next flaw hflaw =>
      cases h
      exact ⟨[], form, more, flaw, rfl, nofun, hflaw, rfl⟩
    · next hflaw =>
      cases hmore : meanings maxCount more with
      | ok rest =>
        rw [hmore] at h
        cases h
      | error found =>
        rw [hmore] at h
        cases h
        obtain ⟨before, bad, after, flaw, rfl, hbefore, hbad, rfl⟩ := ih hmore
        have hform := PlainDie.flaw_eq_none_iff.mp hflaw
        exact ⟨form :: before, bad, after, flaw, rfl,
          List.forall_mem_cons.mpr ⟨hform, hbefore⟩, hbad, rfl⟩

/-! ## Lenient readings -/

theorem plain_terms_lenient (maxCount : Nat) (segments : List Segment) :
    (Formula.ofSegments ⟨false, maxCount⟩ segments).map (fun formula =>
        formula.terms.map Term.plain) =
      meanings maxCount (segments.flatMap Segment.forms) := by
  induction segments with
  | nil => rfl
  | cons segment more ih =>
    have hreport := report_lenient maxCount (segment.issues maxCount)
    cases segment with
    | skipped first others =>
      rw [ofSegments_cons_ok hreport rfl, List.flatMap_cons, Segment.forms, List.nil_append, ← ih]
      cases Formula.ofSegments ⟨false, maxCount⟩ more <;> rfl
    | term form =>
      rw [List.flatMap_cons, Segment.forms, List.singleton_append, meanings, ← ih]
      cases hterm : form.term maxCount with
      | error flaw =>
        rw [ofSegments_cons_flawed hreport (terms_of_flaw hterm),
          TermForm.term_eq_error_iff.mp hterm]
        rfl
      | ok term =>
        have hplain := TermForm.term_eq_ok_iff.mp hterm
        have hflaw : (form.plain (.tolerant maxCount)).die.flaw = none :=
          PlainDie.flaw_eq_none_iff.mpr (hplain ▸ term.die.valid_plain)
        rw [ofSegments_cons_ok hreport (terms_of_term hterm), hflaw, ← hplain]
        cases Formula.ofSegments ⟨false, maxCount⟩ more <;> rfl

/-- A lenient reading reads the terms of the one longest cut: it fails just where the die of one of
them does not exist, with the flaw of the first, and returns all of them otherwise. -/
theorem lenient_reads_longest_cut (text : String) (maxCount : Nat) :
    Tokenizes text.toList (lexemes text.toList) ∧
    ∃ forms, LongestCut (lexemes text.toList) forms ∧
      (∀ others, LongestCut (lexemes text.toList) others → others = forms) ∧
      ((∃ error, Formula.ofText text ⟨false, maxCount⟩ = .error error) ↔
        ∃ form ∈ forms, ¬(form.plain (.tolerant maxCount)).die.Valid) ∧
      (∀ error, Formula.ofText text ⟨false, maxCount⟩ = .error error →
        ∃ before form after flaw, forms = before ++ form :: after ∧
          (∀ earlier ∈ before, (earlier.plain (.tolerant maxCount)).die.Valid) ∧
          (form.plain (.tolerant maxCount)).die.flaw = some flaw ∧
          error = .located form.start (.die (.invalidDie flaw))) ∧
      ∀ formula, Formula.ofText text ⟨false, maxCount⟩ = .ok formula →
        formula.terms.map Term.plain = forms.map (TermForm.plain (.tolerant maxCount)) := by
  refine ⟨tokenizes_lexemes _, _, longestCut_segments _, fun others h => h.eq_segments, ?_⟩
  -- The rest speaks of the forms only, not of how they were cut.
  have hread := plain_terms_lenient maxCount (segments (lexemes text.toList))
  rw [← ofText_eq] at hread
  generalize (segments (lexemes text.toList)).flatMap Segment.forms = forms at hread
  cases hresult : Formula.ofText text ⟨false, maxCount⟩ with
  | error found =>
    rw [hresult] at hread
    have hfirst := meanings_eq_error hread.symm
    refine ⟨⟨fun _ => ?_, fun _ => ⟨found, rfl⟩⟩, ?_, nofun⟩
    · obtain ⟨before, form, after, flaw, rfl, -, hflaw, -⟩ := hfirst
      refine ⟨form, List.mem_append_right _ (List.mem_cons_self ..), fun hvalid => ?_⟩
      rw [PlainDie.flaw_eq_none_iff.mpr hvalid] at hflaw
      cases hflaw
    · intro error herror
      cases herror
      exact hfirst
  | ok formula =>
    rw [hresult] at hread
    obtain ⟨hterms, hvalid⟩ := meanings_eq_ok hread.symm
    refine ⟨⟨nofun, ?_⟩, nofun, ?_⟩
    · rintro ⟨form, hform, hinvalid⟩
      exact absurd (hvalid form hform) hinvalid
    · intro formula' hformula
      cases hformula
      exact hterms

end DiceNotation
