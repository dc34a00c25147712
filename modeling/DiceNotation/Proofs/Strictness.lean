import DiceNotation.Proofs.Reading

/-!
Strict and lenient readings of one text.

Both look at the same issues in the same order, and part at the first one: there a strict reading
fails, and a lenient one goes on. `Agree` says so of the two results and `agree_ofSegments` proves
it for every sequence of segments, since the issues of a segment are looked at before its die is
made, and those of one segment before those of the next.
-/
namespace DiceNotation
set_option autoImplicit false

/-- How the results of a strict and a lenient reading go together. -/
inductive Agree : Except FormulaError Formula → Except FormulaError Formula → Prop
  /-- No issue was met. -/
  | clean {result : Except FormulaError Formula}
      (h : ∀ formula, result = .ok formula → formula.diagnostics = []) : Agree result result
  /-- The first issue ended the strict reading. -/
  | issue {issue : Diagnostic} {lenient : Except FormulaError Formula}
      (h : ∀ formula, lenient = .ok formula → formula.diagnostics.head? = some issue) :
      Agree (.error issue.error) lenient

theorem agree_cons_issue {maxCount : Nat} {segment : Segment} {issue : Diagnostic}
    {issues : List Diagnostic} (h : segment.issues maxCount = issue :: issues)
    (more : List Segment) :
    Agree (Formula.ofSegments ⟨true, maxCount⟩ (segment :: more))
      (Formula.ofSegments ⟨false, maxCount⟩ (segment :: more)) := by
  have hstrict : ReadOptions.report ⟨true, maxCount⟩ (segment.issues maxCount) =
      .error issue.error := by rw [h]; rfl
  have hlenient : ReadOptions.report ⟨false, maxCount⟩ (segment.issues maxCount) =
      .ok (issue :: issues) := by rw [h]; rfl
  rw [ofSegments_cons_error hstrict]
  refine .issue fun formula hformula => ?_
  obtain ⟨diagnostics, terms, rest, hdiagnostics, -, -, rfl⟩ := ofSegments_cons_eq_ok hformula
  rw [hlenient] at hdiagnostics
  cases hdiagnostics
  rfl

theorem agree_ofSegments (maxCount : Nat) (segments : List Segment) :
    Agree (Formula.ofSegments ⟨true, maxCount⟩ segments)
      (Formula.ofSegments ⟨false, maxCount⟩ segments) := by
  induction segments with
  | nil =>
    refine .clean fun formula hformula => ?_
    cases hformula
    rfl
  | cons segment more ih =>
    cases hissues : segment.issues maxCount with
    | cons issue issues => exact agree_cons_issue hissues more
    | nil =>
      have hreport : ∀ strict, ReadOptions.report ⟨strict, maxCount⟩ (segment.issues maxCount) =
          .ok [] := fun strict => by rw [hissues, report_nil]
      cases hterms : segment.terms maxCount with
      | error error =>
        rw [ofSegments_cons_flawed (hreport true) hterms,
          ofSegments_cons_flawed (hreport false) hterms]
        exact .clean nofun
      | ok terms =>
        rw [ofSegments_cons_ok (hreport true) hterms, ofSegments_cons_ok (hreport false) hterms]
        generalize Formula.ofSegments ⟨true, maxCount⟩ more = strict at ih
        generalize Formula.ofSegments ⟨false, maxCount⟩ more = lenient at ih
        cases ih with
        | clean h =>
          refine .clean fun formula hformula => ?_
          cases strict with
          | error error => cases hformula
          | ok rest =>
            cases hformula
            exact h rest rfl
        | issue h =>
          refine .issue fun formula hformula => ?_
          cases lenient with
          | error error => cases hformula
          | ok rest =>
            cases hformula
            exact h rest rfl

/-! ## What agreement gives -/

theorem Diagnostic.error_eq (issue : Diagnostic) :
    issue.error = .located issue.position
      (if issue.kind = .skipped then .unrecognized issue.text else .badNumber issue.text) := by
  obtain ⟨kind, position, text⟩ := issue
  cases kind <;> rfl

theorem Diagnostic.dieError?_error (issue : Diagnostic) : issue.error.dieError? = none := by
  obtain ⟨kind, position, text⟩ := issue
  cases kind <;> rfl

namespace Agree
variable {strict lenient : Except FormulaError Formula}

theorem ok_iff (h : Agree strict lenient) (formula : Formula) :
    strict = .ok formula ↔ lenient = .ok formula ∧ formula.diagnostics = [] := by
  cases h with
  | clean hclean => exact ⟨fun hok => ⟨hok, hclean formula hok⟩, fun hok => hok.1⟩
  | issue hissue =>
    refine ⟨nofun, fun ⟨hok, hnil⟩ => ?_⟩
    have hhead := hissue formula hok
    rw [hnil] at hhead
    cases hhead

theorem error_of_diagnostic (h : Agree strict lenient) {formula : Formula} {first : Diagnostic}
    {others : List Diagnostic} (hok : lenient = .ok formula)
    (hfirst : formula.diagnostics = first :: others) : strict = .error first.error := by
  cases h with
  | clean hclean =>
    have hnil := hclean formula hok
    rw [hfirst] at hnil
    cases hnil
  | issue hissue =>
    have hhead := hissue formula hok
    rw [hfirst] at hhead
    cases hhead
    rfl

theorem error_of_error (h : Agree strict lenient) {error : FormulaError}
    (herror : lenient = .error error) :
    strict = .error error ∨ ∃ issue : Diagnostic, strict = .error issue.error := by
  cases h with
  | clean => exact .inl herror
  | issue => exact .inr ⟨_, rfl⟩

theorem lenient_of_dieError (h : Agree strict lenient) {error : FormulaError} {fault : DiceError}
    (herror : strict = .error error) (hfault : error.dieError? = some fault) :
    lenient = .error error := by
  cases h with
  | clean => exact herror
  | @issue issue =>
    cases herror
    rw [issue.dieError?_error] at hfault
    cases hfault

end Agree

/-- A strict reading succeeds just where a lenient one notices nothing, and with the same formula;
where something is noticed it fails with the first of it; and it meets no fault of a die that a
lenient reading would not meet. -/
theorem strict_agrees_with_lenient (text : String) (maxCount : Nat) :
    (∀ formula, Formula.ofText text ⟨true, maxCount⟩ = .ok formula ↔
      Formula.ofText text ⟨false, maxCount⟩ = .ok formula ∧ formula.diagnostics = []) ∧
    (∀ formula first others, Formula.ofText text ⟨false, maxCount⟩ = .ok formula →
      formula.diagnostics = first :: others →
      Formula.ofText text ⟨true, maxCount⟩ = .error (.located first.position
        (if first.kind = .skipped then .unrecognized first.text else .badNumber first.text))) ∧
    (∀ error, Formula.ofText text ⟨false, maxCount⟩ = .error error →
      Formula.ofText text ⟨true, maxCount⟩ = .error error ∨
        ∃ position quoted,
          Formula.ofText text ⟨true, maxCount⟩ = .error (.located position (.unrecognized quoted)) ∨
          Formula.ofText text ⟨true, maxCount⟩ = .error (.located position (.badNumber quoted))) ∧
    ∀ error fault, Formula.ofText text ⟨true, maxCount⟩ = .error error →
      error.dieError? = some fault → Formula.ofText text ⟨false, maxCount⟩ = .error error := by
  have h : Agree (Formula.ofText text ⟨true, maxCount⟩) (Formula.ofText text ⟨false, maxCount⟩) :=
    agree_ofSegments maxCount (segments (lexemes text.toList))
  refine ⟨h.ok_iff, ?_, ?_, fun error fault => h.lenient_of_dieError⟩
  · intro formula first others hok hfirst
    rw [h.error_of_diagnostic hok hfirst, first.error_eq]
  · intro error herror
    rcases h.error_of_error herror with hsame | ⟨issue, hissue⟩
    · exact .inl hsame
    · refine .inr ⟨issue.position, issue.text, ?_⟩
      rw [hissue, issue.error_eq]
      split
      · exact .inl rfl
      · exact .inr rfl

/-- A text in which nothing is noticed, two that the readings part at, first at a count above the
limit and then at letters, one that only the lenient reading follows to its faceless die, and one
whose die fails both. -/
theorem strict_agrees_with_lenient_parted :
    (∃ formula, Formula.ofText "2d6 + 1" ⟨false, 100⟩ = .ok formula ∧ formula.text = "2d6 + 1" ∧
      Formula.ofText "2d6 + 1" ⟨true, 100⟩ = .ok formula) ∧
    (∃ formula, Formula.ofText "101d6 xyz" ⟨false, 100⟩ = .ok formula ∧
      formula.diagnostics = [⟨.countFallback, 0, "101"⟩, ⟨.skipped, 6, "xyz"⟩] ∧
      Formula.ofText "101d6 xyz" ⟨true, 100⟩ = .error (.located 0 (.badNumber "101"))) ∧
    (∃ formula, Formula.ofText "xyz 101d6" ⟨false, 100⟩ = .ok formula ∧
      formula.diagnostics = [⟨.skipped, 0, "xyz"⟩, ⟨.countFallback, 4, "101"⟩] ∧
      Formula.ofText "xyz 101d6" ⟨true, 100⟩ = .error (.located 0 (.unrecognized "xyz"))) ∧
    (Formula.ofText "xyz d0" ⟨false, 100⟩ =
        .error (.located 4 (.die (.invalidDie (.noFaces .zero)))) ∧
      ∃ position quoted,
        Formula.ofText "xyz d0" ⟨true, 100⟩ = .error (.located position (.unrecognized quoted)) ∨
        Formula.ofText "xyz d0" ⟨true, 100⟩ = .error (.located position (.badNumber quoted))) ∧
    Formula.ofText "d0" ⟨true, 100⟩ = .error (.located 0 (.die (.invalidDie (.noFaces .zero)))) ∧
    Formula.ofText "d0" ⟨false, 100⟩ =
      .error (.located 0 (.die (.invalidDie (.noFaces .zero)))) := by
  have hfaceless : Formula.ofText "xyz d0" ⟨false, 100⟩ =
      .error (.located 4 (.die (.invalidDie (.noFaces .zero)))) := by with_unfolding_all rfl
  have hfails : Formula.ofText "d0" ⟨true, 100⟩ =
      .error (.located 0 (.die (.invalidDie (.noFaces .zero)))) := by with_unfolding_all rfl
  refine ⟨?_, ?_, ?_, ⟨hfaceless, ?_⟩, hfails, ?_⟩
  · have hshown : ((Formula.ofText "2d6 + 1" ⟨false, 100⟩).map fun formula =>
        (formula.text, formula.diagnostics)).toOption = some ("2d6 + 1", []) := by decide +kernel
    obtain ⟨formula, hread, hparts⟩ := exists_ok_of_shown hshown
    obtain ⟨htext, hnil⟩ := Prod.mk.inj hparts
    obtain ⟨hok, -, -, -⟩ := strict_agrees_with_lenient "2d6 + 1" 100
    exact ⟨formula, hread, htext, (hok formula).mpr ⟨hread, hnil⟩⟩
  · have hshown : ((Formula.ofText "101d6 xyz" ⟨false, 100⟩).map Formula.diagnostics).toOption =
        some [⟨.countFallback, 0, "101"⟩, ⟨.skipped, 6, "xyz"⟩] := by decide +kernel
    obtain ⟨formula, hread, hissues⟩ := exists_ok_of_shown hshown
    obtain ⟨-, hfirst, -, -⟩ := strict_agrees_with_lenient "101d6 xyz" 100
    exact ⟨formula, hread, hissues, hfirst formula _ _ hread hissues⟩
  · have hshown : ((Formula.ofText "xyz 101d6" ⟨false, 100⟩).map Formula.diagnostics).toOption =
        some [⟨.skipped, 0, "xyz"⟩, ⟨.countFallback, 4, "101"⟩] := by decide +kernel
    obtain ⟨formula, hread, hissues⟩ := exists_ok_of_shown hshown
    obtain ⟨-, hfirst, -, -⟩ := strict_agrees_with_lenient "xyz 101d6" 100
    exact ⟨formula, hread, hissues, hfirst formula _ _ hread hissues⟩
  · have hother : Formula.ofText "xyz d0" ⟨true, 100⟩ ≠
        .error (.located 4 (.die (.invalidDie (.noFaces .zero)))) := by
      have hstrict : Formula.ofText "xyz d0" ⟨true, 100⟩ =
          .error (.located 0 (.unrecognized "xyz")) := by with_unfolding_all rfl
      rw [hstrict]
      exact nofun
    obtain ⟨-, -, herror, -⟩ := strict_agrees_with_lenient "xyz d0" 100
    exact (herror _ hfaceless).resolve_left hother
  · obtain ⟨-, -, -, hfault⟩ := strict_agrees_with_lenient "d0" 100
    exact hfault _ _ hfails rfl

end DiceNotation
