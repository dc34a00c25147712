import DiceNotation.Proofs.Building
import DiceNotation.Proofs.Coverage
import DiceNotation.Proofs.Quoting
import DiceNotation.Proofs.Strictness

/-!
What a failed reading reports.

A reading fails in three ways: a term has a die that does not exist, or, if the reading is strict,
a stretch belongs to no term or a number cannot be used. Each is reported under one position, that
of the first character of the term, the stretch or the number.

* `ofSegments_eq_error`: which segment a failure comes from;
* `TermForm.checked`: the term by way of the builders that callers use, which check the count too;
* `checked_eq`: the counts that are meant pass that check, whatever the limit is;
* `failure_located_at_fault`: the three ways, in the words of the text.
-/
namespace DiceNotation
set_option autoImplicit false

/-! ## Failures of segments -/

theorem report_eq_error {options : ReadOptions} {issues : List Diagnostic} {error : FormulaError}
    (h : options.report issues = .error error) :
    options.strict = true ∧ ∃ issue ∈ issues, error = issue.error := by
  unfold ReadOptions.report at h
  split at h
  · next hstrict =>
    cases issues with
    | nil => cases h
    | cons issue more =>
      cases h
      exact ⟨hstrict, issue, List.mem_cons_self .., rfl⟩
  · cases h

theorem terms_eq_error {segment : Segment} {maxCount : Nat} {error : FormulaError}
    (h : segment.terms maxCount = .error error) :
    ∃ form flaw, segment = .term form ∧ form.term maxCount = .error flaw ∧
      error = .located form.start (.die (.invalidDie flaw)) := by
  cases segment with
  | skipped first more => cases h
  | term form =>
    cases hterm : form.term maxCount with
    | ok term =>
      rw [terms_of_term hterm] at h
      cases h
    | error flaw =>
      rw [terms_of_flaw hterm] at h
      cases h
      exact ⟨form, flaw, rfl, hterm, rfl⟩

theorem ofSegments_eq_error {options : ReadOptions} {found : List Segment} {error : FormulaError}
    (h : Formula.ofSegments options found = .error error) :
    (options.strict = true ∧
      ∃ segment ∈ found, ∃ issue ∈ segment.issues options.maxCount, error = issue.error) ∨
    ∃ form flaw, .term form ∈ found ∧ form.term options.maxCount = .error flaw ∧
      error = .located form.start (.die (.invalidDie flaw)) := by
  induction found with
  | nil => cases h
  | cons segment more ih =>
    cases hreport : options.report (segment.issues options.maxCount) with
    | error first =>
      rw [ofSegments_cons_error hreport] at h
      cases h
      obtain ⟨hstrict, issue, hissue, rfl⟩ := report_eq_error hreport
      exact .inl ⟨hstrict, segment, List.mem_cons_self .., issue, hissue, rfl⟩
    | ok diagnostics =>
      cases hterms : segment.terms options.maxCount with
      | error first =>
        rw [ofSegments_cons_flawed hreport hterms] at h
        cases h
        obtain ⟨form, flaw, rfl, hflaw, rfl⟩ := terms_eq_error hterms
        exact .inr ⟨form, flaw, List.mem_cons_self .., hflaw, rfl⟩
      | ok terms =>
        rw [ofSegments_cons_ok hreport hterms] at h
        cases hmore : Formula.ofSegments options more with
        | ok rest =>
          rw [hmore] at h
          cases h
        | error later =>
          rw [hmore] at h
          cases h
          rcases ih hmore with ⟨hstrict, other, hmem, hissue⟩ | ⟨form, flaw, hmem, hflaw⟩
          · exact .inl ⟨hstrict, other, List.mem_cons_of_mem segment hmem, hissue⟩
          · exact .inr ⟨form, flaw, List.mem_cons_of_mem segment hmem, hflaw⟩

/-! ## Faults of a term -/

/-- The term of a form by way of `Term.make`, which refuses counts as well as dice. -/
def TermForm.checked (maxCount : Nat) (form : TermForm) : Except DiceError Term :=
  match form.body with
  | .flat number => .ok (Term.flat form.signMeant number.score)
  | .dice count faces => do
    let die ← faces.die.mapError .invalidDie
    Term.make form.signMeant (countMeant maxCount count) die

/-- A count that is meant is never refused, so only a die can be at fault. -/
theorem TermForm.checked_eq (maxCount : Nat) (form : TermForm) :
    form.checked maxCount = (form.term maxCount).mapError .invalidDie := by
  obtain ⟨start, sign, body⟩ := form
  cases body with
  | flat number => rfl
  | dice count faces =>
    simp only [TermForm.checked, TermForm.term]
    split
    · next flaw hflaw =>
      rw [hflaw]
      rfl
    · next die hdie =>
      change _ = Except.ok _
      refine bind_eq_ok.mpr ⟨die, mapError_eq_ok.mpr hdie, ?_⟩
      exact make_eq_ok_iff.mpr ⟨rfl, rfl, rfl⟩

theorem checked_of_flaw {maxCount : Nat} {form : TermForm} {flaw : DieFlaw}
    (h : form.term maxCount = .error flaw) :
    form.checked maxCount = .error (.invalidDie flaw) := by
  rw [form.checked_eq, h]
  rfl

/-! ## Failures of a text -/

/-- A failed reading reports one position, that of a visible character, and there is the first
character of a term whose die does not exist, or, in a strict reading only, of a text that is
quoted: one that belongs to no term, or a number that cannot be used. -/
theorem failure_located_at_fault {text : String} {options : ReadOptions} {error : FormulaError}
    (h : Formula.ofText text options = .error error) :
    ∃ position inner c, error = .located position inner ∧ inner.position? = none ∧
      text.toList[position]? = some c ∧ isBlank c = false ∧
      ((∃ form taken flaw, .term form ∈ segments (lexemes text.toList) ∧
          taken <:+: lexemes text.toList ∧ TermSpelled form taken ∧
          taken.head?.map Lexeme.start = some position ∧
          form.checked options.maxCount = .error (.invalidDie flaw) ∧
          inner = .die (.invalidDie flaw)) ∨
        options.strict = true ∧ ∃ quoted, quoted ≠ "" ∧
          quoted.toList <+: visible (text.toList.drop position) ∧
          (inner = .unrecognized quoted ∨
            inner = .badNumber quoted ∧ ∀ c ∈ quoted.toList, c.isDigit = true)) := by
  rw [ofText_eq] at h
  rcases ofSegments_eq_error h with ⟨hstrict, segment, hmem, issue, hissue, rfl⟩ |
    ⟨form, flaw, hmem, hflaw, rfl⟩
  · obtain ⟨row, hrow, hquote⟩ := quotes_of_mem_issues hmem hissue
    obtain ⟨⟨c, hc, hblank⟩, hne, hprefix, hdigits⟩ := hquote.isPrefix hrow
    refine ⟨issue.position, _, c, issue.error_eq, ?_, hc, hblank,
      .inr ⟨hstrict, issue.text, hne, hprefix, ?_⟩⟩
    · split
      · rfl
      · rfl
    · split
      · exact .inl rfl
      · next hkind => exact .inr ⟨rfl, hdigits hkind⟩
  · obtain ⟨taken, htaken, htakes⟩ := exists_taken_of_mem hmem
    cases htakes with
    | term hspelled =>
      obtain ⟨first, more, rfl⟩ := List.exists_cons_of_ne_nil hspelled.ne_nil
      have hstart := hspelled.start_eq
      have hfirst := htaken.subset (List.mem_cons_self ..)
      obtain ⟨c, hc, hblank⟩ := exists_visible_at_start hfirst
      rw [← hstart] at hc
      exact ⟨form.start, _, c, rfl, rfl, hc, hblank,
        .inl ⟨form, first :: more, flaw, hmem, htaken, hspelled, congrArg some hstart.symm,
          checked_of_flaw hflaw, rfl⟩⟩

/-- The die without faces is reported at the sign of its term, and no count is at fault although
the limit allows none. -/
theorem failure_located_at_fault_faceless : ∃ inner flaw,
    Formula.ofText "2 + 1d0" ⟨false, 0⟩ = .error (.located 2 inner) ∧
    inner = .die (.invalidDie flaw) := by
  have hposition : (((Formula.ofText "2 + 1d0" ⟨false, 0⟩).map fun _ => none).tryCatch
      fun error => .ok error.position?).toOption = some (some 2) := by decide +kernel
  cases hread : Formula.ofText "2 + 1d0" ⟨false, 0⟩ with
  | ok formula =>
    rw [hread] at hposition
    cases hposition
  | error error =>
    rw [hread] at hposition
    obtain ⟨position, inner, c, rfl, -, -, -, hcause⟩ := failure_located_at_fault hread
    obtain rfl : position = 2 := Option.some.inj (Option.some.inj hposition)
    rcases hcause with ⟨form, taken, flaw, -, -, -, -, -, hinner⟩ | ⟨hstrict, -⟩
    · exact ⟨inner, flaw, rfl, hinner⟩
    · cases hstrict

end DiceNotation
