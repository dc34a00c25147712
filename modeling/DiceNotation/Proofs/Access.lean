import DiceNotation.Proofs.Reading

/-!
Scans: runs that look places of a text up by their number.

The readers of forms take lexemes from the front of a list and cannot miss. A scan keeps all
lexemes and characters of a text and asks for them by number, so it may ask for what is not there,
and then it halts.

* `Access`: a place that a scan asks for, and `Access.InRange`, that it is there;
* `Scan α`: a run with all places that it asked for, what it noted and how it ended, and
  `Scan.andThen`, which goes on where a run ended well;
* `Scan.Gives`: a scan asked for nothing that is not there, and ends as a reading does;
  `Gives.bind` and `Gives.andThen` are its rules for one scan behind another;
* `Scan.Finds` and `Scan.Reports`: the cases of a scan that only looks, and of one that reports
  issues in order before it ends.
-/
namespace DiceNotation
set_option autoImplicit false

/-! ## Places -/

/-- What is asked for: a lexeme, a row of lexemes or a stretch of characters, each by the number of
the first and of the one behind the last. -/
inductive Access where
  | lexeme (index : Nat)
  | lexemes (first stop : Nat)
  | chars (start stop : Nat)
deriving DecidableEq

/-- The place is there and not empty. -/
def Access.InRange (text : List Char) (found : List Lexeme) : Access → Prop
  | .lexeme index => index < found.length
  | .lexemes first stop => first < stop ∧ stop ≤ found.length
  | .chars start stop => start < stop ∧ stop ≤ text.length

inductive Halt where
  | outOfRange (access : Access)
  | failed (error : FormulaError)

/-! ## Runs -/

structure Scan (α : Type) where
  /-- All places that were asked for, the first of them first. -/
  accesses : List Access
  noted : List Diagnostic
  result : Except Halt α

namespace Scan
variable {α β : Type}

/-- Goes on with the value of a run, knowing that the run ended with it. -/
def andThen (run : Scan α) (next : (value : α) → run.result = .ok value → Scan β) : Scan β :=
  match h : run.result with
  | .error halt => ⟨run.accesses, run.noted, .error halt⟩
  | .ok value =>
    ⟨run.accesses ++ (next value h).accesses, run.noted ++ (next value h).noted,
      (next value h).result⟩

instance : Monad Scan where
  pure value := ⟨[], [], .ok value⟩
  bind run next := run.andThen fun value _ => next value

/-- Ends with what was made elsewhere. -/
def ofMade (made : Except FormulaError α) : Scan α := ⟨[], [], made.mapError .failed⟩

/-- Asks for a place and halts if nothing is there. -/
def look (access : Access) (there : Option α) : Scan α :=
  ⟨[access], [], match there with
    | some value => .ok value
    | none => .error (.outOfRange access)⟩

/-- Keeps an issue, or fails on it. -/
def note (options : ReadOptions) (issue : Diagnostic) : Scan Unit :=
  if options.strict then ofMade (.error issue.error) else ⟨[], [issue], .ok ()⟩

/-- What the run ends with, and what it noted for it. -/
def outcome (run : Scan α) : Except Halt (List Diagnostic × α) := run.result.map (run.noted, ·)

/-- Takes what was noted into the value. -/
def collect (run : Scan α) (keep : List Diagnostic → α → β) : Scan β :=
  ⟨run.accesses, [], run.result.map (keep run.noted)⟩

end Scan

/-- The part of a list from one number up to another, if both are in the list and in order. -/
def slice? {α : Type} (items : List α) (first stop : Nat) : Option (List α) :=
  if first ≤ stop ∧ stop ≤ items.length then some ((items.take stop).drop first) else none

theorem slice?_eq_some {α : Type} {items : List α} {first stop : Nat} (h : first ≤ stop)
    (hstop : stop ≤ items.length) :
    slice? items first stop = some ((items.take stop).drop first) := by
  rw [slice?, if_pos ⟨h, hstop⟩]

/-! ## Runs that end as a reading does -/

/-- What a reading keeps as diagnostics and makes, or what it fails with. -/
abbrev Reading (α : Type) : Type := Except FormulaError (List Diagnostic × α)

/-- One reading behind another keeps what both of them keep. -/
def Reading.andThen {α β : Type} (reading : Reading α) (later : α → Reading β) : Reading β :=
  match reading with
  | .error error => .error error
  | .ok (noted, value) => (later value).map fun (more, made) => (noted ++ more, made)

/-- A reading that reports issues and then ends. -/
def ReadOptions.reading {α : Type} (options : ReadOptions) (issues : List Diagnostic)
    (value : Except FormulaError α) : Reading α :=
  match options.report issues with
  | .error error => .error error
  | .ok kept => value.map (kept, ·)

namespace Scan
variable {α β : Type}

structure Gives (text : List Char) (found : List Lexeme) (run : Scan α) (reading : Reading α) :
    Prop where
  inRange : ∀ access ∈ run.accesses, access.InRange text found
  outcome : run.outcome = reading.mapError .failed

/-- The run looks at places and notes nothing. -/
abbrev Finds (text : List Char) (found : List Lexeme) (run : Scan α) (value : α) : Prop :=
  run.Gives text found (.ok ([], value))

abbrev Reports (text : List Char) (found : List Lexeme) (run : Scan α) (options : ReadOptions)
    (issues : List Diagnostic) (value : Except FormulaError α) : Prop :=
  run.Gives text found (options.reading issues value)

/-! ### How runs end -/

theorem andThen_of_ok {run : Scan α} {next : (value : α) → run.result = .ok value → Scan β}
    {value : α} (h : run.result = .ok value) :
    run.andThen next = ⟨run.accesses ++ (next value h).accesses,
      run.noted ++ (next value h).noted, (next value h).result⟩ := by
  unfold andThen
  split
  · next hhalt =>
    rw [h] at hhalt
    cases hhalt
  · next hvalue =>
    rw [h] at hvalue
    cases hvalue
    rfl

theorem andThen_of_error {run : Scan α} {next : (value : α) → run.result = .ok value → Scan β}
    {halt : Halt} (h : run.result = .error halt) :
    run.andThen next = ⟨run.accesses, run.noted, .error halt⟩ := by
  unfold andThen
  split
  · next hhalt =>
    rw [h] at hhalt
    cases hhalt
    rfl
  · next hvalue =>
    rw [h] at hvalue
    cases hvalue

theorem outcome_andThen {run : Scan α} {next : (value : α) → run.result = .ok value → Scan β}
    {value : α} (h : run.result = .ok value) :
    (run.andThen next).outcome =
      (next value h).outcome.map fun (more, made) => (run.noted ++ more, made) := by
  rw [andThen_of_ok h]
  unfold outcome
  cases (next value h).result with
  | error halt => rfl
  | ok made => rfl

theorem outcome_eq_ok {run : Scan α} {noted : List Diagnostic} {value : α} :
    run.outcome = .ok (noted, value) ↔ run.noted = noted ∧ run.result = .ok value := by
  unfold outcome
  cases run.result with
  | error halt => simp [Except.map]
  | ok made => simp [Except.map]

theorem outcome_eq_error {run : Scan α} {halt : Halt} :
    run.outcome = .error halt ↔ run.result = .error halt := by
  unfold outcome
  cases run.result with
  | error other => simp [Except.map]
  | ok made => simp [Except.map]

/-- A run that goes on ends well only if it does so both times. -/
theorem bind_result_eq_ok {run : Scan α} {next : α → Scan β} {value : β}
    (h : (run >>= next).result = .ok value) :
    ∃ first, run.result = .ok first ∧ (next first).result = .ok value := by
  change (run.andThen fun first _ => next first).result = _ at h
  cases hrun : run.result with
  | error halt =>
    rw [andThen_of_error hrun] at h
    cases h
  | ok first =>
    rw [andThen_of_ok hrun] at h
    exact ⟨first, rfl, h⟩

section Rules
variable {text : List Char} {found : List Lexeme} {options : ReadOptions}

namespace Gives
variable {run : Scan α} {reading : Reading α}

theorem result_eq_ok (h : run.Gives text found reading) {noted : List Diagnostic} {value : α}
    (hreading : reading = .ok (noted, value)) : run.noted = noted ∧ run.result = .ok value := by
  have houtcome := h.outcome
  rw [hreading] at houtcome
  exact outcome_eq_ok.mp houtcome

theorem result_eq_error (h : run.Gives text found reading) {error : FormulaError}
    (hreading : reading = .error error) : run.result = .error (.failed error) := by
  have houtcome := h.outcome
  rw [hreading] at houtcome
  exact outcome_eq_error.mp houtcome

/-- A run goes on only where it ended well, and then as the reading does from there. -/
theorem andThen {next : (value : α) → run.result = .ok value → Scan β} {later : α → Reading β}
    (h : run.Gives text found reading)
    (hnext : ∀ noted value (hvalue : run.result = .ok value), reading = .ok (noted, value) →
      (next value hvalue).Gives text found (later value)) :
    (run.andThen next).Gives text found (reading.andThen later) := by
  cases hreading : reading with
  | error error =>
    have hresult := h.result_eq_error hreading
    rw [andThen_of_error hresult]
    exact ⟨h.inRange, rfl⟩
  | ok kept =>
    obtain ⟨noted, value⟩ := kept
    obtain ⟨rfl, hresult⟩ := h.result_eq_ok hreading
    have hlater := hnext _ value hresult hreading
    refine ⟨fun access haccess => ?_, ?_⟩
    · rw [andThen_of_ok hresult] at haccess
      rcases List.mem_append.mp haccess with hfirst | hsecond
      · exact h.inRange access hfirst
      · exact hlater.inRange access hsecond
    · rw [outcome_andThen hresult, hlater.outcome, Reading.andThen]
      cases later value with
      | error error => rfl
      | ok made => rfl

theorem bind {next : α → Scan β} {later : α → Reading β} (h : run.Gives text found reading)
    (hnext : ∀ noted value, reading = .ok (noted, value) →
      (next value).Gives text found (later value)) :
    (run >>= next).Gives text found (reading.andThen later) :=
  h.andThen fun noted value _ hreading => hnext noted value hreading

end Gives

theorem Gives.collect {run : Scan α} {reading : Reading α} (h : run.Gives text found reading)
    (keep : List Diagnostic → α → β) :
    (run.collect keep).Gives text found
      (reading.map fun (noted, value) => ([], keep noted value)) := by
  refine ⟨h.inRange, ?_⟩
  show (run.result.map (keep run.noted)).map _ = _
  cases reading with
  | error error =>
    rw [h.result_eq_error rfl]
    rfl
  | ok made =>
    obtain ⟨hnoted, hvalue⟩ := h.result_eq_ok rfl
    rw [hvalue, hnoted]
    rfl

/-! ### Runs that only look -/

theorem finds_pure (value : α) : (pure value : Scan α).Finds text found value :=
  ⟨List.forall_mem_nil _, rfl⟩

theorem finds_look {access : Access} (h : access.InRange text found) (value : α) :
    (look access (some value)).Finds text found value :=
  ⟨List.forall_mem_singleton.mpr h, rfl⟩

section Finds
variable {run : Scan α} {value : α}

theorem Finds.result_eq (h : run.Finds text found value) : run.result = .ok value :=
  (h.result_eq_ok rfl).2

/-- After a look the reading is that of the rest. -/
theorem Finds.andThen {next : (value : α) → run.result = .ok value → Scan β} {reading : Reading β}
    (h : run.Finds text found value)
    (hnext : (next value h.result_eq).Gives text found reading) :
    (run.andThen next).Gives text found reading := by
  have hlater : ∀ noted other (hother : run.result = .ok other),
      (Except.ok ([], value) : Reading α) = .ok (noted, other) →
        (next other hother).Gives text found reading := by
    rintro noted other hother heq
    cases heq
    exact hnext
  have hboth := Gives.andThen h hlater
  cases reading with
  | error error => exact hboth
  | ok made => exact hboth

theorem Finds.bind {next : α → Scan β} {reading : Reading β} (h : run.Finds text found value)
    (hnext : (next value).Gives text found reading) :
    (run >>= next).Gives text found reading :=
  h.andThen hnext

end Finds

/-! ### Runs that report -/

theorem reading_nil (value : Except FormulaError α) :
    options.reading [] value = value.map ([], ·) := by
  rw [ReadOptions.reading, report_nil]

/-- Issues in a row are reported one behind the other, and the first failure counts. -/
theorem report_append (issues later : List Diagnostic) :
    options.report (issues ++ later) = (do
      let kept ← options.report issues
      let more ← options.report later
      return kept ++ more) := by
  obtain ⟨strict, maxCount⟩ := options
  cases strict with
  | false => rfl
  | true => cases issues with
    | nil => cases later <;> rfl
    | cons issue more => rfl

theorem reading_append (issues later : List Diagnostic) (value : Except FormulaError α) :
    options.reading (issues ++ later) value =
      (options.reading issues (.ok ())).andThen fun _ => options.reading later value := by
  unfold ReadOptions.reading
  rw [report_append]
  cases options.report issues with
  | error error => rfl
  | ok kept =>
    cases options.report later with
    | error error => rfl
    | ok more =>
      cases value with
      | error error => rfl
      | ok made => rfl

theorem reports_note (issue : Diagnostic) :
    (note options issue).Reports text found options [issue] (.ok ()) := by
  obtain ⟨strict, maxCount⟩ := options
  cases strict with
  | false => exact ⟨List.forall_mem_nil _, rfl⟩
  | true => exact ⟨List.forall_mem_nil _, rfl⟩

theorem reports_ofMade (made : Except FormulaError α) :
    (ofMade made).Reports text found options [] made := by
  rw [Reports, reading_nil]
  refine ⟨List.forall_mem_nil _, ?_⟩
  cases made with
  | error error => rfl
  | ok value => rfl

theorem Finds.reports {run : Scan α} {value : α} (h : run.Finds text found value) :
    run.Reports text found options [] (.ok value) := by
  rw [Reports, reading_nil]
  exact h

/-- A reading that ends well ends with what was made. -/
theorem eq_ok_of_reading {issues noted : List Diagnostic} {made : Except FormulaError α} {value : α}
    (h : options.reading issues made = .ok (noted, value)) : made = .ok value := by
  unfold ReadOptions.reading at h
  split at h
  · cases h
  · cases made with
    | error error => cases h
    | ok other =>
      cases h
      rfl

theorem andThen_reading (issues : List Diagnostic) (value : α) (later : α → Reading β) :
    (options.reading issues (.ok value)).andThen later =
      (options.reading issues (.ok ())).andThen fun _ => later value := by
  unfold ReadOptions.reading
  cases options.report issues with
  | error error => rfl
  | ok kept => rfl

theorem Reports.bind {run : Scan α} {next : α → Scan β} {issues later : List Diagnostic}
    {value : α} {made : Except FormulaError β}
    (h : run.Reports text found options issues (.ok value))
    (hnext : (next value).Reports text found options later made) :
    (run >>= next).Reports text found options (issues ++ later) made := by
  rw [Reports, reading_append, ← andThen_reading issues value fun _ => options.reading later made]
  refine Gives.bind h fun noted other hother => ?_
  cases eq_ok_of_reading hother
  exact hnext

theorem Reports.map {run : Scan α} {issues : List Diagnostic} {made : Except FormulaError α}
    (h : run.Reports text found options issues made) (f : α → β) :
    (run >>= fun value => pure (f value)).Reports text found options issues (made.map f) := by
  have hboth := Gives.bind h fun _ value _ => finds_pure (f value)
  have hreading : (options.reading issues made).andThen (fun value => .ok ([], f value)) =
      options.reading issues (made.map f) := by
    unfold ReadOptions.reading
    cases options.report issues with
    | error error => rfl
    | ok kept =>
      cases made with
      | error error => rfl
      | ok value =>
        show Except.ok (kept ++ [], f value) = Except.ok (kept, f value)
        rw [List.append_nil]
  rw [hreading] at hboth
  exact hboth

end Rules

end Scan

end DiceNotation
