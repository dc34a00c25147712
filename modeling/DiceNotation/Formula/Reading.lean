import DiceNotation.Segment
import DiceNotation.Formula

/-!
Reading formulas from text.

Every form has a meaning: numbers too large for a score mean the highest score, a count that is
zero or too large means one, and an unwritten weight means one in a list that has a weight. What
had to be replaced, and what was skipped, is listed by `Segment.issues`. A lenient reading keeps
the issues as diagnostics, and a strict one fails on the first. A term whose die does not exist
fails either reading, after its own issues were looked at.
-/
namespace DiceNotation
set_option autoImplicit false

/-! ## Meaning of numbers -/

namespace Numeral

def fits (number : Numeral) : Bool := number.value ≤ 2147483647

def score (number : Numeral) : Score := .clamp number.value

def saturation (number : Numeral) : List Diagnostic :=
  if number.fits then [] else [⟨.saturated, number.start, String.ofList number.text⟩]

/-- Whether a number can be a count under a limit. A limit above `Term.maxCount` acts as that. -/
def isCount (maxCount : Nat) (number : Numeral) : Bool :=
  1 ≤ number.value && number.value ≤ min maxCount Term.maxCount

end Numeral

/-- The count that is meant; an unwritten or unusable one means one. -/
def countMeant (maxCount : Nat) : Option Numeral → Nat
  | none => 1
  | some number => if number.isCount maxCount then number.value else 1

def countIssues (maxCount : Nat) : Option Numeral → List Diagnostic
  | none => []
  | some number =>
    if number.isCount maxCount then [] else
      [⟨.countFallback, number.start, String.ofList number.text⟩]

theorem countMeant_pos (maxCount : Nat) (count : Option Numeral) : 1 ≤ countMeant maxCount count := by
  cases count with
  | none => exact Nat.le_refl 1
  | some number =>
    simp only [countMeant]
    split
    · rename_i h
      simp only [Numeral.isCount, Bool.and_eq_true, decide_eq_true_eq] at h
      exact h.1
    · exact Nat.le_refl 1

theorem countMeant_le (maxCount : Nat) (count : Option Numeral) :
    countMeant maxCount count ≤ 10000 := by
  cases count with
  | none => exact Nat.le_add_left 1 9999
  | some number =>
    simp only [countMeant]
    split
    · rename_i h
      simp only [Numeral.isCount, Bool.and_eq_true, decide_eq_true_eq] at h
      exact Nat.le_trans h.2 (Nat.min_le_right _ _)
    · exact Nat.le_add_left 1 9999

/-! ## Meaning of forms -/

namespace EntryForm

def face (entry : EntryForm) : Score := (entry.sign.getD .plus).apply entry.value.score

def weightMeant (entry : EntryForm) : Nat :=
  match entry.weight with
  | none => 1
  | some number => number.score.toInt.toNat

/-- The value is looked at before the weight. -/
def issues (entry : EntryForm) : List Diagnostic :=
  entry.value.saturation ++
    match entry.weight with
    | none => []
    | some number => number.saturation

end EntryForm

namespace FacesForm

/-- A list is weighted as soon as one entry has a weight. -/
def die : FacesForm → Except DieFlaw Die
  | .count number => Die.ofFaces number.score
  | .fudge => .ok Die.fudge
  | .list entries =>
    if entries.any fun entry => entry.weight.isSome then
      Die.ofEntries (entries.map fun entry => (entry.face, entry.weightMeant))
    else
      Die.ofValues (entries.map EntryForm.face)

def issues : FacesForm → List Diagnostic
  | .count number => number.saturation
  | .fudge => []
  | .list entries => entries.flatMap EntryForm.issues

theorem isConstant_of_die {faces : FacesForm} {die : Die} (h : faces.die = .ok die) :
    die.isConstant = false := by
  cases faces with
  | count number =>
    simp only [FacesForm.die, Die.ofFaces, Except.map] at h
    split at h <;> cases h
    rfl
  | fudge =>
    cases h
    rfl
  | list entries =>
    simp only [FacesForm.die, Die.ofEntries, Die.ofValues, Except.map] at h
    split at h <;> split at h <;> cases h <;> rfl

end FacesForm

namespace TermForm

def signMeant (form : TermForm) : Sign := form.sign.getD .plus

def term (maxCount : Nat) (form : TermForm) : Except DieFlaw Term :=
  match form.body with
  | .flat number => .ok (Term.flat form.signMeant number.score)
  | .dice count faces =>
    match h : faces.die with
    | .error flaw => .error flaw
    | .ok die =>
      .ok ⟨form.signMeant, countMeant maxCount count, die, countMeant_pos maxCount count,
        countMeant_le maxCount count, fun constant => by
          rw [FacesForm.isConstant_of_die h] at constant
          cases constant⟩

/-- The count is looked at before the faces. -/
def issues (maxCount : Nat) (form : TermForm) : List Diagnostic :=
  match form.body with
  | .flat number => number.saturation
  | .dice count faces => countIssues maxCount count ++ faces.issues

end TermForm

/-! ## Meaning of segments -/

namespace Segment

def issues (maxCount : Nat) : Segment → List Diagnostic
  | .term form => form.issues maxCount
  | .skipped first more =>
    [⟨.skipped, first.start, String.ofList ((first :: more).flatMap Lexeme.text)⟩]

/-- The term of a segment, if it has one. A die that does not exist is reported where its term
starts. -/
def terms (maxCount : Nat) : Segment → Except FormulaError (List Term)
  | .term form =>
    match form.term maxCount with
    | .ok made => .ok [made]
    | .error flaw => .error (.located form.start (.die (.invalidDie flaw)))
  | .skipped _ _ => .ok []

end Segment

/-! ## Reading -/

structure ReadOptions where
  /-- Fail on what a lenient reading would tolerate. -/
  strict : Bool := false
  /-- The largest count that is taken as written. -/
  maxCount : Nat := Term.maxCount
deriving DecidableEq

namespace ReadOptions

def lenient : ReadOptions := {}

def strictly : ReadOptions := { strict := true }

/-- Keeps issues, or fails on the first of them. -/
def report (options : ReadOptions) (issues : List Diagnostic) :
    Except FormulaError (List Diagnostic) :=
  if options.strict then
    match issues with
    | [] => .ok []
    | issue :: _ => .error issue.error
  else
    .ok issues

end ReadOptions

namespace Formula

/-- The formula of some segments, read from the first to the last. -/
def ofSegments (options : ReadOptions) : List Segment → Except FormulaError Formula
  | [] => .ok { terms := [] }
  | segment :: more => do
    let diagnostics ← options.report (segment.issues options.maxCount)
    let terms ← segment.terms options.maxCount
    let rest ← ofSegments options more
    return {
      terms := terms ++ rest.terms
      diagnostics := diagnostics ++ rest.diagnostics
      recognized := segment.recognized + rest.recognized
      skipped := segment.skippedWidth + rest.skipped }

def ofChars (options : ReadOptions) (chars : List Char) : Except FormulaError Formula :=
  ofSegments options (segments (lexemes chars))

def ofText (text : String) (options : ReadOptions := .lenient) : Except FormulaError Formula :=
  ofChars options text.toList

end Formula

/-- Whether a text is worth keeping as a formula: it can be read, it has a term, and terms make up
at least half of it. -/
def isUsable (text : String) : Bool :=
  match Formula.ofText text with
  | .ok formula => !formula.isEmpty && formula.coverage ≥ 0.5
  | .error _ => false

end DiceNotation
