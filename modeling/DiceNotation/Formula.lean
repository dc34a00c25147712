import DiceNotation.Mode

/-!
Formulas: signed terms, with what was noticed when they were read from a text.

A formula is blank when it has no term and nothing was skipped to read it; only a blank formula
rolls the empty outcome, draws no word and reports a best total of zero.
-/
namespace DiceNotation
set_option autoImplicit false

/-! ## Diagnostics -/

/-- What reading a formula can tolerate. -/
inductive DiagnosticKind where
  /-- Text that belongs to no term. -/
  | skipped
  /-- A count that was replaced by one. -/
  | countFallback
  /-- A number that was replaced by the highest score. -/
  | saturated
deriving DecidableEq

/-- A stretch of text that was tolerated: its offset and its visible characters. -/
structure Diagnostic where
  kind : DiagnosticKind
  position : Nat
  text : String
deriving DecidableEq

namespace Diagnostic

def message (diagnostic : Diagnostic) : String :=
  let place := "'" ++ diagnostic.text ++ "' at " ++ Decimal.text diagnostic.position
  match diagnostic.kind with
  | .skipped => "skipped " ++ place
  | .countFallback => "count " ++ place ++ " replaced by 1"
  | .saturated => "number " ++ place ++ " saturated to " ++ Score.highest.text

/-- The error that a strict reading makes of it. -/
def error (diagnostic : Diagnostic) : FormulaError :=
  .located diagnostic.position <|
    match diagnostic.kind with
    | .skipped => .unrecognized diagnostic.text
    | .countFallback => .badNumber diagnostic.text
    | .saturated => .badNumber diagnostic.text

end Diagnostic

/-! ## Formulas -/

structure Formula where
  terms : List Term
  diagnostics : List Diagnostic := []
  recognized : Nat := 0
  skipped : Nat := 0
deriving DecidableEq

namespace Formula

def isEmpty (formula : Formula) : Bool := formula.terms.isEmpty

def isBlank (formula : Formula) : Bool := formula.terms.isEmpty && formula.skipped == 0

/-- The canonical text, as in `-1d4 + 2d6 - 3`. -/
def text (formula : Formula) : String := String.ofList (termsSpelling true formula.terms)

/-- The share of the visible text that belongs to terms, and zero if there is no such text. The
text is measured in a 64-bit word. -/
def coverage (formula : Formula) : Float :=
  let total := UInt64.ofNat (formula.recognized + formula.skipped)
  if total = 0 then 0 else (UInt64.ofNat formula.recognized).toFloat / total.toFloat

/-! ## Totals -/

def maxTotal (formula : Formula) : Score :=
  if formula.isBlank then .zero else bestTotal formula.terms

def possibleTotals (formula : Formula) : Score × Score :=
  (Score.sum (formula.terms.map Term.minContribution),
    Score.sum (formula.terms.map Term.maxContribution))

end Formula

/-- Adds floating-point numbers up, first to last, from negative zero, which leaves any first
number as it is. -/
def floatSum (numbers : List Float) : Float := numbers.foldl (· + ·) (-0.0)

/-- The mean of a die's faces, each as often as its weight says. -/
def Die.mean : Die → Float
  | .standard faces => (1.0 + Float.ofNat faces.count) / 2.0
  | .custom list =>
    floatSum (list.values.map fun value => Float.ofInt value.toInt)
      / Float.ofNat list.values.length
  | .weighted table =>
    floatSum (table.entries.map fun entry => Float.ofInt entry.1.toInt * Float.ofNat entry.2)
      / Float.ofNat table.total
  | .constant value => Float.ofInt value.toInt

def Term.mean (term : Term) : Float :=
  Float.ofInt term.sign.coefficient * Float.ofNat term.count * term.die.mean

namespace Formula

def mean (formula : Formula) : Float := floatSum (formula.terms.map Term.mean)

/-! ## Rolling -/

def roll (formula : Formula) : Draw Outcome :=
  if formula.isBlank then return .empty else evaluate formula.terms

def rollWithMode (formula : Formula) (mode : Mode) : Draw ModeOutcome :=
  if formula.isBlank then
    return ⟨mode, .empty, if mode = .normal then none else some .empty⟩
  else
    mode.evaluate formula.terms

/-- Draws terms and adds every value to a total at once. -/
def frameFrom (total : Score) : List Term → Draw Score
  | [] => return total
  | term :: more => do
    let values ← term.draw
    frameFrom (values.foldl (fun sum value => sum.add (term.sign.apply value)) total) more

def frame (formula : Formula) : Draw Score := frameFrom .zero formula.terms

end Formula

end DiceNotation
