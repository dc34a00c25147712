import DiceNotation.Score

/-!
What can be wrong with a die, a term, a mode or the text of a formula.

* `DieFlaw`: why a die, or a term with it, cannot be drawn from;
* `DiceError`: what building dice and terms and choosing a mode can fail with;
* `FormulaError`: what reading a formula can fail with, usually under `FormulaError.located`, which
  carries the offset of the offending text.

A die found faulty while a formula is read keeps its `DiceError`, and a formula that cannot be read
is a `DiceError` in turn, so the two types are mutual.
-/
namespace DiceNotation
set_option autoImplicit false

/-! ## Causes -/

inductive DieFlaw where
  /-- A die with `given` faces, which is fewer than one. -/
  | noFaces (given : Score)
  | noValues
  | noEntries
  /-- An entry of a weighted die with weight zero. -/
  | zeroWeight (face : Score)
  | weightOverflow
  /-- A flat modifier written `count` times. -/
  | countedModifier (count : Nat) (value : Score)
  /-- A flaw that a caller found, in the caller's words. -/
  | other (reason : String)
deriving DecidableEq

mutual

inductive DiceError where
  | invalidDie (flaw : DieFlaw)
  | zeroCount
  | tooManyDice (count : Nat)
  | unknownMode (name : String)
  | formula (error : FormulaError)

inductive FormulaError where
  /-- An error in the text at `position`, counted in characters. -/
  | located (position : Nat) (error : FormulaError)
  /-- Text that belongs to no term. -/
  | unrecognized (text : String)
  /-- A count or number that cannot be used as it is written. -/
  | badNumber (text : String)
  | die (error : DiceError)

end

/-! ## Wording -/

def DieFlaw.reason : DieFlaw → String
  | .noFaces given => "a die needs at least one face, got " ++ given.text
  | .noValues => "a custom die needs at least one value"
  | .noEntries => "a weighted die needs at least one entry"
  | .zeroWeight face => "weight of face " ++ face.text ++ " must be positive"
  | .weightOverflow => "Overflow when summing weights"
  | .countedModifier count value =>
    "a flat modifier cannot be counted, got " ++ Decimal.text count ++ "x" ++ value.text
  | .other reason => reason

mutual

def DiceError.message : DiceError → String
  | .invalidDie flaw => "Invalid die: " ++ flaw.reason
  | .zeroCount => "Zero value not allowed"
  | .tooManyDice count => "Too many dice in one term: " ++ Decimal.text count
  | .unknownMode name => "Invalid roll mode: " ++ name
  | .formula error => "Parser error - " ++ error.message

def FormulaError.message : FormulaError → String
  | .located position error => "At position " ++ Decimal.text position ++ " - " ++ error.message
  | .unrecognized text => "Unrecognized input: " ++ text
  | .badNumber text => "Invalid number: " ++ text
  | .die error => "Invalid die - " ++ error.message

end

/-! ## Positions -/

namespace FormulaError

def inner : FormulaError → FormulaError
  | .located _ error => error
  | error => error

def position? : FormulaError → Option Nat
  | .located position _ => some position
  | _ => none

def place (position : Nat) : FormulaError → FormulaError
  | .located p error => .located p error
  | error => .located position error

/-- The fault of a die that is directly below the outermost position. -/
def dieError? (error : FormulaError) : Option DiceError :=
  match error.inner with
  | .die fault => some fault
  | _ => none

end FormulaError

end DiceNotation
