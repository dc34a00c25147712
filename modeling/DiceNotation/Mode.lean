import DiceNotation.Blank
import DiceNotation.Roll

/-!
Modes: whether a formula is rolled once, or twice with the better or the worse roll kept.

The second of two rolls is kept only if it is strictly better (or worse), so a tie keeps the first.
-/
namespace DiceNotation
set_option autoImplicit false

inductive Mode where
  | normal
  | advantage
  | disadvantage
deriving DecidableEq, Inhabited

/-- An evaluation under a mode: the outcome that counts, and the other one if there is one. -/
structure ModeOutcome where
  mode : Mode
  primary : Outcome
  secondary : Option Outcome
deriving DecidableEq

namespace Mode

/-! ## Names -/

def name : Mode → String
  | .normal => "normal"
  | .advantage => "advantage"
  | .disadvantage => "disadvantage"

/-- Reads a mode by its name or a short form of it, in either case, with blanks around it. -/
def ofText (text : String) : Except DiceError Mode :=
  let name := String.ofList ((trim text.toList).map Char.toLower)
  if name = "normal" ∨ name = "n" then .ok .normal
  else if name = "advantage" ∨ name = "adv" ∨ name = "a" then .ok .advantage
  else if name = "disadvantage" ∨ name = "dis" ∨ name = "d" then .ok .disadvantage
  else .error (.unknownMode name)

/-! ## Rolling under a mode -/

/-- Whether a mode prefers the second of two totals. -/
def prefersSecond (mode : Mode) (first second : Score) : Bool :=
  match mode with
  | .normal => false
  | .advantage => first < second
  | .disadvantage => second < first

def select (mode : Mode) (first second : Outcome) : ModeOutcome :=
  if mode.prefersSecond first.total second.total then
    ⟨mode, second, some first⟩
  else
    ⟨mode, first, some second⟩

def evaluate (mode : Mode) (terms : List Term) : Draw ModeOutcome :=
  match mode with
  | .normal => do
    let outcome ← DiceNotation.evaluate terms
    return ⟨.normal, outcome, none⟩
  | mode => do
    let first ← DiceNotation.evaluate terms
    let second ← DiceNotation.evaluate terms
    return mode.select first second

end Mode

end DiceNotation
