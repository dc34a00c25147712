import DiceNotation.Draw

/-!
Rolls: the values drawn for the terms of a formula, their total and their breakdown.

`evaluate` draws the terms in order. A total is summed term by term, each term's values first, so
it saturates inside a term before it saturates across terms. The breakdown is the text of the terms
with the drawn values in parentheses behind every term that is not a flat modifier.
-/
namespace DiceNotation
set_option autoImplicit false

/-! ## Results -/

/-- One value, with the die it was drawn from and the sign it is counted with. -/
structure DieRoll where
  die : Die
  value : Score
  sign : Sign
deriving DecidableEq

def DieRoll.signedValue (roll : DieRoll) : Score := roll.sign.apply roll.value

structure Outcome where
  total : Score
  rolls : List DieRoll
  /-- The best total there could have been, and at least one if there is a formula. -/
  maxTotal : Score
  breakdown : String
deriving DecidableEq

namespace Outcome

def empty : Outcome := ⟨.zero, [], .zero, "Empty"⟩

def isEmpty (outcome : Outcome) : Bool := outcome.rolls.isEmpty && outcome.maxTotal == .zero

end Outcome

structure TermRoll where
  term : Term
  values : List Score

namespace TermRoll

def subtotal (roll : TermRoll) : Score := roll.term.sign.apply (Score.sum roll.values)

def dieRolls (roll : TermRoll) : List DieRoll :=
  roll.values.map fun value => ⟨roll.term.die, value, roll.term.sign⟩

/-- The values of a term in parentheses, and nothing for a flat modifier. -/
def group (roll : TermRoll) : List Char :=
  if roll.term.die.isConstant then [] else
    '(' :: commaSeparated (roll.values.map Score.spelling) ++ [')']

/-- Terms with their operators and values, the first of them leading or not. -/
def breakdown (leading : Bool) : List TermRoll → List Char
  | [] => []
  | roll :: more =>
    roll.term.sign.operator leading ++ roll.term.spelling ++ roll.group ++ breakdown false more

end TermRoll

/-! ## Evaluation -/

/-- The best total, but at least one. -/
def bestTotal (terms : List Term) : Score := max (Score.sum (terms.map Term.maxContribution)) .one

def Term.roll (term : Term) : Draw TermRoll := do
  let values ← term.draw
  return ⟨term, values⟩

def rollTerms : List Term → Draw (List TermRoll)
  | [] => return []
  | term :: more => do
    let first ← term.roll
    let rest ← rollTerms more
    return first :: rest

def Outcome.ofRolled (terms : List Term) (rolled : List TermRoll) : Outcome where
  total := Score.sum (rolled.map TermRoll.subtotal)
  rolls := rolled.flatMap TermRoll.dieRolls
  maxTotal := bestTotal terms
  breakdown := String.ofList (TermRoll.breakdown true rolled)

def evaluate (terms : List Term) : Draw Outcome := do
  let rolled ← rollTerms terms
  return .ofRolled terms rolled

end DiceNotation
