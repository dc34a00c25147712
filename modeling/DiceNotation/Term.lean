import DiceNotation.Die

/-!
Terms: a die, how often it is drawn, and whether the values are added or subtracted.

`Term.make` refuses a count of zero, a count above `Term.maxCount` and a counted modifier, in this
order. The best and the worst contribution of a term to a total are products, saturated once and,
under a minus, negated.
-/
namespace DiceNotation
set_option autoImplicit false

inductive Sign where
  | plus
  | minus
deriving DecidableEq, Inhabited

namespace Sign

def coefficient : Sign → Int
  | .plus => 1
  | .minus => -1

def apply : Sign → Score → Score
  | .plus, score => score
  | .minus, score => score.neg

def symbol : Sign → Char
  | .plus => '+'
  | .minus => '-'

/-- The operator in front of a term: a leading `+` is not written, and spaces surround every
operator but the first. -/
def operator (leading : Bool) : Sign → List Char
  | .plus => if leading then [] else [' ', '+', ' ']
  | .minus => if leading then ['-'] else [' ', '-', ' ']

end Sign

structure Term where
  sign : Sign
  count : Nat
  die : Die
  count_pos : 1 ≤ count
  count_le : count ≤ 10000
  count_eq_one : die.isConstant = true → count = 1
deriving DecidableEq

namespace Term

def maxCount : Nat := 10000

/-! ## Building terms -/

def make (sign : Sign) (count : Nat) (die : Die) : Except DiceError Term :=
  if hzero : count = 0 then
    .error .zeroCount
  else if hmax : maxCount < count then
    .error (.tooManyDice count)
  else
    match die with
    | .constant value =>
      if hone : count = 1 then
        .ok ⟨sign, count, .constant value, by omega, by omega, fun _ => hone⟩
      else
        .error (.invalidDie (.countedModifier count value))
    | .standard faces =>
      .ok ⟨sign, count, .standard faces, by omega, Nat.le_of_not_lt hmax, nofun⟩
    | .custom list =>
      .ok ⟨sign, count, .custom list, by omega, Nat.le_of_not_lt hmax, nofun⟩
    | .weighted table =>
      .ok ⟨sign, count, .weighted table, by omega, Nat.le_of_not_lt hmax, nofun⟩

/-- A term of standard dice. The die is checked before the count. -/
def ofFaces (sign : Sign) (count : Nat) (faces : Score) : Except DiceError Term := do
  let die ← (Die.ofFaces faces).mapError .invalidDie
  make sign count die

def flat (sign : Sign) (value : Score) : Term :=
  ⟨sign, 1, .constant value, by decide, by decide, fun _ => rfl⟩

/-! ## What a term can contribute -/

def maxContribution (term : Term) : Score :=
  match term.sign with
  | .plus => term.die.greatest.scale term.count
  | .minus => (term.die.least.scale term.count).neg

def minContribution (term : Term) : Score :=
  match term.sign with
  | .plus => term.die.least.scale term.count
  | .minus => (term.die.greatest.scale term.count).neg

/-! ## Spelling -/

/-- The term without its sign: the count is always written, and a modifier has none. -/
def spelling (term : Term) : List Char :=
  match term.die with
  | .constant value => value.spelling
  | die => Decimal.digits term.count ++ die.spelling

def text (term : Term) : String := String.ofList term.spelling

end Term

/-- Terms with their operators, the first of them leading or not. -/
def termsSpelling (leading : Bool) : List Term → List Char
  | [] => []
  | term :: more => term.sign.operator leading ++ term.spelling ++ termsSpelling false more

end DiceNotation
