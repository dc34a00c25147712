import DiceNotation.Decimal

/-!
Scores: the integers that dice show, modifiers add and totals reach.

A score lies between `Score.lowest` and `Score.highest`, the range of a signed 32-bit word, and its
arithmetic saturates: a sum or product beyond the range is the nearer end of it. So the integer of
a result is always the exact result put through `Score.clamp`.
-/
namespace DiceNotation
set_option autoImplicit false

/-- An integer between -2147483648 and 2147483647. -/
structure Score where
  toInt : Int
  ge : -2147483648 ≤ toInt
  le : toInt ≤ 2147483647
deriving DecidableEq

namespace Score

theorem ext {a b : Score} (h : a.toInt = b.toInt) : a = b := by
  cases a
  cases b
  cases h
  rfl

/-! ## Making scores -/

/-- The score nearest to an integer. -/
def clamp (n : Int) : Score :=
  ⟨max (-2147483648) (min n 2147483647), by omega, by omega⟩

def ofInt? (n : Int) : Option Score :=
  if h : -2147483648 ≤ n ∧ n ≤ 2147483647 then some ⟨n, h.1, h.2⟩ else none

def lowest : Score := ⟨-2147483648, by decide, by decide⟩

def highest : Score := ⟨2147483647, by decide, by decide⟩

def zero : Score := ⟨0, by decide, by decide⟩

def one : Score := ⟨1, by decide, by decide⟩

theorem toInt_clamp (n : Int) : (clamp n).toInt = max (-2147483648) (min n 2147483647) := rfl

theorem toInt_clamp_of_mem {n : Int} (lo : -2147483648 ≤ n) (hi : n ≤ 2147483647) :
    (clamp n).toInt = n := by
  rw [toInt_clamp]
  omega

theorem clamp_toInt (a : Score) : clamp a.toInt = a :=
  ext (toInt_clamp_of_mem a.ge a.le)

/-! ## Order -/

instance : LE Score := ⟨fun a b => a.toInt ≤ b.toInt⟩

instance : LT Score := ⟨fun a b => a.toInt < b.toInt⟩

instance (a b : Score) : Decidable (a ≤ b) := inferInstanceAs (Decidable (a.toInt ≤ b.toInt))

instance (a b : Score) : Decidable (a < b) := inferInstanceAs (Decidable (a.toInt < b.toInt))

instance : Min Score := ⟨fun a b => if a ≤ b then a else b⟩

instance : Max Score := ⟨fun a b => if a ≤ b then b else a⟩

theorem le_iff {a b : Score} : a ≤ b ↔ a.toInt ≤ b.toInt := Iff.rfl

theorem lt_iff {a b : Score} : a < b ↔ a.toInt < b.toInt := Iff.rfl

theorem toInt_min (a b : Score) : (min a b).toInt = min a.toInt b.toInt := by
  show (if a.toInt ≤ b.toInt then a else b).toInt = _
  split <;> omega

theorem toInt_max (a b : Score) : (max a b).toInt = max a.toInt b.toInt := by
  show (if a.toInt ≤ b.toInt then b else a).toInt = _
  split <;> omega

/-! ## Saturating arithmetic -/

def add (a b : Score) : Score := clamp (a.toInt + b.toInt)

def neg (a : Score) : Score := clamp (-a.toInt)

def scale (a : Score) (n : Nat) : Score := clamp (a.toInt * n)

/-- Adds scores up from zero, first to last, saturating at every step. -/
def sum (scores : List Score) : Score := scores.foldl add zero

theorem toInt_add (a b : Score) :
    (a.add b).toInt = max (-2147483648) (min (a.toInt + b.toInt) 2147483647) := rfl

theorem toInt_neg (a : Score) :
    a.neg.toInt = max (-2147483648) (min (-a.toInt) 2147483647) := rfl

theorem toInt_scale (a : Score) (n : Nat) :
    (a.scale n).toInt = max (-2147483648) (min (a.toInt * n) 2147483647) := rfl

/-! ## Decimal spelling -/

/-- A score in decimal, with a `-` in front of a negative one. -/
def spelling (a : Score) : List Char :=
  if a.toInt < 0 then '-' :: Decimal.digits a.toInt.natAbs else Decimal.digits a.toInt.natAbs

def text (a : Score) : String := String.ofList a.spelling

end Score

end DiceNotation
