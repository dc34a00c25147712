/-!
Decimal numerals: a number is written without leading zeros, and read with any number of them.
-/
namespace DiceNotation.Decimal
set_option autoImplicit false

def digits (n : Nat) : List Char := Nat.toDigits 10 n

def text (n : Nat) : String := String.ofList (digits n)

/-- The number that digits write. -/
def value (digits : List Char) : Nat := Nat.ofDigitChars 10 digits 0

theorem value_digits (n : Nat) : value (digits n) = n := Nat.ofDigitChars_ten_toDigits

theorem isDigit_of_mem_digits {n : Nat} {c : Char} (h : c ∈ digits n) : c.isDigit = true :=
  Nat.isDigit_of_mem_toDigits (by decide) (by decide) h

theorem digits_ne_nil (n : Nat) : digits n ≠ [] := Nat.toDigits_ne_nil

end DiceNotation.Decimal
