import DiceNotation.Term

/-!
Drawing: how random words become values.

A draw takes words from the front of a list and has no result when they run out, so a statement
about every list of words is a statement about every random source on which a draw ends.

* `Draw.below n` chooses one of `n` outcomes by the high half of a product, with a second word to
  correct the choice where the first leaves it open;
* `Draw.weight n` chooses exactly evenly, taking words until one is accepted;
* `Die.draw`, `Term.draw` draw one value from a die and all values of a term;
* `Generator` is what runs draws: whatever words it makes, it gives what a draw makes of them.
-/
namespace DiceNotation
set_option autoImplicit false

abbrev Word := UInt32

/-- A computation that takes words from the front of a list. -/
abbrev Draw (α : Type) := StateT (List Word) Option α

/-! ## Words -/

namespace Word

/-- The high half of the product of a word and a number below 2^32. -/
def high (w : Word) (n : Nat) : Nat := w.toNat * n / 4294967296

def low (w : Word) (n : Nat) : Nat := w.toNat * n % 4294967296

theorem high_lt (w : Word) {n : Nat} (pos : 0 < n) : w.high n < n := by
  have hw : w.toNat < 4294967296 := w.toNat_lt
  exact Nat.div_lt_of_lt_mul (Nat.mul_lt_mul_of_pos_right hw pos)

/-- The low half of the last outcome is small, so only an outcome before the last is corrected. -/
theorem high_succ_lt (w : Word) {n : Nat} (pos : 0 < n) (h : 4294967296 - n < w.low n) :
    w.high n + 1 < n := by
  have hw : w.toNat ≤ 4294967295 := Nat.le_of_lt_succ w.toNat_lt
  have hmul : w.toNat * n ≤ 4294967295 * n := Nat.mul_le_mul_right n hw
  have hhigh := w.high_lt pos
  unfold high low at *
  omega

end Word

namespace Draw

def word : Draw Word
  | [] => none
  | w :: ws => some (w, ws)

/-! ## Choosing an outcome -/

/-- One of `n` outcomes, numbered from zero. When the low half of the first product is so large
that the choice is open, the high half of a second product is added to it, and the outcome is the
next one exactly when that sum reaches 2^32. -/
def below (n : Nat) (pos : 0 < n) : Draw (Fin n) := do
  let w ← word
  if h : 4294967296 - n < w.low n then
    let w' ← word
    if 4294967296 ≤ w.low n + w'.high n then
      return ⟨w.high n + 1, w.high_succ_lt pos h⟩
    else
      return ⟨w.high n, w.high_lt pos⟩
  else
    return ⟨w.high n, w.high_lt pos⟩

/-- Whether a word may decide among `n` equal outcomes: the words with a low half below the
remainder of 2^32 are left out, and every outcome keeps the same number of words. -/
def accepts (n : Nat) (w : Word) : Bool := 4294967296 % n ≤ w.low n

/-- One of `n` outcomes, by the first accepted word. -/
def weight (n : Nat) (pos : 0 < n) : Draw (Fin n)
  | [] => none
  | w :: ws => if accepts n w then some (⟨w.high n, w.high_lt pos⟩, ws) else weight n pos ws

def repeated {α : Type} (draw : Draw α) : Nat → Draw (List α)
  | 0 => return []
  | n + 1 => do
    let first ← draw
    let more ← repeated draw n
    return first :: more

end Draw

/-! ## Drawing from dice -/

theorem WeightTable.total_pos (table : WeightTable) : 0 < table.index.total := by
  have hpos := table.positive (table.entries.head table.nonempty) (List.head_mem table.nonempty)
  have htotal := table.indexes.total
  rw [← List.cons_head_tail table.nonempty, weightTotal] at htotal
  omega

/-- The face of the entry that a weight falls to. -/
def WeightTable.face (table : WeightTable) (chosen : Nat) : Score :=
  (table.entries.get ⟨table.index.find chosen, table.indexes.find_lt chosen⟩).1

/-- One value. A flat modifier takes no word. -/
def Die.draw : Die → Draw Score
  | .standard faces => do
    let i ← Draw.below faces.count faces.pos
    return faces.face i
  | .custom list => do
    let i ← Draw.below list.values.length (List.length_pos_iff.mpr list.nonempty)
    return list.values.get i
  | .weighted table => do
    let chosen ← Draw.weight table.index.total table.total_pos
    return table.face chosen
  | .constant value => return value

def Term.draw (term : Term) : Draw (List Score) := Draw.repeated term.die.draw term.count

/-! ## Random sources -/

structure Generator where
  /-- The result of a draw on the words for a seed, or on fresh ones, if the draw ends. -/
  run : {α : Type} → (seed : Option Nat) → Draw α → Option α
  exists_words : ∀ {α : Type} (seed : Option Nat) (draw : Draw α) (result : α),
    run seed draw = some result → ∃ words rest, draw words = some (result, rest)

end DiceNotation
