import DiceNotation.Proofs.Canonical
import DiceNotation.Proofs.Strictness

/-!
Which terms are read back from their text, among all terms that can be built.

A modifier below zero, the lowest score as a face and a weight above the highest score can be built
and printed, but no text at all is read as a term with one of them. Every other term is read back
from the text of any formula that it stands in.

* `Die.Writable`: the dice without these;
* `writable_iff_legible`: they are those whose numbers the grammar can write;
* `reads_back_iff_writable`: terms are read back just if all their dice are writable.
-/
namespace DiceNotation
set_option autoImplicit false

/-- No modifier below zero, no lowest score among the faces, no weight above the highest score. -/
def Die.Writable : Die → Prop
  | .standard _ => True
  | .custom list => Score.lowest ∉ list.values
  | .weighted table =>
    ∀ entry ∈ table.entries, entry.1 ≠ Score.lowest ∧ (entry.2 : Int) ≤ Score.highest.toInt
  | .constant value => Score.zero ≤ value

theorem ne_lowest_iff {score : Score} : score ≠ Score.lowest ↔ -2147483648 < score.toInt := by
  have hge := score.ge
  constructor
  · intro hne
    by_contra hle
    have hlowest : score.toInt = Score.lowest.toInt := by
      show score.toInt = -2147483648
      omega
    exact hne (Score.ext hlowest)
  · rintro hlt rfl
    exact absurd hlt (by decide)

theorem writable_iff_legible {die : Die} : die.Writable ↔ die.plain.Legible := by
  cases die with
  | standard faces => exact Iff.rfl
  | constant value => exact Iff.rfl
  | custom list =>
    simp only [Die.Writable, Die.plain, PlainDie.Legible, List.forall_mem_map, ← ne_lowest_iff]
    exact ⟨fun h score hscore heq => h (heq ▸ hscore), fun h hmem => h _ hmem rfl⟩
  | weighted table =>
    simp only [Die.Writable, Die.plain, PlainDie.Legible, List.forall_mem_map, ← ne_lowest_iff]
    have hweight (n : Nat) : (n : Int) ≤ Score.highest.toInt ↔ n ≤ 2147483647 := by
      show (n : Int) ≤ 2147483647 ↔ n ≤ 2147483647
      omega
    simp only [hweight]

/-- A lenient reading of the text of a formula made from terms gives back just these terms if and
only if each of them has a writable die. -/
theorem reads_back_iff_writable (terms : List Term) :
    (∃ formula, Formula.ofText (Formula.text { terms := terms }) .lenient = .ok formula ∧
      formula.terms = terms) ↔
    ∀ term ∈ terms, term.die.Writable := by
  simp only [writable_iff_legible]
  constructor
  · rintro ⟨formula, hread, rfl⟩
    exact legible_of_ofSegments hread
  · intro hlegible
    obtain ⟨formula, hstrict, hterms, -⟩ := strict_reads_termsSpelling hlegible
    have hagree := agree_ofSegments Term.maxCount
      (segments (lexemes (Formula.text { terms := terms }).toList))
    exact ⟨formula, ((hagree.ok_iff formula).mp hstrict).1, hterms⟩

end DiceNotation
