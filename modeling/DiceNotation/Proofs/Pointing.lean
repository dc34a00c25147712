import DiceNotation.Proofs.Coverage
import DiceNotation.Proofs.Quoting

/-!
Diagnostics point at what they quote.

* `DigitRun before digits after`: the digits between two stretches are a whole run of digits;
* `Diagnostic.Pinpoints text maxCount issue`: the issue quotes the text from its position on, and
  what it quotes is what its kind says;
* `Diagnostic.Before text a b`: of two diagnostics the first quotes a stretch that ends before the
  stretch of the second;
* `diagnostics_pinpoint`: so it is for all diagnostics of a reading, in the order of its list.
-/
namespace DiceNotation
set_option autoImplicit false

/-! ## Whole runs of digits -/

/-- All of them are digits, and next to them stands no further digit. -/
structure DigitRun (before digits after : List Char) : Prop where
  digits : ∀ c ∈ digits, c.isDigit = true
  first : ∀ c ∈ before.getLast?, c.isDigit = false
  last : ∀ c ∈ after.head?, c.isDigit = false

theorem Lexeme.IsWord.not_digit {lexeme : Lexeme} (h : lexeme.IsWord)
    (hmark : lexeme.token ≠ .number) : ∀ c ∈ lexeme.text, c.isDigit = false := by
  obtain ⟨c, htext, htoken⟩ := h.2 hmark
  rw [htext]
  refine List.forall_mem_singleton.mpr (Bool.eq_false_iff.mpr fun hdigit => ?_)
  rw [← htoken, ofChar_of_isDigit hdigit] at hmark
  exact hmark rfl

section Runs
variable {text : List Char} {before after : List Lexeme} {lexeme : Lexeme}

/-- Of a text a number takes all digits that stand together. -/
theorem digitRun_of_number (h : lexemes text = before ++ lexeme :: after)
    (hnumber : lexeme.token = .number) :
    DigitRun (before.flatMap Lexeme.text) lexeme.text (after.flatMap Lexeme.text) := by
  obtain ⟨-, hwords, hmaximal, -⟩ := tokenizes_lexemes text
  rw [h] at hwords hmaximal
  obtain ⟨-, hbehind, hfront⟩ := List.isChain_append.mp hmaximal
  refine ⟨(hwords lexeme (by simp)).1 hnumber |>.2, fun c hc => ?_, fun c hc => ?_⟩
  · rcases List.eq_nil_or_concat before with rfl | ⟨others, previous, rfl⟩
    · cases hc
    · have hword := hwords previous (by simp)
      have hmark : previous.token ≠ .number := fun hprevious =>
        hfront previous (by simp) lexeme rfl hprevious hnumber
      rw [List.concat_eq_append, List.flatMap_append, List.flatMap_singleton,
        List.getLast?_append_of_ne_nil _ hword.text_ne_nil] at hc
      exact hword.not_digit hmark c (List.mem_of_getLast? hc)
  · cases after with
    | nil => cases hc
    | cons next more =>
      have hword := hwords next (by simp)
      have hmark : next.token ≠ .number := hbehind.rel hnumber
      rw [List.flatMap_cons, List.head?_append_of_ne_nil _ hword.text_ne_nil] at hc
      exact hword.not_digit hmark c (List.mem_of_mem_head? hc)

end Runs

/-! ## Where quoted rows stand -/

/-- The first diagnostic has the lower position, and what it quotes ends before the visible
character that the second points at. -/
def Diagnostic.Before (text : List Char) (a b : Diagnostic) : Prop :=
  a.position < b.position ∧
    (visible (text.take a.position)).length + a.text.toList.length ≤
      (visible (text.take b.position)).length

section Rows
variable {text : List Char} {maxCount : Nat}

theorem Diagnostic.Quotes.pointsAt {before row after : List Lexeme} {issue : Diagnostic}
    (h : issue.Quotes maxCount row) (hfound : lexemes text = before ++ (row ++ after)) :
    PointsAt text issue.position (textWidth before) ∧
      issue.text.toList.length = textWidth row ∧ 0 < textWidth row := by
  obtain ⟨first, more, rfl, hposition, htext⟩ := h.row_eq
  have hwords : ∀ lexeme ∈ first :: more, lexeme.IsWord := fun lexeme hlexeme =>
    (tokenizes_lexemes text).words lexeme <| hfound ▸
      List.mem_append_right before (List.mem_append_left after hlexeme)
  refine ⟨?_, congrArg List.length htext, textWidth_pos (List.cons_ne_nil first more) hwords⟩
  rw [hposition]
  exact pointsAt_start hfound

/-- Rows that stand one behind the other in a text make diagnostics that do so. -/
theorem Quoted.pairwise_before {front found : List Lexeme} {issues : List Diagnostic}
    (h : Quoted maxCount found issues) (hfound : lexemes text = front ++ found) :
    issues.Pairwise (Diagnostic.Before text) := by
  induction h generalizing front with
  | done => exact .nil
  | @pass lexeme found _ _ ih => exact @ih (front ++ [lexeme]) (by simp [hfound])
  | @quote row found issue issues hquote hmore ih =>
    have hbehind : lexemes text = (front ++ row) ++ found := by
      rw [hfound, List.append_assoc]
    refine .cons (fun later hlater => ?_) (ih hbehind)
    obtain ⟨before, row', after, rfl, hquote'⟩ := hmore.exists_row hlater
    obtain ⟨⟨-, hplace⟩, hlength, hpos⟩ := hquote.pointsAt hfound
    rw [← List.append_assoc] at hbehind
    obtain ⟨⟨-, hplace'⟩, -⟩ := hquote'.pointsAt hbehind
    simp only [textWidth_append] at hplace'
    have hlt : (visible (text.take issue.position)).length <
        (visible (text.take later.position)).length := by omega
    exact ⟨lt_of_visible_lt hlt, by omega⟩

end Rows

/-! ## Diagnostics of a reading -/

structure Diagnostic.Pinpoints (text : List Char) (maxCount : Nat) (issue : Diagnostic) :
    Prop where
  stands : ∃ c, text[issue.position]? = some c ∧ isBlank c = false
  nonempty : issue.text ≠ ""
  /-- The quoted characters are the next visible ones, and in numbers a whole run of digits. -/
  quoted : ∃ after, visible (text.drop issue.position) = issue.text.toList ++ after ∧
    (issue.kind ≠ .skipped →
      DigitRun (visible (text.take issue.position)) issue.text.toList after)
  skipped : issue.kind = .skipped → ∀ c ∈ issue.text.toList, c.isDigit = false
  countFallback : issue.kind = .countFallback →
    Decimal.value issue.text.toList = 0 ∨ min maxCount 10000 < Decimal.value issue.text.toList
  saturated : issue.kind = .saturated → 2147483647 < Decimal.value issue.text.toList

namespace Diagnostic.Quotes
variable {text : List Char} {maxCount : Nat} {before row after : List Lexeme} {issue : Diagnostic}

theorem value_of_countFallback (h : issue.Quotes maxCount row)
    (hkind : issue.kind = .countFallback) :
    Decimal.value issue.text.toList = 0 ∨ min maxCount 10000 < Decimal.value issue.text.toList := by
  cases h with
  | skipped _ | saturated _ _ => cases hkind
  | @countFallback lexeme _ hcount =>
    have hunusable := mt Numeral.isCount_iff.mpr (Bool.eq_false_iff.mp hcount)
    have hvalue : lexeme.numeral.value = Decimal.value lexeme.text := rfl
    rw [hvalue] at hunusable
    rw [String.toList_ofList]
    omega

theorem value_of_saturated (h : issue.Quotes maxCount row) (hkind : issue.kind = .saturated) :
    2147483647 < Decimal.value issue.text.toList := by
  cases h with
  | skipped _ | countFallback _ _ => cases hkind
  | saturated _ hlarge =>
    rw [String.toList_ofList]
    exact Nat.lt_of_not_le (of_decide_eq_false hlarge)

theorem not_digit_of_skipped (h : issue.Quotes maxCount row) (hkind : issue.kind = .skipped)
    (hwords : ∀ lexeme ∈ row, lexeme.IsWord) :
    ∀ c ∈ issue.text.toList, c.isDigit = false := by
  cases h with
  | countFallback _ _ | saturated _ _ => cases hkind
  | skipped hmarks =>
    intro c hc
    rw [String.toList_ofList] at hc
    obtain ⟨lexeme, hlexeme, hchar⟩ := List.mem_flatMap.mp hc
    exact (hwords lexeme hlexeme).not_digit (hmarks lexeme hlexeme) c hchar

theorem digitRun (h : issue.Quotes maxCount row) (hkind : issue.kind ≠ .skipped)
    (hfound : lexemes text = before ++ (row ++ after)) :
    DigitRun (visible (text.take issue.position)) issue.text.toList
      (after.flatMap Lexeme.text) := by
  obtain ⟨lexeme, rfl, hnumber⟩ := h.row_number hkind
  obtain ⟨first, more, hfirst, hposition, htext⟩ := h.row_eq
  obtain ⟨rfl, -⟩ := List.cons.inj hfirst
  rw [hposition, htext, List.flatMap_singleton, (visible_at_start hfound).1]
  exact digitRun_of_number hfound hnumber

theorem pinpoints (h : issue.Quotes maxCount row)
    (hfound : lexemes text = before ++ (row ++ after)) : issue.Pinpoints text maxCount := by
  have hrow : row <:+: lexemes text := ⟨before, after, by rw [hfound, List.append_assoc]⟩
  have hwords : ∀ lexeme ∈ row, lexeme.IsWord := fun lexeme hlexeme =>
    (tokenizes_lexemes text).words lexeme (hrow.subset hlexeme)
  obtain ⟨hstands, hnonempty, -, -⟩ := h.isPrefix hrow
  refine ⟨hstands, hnonempty, ⟨after.flatMap Lexeme.text, ?_, fun hkind => h.digitRun hkind hfound⟩,
    fun hkind => h.not_digit_of_skipped hkind hwords, h.value_of_countFallback,
    h.value_of_saturated⟩
  obtain ⟨first, more, rfl, hposition, htext⟩ := h.row_eq
  rw [hposition, htext, ← List.flatMap_append]
  exact (visible_at_start hfound).2

end Diagnostic.Quotes

/-- Every diagnostic of a reading points at what it quotes, and their list goes through the text
from the front on, without quoting anything twice. -/
theorem diagnostics_pinpoint {text : String} {options : ReadOptions} {formula : Formula}
    (h : Formula.ofText text options = .ok formula) :
    (∀ issue ∈ formula.diagnostics, issue.Pinpoints text.toList options.maxCount) ∧
      formula.diagnostics.Pairwise (Diagnostic.Before text.toList) := by
  have hquoted := quoted_segments options.maxCount (lexemes text.toList)
  rw [← diagnostics_of_ofSegments h] at hquoted
  refine ⟨fun issue hissue => ?_, hquoted.pairwise_before (List.nil_append _).symm⟩
  obtain ⟨before, row, after, hfound, hquote⟩ := hquoted.exists_row hissue
  exact hquote.pinpoints hfound

/-- All four places that diagnostics come from, with a blank inside one quoted number and inside
one skipped stretch. -/
theorem diagnostics_pinpoint_mixed : ∃ formula,
    Formula.ofText "x0d6 + d[1,5:99999 99999] y z" = .ok formula ∧
    formula.diagnostics =
      [⟨.skipped, 0, "x"⟩, ⟨.countFallback, 1, "0"⟩, ⟨.saturated, 13, "9999999999"⟩,
        ⟨.skipped, 26, "yz"⟩] ∧
    (∀ issue ∈ formula.diagnostics,
      issue.Pinpoints "x0d6 + d[1,5:99999 99999] y z".toList 10000) ∧
    formula.diagnostics.Pairwise (Diagnostic.Before "x0d6 + d[1,5:99999 99999] y z".toList) := by
  have hread : ((Formula.ofText "x0d6 + d[1,5:99999 99999] y z").map
      Formula.diagnostics).toOption =
        some [⟨.skipped, 0, "x"⟩, ⟨.countFallback, 1, "0"⟩, ⟨.saturated, 13, "9999999999"⟩,
          ⟨.skipped, 26, "yz"⟩] := by decide +kernel
  obtain ⟨formula, hformula, hdiagnostics⟩ := exists_ok_of_shown hread
  obtain ⟨hpinpoint, hbefore⟩ := diagnostics_pinpoint hformula
  exact ⟨formula, hformula, hdiagnostics, hpinpoint, hbefore⟩

end DiceNotation
