import DiceNotation.Proofs.Lexing
import DiceNotation.Proofs.Likeness

/-!
Spacing and case never change a formula.

Two texts whose visible characters are the same letters, `SameLetter` by `SameLetter`, have lexemes
that are alike, and lexeme for lexeme these start at the same visible character, `SamePlace`. So by
`ofSegments_alike` either text reads as the other does, whatever the options are.
-/
namespace DiceNotation
set_option autoImplicit false

/-! ## Same letters -/

/-- The characters are equal but for the case of an ASCII letter. -/
def SameLetter (c d : Char) : Prop := c.toLower = d.toLower

instance (c d : Char) : Decidable (SameLetter c d) := inferInstanceAs (Decidable (_ = _))

theorem toNat_toLower (c : Char) :
    c.toLower.toNat = if 65 ≤ c.toNat ∧ c.toNat ≤ 90 then c.toNat + 32 else c.toNat := by
  unfold Char.toLower
  simp only [ge_iff_le, UInt32.le_iff_toNat_le]
  split
  · next h =>
    change 65 ≤ c.toNat ∧ c.toNat ≤ 90 at h
    rw [if_pos h]
    change (c.toNat + 32) % 2 ^ 32 = c.toNat + 32
    omega
  · next h => exact (if_neg h).symm

namespace SameLetter
variable {c d : Char}

theorem refl (c : Char) : SameLetter c c := rfl

theorem symm (h : SameLetter c d) : SameLetter d c := Eq.symm h

theorem eq_of_isDigit (h : SameLetter c d) (hc : c.isDigit = true) : c = d := by
  have hcode : c.toLower.toNat = d.toLower.toNat := congrArg Char.toNat h
  rw [isDigit_iff] at hc
  rw [toNat_toLower, toNat_toLower, if_neg (by omega)] at hcode
  refine Char.toNat_inj.mp ?_
  split at hcode <;> omega

theorem isDigit_eq (h : SameLetter c d) : c.isDigit = d.isDigit := by
  rw [Bool.eq_iff_iff]
  exact ⟨fun hc => h.eq_of_isDigit hc ▸ hc, fun hd => h.symm.eq_of_isDigit hd ▸ hd⟩

theorem ofChar_eq (h : SameLetter c d) : Token.ofChar c = Token.ofChar d := by
  have hlower : c.toLower = d.toLower := h
  rw [Token.ofChar, Token.ofChar, h.isDigit_eq, hlower]

end SameLetter

/-! ## Same lexemes

How a character is put before lexemes does not depend on where anything stands. -/

/-- The characters agree up to case, wherever they stand. -/
def SameGlyph (glyph glyph' : Glyph) : Prop := SameLetter glyph.char glyph'.char

/-- Lexemes that agree up to case, wherever they stand. -/
def SameWord : Lexeme → Lexeme → Prop := Lexeme.Alike (fun _ _ => True) SameLetter

theorem sameWords_push {glyph glyph' : Glyph} {found found' : List Lexeme}
    (hglyph : SameGlyph glyph glyph') (hfound : List.Forall₂ SameWord found found') :
    List.Forall₂ SameWord (Lexeme.push glyph found) (Lexeme.push glyph' found') :=
  push_alike trivial hglyph (SameLetter.ofChar_eq hglyph)
    (fun hnumber => SameLetter.eq_of_isDigit hglyph (isDigit_of_ofChar hnumber)) hfound

theorem sameWords_lexemes {text text' : List Char}
    (h : List.Forall₂ SameLetter (visible text) (visible text')) :
    List.Forall₂ SameWord (lexemes text) (lexemes text') := by
  rw [← map_char_glyphs 0, ← map_char_glyphs 0, List.forall₂_map_left_iff,
    List.forall₂_map_right_iff] at h
  unfold lexemes
  generalize glyphs 0 text = found at h
  generalize glyphs 0 text' = found' at h
  induction h with
  | nil => exact .nil
  | cons hglyph _ ih => exact sameWords_push hglyph ih

/-! ## Same places

Before a lexeme stand as many visible characters as the lexemes before it have, so lexemes that
agree one by one start at the same visible characters. -/

/-- At a position of a text stands its visible character number `k`, counted from zero. -/
def PointsAt (text : List Char) (position k : Nat) : Prop :=
  (∃ c, text[position]? = some c ∧ isBlank c = false) ∧ (visible (text.take position)).length = k

def SamePlace (text text' : List Char) (position position' : Nat) : Prop :=
  ∃ k, PointsAt text position k ∧ PointsAt text' position' k

/-- A relation between elements may use all that stands before them. -/
theorem forall₂_of_before {α β : Type} {R S : α → β → Prop} {l : List α} {l' : List β}
    (h : List.Forall₂ R l l')
    (hS : ∀ before x after before' y after', l = before ++ x :: after → l' = before' ++ y :: after' →
      List.Forall₂ R before before' → R x y → S x y) : List.Forall₂ S l l' := by
  induction h with
  | nil => exact .nil
  | @cons a b l l' hfirst _ ih =>
    refine .cons (hS [] a l [] b l' rfl rfl .nil hfirst) (ih ?_)
    intro before x after before' y after' hl hl' hbefore
    exact hS (a :: before) x after (b :: before') y after' (congrArg (a :: ·) hl)
      (congrArg (b :: ·) hl') (.cons hfirst hbefore)

theorem Lexeme.IsWord.text_ne_nil {lexeme : Lexeme} (h : lexeme.IsWord) : lexeme.text ≠ [] := by
  by_cases hnumber : lexeme.token = .number
  · exact (h.1 hnumber).1
  · obtain ⟨c, htext, -⟩ := h.2 hnumber
    rw [htext]
    exact List.cons_ne_nil c []

theorem pointsAt_start {text : List Char} {before after : List Lexeme} {lexeme : Lexeme}
    (h : lexemes text = before ++ lexeme :: after) :
    PointsAt text lexeme.start (before.flatMap Lexeme.text).length := by
  have htext := tokenizes_lexemes text
  have hmem : lexeme ∈ lexemes text := by
    rw [h]
    exact List.mem_append_right before (List.mem_cons_self ..)
  obtain ⟨hbefore, hfirst⟩ := htext.starts before lexeme after h
  obtain ⟨c, cs, hcs⟩ := List.exists_cons_of_ne_nil (htext.words lexeme hmem).text_ne_nil
  have hc : c ∈ visible text := by
    rw [← htext.cover]
    exact List.mem_flatMap.mpr ⟨lexeme, hmem, hcs ▸ List.mem_cons_self ..⟩
  refine ⟨⟨c, ?_, ?_⟩, congrArg List.length hbefore⟩
  · rw [hfirst, hcs, List.head?_cons]
  · simpa using (List.mem_filter.mp hc).2

theorem lexemes_alike {text text' : List Char}
    (h : List.Forall₂ SameLetter (visible text) (visible text')) :
    List.Forall₂ (Lexeme.Alike (SamePlace text text') SameLetter) (lexemes text)
      (lexemes text') := by
  refine forall₂_of_before (sameWords_lexemes h) ?_
  intro before lexeme after before' lexeme' after' hfront hfront' hbefore hword
  have hlength := (flatMap_text_alike hbefore).length_eq
  have hplace := pointsAt_start hfront
  rw [hlength] at hplace
  exact ⟨hword.token, ⟨_, hplace, pointsAt_start hfront'⟩, hword.text, hword.digits⟩

/-! ## Same readings -/

/-- Texts that differ in blanks and in the case of letters only are read alike: with the same
terms, counts and kinds of diagnostics, or with the same error, and what is told of one text at a
position is told of the other where the same visible character stands. So either both are usable
or neither is. -/
theorem reading_ignores_spacing_and_case {text text' : String}
    (h : List.Forall₂ SameLetter (visible text.toList) (visible text'.toList)) :
    (∀ options, ReadAlike (SamePlace text.toList text'.toList) SameLetter
      (Formula.Alike (SamePlace text.toList text'.toList) SameLetter)
      (Formula.ofText text options) (Formula.ofText text' options)) ∧
    isUsable text = isUsable text' := by
  have hread options := ofSegments_alike SameLetter.refl options (segments_alike (lexemes_alike h))
  refine ⟨hread, ?_⟩
  have hlenient := hread .lenient
  rw [← ofText_eq, ← ofText_eq] at hlenient
  unfold isUsable
  generalize Formula.ofText text .lenient = result at hlenient
  generalize Formula.ofText text' .lenient = result' at hlenient
  cases hlenient with
  | error => rfl
  | @ok formula formula' hformula =>
    have hempty : formula.isEmpty = formula'.isEmpty := congrArg List.isEmpty hformula.terms
    have hcoverage : formula.coverage = formula'.coverage := by
      rw [Formula.coverage, Formula.coverage, hformula.recognized, hformula.skipped]
    simp only
    rw [hempty, hcoverage]

/-- Both texts are twenty and a die, and the third visible character of either, a letter, is what a
strict reading stops at. -/
theorem reading_ignores_spacing_and_case_mixed :
    List.Forall₂ SameLetter (visible "20xD6 + F".toList) (visible "2 0 X d 6+f".toList) ∧
    (∀ options, ReadAlike (SamePlace "20xD6 + F".toList "2 0 X d 6+f".toList) SameLetter
      (Formula.Alike (SamePlace "20xD6 + F".toList "2 0 X d 6+f".toList) SameLetter)
      (Formula.ofText "20xD6 + F" options) (Formula.ofText "2 0 X d 6+f" options)) ∧
    isUsable "20xD6 + F" = isUsable "2 0 X d 6+f" ∧
    (∃ formula formula', Formula.ofText "20xD6 + F" = .ok formula ∧
      Formula.ofText "2 0 X d 6+f" = .ok formula' ∧
      formula.text = "20 + 1d6" ∧ formula'.text = "20 + 1d6" ∧
      formula.diagnostics = [⟨.skipped, 2, "x"⟩, ⟨.skipped, 6, "+F"⟩] ∧
      formula'.diagnostics = [⟨.skipped, 4, "X"⟩, ⟨.skipped, 9, "+f"⟩]) ∧
    Formula.ofText "20xD6 + F" .strictly = .error (.located 2 (.unrecognized "x")) ∧
    Formula.ofText "2 0 X d 6+f" .strictly = .error (.located 4 (.unrecognized "X")) ∧
    SamePlace "20xD6 + F".toList "2 0 X d 6+f".toList 2 4 := by
  have h : List.Forall₂ SameLetter (visible "20xD6 + F".toList) (visible "2 0 X d 6+f".toList) := by
    decide
  obtain ⟨hread, husable⟩ := reading_ignores_spacing_and_case h
  have hshown : ((Formula.ofText "20xD6 + F").map fun formula =>
      (formula.text, formula.diagnostics)).toOption =
        some ("20 + 1d6", [⟨.skipped, 2, "x"⟩, ⟨.skipped, 6, "+F"⟩]) := by decide +kernel
  have hshown' : ((Formula.ofText "2 0 X d 6+f").map Formula.diagnostics).toOption =
      some [⟨.skipped, 4, "X"⟩, ⟨.skipped, 9, "+f"⟩] := by decide +kernel
  obtain ⟨formula, hformula, hparts⟩ := exists_ok_of_shown hshown
  obtain ⟨formula', hformula', hdiagnostics'⟩ := exists_ok_of_shown hshown'
  obtain ⟨htext, hdiagnostics⟩ := Prod.mk.inj hparts
  have hstrict : Formula.ofText "20xD6 + F" .strictly =
      .error (.located 2 (.unrecognized "x")) := by with_unfolding_all rfl
  have hstrict' : Formula.ofText "2 0 X d 6+f" .strictly =
      .error (.located 4 (.unrecognized "X")) := by with_unfolding_all rfl
  have htext' : formula'.text = "20 + 1d6" := by
    have hlenient := hread .lenient
    rw [hformula, hformula'] at hlenient
    cases hlenient with
    | ok halike => rw [← htext, Formula.text, Formula.text, halike.terms]
  have hplace : SamePlace "20xD6 + F".toList "2 0 X d 6+f".toList 2 4 := by
    have hfailed := hread .strictly
    rw [hstrict, hstrict'] at hfailed
    cases hfailed with
    | error halike => cases halike with
      | unrecognized hplace => exact hplace
  exact ⟨h, hread, husable,
    ⟨formula, formula', hformula, hformula', htext, htext', hdiagnostics, hdiagnostics'⟩,
    hstrict, hstrict', hplace⟩

end DiceNotation
