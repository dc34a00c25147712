import DiceNotation.Proofs.Grammar
import Mathlib.Data.List.Chain

/-!
The lexemes of a text, told by properties.

* `Tokenizes text found`: the lexemes `found` cover the visible characters of `text` in order, a
  digit run is one lexeme and maximal, every other visible character is one, and each lexeme knows
  where it starts;
* `tokenizes_lexemes`: the lexemes of a text are such;
* `lexemesFrom_blank`, `lexemesFrom_mark` and `lexemesFrom_digits`: what the next lexeme of a text
  is, by its front.
-/
namespace DiceNotation
set_option autoImplicit false

/-- A lexeme is a run of digits or one other character. -/
def Lexeme.IsWord (lexeme : Lexeme) : Prop :=
  (lexeme.token = .number → lexeme.text ≠ [] ∧ ∀ c ∈ lexeme.text, c.isDigit = true) ∧
    (lexeme.token ≠ .number → ∃ c, lexeme.text = [c] ∧ Token.ofChar c = lexeme.token)

/-- Two numbers in a row would be one. -/
def Lexeme.Apart (a b : Lexeme) : Prop := a.token = .number → b.token ≠ .number

structure Tokenizes (text : List Char) (found : List Lexeme) : Prop where
  cover : found.flatMap Lexeme.text = visible text
  words : ∀ lexeme ∈ found, lexeme.IsWord
  maximal : found.IsChain Lexeme.Apart
  /-- Before the start of a lexeme stand the visible characters of those before it. -/
  starts : ∀ before lexeme after, found = before ++ lexeme :: after →
    visible (text.take lexeme.start) = before.flatMap Lexeme.text ∧
      text[lexeme.start]? = lexeme.text.head?

/-! ## The front of a text -/

/-- The lexemes of a text that starts at an offset. -/
def lexemesFrom (position : Nat) (text : List Char) : List Lexeme :=
  (glyphs position text).foldr Lexeme.push []

theorem lexemes_eq_lexemesFrom (text : List Char) : lexemes text = lexemesFrom 0 text := rfl

theorem lexemesFrom_blank {c : Char} (h : isBlank c = true) (position : Nat) (text : List Char) :
    lexemesFrom position (c :: text) = lexemesFrom (position + 1) text := by
  rw [lexemesFrom, glyphs, if_pos h, lexemesFrom]

theorem lexemesFrom_visible {c : Char} (h : isBlank c = false) (position : Nat)
    (text : List Char) :
    lexemesFrom position (c :: text) =
      Lexeme.push ⟨c, position⟩ (lexemesFrom (position + 1) text) := by
  rw [lexemesFrom, glyphs, if_neg (by simp [h]), List.foldr_cons, lexemesFrom]

theorem isDigit_iff {c : Char} : c.isDigit = true ↔ 48 ≤ c.toNat ∧ c.toNat ≤ 57 := by
  simp only [Char.isDigit, Bool.and_eq_true, decide_eq_true_eq, ge_iff_le, UInt32.le_iff_toNat_le]
  rfl

theorem isBlank_of_isDigit {c : Char} (h : c.isDigit = true) : isBlank c = false := by
  rw [isDigit_iff] at h
  simp only [isBlank, blankRuns, List.any_cons, List.any_nil, Bool.or_false, Bool.or_eq_false_iff,
    Bool.and_eq_false_iff, decide_eq_false_iff_not]
  omega

theorem ofChar_of_isDigit {c : Char} (h : c.isDigit = true) : Token.ofChar c = .number := by
  rw [Token.ofChar, if_pos h]

theorem isDigit_of_ofChar {c : Char} (h : Token.ofChar c = .number) : c.isDigit = true := by
  by_contra hdigit
  rw [Token.ofChar, if_neg hdigit] at h
  split at h <;> cases h

theorem ofChar_ne_number {c : Char} (h : c.isDigit = false) : Token.ofChar c ≠ .number := by
  intro hnumber
  rw [isDigit_of_ofChar hnumber] at h
  cases h

/-- A character that is no digit is a lexeme by itself. -/
theorem lexemesFrom_mark {c : Char} (hblank : isBlank c = false) (hdigit : c.isDigit = false)
    (position : Nat) (text : List Char) :
    lexemesFrom position (c :: text) =
      .ofGlyph ⟨c, position⟩ :: lexemesFrom (position + 1) text := by
  rw [lexemesFrom_visible hblank]
  cases lexemesFrom (position + 1) text with
  | nil => rfl
  | cons next more => rw [Lexeme.push, if_neg fun h => ofChar_ne_number hdigit h.1]

/-- Digits are one lexeme where no further digit comes next. -/
theorem lexemesFrom_digits {ds text : List Char} (hne : ds ≠ [])
    (hdigits : ∀ c ∈ ds, c.isDigit = true) (position : Nat)
    (hahead : NotAhead .number (lexemesFrom (position + ds.length) text)) :
    lexemesFrom position (ds ++ text) =
      ⟨.number, position, position + ds.length, ds⟩
        :: lexemesFrom (position + ds.length) text := by
  induction ds generalizing position with
  | nil => exact absurd rfl hne
  | cons d ds ih =>
    have hd := hdigits d (List.mem_cons_self ..)
    rw [List.cons_append, lexemesFrom_visible (isBlank_of_isDigit hd)]
    have hlength : position + (d :: ds).length = position + 1 + ds.length := by
      rw [List.length_cons]
      omega
    rw [hlength] at hahead ⊢
    by_cases hds : ds = []
    · subst hds
      simp only [List.length_nil, Nat.add_zero, List.nil_append] at hahead ⊢
      cases hmore : lexemesFrom (position + 1) text with
      | nil => simp only [Lexeme.push, Lexeme.ofGlyph, ofChar_of_isDigit hd]
      | cons next more =>
        rw [hmore] at hahead
        rw [Lexeme.push, if_neg fun h => hahead next rfl h.2]
        simp only [Lexeme.ofGlyph, ofChar_of_isDigit hd]
    · rw [ih hds (fun c hc => hdigits c (List.mem_cons_of_mem d hc)) (position + 1) hahead,
        Lexeme.push, if_pos ⟨ofChar_of_isDigit hd, rfl⟩]

/-! ## All lexemes of a text -/

theorem flatMap_text_push (glyph : Glyph) (found : List Lexeme) :
    (Lexeme.push glyph found).flatMap Lexeme.text = glyph.char :: found.flatMap Lexeme.text := by
  cases found with
  | nil => rfl
  | cons next more =>
    rw [Lexeme.push]
    split <;> rfl

theorem flatMap_text_lexemesFrom (position : Nat) (text : List Char) :
    (lexemesFrom position text).flatMap Lexeme.text = visible text := by
  rw [← map_char_glyphs position, lexemesFrom]
  induction glyphs position text with
  | nil => rfl
  | cons glyph more ih => rw [List.foldr_cons, flatMap_text_push, ih, List.map_cons]

theorem isWord_ofGlyph (glyph : Glyph) : (Lexeme.ofGlyph glyph).IsWord := by
  refine ⟨fun h => ⟨List.cons_ne_nil _ _, fun c hc => ?_⟩, fun _ => ⟨glyph.char, rfl, rfl⟩⟩
  cases List.mem_singleton.mp hc
  exact isDigit_of_ofChar h

theorem isWord_of_mem_push {glyph : Glyph} {found : List Lexeme}
    (hfound : ∀ lexeme ∈ found, lexeme.IsWord) :
    ∀ lexeme ∈ Lexeme.push glyph found, lexeme.IsWord := by
  cases found with
  | nil => simpa [Lexeme.push] using isWord_ofGlyph glyph
  | cons next more =>
    rw [Lexeme.push]
    split
    · next hmerge =>
      intro lexeme hlexeme
      rcases List.mem_cons.mp hlexeme with rfl | hmem
      · obtain ⟨-, hdigits⟩ := (hfound next (List.mem_cons_self ..)).1 hmerge.2
        refine ⟨fun _ => ⟨List.cons_ne_nil _ _, fun c hc => ?_⟩, fun h => absurd rfl h⟩
        rcases List.mem_cons.mp hc with rfl | hc
        · exact isDigit_of_ofChar hmerge.1
        · exact hdigits c hc
      · exact hfound lexeme (List.mem_cons_of_mem next hmem)
    · intro lexeme hlexeme
      rcases List.mem_cons.mp hlexeme with rfl | hmem
      · exact isWord_ofGlyph glyph
      · exact hfound lexeme hmem

theorem isWord_of_mem_lexemesFrom (position : Nat) (text : List Char) :
    ∀ lexeme ∈ lexemesFrom position text, lexeme.IsWord := by
  unfold lexemesFrom
  induction glyphs position text with
  | nil => exact fun _ h => nomatch h
  | cons glyph more ih => exact isWord_of_mem_push ih

theorem isChain_push {glyph : Glyph} {found : List Lexeme} (h : found.IsChain Lexeme.Apart) :
    (Lexeme.push glyph found).IsChain Lexeme.Apart := by
  cases found with
  | nil => exact .singleton _
  | cons next more =>
    rw [Lexeme.push]
    split
    · next hmerge =>
      cases h with
      | singleton => exact .singleton _
      | cons_cons hnext hmore => exact .cons_cons (fun _ => hnext hmerge.2) hmore
    · next hmerge => exact .cons_cons (fun hglyph hnext => hmerge ⟨hglyph, hnext⟩) h

theorem isChain_lexemesFrom (position : Nat) (text : List Char) :
    (lexemesFrom position text).IsChain Lexeme.Apart := by
  unfold lexemesFrom
  induction glyphs position text with
  | nil => exact .nil
  | cons glyph more ih => exact isChain_push ih

theorem head_of_push {glyph : Glyph} {found after : List Lexeme} {lexeme : Lexeme}
    (h : Lexeme.push glyph found = lexeme :: after) :
    lexeme.start = glyph.position ∧ lexeme.text.head? = some glyph.char := by
  cases found with
  | nil =>
    cases h
    exact ⟨rfl, rfl⟩
  | cons next more =>
    rw [Lexeme.push] at h
    split at h <;> cases h <;> exact ⟨rfl, rfl⟩

/-- A lexeme behind the first of `push glyph found` is one of `found`. -/
theorem tail_of_push {glyph : Glyph} {found before after : List Lexeme} {first lexeme : Lexeme}
    (h : Lexeme.push glyph found = first :: (before ++ lexeme :: after)) :
    ∃ before', found = before' ++ lexeme :: after ∧
      glyph.char :: before'.flatMap Lexeme.text = (first :: before).flatMap Lexeme.text := by
  cases found with
  | nil =>
    have hlength := congrArg List.length h
    simp [Lexeme.push] at hlength
  | cons next more =>
    rw [Lexeme.push] at h
    split at h
    · obtain ⟨rfl, rfl⟩ := List.cons.inj h
      exact ⟨next :: before, rfl, rfl⟩
    · obtain ⟨rfl, hmore⟩ := List.cons.inj h
      exact ⟨before, hmore, rfl⟩

/-- Where the lexemes behind `front` start in the whole text. -/
theorem start_lexemesFrom (front text : List Char) {before after : List Lexeme} {lexeme : Lexeme}
    (h : lexemesFrom front.length text = before ++ lexeme :: after) :
    visible ((front ++ text).take lexeme.start) = visible front ++ before.flatMap Lexeme.text ∧
      (front ++ text)[lexeme.start]? = lexeme.text.head? := by
  -- The characters move one by one to the end of `front`, so the whole text stays the same.
  induction text generalizing front before lexeme after with
  | nil => simp [lexemesFrom, glyphs] at h
  | cons c text ih =>
    have hlength : (front ++ [c]).length = front.length + 1 := List.length_append
    have hwhole : front ++ [c] ++ text = front ++ c :: text := by simp
    have ih := @ih (front ++ [c])
    rw [hlength, hwhole, visible_append] at ih
    by_cases hblank : isBlank c = true
    · have hc : visible [c] = [] := by simp [visible, hblank]
      rw [hc, List.append_nil] at ih
      rw [lexemesFrom_blank hblank] at h
      exact ih h
    · have hc : visible [c] = [c] := by simp [visible, hblank]
      rw [hc] at ih
      rw [lexemesFrom_visible (by simpa using hblank)] at h
      cases before with
      | nil =>
        obtain ⟨hstart, hhead⟩ := head_of_push h
        rw [hstart, hhead]
        simp
      | cons first before =>
        obtain ⟨before', hfound, htexts⟩ := tail_of_push h
        rw [← htexts]
        simpa using ih hfound

theorem tokenizes_lexemes (text : List Char) : Tokenizes text (lexemes text) where
  cover := flatMap_text_lexemesFrom 0 text
  words := isWord_of_mem_lexemesFrom 0 text
  maximal := isChain_lexemesFrom 0 text
  starts _ _ _ h := start_lexemesFrom [] text h

end DiceNotation
