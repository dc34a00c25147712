import DiceNotation.Blank

/-!
Lexemes: the words of a formula.

Blanks count for nothing, not even inside a number, and neither does the case of a letter. A run of
digits is one lexeme, however long, and every other visible character is a lexeme by itself. Each
lexeme keeps its own visible characters as they were written, and where they stand in the text.
-/
namespace DiceNotation
set_option autoImplicit false

inductive Token where
  | number
  | dice
  | fudge
  | plus
  | minus
  | leftBracket
  | rightBracket
  | comma
  | colon
  | unknown
deriving DecidableEq

def Token.ofChar (c : Char) : Token :=
  if c.isDigit then .number else
    match c.toLower with
    | 'd' => .dice
    | 'f' => .fudge
    | '+' => .plus
    | '-' => .minus
    | '[' => .leftBracket
    | ']' => .rightBracket
    | ',' => .comma
    | ':' => .colon
    | _ => .unknown

structure Glyph where
  char : Char
  position : Nat
deriving DecidableEq

structure Lexeme where
  token : Token
  /-- The offset of the first character. -/
  start : Nat
  /-- The offset after the last character. -/
  stop : Nat
  text : List Char
deriving DecidableEq

/-! ## From characters to lexemes -/

/-- The visible characters of a text that starts at an offset. -/
def glyphs (position : Nat) : List Char → List Glyph
  | [] => []
  | c :: cs =>
    if isBlank c then glyphs (position + 1) cs else ⟨c, position⟩ :: glyphs (position + 1) cs

namespace Lexeme

def ofGlyph (glyph : Glyph) : Lexeme :=
  ⟨.ofChar glyph.char, glyph.position, glyph.position + 1, [glyph.char]⟩

/-- Puts a character before lexemes: a digit before a number becomes its leading digit. -/
def push (glyph : Glyph) : List Lexeme → List Lexeme
  | [] => [ofGlyph glyph]
  | next :: more =>
    if Token.ofChar glyph.char = .number ∧ next.token = .number then
      ⟨.number, glyph.position, next.stop, glyph.char :: next.text⟩ :: more
    else
      ofGlyph glyph :: next :: more

end Lexeme

def lexemes (text : List Char) : List Lexeme := (glyphs 0 text).foldr Lexeme.push []

theorem map_char_glyphs (position : Nat) (text : List Char) :
    (glyphs position text).map Glyph.char = visible text := by
  induction text generalizing position with
  | nil => rfl
  | cons c cs ih =>
    simp only [visible] at ih ⊢
    by_cases h : isBlank c = true <;> simp [glyphs, h, ih]

end DiceNotation
