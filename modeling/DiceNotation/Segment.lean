import DiceNotation.Form

/-!
Segments: a formula cut from left to right into terms and the stretches between them.

Where a term stands, the longest one is taken; where none does, one lexeme is skipped. Skipped
lexemes next to each other form one segment, so between two skipped segments there is a term.
-/
namespace DiceNotation
set_option autoImplicit false

inductive Segment where
  | term (form : TermForm)
  | skipped (first : Lexeme) (more : List Lexeme)
deriving DecidableEq

namespace Segment

/-- Puts a skipped lexeme before segments. -/
def skip (lexeme : Lexeme) : List Segment → List Segment
  | .skipped first more :: segments => .skipped lexeme (first :: more) :: segments
  | segments => .skipped lexeme [] :: segments

def recognized : Segment → Nat
  | .term form => form.width
  | .skipped _ _ => 0

def skippedWidth : Segment → Nat
  | .term _ => 0
  | .skipped first more => ((first :: more).flatMap Lexeme.text).length

end Segment

def segments : List Lexeme → List Segment
  | [] => []
  | lexeme :: more =>
    match _h : takeTerm (lexeme :: more) with
    | some (form, rest) => .term form :: segments rest
    | none => Segment.skip lexeme (segments more)
termination_by lexemes => lexemes.length
decreasing_by
  · exact length_takeTerm _h
  · simp

end DiceNotation
