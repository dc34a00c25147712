import DiceNotation.Proofs.Lexing
import DiceNotation.Proofs.Meaning
import Mathlib.Data.Nat.Digits.Defs

/-!
The spans of the lexemes of a text.

The visible characters of a text, with their positions, are cut into runs, and each lexeme is made
of one run and spans it from its first to behind its last position.

* `Lexeme.MadeOf lexeme run`: the lexeme has the characters and the ends of the run;
* `Cut found glyphs`: the lexemes are made of the runs that the characters are cut into, in order;
  `cut_lexemes` says so of the lexemes of a text;
* `InOrder glyphs`: each character stands before those behind it, as in a text;
* `Cut.exists_placed_run`: what is in the span of a lexeme and what is around it;
* `Cut.pairwise_stop_le` and `Cut.exists_spanning`: so spans do not overlap, and each visible
  character is in one of them;
* `Cut.text_eq_span`: a lexeme is written with the visible characters of its span;
* `Numeral.score?`: the score of a number, if it is not above the highest one;
* `lexemes_cover_text`: the lexemes of a text cover it, and each number has the score that its
  digits write, however many they are.
-/
namespace DiceNotation
set_option autoImplicit false

/-! ## Characters and their positions -/

def InOrder (found : List Glyph) : Prop := found.Pairwise fun a b => a.position < b.position

theorem mem_glyphs {position : Nat} {text : List Char} {glyph : Glyph} :
    glyph ∈ glyphs position text ↔
      ∃ i, glyph.position = position + i ∧ text[i]? = some glyph.char ∧
        isBlank glyph.char = false := by
  induction text generalizing position with
  | nil => simp [glyphs]
  | cons c cs ih =>
    -- Either the character is the first one or it is one of the others.
    have hsplit : (∃ i, glyph.position = position + i ∧ (c :: cs)[i]? = some glyph.char ∧
        isBlank glyph.char = false) ↔
          (glyph = ⟨c, position⟩ ∧ isBlank c = false) ∨ glyph ∈ glyphs (position + 1) cs := by
      rw [ih]
      constructor
      · rintro ⟨i, hposition, hchar, hblank⟩
        cases i with
        | zero =>
          obtain ⟨char, place⟩ := glyph
          cases hchar
          cases hposition
          exact .inl ⟨rfl, hblank⟩
        | succ i => exact .inr ⟨i, by omega, hchar, hblank⟩
      · rintro (⟨rfl, hblank⟩ | ⟨i, hposition, hchar, hblank⟩)
        · exact ⟨0, rfl, rfl, hblank⟩
        · exact ⟨i + 1, by omega, hchar, hblank⟩
    rw [hsplit, glyphs]
    by_cases hblank : isBlank c = true <;> simp [hblank]

theorem inOrder_glyphs (position : Nat) (text : List Char) : InOrder (glyphs position text) := by
  induction text generalizing position with
  | nil => exact .nil
  | cons c cs ih =>
    rw [glyphs]
    split
    · exact ih (position + 1)
    · refine .cons (fun glyph hglyph => ?_) (ih (position + 1))
      obtain ⟨i, hposition, -⟩ := mem_glyphs.mp hglyph
      show position < glyph.position
      omega

/-- The visible characters before an offset. -/
theorem map_char_before (offset : Nat) (text : List Char) (position : Nat) :
    ((glyphs position text).filter fun glyph => glyph.position < position + offset).map
      Glyph.char = visible (text.take offset) := by
  induction text generalizing position offset with
  | nil => simp [glyphs, visible]
  | cons c cs ih =>
    cases offset with
    | zero =>
      have hnone : (glyphs position (c :: cs)).filter
          (fun glyph => glyph.position < position + 0) = [] := by
        refine List.filter_eq_nil_iff.mpr fun glyph hglyph => ?_
        obtain ⟨i, hposition, -⟩ := mem_glyphs.mp hglyph
        simp only [decide_eq_true_eq]
        omega
      rw [hnone]
      rfl
    | succ offset =>
      have ih := ih offset (position + 1)
      rw [Nat.add_right_comm] at ih
      rw [List.take_succ_cons, visible, List.filter_cons, ← visible, ← ih, glyphs]
      by_cases hblank : isBlank c = true
      · simp [hblank, Nat.add_assoc]
      · simp [hblank, Nat.add_assoc]

/-! ## Runs -/

/-- The lexeme has the characters of a run and spans it. -/
structure Lexeme.MadeOf (lexeme : Lexeme) (run : List Glyph) : Prop where
  text : lexeme.text = run.map Glyph.char
  start : run.head?.map Glyph.position = some lexeme.start
  stop : run.getLast?.map (fun glyph => glyph.position + 1) = some lexeme.stop

/-- The characters are cut into runs, and each lexeme is made of one of them, in order. -/
inductive Cut : List Lexeme → List Glyph → Prop
  | done : Cut [] []
  | next {lexeme : Lexeme} {run : List Glyph} {found : List Lexeme} {behind : List Glyph}
      (hrun : lexeme.MadeOf run) (hmore : Cut found behind) : Cut (lexeme :: found) (run ++ behind)

theorem Lexeme.madeOf_ofGlyph (glyph : Glyph) : (Lexeme.ofGlyph glyph).MadeOf [glyph] :=
  ⟨rfl, rfl, rfl⟩

theorem Lexeme.MadeOf.ne_nil {lexeme : Lexeme} {run : List Glyph} (h : lexeme.MadeOf run) :
    run ≠ [] := by
  rintro rfl
  cases h.start

/-- A digit joins the run of the number behind it. -/
theorem cut_push {glyph : Glyph} {found : List Lexeme} {glyphs : List Glyph}
    (h : Cut found glyphs) : Cut (Lexeme.push glyph found) (glyph :: glyphs) := by
  have halone : ∀ {found}, Cut found glyphs → Cut (.ofGlyph glyph :: found) (glyph :: glyphs) :=
    fun hmore => .next (Lexeme.madeOf_ofGlyph glyph) hmore
  cases h with
  | done => exact halone .done
  | @next lexeme run found behind hrun hmore =>
    rw [Lexeme.push]
    split
    · obtain ⟨first, others, rfl⟩ := List.exists_cons_of_ne_nil hrun.ne_nil
      have hjoined : Lexeme.MadeOf ⟨.number, glyph.position, lexeme.stop, glyph.char :: lexeme.text⟩
          (glyph :: first :: others) := by
        refine ⟨congrArg (glyph.char :: ·) hrun.text, rfl, ?_⟩
        rw [List.getLast?_cons_cons]
        exact hrun.stop
      exact .next hjoined hmore
    · exact halone (.next hrun hmore)

theorem cut_lexemes (text : List Char) : Cut (lexemes text) (glyphs 0 text) := by
  unfold lexemes
  induction glyphs 0 text with
  | nil => exact .done
  | cons glyph more ih => exact cut_push ih

/-! ## Spans -/

namespace Lexeme.MadeOf
variable {lexeme : Lexeme} {run : List Glyph}

/-- The ends of a span are characters of the run. -/
theorem exists_ends (h : lexeme.MadeOf run) :
    (∃ glyph ∈ run, lexeme.start = glyph.position) ∧
      ∃ glyph ∈ run, lexeme.stop = glyph.position + 1 := by
  obtain ⟨first, hfirst, hstart⟩ := Option.map_eq_some_iff.mp h.start
  obtain ⟨last, hlast, hstop⟩ := Option.map_eq_some_iff.mp h.stop
  exact ⟨⟨first, List.mem_of_mem_head? hfirst, hstart.symm⟩,
    ⟨last, List.mem_of_getLast? hlast, hstop.symm⟩⟩

theorem mem_span (h : lexeme.MadeOf run) (horder : InOrder run) {glyph : Glyph}
    (hglyph : glyph ∈ run) : lexeme.start ≤ glyph.position ∧ glyph.position < lexeme.stop := by
  constructor
  · obtain ⟨first, others, rfl⟩ := List.exists_cons_of_ne_nil h.ne_nil
    have hstart : first.position = lexeme.start := Option.some.inj h.start
    rcases List.mem_cons.mp hglyph with rfl | hother
    · exact Nat.le_of_eq hstart.symm
    · have hlt := List.rel_of_pairwise_cons horder hother
      omega
  · obtain hnil | ⟨others, last, rfl⟩ := List.eq_nil_or_concat run
    · exact absurd hnil h.ne_nil
    · rw [List.concat_eq_append] at *
      have hstop := h.stop
      rw [List.getLast?_concat, Option.map_some, Option.some.injEq] at hstop
      rcases List.mem_append.mp hglyph with hother | hlast
      · have hlt := (List.pairwise_append.mp horder).2.2 glyph hother last List.mem_cons_self
        omega
      · cases List.mem_singleton.mp hlast
        omega

end Lexeme.MadeOf

namespace Cut
variable {found : List Lexeme} {glyphs : List Glyph}

/-- A lexeme has a run of its own: the characters before it and those behind it are of others. -/
theorem exists_run (h : Cut found glyphs) {lexeme : Lexeme} (hlexeme : lexeme ∈ found) :
    ∃ front run behind, glyphs = front ++ (run ++ behind) ∧ lexeme.MadeOf run := by
  induction h with
  | done => cases hlexeme
  | @next first run _ behind hrun _ ih =>
    rcases List.mem_cons.mp hlexeme with rfl | hmore
    · exact ⟨[], run, behind, rfl, hrun⟩
    · obtain ⟨front, other, rear, rfl, hother⟩ := ih hmore
      exact ⟨run ++ front, other, rear, (List.append_assoc ..).symm, hother⟩

/-- The run of a lexeme lies in its span, and all other characters lie before or behind it. -/
theorem exists_placed_run (h : Cut found glyphs) (horder : InOrder glyphs) {lexeme : Lexeme}
    (hlexeme : lexeme ∈ found) :
    ∃ front run behind, glyphs = front ++ (run ++ behind) ∧ lexeme.MadeOf run ∧
      (∀ glyph ∈ front, glyph.position < lexeme.start) ∧
      (∀ glyph ∈ run, lexeme.start ≤ glyph.position ∧ glyph.position < lexeme.stop) ∧
      ∀ glyph ∈ behind, lexeme.stop ≤ glyph.position := by
  obtain ⟨front, run, behind, rfl, hrun⟩ := h.exists_run hlexeme
  obtain ⟨-, horder, hfront⟩ := List.pairwise_append.mp horder
  obtain ⟨hin, -, hbehind⟩ := List.pairwise_append.mp horder
  obtain ⟨⟨first, hfirst, hstart⟩, last, hlast, hstop⟩ := hrun.exists_ends
  refine ⟨front, run, behind, rfl, hrun, ?_, fun glyph hglyph => hrun.mem_span hin hglyph, ?_⟩
  · intro glyph hglyph
    rw [hstart]
    exact hfront glyph hglyph first (List.mem_append_left behind hfirst)
  · intro glyph hglyph
    rw [hstop]
    exact hbehind last hlast glyph hglyph

theorem start_lt_stop (h : Cut found glyphs) (horder : InOrder glyphs) {lexeme : Lexeme}
    (hlexeme : lexeme ∈ found) : lexeme.start < lexeme.stop := by
  obtain ⟨_, run, _, -, hrun, -, hin, -⟩ := h.exists_placed_run horder hlexeme
  obtain ⟨⟨first, hfirst, -⟩, -⟩ := hrun.exists_ends
  have hspan := hin first hfirst
  omega

theorem pairwise_stop_le (h : Cut found glyphs) (horder : InOrder glyphs) :
    found.Pairwise fun a b => a.stop ≤ b.start := by
  induction h with
  | done => exact .nil
  | @next first run found behind hrun hmore ih =>
    obtain ⟨-, hbehind, hapart⟩ := List.pairwise_append.mp horder
    refine .cons (fun later hlater => ?_) (ih hbehind)
    obtain ⟨front, other, rear, rfl, hother⟩ := hmore.exists_run hlater
    obtain ⟨-, last, hlast, hstop⟩ := hrun.exists_ends
    obtain ⟨⟨first, hfirst, hstart⟩, -⟩ := hother.exists_ends
    have hmem : first ∈ front ++ (other ++ rear) :=
      List.mem_append_right front (List.mem_append_left rear hfirst)
    have hlt := hapart last hlast first hmem
    omega

theorem exists_spanning (h : Cut found glyphs) (horder : InOrder glyphs) {glyph : Glyph}
    (hglyph : glyph ∈ glyphs) :
    ∃ lexeme ∈ found, lexeme.start ≤ glyph.position ∧ glyph.position < lexeme.stop := by
  induction h with
  | done => cases hglyph
  | @next first run found behind hrun _ ih =>
    obtain ⟨hin, hbehind, -⟩ := List.pairwise_append.mp horder
    rcases List.mem_append.mp hglyph with hfirst | hlater
    · exact ⟨first, List.mem_cons_self, hrun.mem_span hin hfirst⟩
    · obtain ⟨lexeme, hlexeme, hspan⟩ := ih hbehind hlater
      exact ⟨lexeme, List.mem_cons_of_mem first hlexeme, hspan⟩

end Cut

/-- The characters of a text that a lexeme spans, blanks included. -/
def Lexeme.span (text : List Char) (lexeme : Lexeme) : List Char :=
  (text.take lexeme.stop).drop lexeme.start

theorem visible_take_append_slice (text : List Char) {start stop : Nat} (h : start ≤ stop) :
    visible (text.take start) ++ visible ((text.take stop).drop start) =
      visible (text.take stop) := by
  have htake : (text.take stop).take start = text.take start := by
    rw [List.take_take, Nat.min_eq_left h]
  rw [← visible_append, ← htake, List.take_append_drop]

/-- The characters before an offset are those of the front where the others are not before it. -/
theorem filter_before {front behind : List Glyph} {offset : Nat}
    (hfront : ∀ glyph ∈ front, glyph.position < offset)
    (hbehind : ∀ glyph ∈ behind, offset ≤ glyph.position) :
    (front ++ behind).filter (fun glyph => glyph.position < offset) = front := by
  have hall : front.filter (fun glyph => glyph.position < offset) = front :=
    List.filter_eq_self.mpr fun glyph hglyph => decide_eq_true (hfront glyph hglyph)
  have hnone : behind.filter (fun glyph => glyph.position < offset) = [] :=
    List.filter_eq_nil_iff.mpr fun glyph hglyph => by simpa using hbehind glyph hglyph
  rw [List.filter_append, hall, hnone, List.append_nil]

theorem Cut.text_eq_span {found : List Lexeme} {text : List Char} (h : Cut found (glyphs 0 text))
    {lexeme : Lexeme} (hlexeme : lexeme ∈ found) :
    lexeme.text = visible (lexeme.span text) := by
  have horder := inOrder_glyphs 0 text
  have hle := Nat.le_of_lt (h.start_lt_stop horder hlexeme)
  obtain ⟨front, run, behind, hglyphs, hrun, hfront, hin, hbehind⟩ :=
    h.exists_placed_run horder hlexeme
  -- The front stands before the span, and the front with the run before the end of it.
  have hbefore : visible (text.take lexeme.start) = front.map Glyph.char := by
    have hothers : ∀ glyph ∈ run ++ behind, lexeme.start ≤ glyph.position :=
      List.forall_mem_append.mpr ⟨fun glyph hglyph => (hin glyph hglyph).1,
        fun glyph hglyph => Nat.le_trans hle (hbehind glyph hglyph)⟩
    rw [← map_char_before _ text 0, hglyphs, Nat.zero_add, filter_before hfront hothers]
  have hthrough : visible (text.take lexeme.stop) = (front ++ run).map Glyph.char := by
    have hthese : ∀ glyph ∈ front ++ run, glyph.position < lexeme.stop :=
      List.forall_mem_append.mpr ⟨fun glyph hglyph => Nat.lt_of_lt_of_le (hfront glyph hglyph) hle,
        fun glyph hglyph => (hin glyph hglyph).2⟩
    rw [← map_char_before _ text 0, hglyphs, Nat.zero_add, ← List.append_assoc,
      filter_before hthese hbehind]
  have hcat := visible_take_append_slice text hle
  rw [hbefore, hthrough, List.map_append] at hcat
  rw [hrun.text]
  exact (List.append_cancel_left hcat).symm

/-- Spans that do not overlap share no position. -/
theorem eq_of_spanning {found : List Lexeme} (h : found.Pairwise fun a b => a.stop ≤ b.start)
    {i j p : Nat} {a b : Lexeme} (ha : found[i]? = some a) (hb : found[j]? = some b)
    (hpa : a.start ≤ p ∧ p < a.stop) (hpb : b.start ≤ p ∧ p < b.stop) : i = j := by
  obtain ⟨hi, rfl⟩ := List.getElem?_eq_some_iff.mp ha
  obtain ⟨hj, rfl⟩ := List.getElem?_eq_some_iff.mp hb
  have hapart := List.pairwise_iff_getElem.mp h
  rcases Nat.lt_trichotomy i j with hlt | heq | hgt
  · have hle := hapart i j hi hj hlt
    omega
  · exact heq
  · have hle := hapart j i hj hi hgt
    omega

/-! ## Numbers -/

/-- What digits say in positional notation. -/
def positional (digits : List Char) : Nat :=
  Nat.ofDigits 10 (digits.reverse.map fun c => c.toNat - 48)

theorem Decimal.value_eq_positional (digits : List Char) :
    Decimal.value digits = positional digits := by
  rw [positional, Nat.ofDigits_eq_foldr, List.foldr_map, List.foldr_reverse, Decimal.value,
    Nat.ofDigitChars]
  refine congrArg (fun step => digits.foldl step 0) ?_
  funext value c
  exact Nat.add_comm ..

/-- The score of a number, if it is not above the highest one. -/
def Numeral.score? (number : Numeral) : Option Score :=
  if number.fits then some number.score else none

theorem Numeral.score_eq_getD (number : Numeral) :
    number.score = number.score?.getD .highest ∧
      (number.saturation = [] ↔ number.score?.isSome) := by
  by_cases hfits : number.fits = true
  · simp [Numeral.score?, Numeral.saturation, hfits]
  · have hscore : number.score = .highest := by
      have hvalue : 2147483647 < number.value := by simpa [Numeral.fits] using hfits
      refine Score.ext ?_
      rw [Numeral.toInt_score, Nat.min_eq_right (Nat.le_of_lt hvalue)]
      rfl
    simp [Numeral.score?, Numeral.saturation, hfits, hscore]

theorem Numeral.map_toInt_score? (number : Numeral) :
    number.score?.map Score.toInt =
      if number.value ≤ 2147483647 then some (number.value : Int) else none := by
  by_cases hle : number.value ≤ 2147483647
  · rw [if_pos hle, Numeral.score?, if_pos (by simpa [Numeral.fits] using hle), Option.map_some,
      Numeral.toInt_score, Nat.min_eq_left hle]
  · rw [if_neg hle, Numeral.score?, if_neg (by simpa [Numeral.fits] using hle), Option.map_none]

/-! ## The cover -/

/-- Lexemes cover a text: their spans have visible ends, do not overlap and leave out blanks only,
and their words are maximal. -/
structure Covers (text : List Char) (found : List Lexeme) : Prop where
  inside : ∀ lexeme ∈ found, lexeme.start < lexeme.stop ∧ lexeme.stop ≤ text.length
  /-- The token of a lexeme is that of its first character, so none stands for the end. -/
  first : ∀ lexeme ∈ found, ∃ c, text[lexeme.start]? = some c ∧ isBlank c = false ∧
    lexeme.token = .ofChar c
  last : ∀ lexeme ∈ found, ∃ c, text[lexeme.stop - 1]? = some c ∧ isBlank c = false
  ordered : found.Pairwise fun a b => a.stop ≤ b.start
  unique : ∀ i c, text[i]? = some c → isBlank c = false →
    ∃! k : Nat, ∃ lexeme : Lexeme, found[k]? = some lexeme ∧ lexeme.start ≤ i ∧ i < lexeme.stop
  written : ∀ lexeme ∈ found, lexeme.text = visible (lexeme.span text)
  /-- The width of a lexeme is the number of characters that it is written with. -/
  width : ∀ lexeme ∈ found,
    lexeme.text.length = (lexeme.span text).countP fun c => !isBlank c
  /-- A lexeme is a run of digits or one other character. -/
  words : ∀ lexeme ∈ found, lexeme.IsWord
  maximal : ∀ k a b, found[k]? = some a → found[k + 1]? = some b →
    ¬(a.token = .number ∧ b.token = .number)
  /-- A number is taken with the score that its digits write, or with none if that is too high. Then
  it means the highest score, and that is reported. -/
  numbers : ∀ lexeme ∈ found, lexeme.token = .number → ∀ more, ∃ number,
    takeNumeral (lexeme :: more) = some (number, more) ∧
      (number.score?.map Score.toInt =
        if positional (visible (lexeme.span text)) ≤ 2147483647 then
          some (positional (visible (lexeme.span text)) : Int)
        else none) ∧
      number.score = number.score?.getD .highest ∧
      (number.saturation = [] ↔ number.score?.isSome)

theorem Lexeme.IsWord.exists_head {lexeme : Lexeme} (h : lexeme.IsWord) :
    ∃ c, lexeme.text.head? = some c ∧ lexeme.token = .ofChar c := by
  by_cases hnumber : lexeme.token = .number
  · obtain ⟨hne, hdigits⟩ := h.1 hnumber
    obtain ⟨c, cs, htext⟩ := List.exists_cons_of_ne_nil hne
    rw [htext] at hdigits ⊢
    exact ⟨c, rfl, hnumber.trans (ofChar_of_isDigit (hdigits c List.mem_cons_self)).symm⟩
  · obtain ⟨c, htext, htoken⟩ := h.2 hnumber
    rw [htext]
    exact ⟨c, rfl, htoken.symm⟩

/-- The ends of a span are visible characters of the text, and may be the same one. -/
theorem exists_visible_ends {text : List Char} {lexeme : Lexeme} (h : lexeme ∈ lexemes text) :
    (∃ c, text[lexeme.start]? = some c ∧ isBlank c = false) ∧
      ∃ c, text[lexeme.stop - 1]? = some c ∧ isBlank c = false := by
  obtain ⟨front, run, behind, hglyphs, hrun⟩ := (cut_lexemes text).exists_run h
  have hvisible : ∀ glyph ∈ run, text[glyph.position]? = some glyph.char ∧
      isBlank glyph.char = false := by
    intro glyph hglyph
    have hmem : glyph ∈ glyphs 0 text := by
      rw [hglyphs]
      exact List.mem_append_right front (List.mem_append_left behind hglyph)
    obtain ⟨i, hposition, hchar, hblank⟩ := mem_glyphs.mp hmem
    rw [Nat.zero_add] at hposition
    exact ⟨hposition ▸ hchar, hblank⟩
  obtain ⟨⟨first, hfirst, hstart⟩, last, hlast, hstop⟩ := hrun.exists_ends
  refine ⟨⟨first.char, hstart ▸ hvisible first hfirst⟩, last.char, ?_⟩
  rw [hstop, Nat.add_sub_cancel]
  exact hvisible last hlast

theorem existsUnique_spanning {text : List Char} {i : Nat} {c : Char} (hc : text[i]? = some c)
    (hblank : isBlank c = false) :
    ∃! k : Nat, ∃ lexeme : Lexeme, (lexemes text)[k]? = some lexeme ∧ lexeme.start ≤ i ∧
      i < lexeme.stop := by
  have hcut := cut_lexemes text
  have horder := inOrder_glyphs 0 text
  have hmem : ⟨c, i⟩ ∈ glyphs 0 text := mem_glyphs.mpr ⟨i, (Nat.zero_add i).symm, hc, hblank⟩
  obtain ⟨lexeme, hlexeme, hspan⟩ := hcut.exists_spanning horder hmem
  obtain ⟨k, hk⟩ := List.mem_iff_getElem?.mp hlexeme
  refine ⟨k, ⟨lexeme, hk, hspan⟩, ?_⟩
  rintro j ⟨other, hj, hother⟩
  exact eq_of_spanning (hcut.pairwise_stop_le horder) hj hk hother hspan

theorem takeNumeral_number {lexeme : Lexeme} (h : lexeme.token = .number) (more : List Lexeme) :
    takeNumeral (lexeme :: more) = some (⟨lexeme.start, lexeme.text⟩, more) := by
  rw [takeNumeral, if_pos h]

theorem lexemes_cover_text (text : List Char) : Covers text (lexemes text) where
  inside lexeme hlexeme := by
    have hlt := (cut_lexemes text).start_lt_stop (inOrder_glyphs 0 text) hlexeme
    obtain ⟨-, c, hc, -⟩ := exists_visible_ends hlexeme
    obtain ⟨hlast, -⟩ := List.getElem?_eq_some_iff.mp hc
    exact ⟨hlt, by omega⟩
  first lexeme hlexeme := by
    obtain ⟨⟨c, hc, hblank⟩, -⟩ := exists_visible_ends hlexeme
    obtain ⟨before, after, hsplit⟩ := List.append_of_mem hlexeme
    obtain ⟨-, hstart⟩ := (tokenizes_lexemes text).starts before lexeme after hsplit
    obtain ⟨d, hd, htoken⟩ := ((tokenizes_lexemes text).words lexeme hlexeme).exists_head
    rw [hc, hd, Option.some.injEq] at hstart
    exact ⟨c, hc, hblank, hstart ▸ htoken⟩
  last _ hlexeme := (exists_visible_ends hlexeme).2
  ordered := (cut_lexemes text).pairwise_stop_le (inOrder_glyphs 0 text)
  unique _ _ hc hblank := existsUnique_spanning hc hblank
  written _ hlexeme := (cut_lexemes text).text_eq_span hlexeme
  width lexeme hlexeme := by
    rw [(cut_lexemes text).text_eq_span hlexeme, visible, List.countP_eq_length_filter]
  words := (tokenizes_lexemes text).words
  maximal k a b ha hb hnumbers := by
    obtain ⟨hk, rfl⟩ := List.getElem?_eq_some_iff.mp ha
    obtain ⟨hk', rfl⟩ := List.getElem?_eq_some_iff.mp hb
    exact (tokenizes_lexemes text).maximal.getElem k hk' hnumbers.1 hnumbers.2
  numbers lexeme hlexeme hnumber more := by
    refine ⟨⟨lexeme.start, lexeme.text⟩, takeNumeral_number hnumber more, ?_,
      Numeral.score_eq_getD _⟩
    rw [Numeral.map_toInt_score?, Numeral.value, Decimal.value_eq_positional,
      (cut_lexemes text).text_eq_span hlexeme]

example : (lexemes " 1 0 D".toList).map (fun lexeme => (lexeme.start, lexeme.stop)) =
    [(1, 4), (5, 6)] := by decide

end DiceNotation
