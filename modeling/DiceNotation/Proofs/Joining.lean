import DiceNotation.Proofs.Spacing
import DiceNotation.Proofs.Strictness
import DiceNotation.Proofs.StrictGrammar

/-!
Reading one text behind another.

A text that a strict reading accepts is cut into terms up to its last lexeme, and only a digit or
the letter `d` could be added to its last number. Behind such a text any text that begins with
neither is read as it is read alone, but for where it stands.

* `segments_append_of_split`: the terms of the first text are cut off whole;
* `ofSegments_append`: a reading that succeeds goes on with what stands behind;
* `ofSegments_shift`: a text that starts later is read alike, but for the positions;
* `joined_texts_read_in_turn`: all of it for two texts.
-/
namespace DiceNotation
set_option autoImplicit false

/-! ## Lexemes of two texts -/

theorem glyphs_append (position : Nat) (front back : List Char) :
    glyphs position (front ++ back) =
      glyphs position front ++ glyphs (position + front.length) back := by
  induction front generalizing position with
  | nil => rfl
  | cons c front ih =>
    have hlength : position + (c :: front).length = position + 1 + front.length := by
      rw [List.length_cons]
      omega
    rw [List.cons_append, glyphs, glyphs, ih, hlength]
    split
    · rfl
    · rfl

/-- Only a number that comes next can change when a character is put before lexemes. -/
theorem push_append {found : List Lexeme} (h : NotAhead .number found) (glyph : Glyph)
    (front : List Lexeme) :
    Lexeme.push glyph (front ++ found) = Lexeme.push glyph front ++ found := by
  cases front with
  | nil =>
    cases found with
    | nil => rfl
    | cons next more =>
      have hnext := h next rfl
      change Lexeme.push glyph (next :: more) = .ofGlyph glyph :: next :: more
      rw [Lexeme.push, if_neg fun hmerge => hnext hmerge.2]
  | cons next more =>
    rw [List.cons_append, Lexeme.push, Lexeme.push]
    split
    · rfl
    · rfl

theorem lexemesFrom_append {position : Nat} {front back : List Char}
    (h : NotAhead .number (lexemesFrom (position + front.length) back)) :
    lexemesFrom position (front ++ back) =
      lexemesFrom position front ++ lexemesFrom (position + front.length) back := by
  have hglyphs := glyphs_append position front back
  unfold lexemesFrom at h ⊢
  rw [hglyphs, List.foldr_append]
  induction glyphs position front with
  | nil => rfl
  | cons glyph more ih => rw [List.foldr_cons, ih, push_append h, List.foldr_cons]

/-- The first visible character tells the token of the first lexeme. -/
theorem notAhead_lexemesFrom {token : Token} {text : List Char}
    (h : ∀ c ∈ (visible text).head?, Token.ofChar c ≠ token) (position : Nat) :
    NotAhead token (lexemesFrom position text) := by
  intro first hfirst
  obtain ⟨more, hfound⟩ := List.head?_eq_some_iff.mp (Option.mem_def.mp hfirst)
  have hcover := flatMap_text_lexemesFrom position text
  have hmem : first ∈ lexemesFrom position text := by
    rw [hfound]
    exact List.mem_cons_self ..
  have hword := isWord_of_mem_lexemesFrom position text first hmem
  rw [hfound, List.flatMap_cons] at hcover
  by_cases hnumber : first.token = .number
  · obtain ⟨hne, hdigits⟩ := hword.1 hnumber
    obtain ⟨c, cs, hcs⟩ := List.exists_cons_of_ne_nil hne
    rw [hcs, List.cons_append] at hcover
    have hc := h c (by rw [← hcover]; rfl)
    rw [ofChar_of_isDigit (hdigits c (by rw [hcs]; exact List.mem_cons_self ..))] at hc
    rwa [hnumber]
  · obtain ⟨c, hc, htoken⟩ := hword.2 hnumber
    rw [hc, List.singleton_append] at hcover
    rw [← htoken]
    exact h c (by rw [← hcover]; rfl)

/-! ## The same text later -/

/-- The second position is `n` further on. -/
def Later (n p q : Nat) : Prop := q = p + n

theorem lexemesFrom_shift (n position : Nat) (text : List Char) :
    List.Forall₂ (Lexeme.Alike (Later n) Eq) (lexemesFrom position text)
      (lexemesFrom (position + n) text) := by
  induction text generalizing position with
  | nil => exact .nil
  | cons c text ih =>
    have hmore := ih (position + 1)
    rw [Nat.add_right_comm] at hmore
    cases hblank : isBlank c with
    | true => rwa [lexemesFrom_blank hblank, lexemesFrom_blank hblank]
    | false =>
      rw [lexemesFrom_visible hblank, lexemesFrom_visible hblank]
      exact push_alike rfl rfl rfl (fun _ => rfl) hmore

def Diagnostic.shift (n : Nat) (diagnostic : Diagnostic) : Diagnostic :=
  { diagnostic with position := diagnostic.position + n }

theorem Diagnostic.Alike.eq_shift {n : Nat} {a b : Diagnostic} (h : a.Alike (Later n) Eq b) :
    b = a.shift n := by
  obtain ⟨kind, position, text⟩ := a
  obtain ⟨kind', position', text'⟩ := b
  obtain ⟨rfl, rfl, htext, -⟩ := h
  rw [List.forall₂_eq_eq_eq] at htext
  rw [Diagnostic.shift, String.toList_inj.mp htext]

theorem FormulaError.Alike.exists_located {n : Nat} {e f : FormulaError}
    (h : e.Alike (Later n) Eq f) :
    ∃ position inner, e = .located position inner ∧ f = .located (position + n) inner := by
  cases h with
  | @unrecognized position position' text text' hplace htext =>
    rw [List.forall₂_eq_eq_eq] at htext
    rw [hplace, ← String.toList_inj.mp htext]
    exact ⟨position, .unrecognized text, rfl, rfl⟩
  | @badNumber position position' text hplace =>
    rw [hplace]
    exact ⟨position, .badNumber text, rfl, rfl⟩
  | @die position position' fault hplace =>
    rw [hplace]
    exact ⟨position, .die fault, rfl, rfl⟩

theorem diagnostics_eq_shift {n : Nat} {found found' : List Diagnostic}
    (h : List.Forall₂ (Diagnostic.Alike (Later n) Eq) found found') :
    found' = found.map (Diagnostic.shift n) := by
  induction h with
  | nil => rfl
  | cons hfirst _ ih => rw [List.map_cons, hfirst.eq_shift, ih]

/-! ## Segments behind terms -/

theorem segments_append_of_split {front back : List Lexeme}
    {terms : List (TermForm × List Lexeme)} (h : Split front terms)
    (hdice : NotAhead .dice back) :
    segments (front ++ back) = segments front ++ segments back := by
  induction terms generalizing front with
  | nil => rw [split_nil_iff.mp h, segments_nil, List.nil_append, List.nil_append]
  | cons term terms ih =>
    obtain ⟨form, taken⟩ := term
    obtain ⟨rest, rfl, hspelled, hahead, hsplit⟩ := split_cons_iff.mp h
    -- Only behind the last term does `back` come next, where a number could count its dice.
    have hbehind : form.body.isFlat = true → NotAhead .dice (rest ++ back) := by
      intro hflat
      cases rest with
      | nil => exact hdice
      | cons next more => exact hahead hflat
    have htake := takeTerm_append hspelled hahead
    have htake' := takeTerm_append hspelled hbehind
    rw [List.append_assoc, segments_of_takeTerm htake', segments_of_takeTerm htake, ih hsplit,
      List.cons_append]

/-- A reading that succeeds goes on with the segments behind it. -/
theorem ofSegments_append {options : ReadOptions} {front : List Segment} {formula : Formula}
    (h : Formula.ofSegments options front = .ok formula) (back : List Segment) :
    Formula.ofSegments options (front ++ back) =
      (Formula.ofSegments options back).map fun rest => {
        terms := formula.terms ++ rest.terms
        diagnostics := formula.diagnostics ++ rest.diagnostics
        recognized := formula.recognized + rest.recognized
        skipped := formula.skipped + rest.skipped } := by
  induction front generalizing formula with
  | nil =>
    cases h
    cases hback : Formula.ofSegments options back with
    | error error => rw [List.nil_append, hback]; rfl
    | ok rest => rw [List.nil_append, hback]; simp [Except.map]
  | cons segment more ih =>
    obtain ⟨diagnostics, terms, rest, hreport, hterms, hmore, rfl⟩ := ofSegments_cons_eq_ok h
    rw [List.cons_append, ofSegments_cons_ok hreport hterms, ih hmore]
    cases Formula.ofSegments options back with
    | error error => rfl
    | ok last => simp only [Except.map, List.append_assoc, Nat.add_assoc]

/-! ## One text behind another -/

theorem segments_joined {front back : List Char} {terms : List (TermForm × List Lexeme)}
    (hsplit : Split (lexemes front) terms)
    (hback : ∀ c ∈ (visible back).head?, Token.ofChar c ≠ .number ∧ Token.ofChar c ≠ .dice) :
    segments (lexemes (front ++ back)) =
      segments (lexemes front) ++ segments (lexemesFrom front.length back) := by
  have hnumber : NotAhead .number (lexemesFrom (0 + front.length) back) :=
    notAhead_lexemesFrom (fun c hc => (hback c hc).1) _
  have hdice : NotAhead .dice (lexemesFrom front.length back) :=
    notAhead_lexemesFrom (fun c hc => (hback c hc).2) _
  have hlexemes := lexemesFrom_append hnumber
  rw [Nat.zero_add] at hlexemes
  rw [lexemes_eq_lexemesFrom, hlexemes]
  exact segments_append_of_split hsplit hdice

theorem ofChar_ne_dice {c : Char} (hlower : c ≠ 'd') (hupper : c ≠ 'D') :
    Token.ofChar c ≠ .dice := by
  intro hdice
  have hd : c.toLower = 'd' := by
    unfold Token.ofChar at hdice
    split at hdice
    · cases hdice
    · split at hdice
      · assumption
      all_goals cases hdice
  have hcode : c.toLower.toNat = 100 := congrArg Char.toNat hd
  have hne : c.toNat ≠ 100 := fun h => hlower (Char.toNat_inj.mp h)
  have hne' : c.toNat ≠ 68 := fun h => hupper (Char.toNat_inj.mp h)
  rw [toNat_toLower] at hcode
  split at hcode
  · omega
  · omega

/-- What a strict reading accepts is read alike in either mode, and nothing is told of it. -/
theorem ofText_of_strict {text : String} {maxCount : Nat} {formula : Formula}
    (h : Formula.ofText text ⟨true, maxCount⟩ = .ok formula) (strict : Bool) :
    Formula.ofText text ⟨strict, maxCount⟩ = .ok formula ∧ formula.diagnostics = [] := by
  have hagree := agree_ofSegments maxCount (segments (lexemes text.toList))
  obtain ⟨hlenient, hclean⟩ := (hagree.ok_iff formula).mp h
  cases strict with
  | true => exact ⟨h, hclean⟩
  | false => exact ⟨hlenient, hclean⟩

theorem ofSegments_shift (n : Nat) (text : String) (options : ReadOptions) :
    ReadAlike (Later n) Eq (Formula.Alike (Later n) Eq) (Formula.ofText text options)
      (Formula.ofSegments options (segments (lexemesFrom n text.toList))) := by
  have hshift := lexemesFrom_shift n 0 text.toList
  rw [Nat.zero_add] at hshift
  exact ofSegments_alike (fun _ => rfl) options (segments_alike hshift)

/-- Behind a text that a strict reading accepts, a text that does not begin with a digit or the
letter `d` is read as it is read alone, only further on: it fails as it does alone, and if it does
not, its terms follow those of the first text. -/
theorem joined_texts_read_in_turn {a b : String} {maxCount : Nat} {formula : Formula}
    (ha : Formula.ofText a ⟨true, maxCount⟩ = .ok formula)
    (hb : ∀ c ∈ (visible b.toList).head?, c.isDigit = false ∧ c ≠ 'd' ∧ c ≠ 'D')
    (strict : Bool) :
    Formula.ofText a ⟨strict, maxCount⟩ = .ok formula ∧
    (∀ error, Formula.ofText b ⟨strict, maxCount⟩ = .error error →
      ∃ position inner, error = .located position inner ∧
        Formula.ofText (a ++ b) ⟨strict, maxCount⟩ =
          .error (.located (position + a.length) inner)) ∧
    ∀ rest, Formula.ofText b ⟨strict, maxCount⟩ = .ok rest →
      Formula.ofText (a ++ b) ⟨strict, maxCount⟩ = .ok {
        terms := formula.terms ++ rest.terms
        diagnostics := rest.diagnostics.map (Diagnostic.shift a.length)
        recognized := formula.recognized + rest.recognized
        skipped := formula.skipped + rest.skipped } := by
  obtain ⟨hfront, hclean⟩ := ofText_of_strict ha strict
  obtain ⟨terms, hsplit, -⟩ := split_of_ofSegments ha
  have hback : ∀ c ∈ (visible b.toList).head?,
      Token.ofChar c ≠ .number ∧ Token.ofChar c ≠ .dice := by
    intro c hc
    obtain ⟨hdigit, hlower, hupper⟩ := hb c hc
    exact ⟨ofChar_ne_number hdigit, ofChar_ne_dice hlower hupper⟩
  have hjoined : Formula.ofText (a ++ b) ⟨strict, maxCount⟩ =
      Formula.ofSegments ⟨strict, maxCount⟩
        (segments (lexemes a.toList) ++ segments (lexemesFrom a.length b.toList)) := by
    rw [ofText_eq, String.toList_append, segments_joined hsplit hback, String.length_toList]
  rw [hjoined, ofSegments_append hfront, hclean]
  have halike := ofSegments_shift a.length b ⟨strict, maxCount⟩
  generalize Formula.ofSegments ⟨strict, maxCount⟩ (segments (lexemesFrom a.length b.toList)) =
    behind at halike ⊢
  refine ⟨hfront, ?_, ?_⟩
  · intro error herror
    rw [herror] at halike
    cases halike with
    | error hsame =>
      obtain ⟨position, inner, rfl, rfl⟩ := hsame.exists_located
      exact ⟨position, inner, rfl, rfl⟩
  · intro rest hrest
    rw [hrest] at halike
    cases halike with
    | ok hsame =>
      have hdiagnostics := diagnostics_eq_shift hsame.diagnostics
      simp only [Except.map, List.nil_append, ← hsame.terms, hdiagnostics, ← hsame.recognized,
        ← hsame.skipped]

/-- The second text alone has a stretch and a count to report, at 1 and at 3. -/
theorem joined_texts_read_in_turn_tolerated : ∃ formula rest,
    Formula.ofText "2d6 - 1" ⟨true, 10⟩ = .ok formula ∧
    (∀ c ∈ (visible " x 20d4".toList).head?, c.isDigit = false ∧ c ≠ 'd' ∧ c ≠ 'D') ∧
    Formula.ofText " x 20d4" ⟨false, 10⟩ = .ok rest ∧
    rest.diagnostics.map Diagnostic.position = [1, 3] ∧
    Formula.ofText ("2d6 - 1" ++ " x 20d4") ⟨false, 10⟩ = .ok {
      terms := formula.terms ++ rest.terms
      diagnostics := rest.diagnostics.map (Diagnostic.shift "2d6 - 1".length)
      recognized := formula.recognized + rest.recognized
      skipped := formula.skipped + rest.skipped } := by
  have hstrict : (Formula.ofText "2d6 - 1" ⟨true, 10⟩).toOption.isSome = true := by
    decide +kernel
  have hpositions : ((Formula.ofText " x 20d4" ⟨false, 10⟩).map fun rest =>
      rest.diagnostics.map Diagnostic.position).toOption = some [1, 3] := by decide +kernel
  have hhead : (visible " x 20d4".toList).head? = some 'x' := by decide
  have hfront : ∀ c ∈ (visible " x 20d4".toList).head?, c.isDigit = false ∧ c ≠ 'd' ∧ c ≠ 'D' := by
    intro c hc
    obtain rfl := Option.some.inj (hhead.symm.trans hc)
    exact ⟨by decide, by decide, by decide⟩
  cases hfirst : Formula.ofText "2d6 - 1" ⟨true, 10⟩ with
  | error error =>
    rw [hfirst] at hstrict
    cases hstrict
  | ok formula =>
    cases hsecond : Formula.ofText " x 20d4" ⟨false, 10⟩ with
    | error error =>
      rw [hsecond] at hpositions
      cases hpositions
    | ok rest =>
      rw [hsecond] at hpositions
      obtain ⟨-, -, hjoined⟩ := joined_texts_read_in_turn hfirst hfront false
      exact ⟨formula, rest, rfl, hfront, rfl, Option.some.inj hpositions, hjoined rest hsecond⟩

end DiceNotation
