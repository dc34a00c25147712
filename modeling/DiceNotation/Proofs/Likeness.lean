import DiceNotation.Proofs.Meaning
import DiceNotation.Proofs.Reading
import Mathlib.Data.List.Forall2

/-!
Reading does not depend on where lexemes stand and how they are written, but for what it reports.

Lexemes are alike under a relation `P` between positions and a relation `C` between characters if
they are of one token, `P` relates their starts, `C` relates their characters, and numbers have the
same digits. Alike lexemes are read alike at every stage:

* `takeTerm_alike`: the same form is taken, up to the positions in it;
* `segments_alike`: so the lexemes are cut alike;
* `ofSegments_alike`: so the readings have the same terms and alike diagnostics, or alike errors.
-/
namespace DiceNotation
set_option autoImplicit false

/-! ## Alike lexemes and forms -/

structure Lexeme.Alike (P : Nat → Nat → Prop) (C : Char → Char → Prop) (a b : Lexeme) : Prop where
  token : a.token = b.token
  start : P a.start b.start
  text : List.Forall₂ C a.text b.text
  digits : a.token = .number → a.text = b.text

structure Numeral.Alike (P : Nat → Nat → Prop) (a b : Numeral) : Prop where
  start : P a.start b.start
  text : a.text = b.text

structure EntryForm.Alike (P : Nat → Nat → Prop) (a b : EntryForm) : Prop where
  sign : a.sign = b.sign
  value : a.value.Alike P b.value
  weight : Option.Rel (Numeral.Alike P) a.weight b.weight

inductive FacesForm.Alike (P : Nat → Nat → Prop) : FacesForm → FacesForm → Prop
  | count {a b : Numeral} (h : a.Alike P b) : Alike P (.count a) (.count b)
  | fudge : Alike P .fudge .fudge
  | list {entries entries' : List EntryForm}
      (h : List.Forall₂ (EntryForm.Alike P) entries entries') :
      Alike P (.list entries) (.list entries')

inductive BodyForm.Alike (P : Nat → Nat → Prop) : BodyForm → BodyForm → Prop
  | flat {a b : Numeral} (h : a.Alike P b) : Alike P (.flat a) (.flat b)
  | dice {count count' : Option Numeral} {faces faces' : FacesForm}
      (hcount : Option.Rel (Numeral.Alike P) count count') (hfaces : faces.Alike P faces') :
      Alike P (.dice count faces) (.dice count' faces')

structure TermForm.Alike (P : Nat → Nat → Prop) (a b : TermForm) : Prop where
  start : P a.start b.start
  sign : a.sign = b.sign
  body : a.body.Alike P b.body

inductive Segment.Alike (P : Nat → Nat → Prop) (C : Char → Char → Prop) : Segment → Segment → Prop
  | term {form form' : TermForm} (h : form.Alike P form') : Alike P C (.term form) (.term form')
  | skipped {first first' : Lexeme} {more more' : List Lexeme} (hfirst : first.Alike P C first')
      (hmore : List.Forall₂ (Lexeme.Alike P C) more more') :
      Alike P C (.skipped first more) (.skipped first' more')

theorem push_alike {P : Nat → Nat → Prop} {C : Char → Char → Prop} {glyph glyph' : Glyph}
    {found found' : List Lexeme} (hposition : P glyph.position glyph'.position)
    (hchar : C glyph.char glyph'.char)
    (htoken : Token.ofChar glyph.char = Token.ofChar glyph'.char)
    (hdigit : Token.ofChar glyph.char = .number → glyph.char = glyph'.char)
    (hfound : List.Forall₂ (Lexeme.Alike P C) found found') :
    List.Forall₂ (Lexeme.Alike P C) (Lexeme.push glyph found) (Lexeme.push glyph' found') := by
  have hsingle : (Lexeme.ofGlyph glyph).Alike P C (.ofGlyph glyph') :=
    ⟨htoken, hposition, .cons hchar .nil, fun hnumber => congrArg List.singleton (hdigit hnumber)⟩
  cases hfound with
  | nil => exact .cons hsingle .nil
  | cons hnext hmore =>
    rw [Lexeme.push, Lexeme.push, ← htoken, ← hnext.token]
    split
    · next hmerge =>
      exact .cons ⟨rfl, hposition, .cons hchar hnext.text,
        fun _ => congrArg₂ List.cons (hdigit hmerge.1) (hnext.digits hmerge.2)⟩ hmore
    · exact .cons hsingle (.cons hnext hmore)

/-! ## Taking a term -/

/-- What two readers found is related by `A`, and what follows it is alike. -/
def TakenAlike {α : Type} (P : Nat → Nat → Prop) (C : Char → Char → Prop) (A : α → α → Prop)
    (a b : Option (α × List Lexeme)) : Prop :=
  Option.Rel (fun x y => A x.1 y.1 ∧ List.Forall₂ (Lexeme.Alike P C) x.2 y.2) a b

section Taking
variable {P : Nat → Nat → Prop} {C : Char → Char → Prop}

theorem TakenAlike.eq_none {α : Type} {A : α → α → Prop} {b : Option (α × List Lexeme)}
    (h : TakenAlike P C A none b) : b = none := by
  cases h
  rfl

theorem TakenAlike.eq_some {α : Type} {A : α → α → Prop} {a : α × List Lexeme}
    {b : Option (α × List Lexeme)} (h : TakenAlike P C A (some a) b) :
    ∃ b', b = some b' ∧ A a.1 b'.1 ∧ List.Forall₂ (Lexeme.Alike P C) a.2 b'.2 := by
  cases h with
  | some h => exact ⟨_, rfl, h⟩

theorem TakenAlike.eq_some_cons {α : Type} {A : α → α → Prop} {a : α} {mark : Lexeme}
    {more : List Lexeme} {b : Option (α × List Lexeme)}
    (h : TakenAlike P C A (some (a, mark :: more)) b) :
    ∃ a' mark' more', b = some (a', mark' :: more') ∧ A a a' ∧ mark.Alike P C mark' ∧
      List.Forall₂ (Lexeme.Alike P C) more more' := by
  obtain ⟨⟨a', rest'⟩, rfl, ha, hrest⟩ := h.eq_some
  obtain ⟨mark', more', hmark, hmore, rfl⟩ := List.forall₂_cons_left_iff.mp hrest
  exact ⟨a', mark', more', rfl, ha, hmark, hmore⟩

theorem TakenAlike.map {α β : Type} {A : α → α → Prop} {B : β → β → Prop} {f g : α → β}
    {a b : Option (α × List Lexeme)} (h : TakenAlike P C A a b)
    (hfg : ∀ x y, A x y → B (f x) (g y)) :
    TakenAlike P C B (a.map fun (x, rest) => (f x, rest)) (b.map fun (x, rest) => (g x, rest)) := by
  cases h with
  | none => exact .none
  | some h => exact .some ⟨hfg _ _ h.1, h.2⟩

variable {lexemes lexemes' : List Lexeme} (h : List.Forall₂ (Lexeme.Alike P C) lexemes lexemes')
include h

theorem takeSign_alike : (takeSign lexemes).1 = (takeSign lexemes').1 ∧
    List.Forall₂ (Lexeme.Alike P C) (takeSign lexemes).2 (takeSign lexemes').2 := by
  cases h with
  | nil => exact ⟨rfl, .nil⟩
  | cons hfirst hmore =>
    rw [takeSign, takeSign, ← hfirst.token]
    split
    · exact ⟨rfl, hmore⟩
    · exact ⟨rfl, hmore⟩
    · exact ⟨rfl, .cons hfirst hmore⟩

theorem takeToken_alike (token : Token) :
    Option.Rel (List.Forall₂ (Lexeme.Alike P C)) (takeToken token lexemes)
      (takeToken token lexemes') := by
  cases h with
  | nil => exact .none
  | cons hfirst hmore =>
    rw [takeToken, takeToken, ← hfirst.token]
    split
    · exact .some hmore
    · exact .none

theorem takeNumeral_alike :
    TakenAlike P C (Numeral.Alike P) (takeNumeral lexemes) (takeNumeral lexemes') := by
  cases h with
  | nil => exact .none
  | cons hfirst hmore =>
    rw [takeNumeral, takeNumeral, ← hfirst.token]
    split
    · next hnumber => exact .some ⟨⟨hfirst.start, hfirst.digits hnumber⟩, hmore⟩
    · exact .none

theorem takeEntry_alike :
    TakenAlike P C (EntryForm.Alike P) (takeEntry lexemes) (takeEntry lexemes') := by
  obtain ⟨hsign, hafter⟩ := takeSign_alike h
  have hvalue := takeNumeral_alike hafter
  -- What each step finds is generalized on both sides, so that one case split settles both.
  simp only [takeEntry, hsign]
  generalize takeNumeral (takeSign lexemes).2 = found at hvalue
  generalize takeNumeral (takeSign lexemes').2 = found' at hvalue
  cases hvalue with
  | none => exact .none
  | @some value value' hvalue =>
    have hcolon := takeToken_alike hvalue.2 .colon
    simp only
    generalize takeToken .colon value.2 = found at hcolon
    generalize takeToken .colon value'.2 = found' at hcolon
    cases hcolon with
    | none => exact .some ⟨⟨rfl, hvalue.1, .none⟩, hvalue.2⟩
    | @some rest rest' hcolon =>
      have hweight := takeNumeral_alike hcolon
      simp only
      generalize takeNumeral rest = found at hweight
      generalize takeNumeral rest' = found' at hweight
      cases hweight with
      | none => exact .none
      | some hweight => exact .some ⟨⟨rfl, hvalue.1, .some hweight.1⟩, hweight.2⟩

theorem takeEntries_alike :
    TakenAlike P C (List.Forall₂ (EntryForm.Alike P)) (takeEntries lexemes)
      (takeEntries lexemes') := by
  have hentry := takeEntry_alike h
  -- The tokens of the first lexemes choose the case, and those of the second are the same.
  fun_induction takeEntries lexemes generalizing lexemes' with
  | case1 lexemes hnone =>
    rw [hnone] at hentry
    rw [takeEntries, hentry.eq_none]
    exact .none
  | case2 lexemes entry hend =>
    rw [hend] at hentry
    obtain ⟨⟨entry', rest'⟩, hentry', -, hrest⟩ := hentry.eq_some
    cases hrest
    rw [takeEntries, hentry']
    exact .none
  | case3 lexemes entry comma more htake hcomma ih =>
    rw [htake] at hentry
    obtain ⟨entry', comma', more', hentry', halike, hmark, hmore⟩ := hentry.eq_some_cons
    rw [takeEntries.eq_def lexemes', hentry']
    simp only [← hmark.token, hcomma]
    exact (ih hmore (takeEntry_alike hmore)).map fun _ _ hentries => .cons halike hentries
  | case4 lexemes entry right more htake hright =>
    rw [htake] at hentry
    obtain ⟨entry', right', more', hentry', halike, hmark, hmore⟩ := hentry.eq_some_cons
    rw [takeEntries, hentry']
    simp only [← hmark.token, hright]
    exact .some ⟨.cons halike .nil, hmore⟩
  | case5 lexemes entry mark more htake hcomma hright =>
    rw [htake] at hentry
    obtain ⟨entry', mark', more', hentry', halike, hmark, hmore⟩ := hentry.eq_some_cons
    rw [takeEntries, hentry']
    simp only [← hmark.token]
    exact .none

theorem takeList_alike :
    TakenAlike P C (List.Forall₂ (EntryForm.Alike P)) (takeList lexemes) (takeList lexemes') := by
  have hright := takeToken_alike h .rightBracket
  unfold takeList
  generalize takeToken .rightBracket lexemes = found at hright
  generalize takeToken .rightBracket lexemes' = found' at hright
  cases hright with
  | none => exact takeEntries_alike h
  | some hrest => exact .some ⟨.nil, hrest⟩

theorem takeFaces_alike :
    TakenAlike P C (FacesForm.Alike P) (takeFaces lexemes) (takeFaces lexemes') := by
  cases h with
  | nil => exact .none
  | cons hfirst hmore =>
    rw [takeFaces, takeFaces, ← hfirst.token]
    split
    · next hnumber => exact .some ⟨.count ⟨hfirst.start, hfirst.digits hnumber⟩, hmore⟩
    · exact .some ⟨.fudge, hmore⟩
    · exact (takeList_alike hmore).map fun _ _ => .list
    · exact .none

theorem takeCount_alike :
    Option.Rel (Numeral.Alike P) (takeCount lexemes).1 (takeCount lexemes').1 ∧
    List.Forall₂ (Lexeme.Alike P C) (takeCount lexemes).2 (takeCount lexemes').2 := by
  have hnumber := takeNumeral_alike h
  unfold takeCount
  generalize takeNumeral lexemes = found at hnumber
  generalize takeNumeral lexemes' = found' at hnumber
  cases hnumber with
  | none => exact ⟨.none, h⟩
  | some hnumber => exact ⟨.some hnumber.1, hnumber.2⟩

theorem takeDice_alike :
    TakenAlike P C (BodyForm.Alike P) (takeDice lexemes) (takeDice lexemes') := by
  obtain ⟨hcount, hafter⟩ := takeCount_alike h
  have hletter := takeToken_alike hafter .dice
  unfold takeDice
  simp only
  generalize takeToken .dice (takeCount lexemes).2 = found at hletter
  generalize takeToken .dice (takeCount lexemes').2 = found' at hletter
  cases hletter with
  | none => exact .none
  | some hrest => exact (takeFaces_alike hrest).map fun _ _ => .dice hcount

theorem takeBody_alike :
    TakenAlike P C (BodyForm.Alike P) (takeBody lexemes) (takeBody lexemes') := by
  have hdice := takeDice_alike h
  unfold takeBody
  generalize takeDice lexemes = found at hdice
  generalize takeDice lexemes' = found' at hdice
  cases hdice with
  | none => exact (takeNumeral_alike h).map fun _ _ => .flat
  | some hfound => exact .some hfound

theorem takeTerm_alike :
    TakenAlike P C (TermForm.Alike P) (takeTerm lexemes) (takeTerm lexemes') := by
  obtain ⟨hsign, hafter⟩ := takeSign_alike h
  cases h with
  | nil => exact .none
  | cons hfirst hmore =>
    exact (takeBody_alike hafter).map fun _ _ hbody => ⟨hfirst.start, hsign, hbody⟩

end Taking

/-! ## Cutting into segments -/

section Segments
variable {P : Nat → Nat → Prop} {C : Char → Char → Prop}

theorem skip_alike {lexeme lexeme' : Lexeme} {found found' : List Segment}
    (hlexeme : lexeme.Alike P C lexeme') (hfound : List.Forall₂ (Segment.Alike P C) found found') :
    List.Forall₂ (Segment.Alike P C) (Segment.skip lexeme found)
      (Segment.skip lexeme' found') := by
  cases hfound with
  | nil => exact .cons (.skipped hlexeme .nil) .nil
  | cons hfirst hmore =>
    cases hfirst with
    | term hform => exact .cons (.skipped hlexeme .nil) (.cons (.term hform) hmore)
    | skipped hnext hothers => exact .cons (.skipped hlexeme (.cons hnext hothers)) hmore

theorem segments_alike {lexemes lexemes' : List Lexeme}
    (h : List.Forall₂ (Lexeme.Alike P C) lexemes lexemes') :
    List.Forall₂ (Segment.Alike P C) (segments lexemes) (segments lexemes') := by
  have htaken := takeTerm_alike h
  fun_induction segments lexemes generalizing lexemes' with
  | case1 =>
    cases h
    rw [segments_nil]
    exact .nil
  | case2 lexeme more form rest htake ih =>
    rw [htake] at htaken
    obtain ⟨⟨form', rest'⟩, htake', hform, hrest⟩ := htaken.eq_some
    rw [segments_of_takeTerm htake']
    exact .cons (.term hform) (ih hrest (takeTerm_alike hrest))
  | case3 lexeme more hnone ih =>
    rw [hnone] at htaken
    obtain ⟨lexeme', more', hlexeme, hmore, rfl⟩ := List.forall₂_cons_left_iff.mp h
    rw [segments_cons_of_none htaken.eq_none]
    exact skip_alike hlexeme (ih hmore (takeTerm_alike hmore))

end Segments

/-! ## What alike forms mean -/

section Meaning
variable {P : Nat → Nat → Prop}

theorem map_eq_of_forall₂ {α β : Type} {R : α → α → Prop} {f : α → β} {l l' : List α}
    (h : List.Forall₂ R l l') (hf : ∀ a b, R a b → f a = f b) : l.map f = l'.map f := by
  induction h with
  | nil => rfl
  | cons hfirst _ ih => rw [List.map_cons, List.map_cons, hf _ _ hfirst, ih]

theorem Numeral.Alike.value {a b : Numeral} (h : a.Alike P b) : a.value = b.value :=
  congrArg Decimal.value h.text

theorem Numeral.Alike.width {a b : Numeral} (h : a.Alike P b) : a.width = b.width :=
  congrArg List.length h.text

theorem EntryForm.Alike.plain {a b : EntryForm} (h : a.Alike P b) (read : NumberReading) :
    a.plain read = b.plain read := by
  obtain ⟨sign, value, weight⟩ := a
  obtain ⟨sign', value', weight'⟩ := b
  obtain ⟨rfl, hvalue, hweight⟩ := h
  cases hweight with
  | none => simp only [EntryForm.plain, hvalue.value]
  | some hweight => simp only [EntryForm.plain, hvalue.value, hweight.value]

theorem EntryForm.Alike.isSome_weight {a b : EntryForm} (h : a.Alike P b) :
    a.weight.isSome = b.weight.isSome := by
  have hweight := h.weight
  generalize a.weight = weight at hweight
  generalize b.weight = weight' at hweight
  cases hweight with
  | none => rfl
  | some => rfl

theorem EntryForm.Alike.width {a b : EntryForm} (h : a.Alike P b) : a.width = b.width := by
  obtain ⟨sign, value, weight⟩ := a
  obtain ⟨sign', value', weight'⟩ := b
  obtain ⟨rfl, hvalue, hweight⟩ := h
  cases hweight with
  | none => simp only [EntryForm.width, hvalue.width, optionWidth]
  | some hweight => simp only [EntryForm.width, hvalue.width, hweight.width, optionWidth]

theorem entriesWidth_alike {entries entries' : List EntryForm}
    (h : List.Forall₂ (EntryForm.Alike P) entries entries') :
    entriesWidth entries = entriesWidth entries' := by
  induction h with
  | nil => rfl
  | cons hfirst _ ih => rw [entriesWidth, entriesWidth, hfirst.width, ih]

theorem FacesForm.Alike.plain {a b : FacesForm} (h : a.Alike P b) (read : NumberReading) :
    a.plain read = b.plain read := by
  cases h with
  | count h => rw [FacesForm.plain, FacesForm.plain, h.value]
  | fudge => rfl
  | @list entries entries' h =>
    have hweights := congrArg (List.any · id)
      (map_eq_of_forall₂ h fun _ _ hentry => hentry.isSome_weight)
    have hentries := map_eq_of_forall₂ h fun _ _ hentry => hentry.plain read
    have hfaces := map_eq_of_forall₂ h fun _ _ hentry => congrArg Prod.fst (hentry.plain read)
    simp only [List.any_map, Function.id_comp] at hweights
    simp only [FacesForm.plain, hentries, hfaces]
    rw [hweights]

theorem FacesForm.Alike.width {a b : FacesForm} (h : a.Alike P b) : a.width = b.width := by
  cases h with
  | count h => exact h.width
  | fudge => rfl
  | list h =>
    cases h with
    | nil => rfl
    | cons hfirst hmore =>
      rw [FacesForm.width, FacesForm.width, entriesWidth_alike (.cons hfirst hmore)] <;>
        exact fun hnil => by cases hnil

theorem TermForm.Alike.plain {a b : TermForm} (h : a.Alike P b) (read : NumberReading) :
    a.plain read = b.plain read := by
  obtain ⟨start, sign, body⟩ := a
  obtain ⟨start', sign', body'⟩ := b
  obtain ⟨-, rfl, hbody⟩ := h
  cases hbody with
  | flat h => simp only [TermForm.plain, h.value]
  | dice hcount hfaces =>
    cases hcount with
    | none => simp only [TermForm.plain, hfaces.plain read]
    | some hcount => simp only [TermForm.plain, hfaces.plain read, hcount.value]

theorem TermForm.Alike.term {a b : TermForm} (h : a.Alike P b) (maxCount : Nat) :
    a.term maxCount = b.term maxCount :=
  TermForm.term_eq_of_plain (h.plain (.tolerant maxCount))

theorem TermForm.Alike.width {a b : TermForm} (h : a.Alike P b) : a.width = b.width := by
  obtain ⟨start, sign, body⟩ := a
  obtain ⟨start', sign', body'⟩ := b
  obtain ⟨-, rfl, hbody⟩ := h
  cases hbody with
  | flat h => simp only [TermForm.width, BodyForm.width, h.width]
  | dice hcount hfaces =>
    cases hcount with
    | none => simp only [TermForm.width, BodyForm.width, hfaces.width, optionWidth]
    | some hcount =>
      simp only [TermForm.width, BodyForm.width, hfaces.width, hcount.width, optionWidth]

end Meaning

/-! ## Alike readings -/

/-- Numbers are told as they are, and skipped text up to `C`. -/
structure Diagnostic.Alike (P : Nat → Nat → Prop) (C : Char → Char → Prop) (a b : Diagnostic) :
    Prop where
  kind : a.kind = b.kind
  position : P a.position b.position
  text : List.Forall₂ C a.text.toList b.text.toList
  number : a.kind ≠ .skipped → a.text = b.text

/-- The same error at related positions, up to `C` in an unrecognized text. -/
inductive FormulaError.Alike (P : Nat → Nat → Prop) (C : Char → Char → Prop) :
    FormulaError → FormulaError → Prop
  | unrecognized {position position' : Nat} {text text' : String}
      (hplace : P position position') (htext : List.Forall₂ C text.toList text'.toList) :
      Alike P C (.located position (.unrecognized text)) (.located position' (.unrecognized text'))
  | badNumber {position position' : Nat} {text : String} (hplace : P position position') :
      Alike P C (.located position (.badNumber text)) (.located position' (.badNumber text))
  | die {position position' : Nat} {fault : DiceError} (hplace : P position position') :
      Alike P C (.located position (.die fault)) (.located position' (.die fault))

structure Formula.Alike (P : Nat → Nat → Prop) (C : Char → Char → Prop) (a b : Formula) : Prop where
  terms : a.terms = b.terms
  diagnostics : List.Forall₂ (Diagnostic.Alike P C) a.diagnostics b.diagnostics
  recognized : a.recognized = b.recognized
  skipped : a.skipped = b.skipped

/-- Two results are both values, related by `A`, or both errors, and then alike. -/
inductive ReadAlike (P : Nat → Nat → Prop) (C : Char → Char → Prop) {α : Type} (A : α → α → Prop) :
    Except FormulaError α → Except FormulaError α → Prop
  | ok {a b : α} (h : A a b) : ReadAlike P C A (.ok a) (.ok b)
  | error {e f : FormulaError} (h : e.Alike P C f) : ReadAlike P C A (.error e) (.error f)

section Readings
variable {P : Nat → Nat → Prop} {C : Char → Char → Prop}

theorem ReadAlike.bind {α β : Type} {A : α → α → Prop} {B : β → β → Prop}
    {x y : Except FormulaError α} {f g : α → Except FormulaError β} (h : ReadAlike P C A x y)
    (hfg : ∀ a b, A a b → ReadAlike P C B (f a) (g b)) : ReadAlike P C B (x >>= f) (y >>= g) := by
  cases h with
  | ok h => exact hfg _ _ h
  | error h => exact .error h

theorem Diagnostic.Alike.error {a b : Diagnostic} (h : a.Alike P C b) :
    a.error.Alike P C b.error := by
  obtain ⟨kind, position, text⟩ := a
  obtain ⟨kind', position', text'⟩ := b
  obtain ⟨rfl, hposition, htext, hnumber⟩ := h
  cases kind with
  | skipped => exact .unrecognized hposition htext
  | countFallback =>
    obtain rfl : text = text' := hnumber fun h => by cases h
    exact .badNumber hposition
  | saturated =>
    obtain rfl : text = text' := hnumber fun h => by cases h
    exact .badNumber hposition

theorem report_alike {issues issues' : List Diagnostic} (options : ReadOptions)
    (h : List.Forall₂ (Diagnostic.Alike P C) issues issues') :
    ReadAlike P C (List.Forall₂ (Diagnostic.Alike P C)) (options.report issues)
      (options.report issues') := by
  unfold ReadOptions.report
  split
  · cases h with
    | nil => exact .ok .nil
    | cons hfirst hmore => exact .error hfirst.error
  · exact .ok h

theorem Segment.Alike.terms {a b : Segment} (h : a.Alike P C b) (maxCount : Nat) :
    ReadAlike P C Eq (a.terms maxCount) (b.terms maxCount) := by
  cases h with
  | skipped => exact .ok rfl
  | @term form form' h =>
    rw [Segment.terms, Segment.terms, h.term maxCount]
    split
    · exact .ok rfl
    · exact .error (.die h.start)

theorem Segment.Alike.recognized {a b : Segment} (h : a.Alike P C b) :
    a.recognized = b.recognized := by
  cases h with
  | term h => exact h.width
  | skipped => rfl

theorem flatMap_text_alike {lexemes lexemes' : List Lexeme}
    (h : List.Forall₂ (Lexeme.Alike P C) lexemes lexemes') :
    List.Forall₂ C (lexemes.flatMap Lexeme.text) (lexemes'.flatMap Lexeme.text) := by
  induction h with
  | nil => exact .nil
  | cons hfirst _ ih => exact List.rel_append hfirst.text ih

theorem Segment.Alike.skippedWidth {a b : Segment} (h : a.Alike P C b) :
    a.skippedWidth = b.skippedWidth := by
  cases h with
  | term => rfl
  | skipped hfirst hmore => exact (flatMap_text_alike (.cons hfirst hmore)).length_eq

variable (hC : ∀ c, C c c)
include hC

theorem Numeral.Alike.diagnostic {a b : Numeral} (h : a.Alike P b) {kind : DiagnosticKind} :
    Diagnostic.Alike P C ⟨kind, a.start, String.ofList a.text⟩
      ⟨kind, b.start, String.ofList b.text⟩ where
  kind := rfl
  position := h.start
  text := by
    rw [h.text]
    exact List.forall₂_same.mpr fun c _ => hC c
  number _ := congrArg String.ofList h.text

theorem Numeral.Alike.saturation {a b : Numeral} (h : a.Alike P b) :
    List.Forall₂ (Diagnostic.Alike P C) a.saturation b.saturation := by
  rw [Numeral.saturation, Numeral.saturation, Numeral.fits, Numeral.fits, h.value]
  split
  · exact .nil
  · exact .cons (h.diagnostic hC) .nil

theorem countIssues_alike {count count' : Option Numeral} (maxCount : Nat)
    (h : Option.Rel (Numeral.Alike P) count count') :
    List.Forall₂ (Diagnostic.Alike P C) (countIssues maxCount count)
      (countIssues maxCount count') := by
  cases h with
  | none => exact .nil
  | some h =>
    rw [countIssues, countIssues, Numeral.isCount, Numeral.isCount, h.value]
    split
    · exact .nil
    · exact .cons (h.diagnostic hC) .nil

theorem EntryForm.Alike.issues {a b : EntryForm} (h : a.Alike P b) :
    List.Forall₂ (Diagnostic.Alike P C) a.issues b.issues := by
  obtain ⟨sign, value, weight⟩ := a
  obtain ⟨sign', value', weight'⟩ := b
  obtain ⟨rfl, hvalue, hweight⟩ := h
  cases hweight with
  | none => exact List.rel_append (hvalue.saturation hC) .nil
  | some hweight => exact List.rel_append (hvalue.saturation hC) (hweight.saturation hC)

theorem FacesForm.Alike.issues {a b : FacesForm} (h : a.Alike P b) :
    List.Forall₂ (Diagnostic.Alike P C) a.issues b.issues := by
  cases h with
  | count h => exact h.saturation hC
  | fudge => exact .nil
  | list h => exact List.rel_flatMap h fun _ _ hentry => hentry.issues hC

theorem TermForm.Alike.issues {a b : TermForm} (h : a.Alike P b) (maxCount : Nat) :
    List.Forall₂ (Diagnostic.Alike P C) (a.issues maxCount) (b.issues maxCount) := by
  obtain ⟨start, sign, body⟩ := a
  obtain ⟨start', sign', body'⟩ := b
  obtain ⟨-, rfl, hbody⟩ := h
  cases hbody with
  | flat h => exact h.saturation hC
  | dice hcount hfaces =>
    exact List.rel_append (countIssues_alike hC maxCount hcount) (hfaces.issues hC)

theorem Segment.Alike.issues {a b : Segment} (h : a.Alike P C b) (maxCount : Nat) :
    List.Forall₂ (Diagnostic.Alike P C) (a.issues maxCount) (b.issues maxCount) := by
  cases h with
  | term h => exact h.issues hC maxCount
  | skipped hfirst hmore =>
    refine .cons ⟨rfl, hfirst.start, ?_, fun hkind => absurd rfl hkind⟩ .nil
    rw [String.toList_ofList, String.toList_ofList]
    exact flatMap_text_alike (.cons hfirst hmore)

theorem ofSegments_alike {found found' : List Segment} (options : ReadOptions)
    (h : List.Forall₂ (Segment.Alike P C) found found') :
    ReadAlike P C (Formula.Alike P C) (Formula.ofSegments options found)
      (Formula.ofSegments options found') := by
  induction h with
  | nil => exact .ok ⟨rfl, .nil, rfl, rfl⟩
  | cons hfirst _ ih =>
    have hreport := report_alike options (hfirst.issues hC options.maxCount)
    refine hreport.bind fun kept kept' hkept => ?_
    refine (hfirst.terms options.maxCount).bind fun terms _ hterms => ?_
    subst hterms
    refine ih.bind fun rest rest' hrest => .ok ⟨?_, ?_, ?_, ?_⟩
    · exact congrArg (terms ++ ·) hrest.terms
    · exact List.rel_append hkept hrest.diagnostics
    · exact congrArg₂ (· + ·) hfirst.recognized hrest.recognized
    · exact congrArg₂ (· + ·) hfirst.skippedWidth hrest.skipped

end Readings

end DiceNotation
