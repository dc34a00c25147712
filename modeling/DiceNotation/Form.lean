import DiceNotation.Lexeme
import DiceNotation.Term

/-!
Forms: how a term may be written.

* a term is an optional sign and then dice or a number;
* dice are an optional count, the letter `d`, and a number of faces, the letter `f` or a list;
* a list is a pair of brackets with entries between commas, or with nothing;
* an entry is an optional sign, a number, and optionally a colon and a second number.

Every reader here takes the form at the front of some lexemes and returns what follows it. Dice are
tried before a number, so the longest form wins.
-/
namespace DiceNotation
set_option autoImplicit false

/-! ## The forms -/

structure Numeral where
  start : Nat
  text : List Char
deriving DecidableEq

def Numeral.value (number : Numeral) : Nat := Decimal.value number.text

/-- An entry of a list, as in `-3:2`. -/
structure EntryForm where
  sign : Option Sign
  value : Numeral
  weight : Option Numeral
deriving DecidableEq

inductive FacesForm where
  | count (number : Numeral)
  | fudge
  | list (entries : List EntryForm)
deriving DecidableEq

inductive BodyForm where
  | flat (number : Numeral)
  | dice (count : Option Numeral) (faces : FacesForm)
deriving DecidableEq

structure TermForm where
  /-- The offset of the first character, which is the sign if one is written. -/
  start : Nat
  sign : Option Sign
  body : BodyForm
deriving DecidableEq

/-! ## Widths

The number of visible characters that a form was written with. -/

def optionWidth {α : Type} (width : α → Nat) : Option α → Nat
  | none => 0
  | some part => width part

def Numeral.width (number : Numeral) : Nat := number.text.length

def EntryForm.width (entry : EntryForm) : Nat :=
  optionWidth (fun _ => 1) entry.sign + entry.value.width
    + optionWidth (fun weight => 1 + Numeral.width weight) entry.weight

/-- Every entry has a comma or the closing bracket behind it. -/
def entriesWidth : List EntryForm → Nat
  | [] => 0
  | entry :: more => entry.width + 1 + entriesWidth more

def FacesForm.width : FacesForm → Nat
  | .count number => number.width
  | .fudge => 1
  | .list [] => 2
  | .list entries => 1 + entriesWidth entries

def BodyForm.width : BodyForm → Nat
  | .flat number => number.width
  | .dice count faces => optionWidth Numeral.width count + 1 + faces.width

def TermForm.width (form : TermForm) : Nat :=
  optionWidth (fun _ => 1) form.sign + form.body.width

/-! ## Reading forms -/

def takeSign : List Lexeme → Option Sign × List Lexeme
  | [] => (none, [])
  | lexeme :: more =>
    match lexeme.token with
    | .plus => (some .plus, more)
    | .minus => (some .minus, more)
    | _ => (none, lexeme :: more)

def takeToken (token : Token) : List Lexeme → Option (List Lexeme)
  | [] => none
  | lexeme :: more => if lexeme.token = token then some more else none

def takeNumeral : List Lexeme → Option (Numeral × List Lexeme)
  | [] => none
  | lexeme :: more =>
    if lexeme.token = .number then some (⟨lexeme.start, lexeme.text⟩, more) else none

/-- After a colon there has to be a weight. -/
def takeEntry (lexemes : List Lexeme) : Option (EntryForm × List Lexeme) :=
  let (sign, afterSign) := takeSign lexemes
  match takeNumeral afterSign with
  | none => none
  | some (value, afterValue) =>
    match takeToken .colon afterValue with
    | none => some (⟨sign, value, none⟩, afterValue)
    | some afterColon =>
      match takeNumeral afterColon with
      | none => none
      | some (weight, rest) => some (⟨sign, value, some weight⟩, rest)

theorem length_takeSign (lexemes : List Lexeme) :
    (takeSign lexemes).2.length ≤ lexemes.length := by
  cases lexemes with
  | nil => exact Nat.le_refl 0
  | cons lexeme more => simp only [takeSign]; split <;> simp

theorem length_takeToken {token : Token} {lexemes rest : List Lexeme}
    (h : takeToken token lexemes = some rest) : rest.length + 1 = lexemes.length := by
  cases lexemes with
  | nil => simp [takeToken] at h
  | cons lexeme more =>
    simp only [takeToken] at h
    split at h <;> simp_all

theorem length_takeNumeral {lexemes rest : List Lexeme} {number : Numeral}
    (h : takeNumeral lexemes = some (number, rest)) : rest.length + 1 = lexemes.length := by
  cases lexemes with
  | nil => simp [takeNumeral] at h
  | cons lexeme more =>
    simp only [takeNumeral] at h
    split at h <;> simp_all

theorem length_takeEntry {lexemes rest : List Lexeme} {entry : EntryForm}
    (h : takeEntry lexemes = some (entry, rest)) : rest.length < lexemes.length := by
  have hsign := length_takeSign lexemes
  simp only [takeEntry] at h
  split at h
  · simp at h
  · rename_i value afterValue hvalue
    have hv := length_takeNumeral hvalue
    split at h
    · simp only [Option.some.injEq, Prod.mk.injEq] at h
      rw [← h.2]
      omega
    · rename_i afterColon hcolon
      have hc := length_takeToken hcolon
      split at h
      · simp at h
      · rename_i weight afterWeight hweight
        have hw := length_takeNumeral hweight
        simp only [Option.some.injEq, Prod.mk.injEq] at h
        rw [← h.2]
        omega

/-- Entries between commas, up to the closing bracket. -/
def takeEntries (lexemes : List Lexeme) : Option (List EntryForm × List Lexeme) :=
  match _h : takeEntry lexemes with
  | none => none
  | some (_, []) => none
  | some (entry, lexeme :: rest) =>
    match lexeme.token with
    | .comma => (takeEntries rest).map fun (entries, after) => (entry :: entries, after)
    | .rightBracket => some ([entry], rest)
    | _ => none
termination_by lexemes.length
decreasing_by
  have := length_takeEntry _h
  simp only [List.length_cons] at this
  omega

/-- A list from behind its opening bracket. -/
def takeList (lexemes : List Lexeme) : Option (List EntryForm × List Lexeme) :=
  match takeToken .rightBracket lexemes with
  | some rest => some ([], rest)
  | none => takeEntries lexemes

def takeFaces : List Lexeme → Option (FacesForm × List Lexeme)
  | [] => none
  | lexeme :: more =>
    match lexeme.token with
    | .number => some (.count ⟨lexeme.start, lexeme.text⟩, more)
    | .fudge => some (.fudge, more)
    | .leftBracket => (takeList more).map fun (entries, rest) => (.list entries, rest)
    | _ => none

def takeCount (lexemes : List Lexeme) : Option Numeral × List Lexeme :=
  match takeNumeral lexemes with
  | some (number, rest) => (some number, rest)
  | none => (none, lexemes)

def takeDice (lexemes : List Lexeme) : Option (BodyForm × List Lexeme) :=
  let (count, afterCount) := takeCount lexemes
  match takeToken .dice afterCount with
  | none => none
  | some afterLetter => (takeFaces afterLetter).map fun (faces, rest) => (.dice count faces, rest)

def takeFlat (lexemes : List Lexeme) : Option (BodyForm × List Lexeme) :=
  (takeNumeral lexemes).map fun (number, rest) => (.flat number, rest)

def takeBody (lexemes : List Lexeme) : Option (BodyForm × List Lexeme) :=
  match takeDice lexemes with
  | some found => some found
  | none => takeFlat lexemes

def takeTerm : List Lexeme → Option (TermForm × List Lexeme)
  | [] => none
  | lexeme :: more =>
    let (sign, afterSign) := takeSign (lexeme :: more)
    (takeBody afterSign).map fun (body, rest) => (⟨lexeme.start, sign, body⟩, rest)

/-! ## Every form takes a lexeme -/

theorem length_takeEntries {lexemes rest : List Lexeme} {entries : List EntryForm}
    (h : takeEntries lexemes = some (entries, rest)) : rest.length < lexemes.length := by
  fun_induction takeEntries lexemes generalizing entries with
  | case1 => simp at h
  | case2 => simp at h
  | case3 lexemes entry lexeme more hentry _ ih =>
    obtain ⟨⟨found, after⟩, hfound, heq⟩ := Option.map_eq_some_iff.mp h
    simp only [Prod.mk.injEq] at heq
    have h1 := length_takeEntry hentry
    have h2 := ih (heq.2 ▸ hfound)
    simp only [List.length_cons] at h1
    omega
  | case4 lexemes entry lexeme more hentry _ =>
    simp only [Option.some.injEq, Prod.mk.injEq] at h
    have h1 := length_takeEntry hentry
    simp only [List.length_cons, h.2] at h1
    omega
  | case5 => simp at h

theorem length_takeList {lexemes rest : List Lexeme} {entries : List EntryForm}
    (h : takeList lexemes = some (entries, rest)) : rest.length < lexemes.length := by
  simp only [takeList] at h
  split at h
  · rename_i after hafter
    have := length_takeToken hafter
    simp only [Option.some.injEq, Prod.mk.injEq] at h
    rw [← h.2]
    omega
  · exact length_takeEntries h

theorem length_takeFaces {lexemes rest : List Lexeme} {faces : FacesForm}
    (h : takeFaces lexemes = some (faces, rest)) : rest.length < lexemes.length := by
  cases lexemes with
  | nil => simp [takeFaces] at h
  | cons lexeme more =>
    simp only [takeFaces] at h
    split at h
    · simp_all
    · simp_all
    · obtain ⟨⟨entries, after⟩, hlist, heq⟩ := Option.map_eq_some_iff.mp h
      simp only [Prod.mk.injEq] at heq
      have := length_takeList hlist
      rw [heq.2] at this
      simp only [List.length_cons]
      omega
    · simp at h

theorem length_takeCount (lexemes : List Lexeme) :
    (takeCount lexemes).2.length ≤ lexemes.length := by
  simp only [takeCount]
  split
  · rename_i h
    have := length_takeNumeral h
    simp only
    omega
  · exact Nat.le_refl _

theorem length_takeBody {lexemes rest : List Lexeme} {body : BodyForm}
    (h : takeBody lexemes = some (body, rest)) : rest.length < lexemes.length := by
  simp only [takeBody] at h
  split at h
  · rename_i found hdice
    cases h
    have hcount := length_takeCount lexemes
    simp only [takeDice] at hdice
    split at hdice
    · simp at hdice
    · rename_i afterLetter hletter
      have h1 := length_takeToken hletter
      obtain ⟨⟨faces, after⟩, hfaces, heq⟩ := Option.map_eq_some_iff.mp hdice
      simp only [Prod.mk.injEq] at heq
      have h2 := length_takeFaces hfaces
      rw [heq.2] at h2
      omega
  · obtain ⟨⟨number, after⟩, hnumber, heq⟩ := Option.map_eq_some_iff.mp h
    simp only [Prod.mk.injEq] at heq
    have := length_takeNumeral hnumber
    rw [heq.2] at this
    omega

theorem length_takeTerm {lexemes rest : List Lexeme} {form : TermForm}
    (h : takeTerm lexemes = some (form, rest)) : rest.length < lexemes.length := by
  cases lexemes with
  | nil => simp [takeTerm] at h
  | cons lexeme more =>
    simp only [takeTerm] at h
    obtain ⟨⟨body, after⟩, hbody, heq⟩ := Option.map_eq_some_iff.mp h
    simp only [Prod.mk.injEq] at heq
    have h1 := length_takeBody hbody
    have h2 := length_takeSign (lexeme :: more)
    rw [heq.2] at h1
    omega

end DiceNotation
