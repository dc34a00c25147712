import DiceNotation.Proofs.Access
import DiceNotation.Proofs.Grammar

/-!
Matching forms by number: the readers of `DiceNotation.Form`, on a list that is kept whole.

Every matcher here looks at the lexeme with some number and those behind it, and tells the number of
the lexeme that comes next.

* `tokenAt`: the token with a number, or none behind the last one. Only this may be asked for behind
  the end of the list;
* `numberAt` and the matchers from `matchEntry` to `matchTerm`, which look up the lexemes themselves;
* `Matches run view taken`: a matcher looks only at lexemes that are there, and finds the form that
  is taken from the front of the list from its number on;
* `matches_matchEntry` to `matches_matchTerm`: so do all matchers;
* `Matches.lt_next`: a match is not empty, which is why the list of entries ends.
-/
namespace DiceNotation
set_option autoImplicit false

/-! ## Matched forms -/

/-- A lexeme of the list. -/
abbrev Picked (found : List Lexeme) : Type := { lexeme : Lexeme // lexeme ∈ found }

def Picked.numeral {found : List Lexeme} (number : Picked found) : Numeral := number.val.numeral

structure EntryMatch (found : List Lexeme) where
  sign : Option Sign
  value : Picked found
  weight : Option (Picked found)

inductive FacesMatch (found : List Lexeme) where
  | count (number : Picked found)
  | fudge
  | list (entries : List (EntryMatch found))

inductive BodyMatch (found : List Lexeme) where
  | flat (number : Picked found)
  | dice (count : Option (Picked found)) (faces : FacesMatch found)

structure TermMatch (found : List Lexeme) where
  start : Nat
  sign : Option Sign
  body : BodyMatch found

section Forms
variable {found : List Lexeme}

def EntryMatch.form (entry : EntryMatch found) : EntryForm :=
  ⟨entry.sign, entry.value.numeral, entry.weight.map Picked.numeral⟩

def FacesMatch.form : FacesMatch found → FacesForm
  | .count number => .count number.numeral
  | .fudge => .fudge
  | .list entries => .list (entries.map EntryMatch.form)

def BodyMatch.form : BodyMatch found → BodyForm
  | .flat number => .flat number.numeral
  | .dice count faces => .dice (count.map Picked.numeral) faces.form

def TermMatch.form (term : TermMatch found) : TermForm := ⟨term.start, term.sign, term.body.form⟩

end Forms

/-! ## Lexemes by number -/

section Lookup
variable (found : List Lexeme)

def tokenAt (i : Nat) : Option Token := found[i]?.map Lexeme.token

def lexemeAt (i : Nat) : Scan (Picked found) :=
  .look (.lexeme i) (if h : i < found.length then some ⟨found[i], List.getElem_mem h⟩ else none)

/-- The number with some number, if that is one. -/
def numberAt (i : Nat) : Scan (Option (Picked found)) :=
  if tokenAt found i = some .number then do
    let number ← lexemeAt found i
    return some number
  else
    return none

/-- The sign with some number, and the number of what it stands before. -/
def signAt (i : Nat) : Option Sign × Nat :=
  match tokenAt found i with
  | some .plus => (some .plus, i + 1)
  | some .minus => (some .minus, i + 1)
  | _ => (none, i)

end Lookup

section Drop
variable {found : List Lexeme} {i : Nat}

theorem drop_eq_cons {lexeme : Lexeme} (h : found[i]? = some lexeme) :
    found.drop i = lexeme :: found.drop (i + 1) := by
  obtain ⟨hi, rfl⟩ := List.getElem?_eq_some_iff.mp h
  exact List.drop_eq_getElem_cons hi

theorem drop_eq_nil (h : found[i]? = none) : found.drop i = [] :=
  List.drop_eq_nil_of_le (List.getElem?_eq_none_iff.mp h)

theorem tokenAt_eq_some {token : Token} (h : tokenAt found i = some token) :
    ∃ lexeme, found[i]? = some lexeme ∧ lexeme.token = token :=
  Option.map_eq_some_iff.mp h

theorem lt_length_of_tokenAt {token : Token} (h : tokenAt found i = some token) :
    i < found.length := by
  obtain ⟨lexeme, hlexeme, -⟩ := tokenAt_eq_some h
  exact (List.getElem?_eq_some_iff.mp hlexeme).1

theorem takeToken_drop (token : Token) :
    takeToken token (found.drop i) =
      if tokenAt found i = some token then some (found.drop (i + 1)) else none := by
  unfold tokenAt
  cases h : found[i]? with
  | none => rw [drop_eq_nil h]; rfl
  | some lexeme =>
    rw [drop_eq_cons h, takeToken, Option.map_some]
    by_cases htoken : lexeme.token = token
    · rw [if_pos htoken, if_pos (congrArg some htoken)]
    · rw [if_neg htoken, if_neg fun heq => htoken (Option.some.inj heq)]

theorem takeSign_drop :
    takeSign (found.drop i) = ((signAt found i).1, found.drop (signAt found i).2) := by
  unfold signAt tokenAt
  cases h : found[i]? with
  | none =>
    rw [drop_eq_nil h]
    exact Prod.ext rfl (drop_eq_nil h).symm
  | some lexeme =>
    rw [drop_eq_cons h, takeSign, Option.map_some]
    cases lexeme.token <;> first | rfl | rw [← drop_eq_cons h]

end Drop

/-! ## What a matcher finds -/

/-- What is matched in a whole list and what is taken from its rest are the same, and the rests are
the same as well. -/
inductive Follows {α β : Type} (found : List Lexeme) (view : α → β) :
    Option (α × Nat) → Option (β × List Lexeme) → Prop
  | none : Follows found view none none
  | some {part : α} {next : Nat} (h : next ≤ found.length) :
      Follows found view (some (part, next)) (some (view part, found.drop next))

section Follows
variable {α β : Type} {found : List Lexeme} {view : α → β} {taken : Option (β × List Lexeme)}

theorem Follows.taken_eq {matched : Option (α × Nat)} (h : Follows found view matched taken) :
    taken = matched.map fun (part, next) => (view part, found.drop next) := by
  cases h with
  | none => rfl
  | some _ => rfl

theorem Follows.next_le {part : α} {next : Nat}
    (h : Follows found view (.some (part, next)) taken) : next ≤ found.length := by
  cases h with
  | some hnext => exact hnext

end Follows

/-- The matcher looks only at what is there, and finds what is taken. -/
def Matches {α β : Type} (text : List Char) (found : List Lexeme)
    (run : Scan (Option (α × Nat))) (view : α → β) (taken : Option (β × List Lexeme)) : Prop :=
  ∃ matched, run.Finds text found matched ∧ Follows found view matched taken

section Rules
variable {α β : Type} {text : List Char} {found : List Lexeme}

theorem matches_none {view : α → β} :
    Matches text found (return none) view none :=
  ⟨_, Scan.finds_pure _, .none⟩

theorem matches_some {view : α → β} {part : α} {next : Nat} (h : next ≤ found.length) :
    Matches text found (return some (part, next)) view (some (view part, found.drop next)) :=
  ⟨_, Scan.finds_pure _, .some h⟩

/-- A look before a matcher. -/
theorem Matches.behind {γ : Type} {run : Scan γ} {value : γ}
    {next : γ → Scan (Option (α × Nat))} {view : α → β} {taken : Option (β × List Lexeme)}
    (h : run.Finds text found value) (hnext : Matches text found (next value) view taken) :
    Matches text found (run >>= next) view taken := by
  obtain ⟨matched, hfinds, hfollows⟩ := hnext
  exact ⟨matched, h.bind hfinds, hfollows⟩

theorem finds_lexemeAt (text : List Char) {i : Nat} {lexeme : Lexeme} (h : found[i]? = some lexeme) :
    ∃ hmem, (lexemeAt found i).Finds text found ⟨lexeme, hmem⟩ := by
  obtain ⟨hi, rfl⟩ := List.getElem?_eq_some_iff.mp h
  refine ⟨List.getElem_mem hi, ?_⟩
  rw [lexemeAt, dif_pos hi]
  exact Scan.finds_look (show Access.InRange text found (.lexeme i) from hi) _

/-- A number is looked up only where its token is. -/
theorem finds_numberAt (text : List Char) (found : List Lexeme) (i : Nat) :
    ∃ number : Option (Picked found), (numberAt found i).Finds text found number ∧
      takeNumeral (found.drop i) =
        number.map (fun number => (number.numeral, found.drop (i + 1))) ∧
      (number.isSome → i < found.length) := by
  unfold numberAt
  split
  · next hnumber =>
    obtain ⟨lexeme, hlexeme, htoken⟩ := tokenAt_eq_some hnumber
    obtain ⟨hmem, hfinds⟩ := finds_lexemeAt text hlexeme
    refine ⟨some ⟨lexeme, hmem⟩, hfinds.bind (Scan.finds_pure _), ?_,
      fun _ => lt_length_of_tokenAt hnumber⟩
    rw [drop_eq_cons hlexeme, takeNumeral_cons htoken]
    rfl
  · next hnumber =>
    refine ⟨none, Scan.finds_pure _, ?_, fun h => by cases h⟩
    cases h : found[i]? with
    | none => rw [drop_eq_nil h]; rfl
    | some lexeme =>
      have htoken : lexeme.token ≠ .number := fun heq => hnumber (by rw [tokenAt, h, ← heq]; rfl)
      rw [drop_eq_cons h, takeNumeral, if_neg htoken]
      rfl

/-- A matcher that needs to know how the look before it ended. -/
theorem Matches.behind_andThen {γ : Type} {run : Scan γ} {value : γ}
    {next : (value : γ) → run.result = .ok value → Scan (Option (α × Nat))} {view : α → β}
    {taken : Option (β × List Lexeme)} (h : run.Finds text found value)
    (hnext : Matches text found (next value h.result_eq) view taken) :
    Matches text found (run.andThen next) view taken := by
  obtain ⟨matched, hfinds, hfollows⟩ := hnext
  exact ⟨matched, h.andThen hfinds, hfollows⟩

/-- Where something is always taken away, the matcher gets on. -/
theorem Matches.lt_next {run : Scan (Option (α × Nat))} {view : α → β}
    {taken : Option (β × List Lexeme)} {i next : Nat} {part : α}
    (h : Matches text found run view taken)
    (htaken : ∀ form rest, taken = some (form, rest) → rest.length < (found.drop i).length)
    (hmatched : run.result = .ok (some (part, next))) : i < next := by
  obtain ⟨matched, hfinds, hfollows⟩ := h
  rw [hfinds.result_eq] at hmatched
  cases hmatched
  cases hfollows with
  | some _ =>
    have hlt := htaken _ _ rfl
    rw [List.length_drop, List.length_drop] at hlt
    omega

end Rules

/-! ## Entries -/

section Matchers
variable (text : List Char) (found : List Lexeme)

def matchEntry (i : Nat) : Scan (Option (EntryMatch found × Nat)) := do
  let (sign, i) := signAt found i
  match ← numberAt found i with
  | none => return none
  | some value =>
    if tokenAt found (i + 1) = some .colon then
      match ← numberAt found (i + 2) with
      | none => return none
      | some weight => return some (⟨sign, value, some weight⟩, i + 3)
    else
      return some (⟨sign, value, none⟩, i + 1)

theorem matches_matchEntry (i : Nat) :
    Matches text found (matchEntry found i) EntryMatch.form (takeEntry (found.drop i)) := by
  unfold matchEntry takeEntry
  rw [takeSign_drop]
  generalize signAt found i = signed
  obtain ⟨sign, i⟩ := signed
  obtain ⟨value, hfinds, htake, hlt⟩ := finds_numberAt text found i
  dsimp only
  rw [htake]
  refine Matches.behind hfinds ?_
  cases value with
  | none => exact matches_none
  | some value =>
    dsimp only [Option.map_some]
    rw [takeToken_drop]
    split
    · next hcolon =>
      obtain ⟨weight, hweight, htake', hlt'⟩ :=
        finds_numberAt text found (i + 2)
      dsimp only
      rw [htake']
      refine Matches.behind hweight ?_
      cases weight with
      | none => exact matches_none
      | some weight => exact matches_some (hlt' rfl)
    · exact matches_some (hlt rfl)

theorem lt_of_matchEntry {i next : Nat} {entry : EntryMatch found}
    (h : (matchEntry found i).result = .ok (some (entry, next))) : i < next :=
  (matches_matchEntry [] found i).lt_next (fun _ _ htaken => length_takeEntry htaken) h

/-! ## Lists -/

/-- The entries between commas, up to the closing bracket. -/
def matchEntries (i : Nat) : Scan (Option (List (EntryMatch found) × Nat)) :=
  -- How the entry was found is carried along, for the entries behind it start behind its end.
  (matchEntry found i).andThen fun matched h =>
    match matched, h with
    | none, _ => return none
    | some (entry, next), _hentry =>
      match _htoken : tokenAt found next with
      | some .comma => do
        match ← matchEntries (next + 1) with
        | none => return none
        | some (entries, after) => return some (entry :: entries, after)
      | some .rightBracket => return some ([entry], next + 1)
      | _ => return none
termination_by found.length - i
decreasing_by
  have hnext := lt_of_matchEntry found _hentry
  have hlt := lt_length_of_tokenAt _htoken
  omega

def matchList (i : Nat) : Scan (Option (List (EntryMatch found) × Nat)) :=
  if tokenAt found i = some .rightBracket then return some ([], i + 1) else matchEntries found i

def matchFaces (i : Nat) : Scan (Option (FacesMatch found × Nat)) := do
  match tokenAt found i with
  | some .number => do
    let number ← lexemeAt found i
    return some (.count number, i + 1)
  | some .fudge => return some (.fudge, i + 1)
  | some .leftBracket => do
    match ← matchList found (i + 1) with
    | none => return none
    | some (entries, next) => return some (.list entries, next)
  | _ => return none

/-! ## Terms -/

/-- Dice from their letter on. -/
def matchLetter (count : Option (Picked found)) (i : Nat) :
    Scan (Option (BodyMatch found × Nat)) := do
  if tokenAt found i = some .dice then
    match ← matchFaces found (i + 1) with
    | none => return none
    | some (faces, next) => return some (.dice count faces, next)
  else
    return none

def matchDice (i : Nat) : Scan (Option (BodyMatch found × Nat)) := do
  match ← numberAt found i with
  | none => matchLetter found none i
  | some count => matchLetter found (some count) (i + 1)

def matchFlat (i : Nat) : Scan (Option (BodyMatch found × Nat)) := do
  match ← numberAt found i with
  | none => return none
  | some number => return some (.flat number, i + 1)

def matchBody (i : Nat) : Scan (Option (BodyMatch found × Nat)) := do
  match ← matchDice found i with
  | none => matchFlat found i
  | some dice => return some dice

def matchTerm (i : Nat) : Scan (Option (TermMatch found × Nat)) :=
  match found[i]? with
  | none => return none
  | some first => do
    let (sign, body) := signAt found i
    match ← matchBody found body with
    | none => return none
    | some (body, next) => return some (⟨first.start, sign, body⟩, next)

end Matchers

section Matching
variable (text : List Char) (found : List Lexeme)

theorem takeEntries_of_none {lexemes : List Lexeme} (h : takeEntry lexemes = none) :
    takeEntries lexemes = none := by
  rw [takeEntries]
  split <;> simp_all

theorem takeEntries_drop {i next : Nat} {entry : EntryForm}
    (h : takeEntry (found.drop i) = some (entry, found.drop next)) :
    takeEntries (found.drop i) =
      match tokenAt found next with
      | some .comma => (takeEntries (found.drop (next + 1))).map fun (entries, rest) =>
          (entry :: entries, rest)
      | some .rightBracket => some ([entry], found.drop (next + 1))
      | _ => none := by
  unfold tokenAt
  rw [takeEntries]
  cases hnext : found[next]? with
  | none =>
    rw [drop_eq_nil hnext] at h
    split <;> simp_all
  | some lexeme =>
    rw [drop_eq_cons hnext] at h
    split
    · simp_all
    · simp_all
    · next entry' lexeme' rest hentry =>
      rw [h] at hentry
      cases hentry
      rw [Option.map_some]
      cases lexeme.token <;> rfl

theorem matches_matchEntries (i : Nat) :
    Matches text found (matchEntries found i) (List.map EntryMatch.form)
      (takeEntries (found.drop i)) := by
  -- On the lexemes from the entry on: it is not empty, so those behind its comma are fewer.
  induction hn : found.length - i using Nat.strongRecOn generalizing i with
  | _ n ih =>
    obtain ⟨matched, hfinds, hfollows⟩ := matches_matchEntry text found i
    rw [matchEntries]
    refine Matches.behind_andThen hfinds ?_
    generalize htaken : takeEntry (found.drop i) = taken at hfollows
    cases hfollows with
    | none =>
      rw [takeEntries_of_none htaken]
      exact matches_none
    | @some entry next hnext =>
      rw [takeEntries_drop found htaken]
      have hlt := lt_of_matchEntry found hfinds.result_eq
      dsimp only
      split
      · next hcomma =>
        have hlength := lt_length_of_tokenAt hcomma
        rw [hcomma]
        dsimp only
        obtain ⟨matched, hmore, hfollows⟩ :=
          ih (found.length - (next + 1)) (by omega) (next + 1) rfl
        refine Matches.behind hmore ?_
        generalize takeEntries (found.drop (next + 1)) = taken at hfollows
        cases hfollows with
        | none => exact matches_none
        | some hafter => exact matches_some hafter
      · next hbracket =>
        rw [hbracket]
        exact matches_some (lt_length_of_tokenAt hbracket)
      · next hcomma hbracket =>
        split
        · next heq => exact absurd heq hcomma
        · next heq => exact absurd heq hbracket
        · exact matches_none

theorem matches_matchList (i : Nat) :
    Matches text found (matchList found i) (List.map EntryMatch.form)
      (takeList (found.drop i)) := by
  unfold matchList takeList
  rw [takeToken_drop]
  split
  · next hbracket => exact matches_some (lt_length_of_tokenAt hbracket)
  · exact matches_matchEntries text found i

theorem matches_matchFaces (i : Nat) :
    Matches text found (matchFaces found i) FacesMatch.form (takeFaces (found.drop i)) := by
  unfold matchFaces
  cases hfound : found[i]? with
  | none =>
    rw [tokenAt, hfound, drop_eq_nil hfound]
    exact matches_none
  | some lexeme =>
    obtain ⟨hlt, -⟩ := List.getElem?_eq_some_iff.mp hfound
    obtain ⟨hmem, hfinds⟩ := finds_lexemeAt text hfound
    rw [tokenAt, hfound, drop_eq_cons hfound, takeFaces, Option.map_some]
    cases lexeme.token with
    | number => exact Matches.behind hfinds (matches_some hlt)
    | fudge => exact matches_some hlt
    | leftBracket =>
      dsimp only
      obtain ⟨matched, hlist, hfollows⟩ := matches_matchList text found (i + 1)
      refine Matches.behind hlist ?_
      generalize takeList (found.drop (i + 1)) = taken at hfollows
      cases hfollows with
      | none => exact matches_none
      | some hnext => exact matches_some hnext
    | _ => exact matches_none

theorem matches_matchLetter (count : Option (Picked found)) (i : Nat) :
    Matches text found (matchLetter found count i) BodyMatch.form
      ((takeToken .dice (found.drop i)).bind fun afterLetter =>
        (takeFaces afterLetter).map fun (faces, rest) =>
          (.dice (count.map Picked.numeral) faces, rest)) := by
  unfold matchLetter
  rw [takeToken_drop]
  split
  · obtain ⟨matched, hfaces, hfollows⟩ := matches_matchFaces text found (i + 1)
    rw [Option.bind_some]
    refine Matches.behind hfaces ?_
    generalize takeFaces (found.drop (i + 1)) = taken at hfollows
    cases hfollows with
    | none => exact matches_none
    | some hnext => exact matches_some hnext
  · exact matches_none

theorem takeDice_eq (lexemes : List Lexeme) :
    takeDice lexemes =
      (takeToken .dice (takeCount lexemes).2).bind fun afterLetter =>
        (takeFaces afterLetter).map fun (faces, rest) =>
          (.dice (takeCount lexemes).1 faces, rest) := by
  unfold takeDice
  generalize takeCount lexemes = counted
  obtain ⟨count, afterCount⟩ := counted
  dsimp only
  cases takeToken .dice afterCount <;> rfl

theorem matches_matchDice (i : Nat) :
    Matches text found (matchDice found i) BodyMatch.form (takeDice (found.drop i)) := by
  unfold matchDice
  rw [takeDice_eq, takeCount]
  obtain ⟨count, hcount, htake, -⟩ := finds_numberAt text found i
  rw [htake]
  refine Matches.behind hcount ?_
  cases count with
  | none => exact matches_matchLetter text found none i
  | some count => exact matches_matchLetter text found (some count) (i + 1)

theorem matches_matchFlat (i : Nat) :
    Matches text found (matchFlat found i) BodyMatch.form (takeFlat (found.drop i)) := by
  unfold matchFlat takeFlat
  obtain ⟨number, hnumber, htake, hlt⟩ := finds_numberAt text found i
  rw [htake]
  refine Matches.behind hnumber ?_
  cases number with
  | none => exact matches_none
  | some number => exact matches_some (hlt rfl)

/-- Dice are tried before a number. -/
theorem matches_matchBody (i : Nat) :
    Matches text found (matchBody found i) BodyMatch.form (takeBody (found.drop i)) := by
  unfold matchBody takeBody
  obtain ⟨matched, hdice, hfollows⟩ := matches_matchDice text found i
  refine Matches.behind hdice ?_
  generalize takeDice (found.drop i) = taken at hfollows
  cases hfollows with
  | none => exact matches_matchFlat text found i
  | some hnext => exact matches_some hnext

theorem matches_matchTerm (i : Nat) :
    Matches text found (matchTerm found i) TermMatch.form (takeTerm (found.drop i)) := by
  unfold matchTerm
  cases hfound : found[i]? with
  | none =>
    rw [drop_eq_nil hfound]
    exact matches_none
  | some first =>
    rw [drop_eq_cons hfound, takeTerm, ← drop_eq_cons hfound, takeSign_drop]
    generalize signAt found i = signed
    obtain ⟨sign, body⟩ := signed
    dsimp only
    obtain ⟨matched, hbody, hfollows⟩ := matches_matchBody text found body
    refine Matches.behind hbody ?_
    generalize takeBody (found.drop body) = taken at hfollows
    cases hfollows with
    | none => exact matches_none
    | some hnext => exact matches_some hnext

/-- A match is not empty. -/
theorem lt_of_matchTerm {i next : Nat} {term : TermMatch found}
    (h : (matchTerm found i).result = .ok (some (term, next))) : i < next :=
  (matches_matchTerm [] found i).lt_next (fun _ _ htaken => length_takeTerm htaken) h

end Matching

end DiceNotation
