import DiceNotation.Form

/-!
The grammar of terms, as relations between a form and the lexemes that spell it, and what the
readers of `DiceNotation.Form` have to do with it.

* `TermSpelled form taken`: the lexemes `taken` spell the term `form`, one rule for each way to
  write a part;
* `takeTerm_append`: a spelled term is taken whole, except a number before the letter `d`;
* `takeTerm_eq_some_iff` and `takeTerm_eq_none_iff`: what is taken is the longest spelled term at
  the front, and nothing is taken only where no term is spelled.
-/
namespace DiceNotation
set_option autoImplicit false

/-! ## The grammar -/

/-- The numeral that a digit run is. -/
def Lexeme.numeral (lexeme : Lexeme) : Numeral := ⟨lexeme.start, lexeme.text⟩

inductive SignSpelled : Option Sign → List Lexeme → Prop
  | unwritten : SignSpelled none []
  | plus {mark : Lexeme} (hmark : mark.token = .plus) : SignSpelled (some .plus) [mark]
  | minus {mark : Lexeme} (hmark : mark.token = .minus) : SignSpelled (some .minus) [mark]

inductive EntrySpelled : EntryForm → List Lexeme → Prop
  | plain {sign : Option Sign} {s : List Lexeme} {value : Lexeme} (hsign : SignSpelled sign s)
      (hvalue : value.token = .number) :
      EntrySpelled ⟨sign, value.numeral, none⟩ (s ++ [value])
  | weighted {sign : Option Sign} {s : List Lexeme} {value colon weight : Lexeme}
      (hsign : SignSpelled sign s) (hvalue : value.token = .number)
      (hcolon : colon.token = .colon) (hweight : weight.token = .number) :
      EntrySpelled ⟨sign, value.numeral, some weight.numeral⟩ (s ++ [value, colon, weight])

/-- One entry or more, with commas between them. -/
inductive EntriesSpelled : List EntryForm → List Lexeme → Prop
  | last {entry : EntryForm} {e : List Lexeme} (hentry : EntrySpelled entry e) :
      EntriesSpelled [entry] e
  | more {entry : EntryForm} {e : List Lexeme} {comma : Lexeme} {entries : List EntryForm}
      {es : List Lexeme} (hentry : EntrySpelled entry e) (hcomma : comma.token = .comma)
      (hentries : EntriesSpelled entries es) :
      EntriesSpelled (entry :: entries) (e ++ comma :: es)

inductive FacesSpelled : FacesForm → List Lexeme → Prop
  | count {number : Lexeme} (hnumber : number.token = .number) :
      FacesSpelled (.count number.numeral) [number]
  | fudge {letter : Lexeme} (hletter : letter.token = .fudge) : FacesSpelled .fudge [letter]
  | emptyList {left right : Lexeme} (hleft : left.token = .leftBracket)
      (hright : right.token = .rightBracket) : FacesSpelled (.list []) [left, right]
  | list {left right : Lexeme} {entries : List EntryForm} {es : List Lexeme}
      (hleft : left.token = .leftBracket) (hentries : EntriesSpelled entries es)
      (hright : right.token = .rightBracket) :
      FacesSpelled (.list entries) (left :: (es ++ [right]))

inductive BodySpelled : BodyForm → List Lexeme → Prop
  | flat {number : Lexeme} (hnumber : number.token = .number) :
      BodySpelled (.flat number.numeral) [number]
  | dice {letter : Lexeme} {faces : FacesForm} {f : List Lexeme} (hletter : letter.token = .dice)
      (hfaces : FacesSpelled faces f) : BodySpelled (.dice none faces) (letter :: f)
  | counted {count letter : Lexeme} {faces : FacesForm} {f : List Lexeme}
      (hcount : count.token = .number) (hletter : letter.token = .dice)
      (hfaces : FacesSpelled faces f) :
      BodySpelled (.dice (some count.numeral) faces) (count :: letter :: f)

/-- A term starts where its first lexeme does. -/
inductive TermSpelled : TermForm → List Lexeme → Prop
  | mk {start : Nat} {sign : Option Sign} {s : List Lexeme} {body : BodyForm} {b : List Lexeme}
      (hsign : SignSpelled sign s) (hbody : BodySpelled body b)
      (hstart : (s ++ b).head?.map Lexeme.start = some start) :
      TermSpelled ⟨start, sign, body⟩ (s ++ b)

def BodyForm.isFlat : BodyForm → Bool
  | .flat _ => true
  | .dice _ _ => false

/-- No lexeme of the token is at the front. -/
def NotAhead (token : Token) (lexemes : List Lexeme) : Prop :=
  ∀ lexeme ∈ lexemes.head?, lexeme.token ≠ token

theorem notAhead_nil (token : Token) : NotAhead token [] := nofun

theorem notAhead_cons {token other : Token} {lexeme : Lexeme} (h : lexeme.token = other)
    (hne : other ≠ token) (rest : List Lexeme) : NotAhead token (lexeme :: rest) := by
  rintro _ ⟨⟩ heq
  exact hne (h.symm.trans heq)

theorem notAhead_append {token : Token} {a : List Lexeme} (hne : a ≠ []) (b : List Lexeme) :
    NotAhead token (a ++ b) ↔ NotAhead token a := by
  cases a with
  | nil => exact absurd rfl hne
  | cons lexeme more => exact Iff.rfl

/-! ## A spelled form is taken -/

theorem takeToken_cons {token : Token} {lexeme : Lexeme} (h : lexeme.token = token)
    (rest : List Lexeme) : takeToken token (lexeme :: rest) = some rest := by
  rw [takeToken, if_pos h]

theorem takeToken_of_notAhead {token : Token} {lexemes : List Lexeme}
    (h : NotAhead token lexemes) : takeToken token lexemes = none := by
  cases lexemes with
  | nil => rfl
  | cons lexeme more => rw [takeToken, if_neg (h lexeme rfl)]

theorem takeNumeral_cons {lexeme : Lexeme} (h : lexeme.token = .number) (rest : List Lexeme) :
    takeNumeral (lexeme :: rest) = some (lexeme.numeral, rest) := by
  rw [takeNumeral, if_pos h, Lexeme.numeral]

theorem takeNumeral_of_notAhead {lexemes : List Lexeme} (h : NotAhead .number lexemes) :
    takeNumeral lexemes = none := by
  cases lexemes with
  | nil => rfl
  | cons lexeme more => rw [takeNumeral, if_neg (h lexeme rfl)]

/-- A sign is taken whole before what is no sign. -/
theorem takeSign_append {sign : Option Sign} {s rest : List Lexeme} (h : SignSpelled sign s)
    (hplus : NotAhead .plus rest) (hminus : NotAhead .minus rest) :
    takeSign (s ++ rest) = (sign, rest) := by
  cases h with
  | unwritten =>
    cases rest with
    | nil => rfl
    | cons lexeme more =>
      have h1 := hplus lexeme rfl
      have h2 := hminus lexeme rfl
      simp only [List.nil_append, takeSign]
  | plus hmark => simp only [List.singleton_append, takeSign, hmark]
  | minus hmark => simp only [List.singleton_append, takeSign, hmark]

theorem takeSign_append_cons {sign : Option Sign} {s : List Lexeme} {lexeme : Lexeme}
    (h : SignSpelled sign s) (hlexeme : lexeme.token = .number ∨ lexeme.token = .dice)
    (rest : List Lexeme) : takeSign (s ++ lexeme :: rest) = (sign, lexeme :: rest) := by
  rcases hlexeme with hnumber | hdice
  · exact takeSign_append h (notAhead_cons hnumber (by decide) rest)
      (notAhead_cons hnumber (by decide) rest)
  · exact takeSign_append h (notAhead_cons hdice (by decide) rest)
      (notAhead_cons hdice (by decide) rest)

theorem takeEntry_append {entry : EntryForm} {e rest : List Lexeme} (h : EntrySpelled entry e)
    (hcolon : NotAhead .colon rest) : takeEntry (e ++ rest) = some (entry, rest) := by
  cases h with
  | plain hsign hvalue =>
    rw [List.append_assoc, List.singleton_append, takeEntry,
      takeSign_append_cons hsign (.inl hvalue)]
    simp only [takeNumeral_cons hvalue, takeToken_of_notAhead hcolon]
  | weighted hsign hvalue hmark hweight =>
    simp only [List.append_assoc, List.cons_append, List.nil_append]
    rw [takeEntry, takeSign_append_cons hsign (.inl hvalue)]
    simp only [takeNumeral_cons hvalue, takeToken_cons hmark, takeNumeral_cons hweight]

theorem takeEntries_append {entries : List EntryForm} {es rest : List Lexeme} {right : Lexeme}
    (h : EntriesSpelled entries es) (hright : right.token = .rightBracket) :
    takeEntries (es ++ right :: rest) = some (entries, rest) := by
  induction h with
  | last hentry =>
    have hcolon : NotAhead .colon (right :: rest) := notAhead_cons hright (by decide) rest
    rw [takeEntries, takeEntry_append hentry hcolon]
    simp only [hright]
  | @more entry e comma entries es hentry hcomma hentries ih =>
    have hcolon : NotAhead .colon (comma :: (es ++ right :: rest)) :=
      notAhead_cons hcomma (by decide) _
    rw [List.append_assoc, List.cons_append, takeEntries, takeEntry_append hentry hcolon]
    simp only [hcomma, ih, Option.map_some]

/-- A list that spells an entry does not end at its opening bracket. -/
theorem EntriesSpelled.notAhead {entries : List EntryForm} {es : List Lexeme}
    (h : EntriesSpelled entries es) (rest : List Lexeme) :
    NotAhead .rightBracket (es ++ rest) := by
  have hentry : ∀ {entry : EntryForm} {e : List Lexeme}, EntrySpelled entry e →
      ∀ rest, NotAhead .rightBracket (e ++ rest) := by
    intro entry e h rest lexeme hahead hright
    cases h with
    | plain hsign hvalue => cases hsign <;> simp_all
    | weighted hsign hvalue _ _ => cases hsign <;> simp_all
  cases h with
  | last h => exact hentry h rest
  | more h _ _ =>
    rw [List.append_assoc]
    exact hentry h _

theorem takeFaces_append {faces : FacesForm} {f : List Lexeme} (h : FacesSpelled faces f)
    (rest : List Lexeme) : takeFaces (f ++ rest) = some (faces, rest) := by
  cases h with
  | count hnumber => simp only [List.singleton_append, takeFaces, hnumber, Lexeme.numeral]
  | fudge hletter => simp only [List.singleton_append, takeFaces, hletter]
  | emptyList hleft hright =>
    simp only [List.cons_append, List.nil_append, takeFaces, hleft, takeList,
      takeToken_cons hright, Option.map_some]
  | @list left right entries es hleft hentries hright =>
    have hlist := takeToken_of_notAhead (hentries.notAhead (right :: rest))
    simp only [List.cons_append, List.append_assoc, List.nil_append, takeFaces, hleft, takeList,
      hlist, takeEntries_append hentries hright, Option.map_some]

theorem takeDice_of_notAhead {number : Lexeme} {rest : List Lexeme}
    (hnumber : number.token = .number) (hdice : NotAhead .dice rest) :
    takeDice (number :: rest) = none := by
  rw [takeDice, takeCount, takeNumeral_cons hnumber]
  simp only [takeToken_of_notAhead hdice]

/-- A body is taken whole, except a number before the letter `d`. -/
theorem takeBody_append {body : BodyForm} {b rest : List Lexeme} (h : BodySpelled body b)
    (hdice : body.isFlat = true → NotAhead .dice rest) :
    takeBody (b ++ rest) = some (body, rest) := by
  cases h with
  | flat hnumber =>
    rw [List.singleton_append, takeBody, takeDice_of_notAhead hnumber (hdice rfl), takeFlat,
      takeNumeral_cons hnumber]
    rfl
  | @dice letter faces f hletter hfaces =>
    have hnumber : NotAhead .number (letter :: (f ++ rest)) := notAhead_cons hletter (by decide) _
    rw [List.cons_append, takeBody, takeDice, takeCount, takeNumeral_of_notAhead hnumber]
    simp only [takeToken_cons hletter, takeFaces_append hfaces, Option.map_some]
  | counted hcount hletter hfaces =>
    rw [List.cons_append, List.cons_append, takeBody, takeDice, takeCount,
      takeNumeral_cons hcount]
    simp only [takeToken_cons hletter, takeFaces_append hfaces, Option.map_some]

/-- A body begins with a number or with the letter `d`. -/
theorem BodySpelled.eq_cons {body : BodyForm} {b : List Lexeme} (h : BodySpelled body b) :
    ∃ lexeme more, b = lexeme :: more ∧ (lexeme.token = .number ∨ lexeme.token = .dice) := by
  cases h with
  | flat hnumber => exact ⟨_, _, rfl, .inl hnumber⟩
  | dice hletter _ => exact ⟨_, _, rfl, .inr hletter⟩
  | counted hcount _ _ => exact ⟨_, _, rfl, .inl hcount⟩

/-- What is read behind a sign and the start of a term are the term. -/
theorem takeTerm_of_takeBody {sign : Option Sign} {s b : List Lexeme} {body : BodyForm}
    {start : Nat} (hsign : SignSpelled sign s) (hbody : BodySpelled body b)
    (hstart : (s ++ b).head?.map Lexeme.start = some start) (rest : List Lexeme) :
    takeTerm (s ++ b ++ rest) =
      (takeBody (b ++ rest)).map fun (body, rest) => (⟨start, sign, body⟩, rest) := by
  obtain ⟨lexeme, more, rfl, hlexeme⟩ := hbody.eq_cons
  have h := takeSign_append_cons hsign hlexeme (more ++ rest)
  rw [List.append_assoc, List.cons_append]
  obtain ⟨first, others, hfirst⟩ : ∃ first others, s ++ lexeme :: more = first :: others :=
    List.exists_cons_of_ne_nil (by simp)
  rw [hfirst] at hstart
  have hcons : s ++ lexeme :: (more ++ rest) = first :: (others ++ rest) := by
    rw [← List.cons_append, ← List.append_assoc, hfirst, List.cons_append]
  rw [hcons] at h ⊢
  simp only [List.head?_cons, Option.map_some, Option.some.injEq] at hstart
  rw [takeTerm, h, hstart]

theorem takeTerm_append {form : TermForm} {taken rest : List Lexeme}
    (h : TermSpelled form taken) (hdice : form.body.isFlat = true → NotAhead .dice rest) :
    takeTerm (taken ++ rest) = some (form, rest) := by
  obtain ⟨hsign, hbody, hstart⟩ := h
  rw [takeTerm_of_takeBody hsign hbody hstart rest, takeBody_append hbody hdice]
  rfl

/-! ## What is taken is spelled -/

theorem takeToken_eq_some {token : Token} {lexemes rest : List Lexeme}
    (h : takeToken token lexemes = some rest) :
    ∃ lexeme, lexemes = lexeme :: rest ∧ lexeme.token = token := by
  cases lexemes with
  | nil => cases h
  | cons lexeme more =>
    rw [takeToken] at h
    split at h
    · next htoken =>
      cases h
      exact ⟨lexeme, rfl, htoken⟩
    · cases h

theorem takeNumeral_eq_some {lexemes rest : List Lexeme} {number : Numeral}
    (h : takeNumeral lexemes = some (number, rest)) :
    ∃ lexeme, lexemes = lexeme :: rest ∧ lexeme.token = .number ∧ number = lexeme.numeral := by
  cases lexemes with
  | nil => cases h
  | cons lexeme more =>
    rw [takeNumeral] at h
    split at h
    · next htoken =>
      cases h
      exact ⟨lexeme, rfl, htoken, rfl⟩
    · cases h

theorem takeSign_spelled (lexemes : List Lexeme) :
    ∃ s, lexemes = s ++ (takeSign lexemes).2 ∧ SignSpelled (takeSign lexemes).1 s := by
  cases lexemes with
  | nil => exact ⟨[], rfl, .unwritten⟩
  | cons lexeme more =>
    rw [takeSign]
    split
    · next hplus => exact ⟨[lexeme], rfl, .plus hplus⟩
    · next hminus => exact ⟨[lexeme], rfl, .minus hminus⟩
    · exact ⟨[], rfl, .unwritten⟩

theorem takeEntry_spelled {lexemes rest : List Lexeme} {entry : EntryForm}
    (h : takeEntry lexemes = some (entry, rest)) :
    ∃ e, lexemes = e ++ rest ∧ EntrySpelled entry e := by
  obtain ⟨s, hs, hsign⟩ := takeSign_spelled lexemes
  unfold takeEntry at h
  generalize takeSign lexemes = found at hs hsign h
  obtain ⟨sign, afterSign⟩ := found
  simp only at hs hsign h
  split at h
  · cases h
  · next value afterValue hvalue =>
    obtain ⟨v, rfl, hv, rfl⟩ := takeNumeral_eq_some hvalue
    split at h
    · cases h
      exact ⟨s ++ [v], by simp [hs], .plain hsign hv⟩
    · next afterColon hcolon =>
      obtain ⟨c, rfl, hc⟩ := takeToken_eq_some hcolon
      split at h
      · cases h
      · next weight afterWeight hweight =>
        obtain ⟨w, rfl, hw, rfl⟩ := takeNumeral_eq_some hweight
        cases h
        exact ⟨s ++ [v, c, w], by simp [hs], .weighted hsign hv hc hw⟩

theorem takeEntries_spelled {lexemes rest : List Lexeme} {entries : List EntryForm}
    (h : takeEntries lexemes = some (entries, rest)) :
    ∃ es right, lexemes = es ++ right :: rest ∧ EntriesSpelled entries es ∧
      right.token = .rightBracket := by
  fun_induction takeEntries lexemes generalizing entries with
  | case1 => cases h
  | case2 => cases h
  | case3 lexemes entry comma more hentry hcomma ih =>
    obtain ⟨⟨found, after⟩, hfound, heq⟩ := Option.map_eq_some_iff.mp h
    cases heq
    obtain ⟨e, rfl, he⟩ := takeEntry_spelled hentry
    obtain ⟨es, right, rfl, hes, hright⟩ := ih hfound
    exact ⟨e ++ comma :: es, right, by simp, .more he hcomma hes, hright⟩
  | case4 lexemes entry right more hentry hright =>
    cases h
    obtain ⟨e, rfl, he⟩ := takeEntry_spelled hentry
    exact ⟨e, right, rfl, .last he, hright⟩
  | case5 => cases h

theorem takeFaces_spelled {lexemes rest : List Lexeme} {faces : FacesForm}
    (h : takeFaces lexemes = some (faces, rest)) :
    ∃ f, lexemes = f ++ rest ∧ FacesSpelled faces f := by
  cases lexemes with
  | nil => cases h
  | cons lexeme more =>
    rw [takeFaces] at h
    split at h
    · next hnumber =>
      cases h
      exact ⟨[lexeme], rfl, .count hnumber⟩
    · next hletter =>
      cases h
      exact ⟨[lexeme], rfl, .fudge hletter⟩
    · next hleft =>
      obtain ⟨⟨entries, after⟩, hlist, heq⟩ := Option.map_eq_some_iff.mp h
      cases heq
      unfold takeList at hlist
      split at hlist
      · next closed hclosed =>
        obtain ⟨right, rfl, hright⟩ := takeToken_eq_some hclosed
        cases hlist
        exact ⟨[lexeme, right], rfl, .emptyList hleft hright⟩
      · obtain ⟨es, right, rfl, hes, hright⟩ := takeEntries_spelled hlist
        exact ⟨lexeme :: (es ++ [right]), by simp, .list hleft hes hright⟩
    · cases h

theorem takeDice_spelled {lexemes rest : List Lexeme} {body : BodyForm}
    (h : takeDice lexemes = some (body, rest)) :
    ∃ b, lexemes = b ++ rest ∧ BodySpelled body b ∧ body.isFlat = false := by
  unfold takeDice at h
  generalize hcount : takeCount lexemes = found at h
  obtain ⟨count, afterCount⟩ := found
  simp only at h
  split at h
  · cases h
  · next afterLetter hletter =>
    obtain ⟨letter, rfl, hl⟩ := takeToken_eq_some hletter
    obtain ⟨⟨faces, after⟩, hfaces, heq⟩ := Option.map_eq_some_iff.mp h
    cases heq
    obtain ⟨f, rfl, hf⟩ := takeFaces_spelled hfaces
    unfold takeCount at hcount
    split at hcount
    · next number afterNumber hnumber =>
      cases hcount
      obtain ⟨lexeme, rfl, hlexeme, rfl⟩ := takeNumeral_eq_some hnumber
      exact ⟨lexeme :: letter :: f, rfl, .counted hlexeme hl hf, rfl⟩
    · cases hcount
      exact ⟨letter :: f, rfl, .dice hl hf, rfl⟩

theorem takeBody_spelled {lexemes rest : List Lexeme} {body : BodyForm}
    (h : takeBody lexemes = some (body, rest)) :
    ∃ b, lexemes = b ++ rest ∧ BodySpelled body b ∧
      (body.isFlat = true → takeDice lexemes = none) := by
  unfold takeBody at h
  split at h
  · next found hdice =>
    cases h
    obtain ⟨b, hb, hbody, hflat⟩ := takeDice_spelled hdice
    exact ⟨b, hb, hbody, fun htrue => by rw [hflat] at htrue; cases htrue⟩
  · next hdice =>
    obtain ⟨⟨number, after⟩, hnumber, heq⟩ := Option.map_eq_some_iff.mp h
    cases heq
    obtain ⟨lexeme, rfl, hl, rfl⟩ := takeNumeral_eq_some hnumber
    exact ⟨[lexeme], rfl, .flat hl, fun _ => hdice⟩

theorem takeTerm_spelled {lexemes rest : List Lexeme} {form : TermForm}
    (h : takeTerm lexemes = some (form, rest)) :
    ∃ taken, lexemes = taken ++ rest ∧ TermSpelled form taken := by
  cases lexemes with
  | nil => cases h
  | cons first more =>
    obtain ⟨s, hs, hsign⟩ := takeSign_spelled (first :: more)
    rw [takeTerm] at h
    generalize takeSign (first :: more) = found at hs hsign h
    obtain ⟨sign, afterSign⟩ := found
    simp only at hs hsign h
    obtain ⟨⟨body, after⟩, hbody, heq⟩ := Option.map_eq_some_iff.mp h
    cases heq
    obtain ⟨b, rfl, hb, -⟩ := takeBody_spelled hbody
    refine ⟨s ++ b, by rw [hs, List.append_assoc], .mk hsign hb ?_⟩
    obtain ⟨lexeme, others, rfl, -⟩ := hb.eq_cons
    cases hsign <;> simp_all

/-! ## The longest term -/

/-- The term that `taken` spells is a longest one at the front of `taken ++ rest`. -/
def IsLongest (form : TermForm) (taken rest : List Lexeme) : Prop :=
  TermSpelled form taken ∧
    ∀ form' taken' rest', taken' ++ rest' = taken ++ rest → TermSpelled form' taken' →
      taken'.length ≤ taken.length

/-- The spelling of a term tells the term. -/
theorem TermSpelled.form_eq {form form' : TermForm} {taken : List Lexeme}
    (h : TermSpelled form taken) (h' : TermSpelled form' taken) : form' = form := by
  have h1 := takeTerm_append h fun _ => notAhead_nil .dice
  have h2 := takeTerm_append h' fun _ => notAhead_nil .dice
  rw [h1] at h2
  cases h2
  rfl

/-- Where a term is spelled, one is taken that is no shorter. -/
theorem takeTerm_of_spelled {form : TermForm} {taken : List Lexeme} (h : TermSpelled form taken)
    (rest : List Lexeme) :
    ∃ form' rest', takeTerm (taken ++ rest) = some (form', rest') ∧
      rest'.length ≤ rest.length := by
  obtain ⟨hsign, hbody, hstart⟩ := h
  have hread := takeTerm_of_takeBody hsign hbody hstart rest
  cases hbody with
  | @flat number hnumber =>
    rw [List.singleton_append] at hread
    rw [hread, takeBody]
    cases hdice : takeDice (number :: rest) with
    | none =>
      rw [takeFlat, takeNumeral_cons hnumber]
      exact ⟨_, rest, rfl, Nat.le_refl _⟩
    | some found =>
      -- The number counts dice, which reach further than it does.
      obtain ⟨body, rest'⟩ := found
      refine ⟨_, rest', rfl, ?_⟩
      obtain ⟨b, hb, hbody, -⟩ := takeDice_spelled hdice
      obtain ⟨lexeme, more, rfl, -⟩ := hbody.eq_cons
      have hlength := congrArg List.length hb
      simp only [List.length_cons, List.length_append] at hlength
      omega
  | dice hletter hfaces =>
    rw [hread, takeBody_append (.dice hletter hfaces) fun hflat => by cases hflat]
    exact ⟨_, rest, rfl, Nat.le_refl _⟩
  | counted hcount hletter hfaces =>
    rw [hread, takeBody_append (.counted hcount hletter hfaces) fun hflat => by cases hflat]
    exact ⟨_, rest, rfl, Nat.le_refl _⟩

theorem IsLongest.takeTerm_eq {form : TermForm} {taken rest : List Lexeme}
    (h : IsLongest form taken rest) : takeTerm (taken ++ rest) = some (form, rest) := by
  obtain ⟨form', rest', htake, hle⟩ := takeTerm_of_spelled h.1 rest
  obtain ⟨taken', heq, hspelled⟩ := takeTerm_spelled htake
  have hlongest := h.2 form' taken' rest' heq.symm hspelled
  have hlength := congrArg List.length heq
  simp only [List.length_append] at hlength
  obtain ⟨htaken, hrest⟩ := List.append_inj heq (by omega)
  subst htaken hrest
  rw [htake, h.1.form_eq hspelled]

theorem takeTerm_eq_some_iff {lexemes rest : List Lexeme} {form : TermForm} :
    takeTerm lexemes = some (form, rest) ↔
      ∃ taken, lexemes = taken ++ rest ∧ IsLongest form taken rest := by
  constructor
  · intro h
    obtain ⟨taken, rfl, hspelled⟩ := takeTerm_spelled h
    refine ⟨taken, rfl, hspelled, fun form' taken' rest' heq hspelled' => ?_⟩
    obtain ⟨form'', rest'', htake, hle⟩ := takeTerm_of_spelled hspelled' rest'
    rw [heq, h] at htake
    cases htake
    have hlength := congrArg List.length heq
    simp only [List.length_append] at hlength
    omega
  · rintro ⟨taken, rfl, hlongest⟩
    exact hlongest.takeTerm_eq

theorem takeTerm_eq_none_iff {lexemes : List Lexeme} :
    takeTerm lexemes = none ↔
      ∀ form taken rest, taken ++ rest = lexemes → ¬TermSpelled form taken := by
  constructor
  · rintro h form taken rest rfl hspelled
    obtain ⟨form', rest', htake, -⟩ := takeTerm_of_spelled hspelled rest
    rw [h] at htake
    cases htake
  · intro h
    cases htake : takeTerm lexemes with
    | none => rfl
    | some found =>
      obtain ⟨taken, heq, hspelled⟩ := takeTerm_spelled htake
      exact absurd hspelled (h found.1 taken found.2 heq.symm)

end DiceNotation
