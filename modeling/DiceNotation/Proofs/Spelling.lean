import DiceNotation.Proofs.StrictGrammar

/-!
The lexemes of printed dice and terms.

* `Lexed word p`: before any text that does not go on with a digit, the characters `word` are
  lexemes with the property `p`;
* `PlainDie.Legible`: the dice that are printed in the grammar;
* `lexed_term`: a printed term spells a form with usable numbers, which means that term;
* `exists_split_of_legible`: so printed terms split into themselves.
-/
namespace DiceNotation
set_option autoImplicit false

/-! ## Words -/

/-- A visible character that is no digit. -/
def IsMark (c : Char) : Prop := isBlank c = false ∧ c.isDigit = false

theorem IsMark.notAhead {c : Char} (h : IsMark c) (position : Nat) (text : List Char) :
    NotAhead .number (lexemesFrom position (c :: text)) := by
  rw [lexemesFrom_mark h.1 h.2]
  exact notAhead_cons rfl (ofChar_ne_number h.2) _

def Lexed (word : List Char) (p : List Lexeme → Prop) : Prop :=
  ∀ position rest, NotAhead .number (lexemesFrom (position + word.length) rest) →
    ∃ taken, p taken ∧
      lexemesFrom position (word ++ rest) = taken ++ lexemesFrom (position + word.length) rest

namespace Lexed
variable {a b word : List Char} {c : Char} {p q : List Lexeme → Prop}

theorem imp (h : Lexed word p) (himp : ∀ taken, p taken → q taken) : Lexed word q := by
  intro position rest hahead
  obtain ⟨taken, htaken, hrest⟩ := h position rest hahead
  exact ⟨taken, himp taken htaken, hrest⟩

theorem nil : Lexed [] fun taken => taken = [] :=
  fun _ _ _ => ⟨[], rfl, rfl⟩

theorem digits (n : Nat) : Lexed (Decimal.digits n) fun taken =>
    ∃ number : Lexeme, taken = [number] ∧ number.token = .number ∧ number.numeral.value = n := by
  intro position rest hahead
  have h := lexemesFrom_digits (Decimal.digits_ne_nil n)
    (fun _ hc => Decimal.isDigit_of_mem_digits hc) position hahead
  rw [h]
  refine ⟨[_], ⟨_, rfl, rfl, ?_⟩, rfl⟩
  exact Decimal.value_digits n

theorem mark (h : Lexed word p) (hc : IsMark c) : Lexed (c :: word) fun taken =>
    ∃ (mark : Lexeme) (more : List Lexeme),
      taken = mark :: more ∧ mark.token = .ofChar c ∧ p more := by
  intro position rest hahead
  have hlength : position + (c :: word).length = position + 1 + word.length := by
    rw [List.length_cons]
    omega
  rw [hlength] at hahead ⊢
  obtain ⟨more, hmore, hrest⟩ := h (position + 1) rest hahead
  refine ⟨.ofGlyph ⟨c, position⟩ :: more, ⟨_, more, rfl, rfl, hmore⟩, ?_⟩
  rw [List.cons_append, lexemesFrom_mark hc.1 hc.2, hrest, List.cons_append]

/-- A number that `a` ends in ends where the mark stands. -/
theorem append (ha : Lexed a p) (hc : IsMark c) (hb : Lexed (c :: b) q) :
    Lexed (a ++ c :: b) fun taken => ∃ x y, taken = x ++ y ∧ p x ∧ q y := by
  intro position rest hahead
  have hlength : position + (a ++ c :: b).length = position + a.length + (c :: b).length := by
    rw [List.length_append]
    omega
  rw [hlength] at hahead ⊢
  obtain ⟨y, hy, hyrest⟩ := hb (position + a.length) rest hahead
  obtain ⟨x, hx, hxrest⟩ := ha position (c :: b ++ rest) (hc.notAhead _ _)
  refine ⟨x ++ y, ⟨x, y, rfl, hx, hy⟩, ?_⟩
  rw [List.append_assoc, hxrest, hyrest, List.append_assoc]

end Lexed

/-! ## Entries -/

/-- All numbers of an entry are scores. -/
def EntryForm.Small (entry : EntryForm) : Prop := ∀ number ∈ entry.numbers, number.value ≤ 2147483647

def WritesEntry (weighted : Bool) (plain : Int × Nat) (taken : List Lexeme) : Prop :=
  ∃ entry, EntrySpelled entry taken ∧ entry.weight.isSome = weighted ∧ entry.Small ∧
    entry.plain .exact = plain

theorem lexed_score {value : Score} (h : -2147483648 < value.toInt) :
    Lexed value.spelling fun taken => ∃ (sign : Option Sign) (s : List Lexeme) (number : Lexeme),
      taken = s ++ [number] ∧ SignSpelled sign s ∧ number.token = .number ∧
      number.numeral.value ≤ 2147483647 ∧
      (sign.getD .plus).coefficient * number.numeral.value = value.toInt := by
  have hle := value.le
  unfold Score.spelling
  split
  · refine ((Lexed.digits _).mark ⟨rfl, rfl⟩).imp ?_
    rintro taken ⟨mark, more, rfl, hmark, number, rfl, hnumber, hvalue⟩
    refine ⟨some .minus, [mark], number, rfl, .minus hmark, hnumber, by omega, ?_⟩
    show -1 * (number.numeral.value : Int) = value.toInt
    omega
  · refine (Lexed.digits _).imp ?_
    rintro taken ⟨number, rfl, hnumber, hvalue⟩
    refine ⟨none, [], number, rfl, .unwritten, hnumber, by omega, ?_⟩
    show 1 * (number.numeral.value : Int) = value.toInt
    omega

theorem lexed_value {value : Score} (h : -2147483648 < value.toInt) :
    Lexed value.spelling (WritesEntry false (value.toInt, 1)) := by
  refine (lexed_score h).imp ?_
  rintro taken ⟨sign, s, number, rfl, hsign, hnumber, hle, hvalue⟩
  refine ⟨_, .plain hsign hnumber, rfl, fun other hother => ?_, Prod.ext hvalue rfl⟩
  cases List.mem_singleton.mp hother
  exact hle

theorem lexed_entry {entry : Score × Nat} (h : -2147483648 < entry.1.toInt)
    (hweight : entry.2 ≤ 2147483647) :
    Lexed (Die.entrySpelling entry) (WritesEntry true (entry.1.toInt, entry.2)) := by
  refine ((lexed_score h).append ⟨rfl, rfl⟩ ((Lexed.digits entry.2).mark ⟨rfl, rfl⟩)).imp ?_
  rintro taken ⟨_, _, rfl, ⟨sign, s, number, rfl, hsign, hnumber, hle, hvalue⟩,
    colon, _, rfl, hcolon, weight, rfl, hnumber', hvalue'⟩
  rw [List.append_assoc]
  refine ⟨_, .weighted hsign hnumber hcolon hnumber', rfl, fun other hother => ?_,
    Prod.ext hvalue hvalue'⟩
  rcases List.mem_cons.mp hother with rfl | hother
  · exact hle
  · cases List.mem_singleton.mp hother
    rw [hvalue']
    exact hweight

def WritesEntries (weighted : Bool) (plains : List (Int × Nat)) (taken : List Lexeme) : Prop :=
  ∃ entries, EntriesSpelled entries taken ∧
    (∀ entry ∈ entries, entry.weight.isSome = weighted ∧ entry.Small) ∧
    entries.map (EntryForm.plain .exact) = plains

theorem lexed_entries {α : Type} {word : α → List Char} {plain : α → Int × Nat} {weighted : Bool}
    {items : List α} (hne : items ≠ [])
    (h : ∀ item ∈ items, Lexed (word item) (WritesEntry weighted (plain item))) :
    Lexed (commaSeparated (items.map word)) (WritesEntries weighted (items.map plain)) := by
  induction items with
  | nil => exact absurd rfl hne
  | cons item more ih =>
    have hitem := h item (List.mem_cons_self ..)
    cases more with
    | nil =>
      refine hitem.imp ?_
      rintro taken ⟨entry, hentry, hweighted, hsmall, hplain⟩
      refine ⟨[entry], .last hentry, ?_, by rw [List.map_singleton, hplain]; rfl⟩
      exact fun other hother => List.mem_singleton.mp hother ▸ ⟨hweighted, hsmall⟩
    | cons next others =>
      have hmore := ih (List.cons_ne_nil _ _) fun other hother =>
        h other (List.mem_cons_of_mem item hother)
      refine (hitem.append ⟨rfl, rfl⟩ (hmore.mark ⟨rfl, rfl⟩)).imp ?_
      rintro taken ⟨_, _, rfl, ⟨entry, hentry, hweighted, hsmall, hplain⟩,
        comma, _, rfl, hcomma, entries, hentries, hall, hplains⟩
      refine ⟨entry :: entries, .more hentry hcomma hentries,
        List.forall_mem_cons.mpr ⟨⟨hweighted, hsmall⟩, hall⟩, ?_⟩
      rw [List.map_cons, hplain, hplains]
      rfl

/-! ## Dice -/

/-- What the grammar can write: a flat number has no sign of its own, the lowest score is no face,
and a weight is a score. -/
def PlainDie.Legible : PlainDie → Prop
  | .constant value => 0 ≤ value
  | .standard _ => True
  | .custom values => ∀ value ∈ values, -2147483648 < value
  | .weighted entries => ∀ entry ∈ entries, -2147483648 < entry.1 ∧ entry.2 ≤ 2147483647

def WritesDie (plain : PlainDie) (taken : List Lexeme) : Prop :=
  ∃ letter faces f, taken = letter :: f ∧ letter.token = .dice ∧ FacesSpelled faces f ∧
    (∀ number ∈ faces.numbers, number.value ≤ 2147483647) ∧ faces.plain .exact = plain

theorem plain_list_unweighted {read : NumberReading} {entries : List EntryForm}
    (h : ∀ entry ∈ entries, entry.weight.isSome = false) :
    (FacesForm.list entries).plain read =
      .custom ((entries.map (EntryForm.plain read)).map Prod.fst) := by
  have hany : ¬entries.any (fun entry => entry.weight.isSome) = true := by
    rw [List.any_eq_true]
    rintro ⟨entry, hentry, hsome⟩
    rw [h entry hentry] at hsome
    cases hsome
  rw [FacesForm.plain, if_neg hany, List.map_map]
  rfl

theorem plain_list_weighted {read : NumberReading} {entries : List EntryForm}
    (hne : entries ≠ []) (h : ∀ entry ∈ entries, entry.weight.isSome = true) :
    (FacesForm.list entries).plain read = .weighted (entries.map (EntryForm.plain read)) := by
  obtain ⟨entry, hentry⟩ := List.exists_mem_of_ne_nil entries hne
  rw [FacesForm.plain, if_pos (List.any_eq_true.mpr ⟨entry, hentry, h entry hentry⟩)]

theorem EntriesSpelled.ne_nil {entries : List EntryForm} {es : List Lexeme}
    (h : EntriesSpelled entries es) : entries ≠ [] := by
  cases h <;> exact List.cons_ne_nil _ _

theorem lexed_list {α : Type} {word : α → List Char} {plain : α → Int × Nat} {weighted : Bool}
    {items : List α} (hne : items ≠ [])
    (h : ∀ item ∈ items, Lexed (word item) (WritesEntry weighted (plain item))) :
    Lexed ('d' :: '[' :: commaSeparated (items.map word) ++ [']'])
      (WritesDie (if weighted then .weighted (items.map plain)
        else .custom ((items.map plain).map Prod.fst))) := by
  have hopen := ((lexed_entries hne h).mark (c := '[') ⟨rfl, rfl⟩).mark (c := 'd') ⟨rfl, rfl⟩
  have hclose := Lexed.nil.mark (c := ']') ⟨rfl, rfl⟩
  refine (hopen.append ⟨rfl, rfl⟩ hclose).imp ?_
  rintro taken ⟨_, _, rfl, ⟨letter, _, rfl, hletter, left, es, rfl, hleft, entries, hentries,
    hall, hplains⟩, right, _, rfl, hright, rfl⟩
  refine ⟨letter, .list entries, left :: (es ++ [right]), rfl, hletter,
    .list hleft hentries hright, ?_, ?_⟩
  · intro number hnumber
    obtain ⟨entry, hentry, hmem⟩ := List.mem_flatMap.mp hnumber
    exact (hall entry hentry).2 number hmem
  · cases weighted with
    | false => rw [plain_list_unweighted fun entry hentry => (hall entry hentry).1, hplains]; rfl
    | true =>
      rw [plain_list_weighted hentries.ne_nil fun entry hentry => (hall entry hentry).1, hplains]
      rfl

theorem lexed_die {die : Die} (hdie : die.isConstant = false) (h : die.plain.Legible) :
    Lexed die.spelling (WritesDie die.plain) := by
  cases die with
  | constant value => cases hdie
  | standard faces =>
    refine ((Lexed.digits faces.count).mark ⟨rfl, rfl⟩).imp ?_
    rintro taken ⟨letter, _, rfl, hletter, number, rfl, hnumber, hvalue⟩
    refine ⟨letter, .count number.numeral, [number], rfl, hletter, .count hnumber, ?_,
      congrArg PlainDie.standard hvalue⟩
    intro other hother
    cases List.mem_singleton.mp hother
    rw [hvalue]
    exact faces.le
  | custom list =>
    have hlist := lexed_list list.nonempty fun value hvalue =>
      lexed_value (h value.toInt (List.mem_map_of_mem hvalue))
    rw [List.map_map] at hlist
    exact hlist
  | weighted table =>
    have hentries : ∀ entry ∈ table.entries,
        Lexed (Die.entrySpelling entry) (WritesEntry true (entry.1.toInt, entry.2)) := by
      intro entry hentry
      have hlegible := h (entry.1.toInt, entry.2) (List.mem_map.mpr ⟨entry, hentry, rfl⟩)
      exact lexed_entry hlegible.1 hlegible.2
    exact lexed_list table.nonempty hentries

/-! ## Terms -/

/-- The lexemes spell a term without a sign, whose numbers are usable. -/
def WritesTerm (count : Nat) (die : PlainDie) (taken : List Lexeme) : Prop :=
  ∃ body, BodySpelled body taken ∧
    ∀ start sign, TermForm.Fits 10000 ⟨start, sign, body⟩ ∧
      TermForm.plain .exact ⟨start, sign, body⟩ = ⟨sign.getD .plus, count, die⟩

theorem Term.spelling_of_dice {term : Term} (h : term.die.isConstant = false) :
    ∃ tail, term.die.spelling = 'd' :: tail ∧
      term.spelling = Decimal.digits term.count ++ 'd' :: tail := by
  obtain ⟨sign, count, die, _, _, _⟩ := term
  cases die with
  | constant value => cases h
  | standard faces => exact ⟨_, rfl, rfl⟩
  | custom list => exact ⟨_, rfl, rfl⟩
  | weighted table => exact ⟨_, rfl, rfl⟩

theorem lexed_dice {term : Term} (hdie : term.die.isConstant = false)
    (h : term.die.plain.Legible) : Lexed term.spelling (WritesTerm term.count term.die.plain) := by
  obtain ⟨tail, hspelling, hterm⟩ := term.spelling_of_dice hdie
  have hletter := lexed_die hdie h
  rw [hspelling] at hletter
  rw [hterm]
  refine ((Lexed.digits term.count).append ⟨rfl, rfl⟩ hletter).imp ?_
  rintro taken ⟨_, _, rfl, ⟨count, rfl, hcount, hvalue⟩, letter, faces, f, rfl, hletter, hfaces,
    hnumbers, hplain⟩
  refine ⟨_, .counted hcount hletter hfaces, fun start sign =>
    ⟨⟨fun number hnumber => ?_, hnumbers⟩, ?_⟩⟩
  · cases hnumber
    rw [hvalue]
    exact ⟨term.count_pos, term.count_le⟩
  · show PlainTerm.mk _ count.numeral.value (faces.plain .exact) = _
    rw [hvalue, hplain]

theorem lexed_flat {value : Score} (h : 0 ≤ value.toInt) :
    Lexed value.spelling (WritesTerm 1 (.constant value.toInt)) := by
  have hle := value.le
  rw [Score.spelling, if_neg (by omega)]
  refine (Lexed.digits _).imp ?_
  rintro taken ⟨number, rfl, hnumber, hvalue⟩
  refine ⟨_, .flat hnumber, fun start sign => ⟨⟨nofun, fun other hother => ?_⟩, ?_⟩⟩
  · cases List.mem_singleton.mp hother
    omega
  · have hplain : ((number.numeral.value : Nat) : Int) = value.toInt := by omega
    exact congrArg (fun shown => PlainTerm.mk (sign.getD .plus) 1 (.constant shown)) hplain

theorem lexed_term {term : Term} (h : term.die.plain.Legible) :
    Lexed term.spelling (WritesTerm term.count term.die.plain) := by
  cases hdie : term.die with
  | constant value =>
    rw [hdie] at h
    have hspelling : term.spelling = value.spelling := by rw [Term.spelling, hdie]
    rw [hspelling, term.count_eq_one (by rw [hdie]; rfl)]
    exact lexed_flat h
  | standard | custom | weighted =>
    rw [← hdie]
    exact lexed_dice (by rw [hdie]; rfl) h

/-! ## All terms -/

/-- An operator is a sign, unwritten only where it leads. -/
theorem lexemesFrom_operator (sign : Sign) (leading : Bool) (position : Nat) (text : List Char) :
    ∃ written s, SignSpelled written s ∧ written.getD .plus = sign ∧
      (leading = false → written ≠ none) ∧
      lexemesFrom position (sign.operator leading ++ text) =
        s ++ lexemesFrom (position + (sign.operator leading).length) text := by
  have hplus (position : Nat) (text : List Char) := lexemesFrom_mark (c := '+') rfl rfl position text
  have hminus (position : Nat) (text : List Char) :=
    lexemesFrom_mark (c := '-') rfl rfl position text
  have hblank (position : Nat) (text : List Char) :=
    lexemesFrom_blank (c := ' ') (by decide) position text
  cases sign with
  | plus =>
    cases leading with
    | true => exact ⟨none, [], .unwritten, rfl, nofun, rfl⟩
    | false =>
      refine ⟨some .plus, [.ofGlyph ⟨'+', position + 1⟩], .plus rfl, rfl, nofun, ?_⟩
      simp only [Sign.operator, Bool.false_eq_true, if_false, List.cons_append, List.nil_append,
        hblank, hplus]
      rfl
  | minus =>
    cases leading with
    | true =>
      refine ⟨some .minus, [.ofGlyph ⟨'-', position⟩], .minus rfl, rfl, nofun, ?_⟩
      simp only [Sign.operator, if_true, List.cons_append, List.nil_append, hminus]
      rfl
    | false =>
      refine ⟨some .minus, [.ofGlyph ⟨'-', position + 1⟩], .minus rfl, rfl, nofun, ?_⟩
      simp only [Sign.operator, Bool.false_eq_true, if_false, List.cons_append, List.nil_append,
        hblank, hminus]
      rfl

/-- Terms that do not lead begin with an operator. -/
theorem notAhead_termsSpelling {token : Token} (hplus : Token.plus ≠ token)
    (hminus : Token.minus ≠ token) (terms : List Term) (position : Nat) :
    NotAhead token (lexemesFrom position (termsSpelling false terms)) := by
  cases terms with
  | nil => exact notAhead_nil token
  | cons term more =>
    obtain ⟨written, s, hsign, -, hwritten, hoperator⟩ := lexemesFrom_operator term.sign false
      position (term.spelling ++ termsSpelling false more)
    rw [termsSpelling, List.append_assoc, hoperator]
    cases hsign with
    | unwritten => exact absurd rfl (hwritten rfl)
    | plus hmark => exact notAhead_cons hmark hplus _
    | minus hmark => exact notAhead_cons hmark hminus _

theorem exists_split_of_legible {terms : List Term}
    (h : ∀ term ∈ terms, term.die.plain.Legible) (leading : Bool) (position : Nat) :
    ∃ split, Split (lexemesFrom position (termsSpelling leading terms)) split ∧
      (∀ term ∈ split, term.1.Admissible 10000) ∧
      split.map (fun term => term.1.plain .exact) = terms.map Term.plain := by
  induction terms generalizing leading position with
  | nil => exact ⟨[], split_nil_iff.mpr rfl, nofun, rfl⟩
  | cons term more ih =>
    obtain ⟨hterm, hmore⟩ := List.forall_mem_cons.mp h
    obtain ⟨written, s, hsign, hmeant, -, hoperator⟩ := lexemesFrom_operator term.sign leading
      position (term.spelling ++ termsSpelling false more)
    -- What is printed behind the term begins with an operator, so it neither lengthens the last
    -- number of the term nor turns a flat number into a count.
    obtain ⟨b, ⟨body, hbody, hmeans⟩, hb⟩ := lexed_term hterm _ (termsSpelling false more)
      (notAhead_termsSpelling (by decide) (by decide) more _)
    obtain ⟨split, hsplit, hadmissible, hplain⟩ := ih hmore false
      (position + (term.sign.operator leading).length + term.spelling.length)
    obtain ⟨lexeme, others, rfl, -⟩ := hbody.eq_cons
    obtain ⟨first, after, hfirst⟩ : ∃ first after, s ++ lexeme :: others = first :: after :=
      List.exists_cons_of_ne_nil (by simp)
    have hspelled : TermSpelled ⟨first.start, written, body⟩ (s ++ lexeme :: others) :=
      .mk hsign hbody (by rw [hfirst]; rfl)
    obtain ⟨hfits, hform⟩ := hmeans first.start written
    refine ⟨(⟨first.start, written, body⟩, s ++ lexeme :: others) :: split,
      split_cons_iff.mpr ⟨_, ?_, hspelled, fun _ => ?_, hsplit⟩,
      List.forall_mem_cons.mpr ⟨⟨hfits, ?_⟩, hadmissible⟩, ?_⟩
    · rw [termsSpelling, List.append_assoc, hoperator, hb, List.append_assoc]
    · exact notAhead_termsSpelling (by decide) (by decide) more _
    · rw [hform]
      exact term.die.valid_plain
    · rw [List.map_cons, List.map_cons, hplain, hform, hmeant]
      rfl

end DiceNotation
