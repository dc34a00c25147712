import DiceNotation.Formula.Reading

/-!
What a form means, in plain integers: a `PlainTerm` is a sign, a count and the numbers of a die,
whether or not there is such a die.

* `PlainDie.Valid` and `PlainDie.flaw`: when there is a die, and what is wrong when there is none;
* `Term.plain`: the plain data of a term, which tell the term;
* `TermForm.plain`: the plain data that a form writes, under a way to read its numbers;
* `term_eq_ok_iff` and `term_eq_error_iff`: the term of a form is the one that its plain data
  describe, and if there is none, it fails with their flaw.
-/
namespace DiceNotation
set_option autoImplicit false

/-! ## Plain dice and terms -/

inductive PlainDie where
  | constant (value : Int)
  | standard (faces : Nat)
  | custom (values : List Int)
  | weighted (entries : List (Int × Nat))

structure PlainTerm where
  sign : Sign
  count : Nat
  die : PlainDie

namespace PlainDie

/-- There is a die with these numbers. -/
def Valid : PlainDie → Prop
  | .constant _ => True
  | .standard faces => 1 ≤ faces
  | .custom values => values ≠ []
  | .weighted entries =>
    entries ≠ [] ∧ (∀ entry ∈ entries, 1 ≤ entry.2) ∧ weightTotal entries ≤ 4294967295

/-- Why there is none: of several zero weights the first is reported, and a zero weight rather
than the sum of the weights. -/
def flaw : PlainDie → Option DieFlaw
  | .constant _ => none
  | .standard faces => if faces = 0 then some (.noFaces .zero) else none
  | .custom values => if values = [] then some .noValues else none
  | .weighted entries =>
    if entries = [] then some .noEntries else
      match entries.find? fun entry => entry.2 == 0 with
      | some entry => some (.zeroWeight (.clamp entry.1))
      | none => if 4294967295 < weightTotal entries then some .weightOverflow else none

theorem flaw_eq_none_iff {plain : PlainDie} : plain.flaw = none ↔ plain.Valid := by
  cases plain with
  | constant value => simp [flaw, Valid]
  | standard faces =>
    simp only [flaw, Valid, ite_eq_right_iff, reduceCtorEq, imp_false]
    omega
  | custom values => simp [flaw, Valid]
  | weighted entries =>
    have hfind : (entries.find? fun entry => entry.2 == 0) = none ↔
        ∀ entry ∈ entries, 1 ≤ entry.2 := by
      simp only [List.find?_eq_none, beq_iff_eq, Nat.one_le_iff_ne_zero]
    rw [flaw, Valid, ← hfind]
    by_cases hne : entries = []
    · simp [hne]
    · rw [if_neg hne]
      cases entries.find? fun entry => entry.2 == 0 with
      | none => simp [hne]
      | some entry => simp

end PlainDie

def Die.plain : Die → PlainDie
  | .standard faces => .standard faces.count
  | .custom list => .custom (list.values.map Score.toInt)
  | .weighted table => .weighted (table.entries.map fun entry => (entry.1.toInt, entry.2))
  | .constant value => .constant value.toInt

def Term.plain (term : Term) : PlainTerm := ⟨term.sign, term.count, term.die.plain⟩

theorem Die.plain_inj {a b : Die} (h : a.plain = b.plain) : a = b := by
  cases a with
  | standard faces =>
    cases b with
    | standard faces' =>
      cases faces
      cases faces'
      cases h
      rfl
    | _ => cases h
  | custom list =>
    cases b with
    | custom list' =>
      have hvalues : list.values = list'.values :=
        List.map_inj_right (fun _ _ => Score.ext) |>.mp (PlainDie.custom.inj h)
      rw [FaceList.ext_values hvalues]
    | _ => cases h
  | weighted table =>
    cases b with
    | weighted table' =>
      have hinj : ∀ x y : Score × Nat, (x.1.toInt, x.2) = (y.1.toInt, y.2) → x = y :=
        fun x y hxy => Prod.ext (Score.ext (Prod.mk.inj hxy).1) (Prod.mk.inj hxy).2
      have hentries : table.entries = table'.entries :=
        List.map_inj_right hinj |>.mp (PlainDie.weighted.inj h)
      rw [WeightTable.ext_entries hentries]
    | _ => cases h
  | constant value =>
    cases b with
    | constant value' => rw [Score.ext (PlainDie.constant.inj h)]
    | _ => cases h

theorem Term.plain_inj {a b : Term} (h : a.plain = b.plain) : a = b := by
  obtain ⟨sign, count, die, _, _, _⟩ := a
  obtain ⟨sign', count', die', _, _, _⟩ := b
  obtain ⟨rfl, rfl, hdie⟩ := PlainTerm.mk.inj h
  have hdie := Die.plain_inj hdie
  subst hdie
  rfl

theorem Die.valid_plain (die : Die) : die.plain.Valid := by
  cases die with
  | standard faces => exact faces.pos
  | custom list => simpa [Die.plain, PlainDie.Valid] using list.nonempty
  | weighted table =>
    refine ⟨by simpa using table.nonempty, ?_, ?_⟩
    · intro entry hentry
      obtain ⟨made, hmade, rfl⟩ := List.mem_map.mp hentry
      exact table.positive made hmade
    · rw [weightTotal_map]
      exact table.total_le
  | constant value => trivial

/-! ## Building from plain data -/

/-- A result is the die that plain data describe, or their flaw. -/
def PlainDie.Makes (plain : PlainDie) : Except DieFlaw Die → Prop
  | .ok die => die.plain = plain
  | .error flaw => plain.flaw = some flaw

theorem makes_ofFaces {given : Score} (h : 0 ≤ given.toInt) :
    (PlainDie.standard given.toInt.toNat).Makes (Die.ofFaces given) := by
  unfold Die.ofFaces Faces.ofScore
  split
  · rfl
  · have hzero : given = .zero := Score.ext (by show given.toInt = 0; omega)
    subst hzero
    rfl

theorem makes_ofValues (values : List Score) :
    (PlainDie.custom (values.map Score.toInt)).Makes (Die.ofValues values) := by
  unfold Die.ofValues FaceList.ofValues
  split
  · next h =>
    subst h
    rfl
  · rfl

theorem makes_ofEntries (entries : List (Score × Nat)) :
    (PlainDie.weighted (entries.map fun entry => (entry.1.toInt, entry.2))).Makes
      (Die.ofEntries entries) := by
  unfold Die.ofEntries WeightTable.ofEntries
  split
  · next h =>
    subst h
    rfl
  · next hne =>
    have hne' : (entries.map fun entry => (entry.1.toInt, entry.2)) ≠ [] := by simpa using hne
    split
    · next entry hentry =>
      show PlainDie.flaw _ = _
      rw [PlainDie.flaw, if_neg hne', List.find?_map]
      simp only [Function.comp_def, hentry, Option.map_some, Score.clamp_toInt]
    · next hzero =>
      split
      · rfl
      · next htotal =>
        show PlainDie.flaw _ = _
        rw [PlainDie.flaw, if_neg hne', List.find?_map]
        simp only [Function.comp_def, hzero, Option.map_none, weightTotal_map]
        rw [WeightIndex.total_ofEntries] at htotal
        exact if_pos (Nat.lt_of_not_le htotal)

/-! ## The plain data of a form -/

/-- A way to read the numbers of a form: a count, and any other number. -/
structure NumberReading where
  count : Nat → Nat
  other : Nat → Nat

/-- Every number as written. -/
def NumberReading.exact : NumberReading := ⟨fun n => n, fun n => n⟩

/-- A count out of its limits is one, and no other number exceeds the highest score. -/
def NumberReading.tolerant (maxCount : Nat) : NumberReading :=
  ⟨fun n => if 1 ≤ n ∧ n ≤ min maxCount 10000 then n else 1, fun n => min n 2147483647⟩

def EntryForm.plain (read : NumberReading) (entry : EntryForm) : Int × Nat :=
  ((entry.sign.getD .plus).coefficient * read.other entry.value.value,
    match entry.weight with
    | none => 1
    | some weight => read.other weight.value)

/-- A list has weights if one entry has. -/
def FacesForm.plain (read : NumberReading) : FacesForm → PlainDie
  | .count number => .standard (read.other number.value)
  | .fudge => .custom [-1, 0, 1]
  | .list entries =>
    if entries.any fun entry => entry.weight.isSome then
      .weighted (entries.map (EntryForm.plain read))
    else
      .custom (entries.map fun entry => (entry.plain read).1)

def TermForm.plain (read : NumberReading) (form : TermForm) : PlainTerm :=
  match form.body with
  | .flat number => ⟨form.sign.getD .plus, 1, .constant (read.other number.value)⟩
  | .dice none faces => ⟨form.sign.getD .plus, 1, faces.plain read⟩
  | .dice (some count) faces =>
    ⟨form.sign.getD .plus, read.count count.value, faces.plain read⟩

/-! ## What a form makes -/

theorem Numeral.toInt_score (number : Numeral) :
    number.score.toInt = ((min number.value 2147483647 : Nat) : Int) := by
  rw [Numeral.score, Score.toInt_clamp]
  omega

theorem EntryForm.toInt_face (maxCount : Nat) (entry : EntryForm) :
    entry.face.toInt = (entry.plain (.tolerant maxCount)).1 := by
  have hscore := entry.value.toInt_score
  simp only [EntryForm.face, EntryForm.plain, NumberReading.tolerant]
  cases entry.sign.getD .plus with
  | plus => simp only [Sign.apply, Sign.coefficient, hscore, Int.one_mul]
  | minus =>
    simp only [Sign.apply, Sign.coefficient, Score.toInt_neg, hscore]
    omega

theorem EntryForm.weightMeant_eq (maxCount : Nat) (entry : EntryForm) :
    entry.weightMeant = (entry.plain (.tolerant maxCount)).2 := by
  simp only [EntryForm.weightMeant, EntryForm.plain]
  cases entry.weight with
  | none => rfl
  | some weight => exact congrArg Int.toNat weight.toInt_score

theorem FacesForm.makes_die (maxCount : Nat) (faces : FacesForm) :
    (faces.plain (.tolerant maxCount)).Makes faces.die := by
  cases faces with
  | count number =>
    have hscore := number.toInt_score
    have h := makes_ofFaces (show 0 ≤ number.score.toInt by omega)
    rw [hscore] at h
    exact h
  | fudge => rfl
  | list entries =>
    rw [FacesForm.plain, FacesForm.die]
    split
    · have h := makes_ofEntries (entries.map fun entry => (entry.face, entry.weightMeant))
      rw [List.map_map] at h
      simpa only [Function.comp_def, EntryForm.toInt_face maxCount,
        EntryForm.weightMeant_eq maxCount] using h
    · have h := makes_ofValues (entries.map EntryForm.face)
      rw [List.map_map] at h
      simpa only [Function.comp_def, EntryForm.toInt_face maxCount] using h

theorem Numeral.isCount_iff {maxCount : Nat} {number : Numeral} :
    number.isCount maxCount = true ↔ 1 ≤ number.value ∧ number.value ≤ min maxCount 10000 := by
  rw [Numeral.isCount, Bool.and_eq_true, decide_eq_true_eq, decide_eq_true_eq, Term.maxCount]

theorem countMeant_some (maxCount : Nat) (count : Numeral) :
    countMeant maxCount (some count) = (NumberReading.tolerant maxCount).count count.value := by
  simp only [countMeant, Numeral.isCount_iff, NumberReading.tolerant]

/-- A result is the term that plain data describe, or the flaw in their die. -/
def PlainTerm.Makes (plain : PlainTerm) : Except DieFlaw Term → Prop
  | .ok term => term.plain = plain
  | .error flaw => plain.die.flaw = some flaw

theorem TermForm.makes_term (maxCount : Nat) (form : TermForm) :
    (form.plain (.tolerant maxCount)).Makes (form.term maxCount) := by
  obtain ⟨start, sign, body⟩ := form
  cases body with
  | flat number =>
    show PlainTerm.mk _ _ _ = PlainTerm.mk _ _ _
    rw [PlainTerm.mk.injEq]
    exact ⟨rfl, rfl, congrArg PlainDie.constant number.toInt_score⟩
  | dice count faces =>
    have hdie := faces.makes_die maxCount
    have hcount : (TermForm.plain (.tolerant maxCount) ⟨start, sign, .dice count faces⟩) =
        ⟨sign.getD .plus, countMeant maxCount count, faces.plain (.tolerant maxCount)⟩ := by
      cases count with
      | none => rfl
      | some count => rw [countMeant_some, TermForm.plain]
    rw [hcount]
    simp only [TermForm.term]
    split
    · next flaw hflaw =>
      rw [hflaw] at hdie
      exact hdie
    · next die hok =>
      rw [hok] at hdie
      exact congrArg (PlainTerm.mk _ _) hdie

theorem TermForm.term_eq_ok_iff {maxCount : Nat} {form : TermForm} {term : Term} :
    form.term maxCount = .ok term ↔ term.plain = form.plain (.tolerant maxCount) := by
  have hmakes := form.makes_term maxCount
  cases hmade : form.term maxCount with
  | ok made =>
    rw [hmade] at hmakes
    rw [Except.ok.injEq]
    exact ⟨fun heq => heq ▸ hmakes, fun hterm => Term.plain_inj (Eq.trans hmakes hterm.symm)⟩
  | error flaw =>
    rw [hmade] at hmakes
    refine ⟨nofun, fun hterm => ?_⟩
    have hvalid := PlainDie.flaw_eq_none_iff.mpr term.die.valid_plain
    have hflaw : (form.plain (.tolerant maxCount)).die.flaw = some flaw := hmakes
    rw [← hterm] at hflaw
    exact absurd (hvalid.symm.trans hflaw) nofun

theorem TermForm.term_eq_error_iff {maxCount : Nat} {form : TermForm} {flaw : DieFlaw} :
    form.term maxCount = .error flaw ↔
      (form.plain (.tolerant maxCount)).die.flaw = some flaw := by
  have hmakes := form.makes_term maxCount
  cases hmade : form.term maxCount with
  | ok made =>
    rw [hmade] at hmakes
    have hvalid := PlainDie.flaw_eq_none_iff.mpr made.die.valid_plain
    have hterm : made.plain = form.plain (.tolerant maxCount) := hmakes
    rw [← hterm]
    exact ⟨nofun, fun hflaw => absurd (hvalid.symm.trans hflaw) nofun⟩
  | error found =>
    rw [hmade] at hmakes
    have hfound : (form.plain (.tolerant maxCount)).die.flaw = some found := hmakes
    rw [hfound, Except.error.injEq, Option.some.injEq]

/-- What a form means under a limit decides its term. -/
theorem TermForm.term_eq_of_plain {a b : TermForm} {maxCount maxCount' : Nat}
    (h : a.plain (.tolerant maxCount) = b.plain (.tolerant maxCount')) :
    a.term maxCount = b.term maxCount' := by
  cases hb : b.term maxCount' with
  | ok term => rwa [TermForm.term_eq_ok_iff, h, ← TermForm.term_eq_ok_iff]
  | error flaw => rwa [TermForm.term_eq_error_iff, h, ← TermForm.term_eq_error_iff]

end DiceNotation
