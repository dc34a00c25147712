import DiceNotation.Term

/-!
What the builders of dice and terms make.

A builder succeeds exactly when there is a value with the parts it is given, and this value is its
result. Since faces, lists, tables and terms carry the facts that make them valid, the builders
refuse nothing else than parts that lack those facts.
-/
namespace DiceNotation
set_option autoImplicit false

section Results
variable {ε ε' α β : Type}

theorem bind_eq_ok {first : Except ε α} {next : α → Except ε β} {b : β} :
    (first >>= next) = .ok b ↔ ∃ a, first = .ok a ∧ next a = .ok b := by
  cases first with
  | error error =>
    constructor
    · intro h
      cases h
    · rintro ⟨a, ha, -⟩
      cases ha
  | ok found =>
    constructor
    · intro h
      exact ⟨found, rfl, h⟩
    · rintro ⟨a, ha, h⟩
      cases ha
      exact h

theorem mapError_eq_ok {made : Except ε α} {f : ε → ε'} {a : α} :
    made.mapError f = .ok a ↔ made = .ok a := by
  cases made with
  | error error => exact ⟨fun h => (by cases h), fun h => (by cases h)⟩
  | ok found =>
    show (Except.ok found : Except ε' α) = .ok a ↔ (Except.ok found : Except ε α) = .ok a
    rw [Except.ok.injEq, Except.ok.injEq]

end Results

/-! ## Dice -/

section Dice
variable {die : Die}

theorem ofFaces_eq_ok_iff {given : Score} :
    Die.ofFaces given = .ok die ↔
      ∃ faces : Faces, die = .standard faces ∧ given.toInt = faces.count := by
  unfold Die.ofFaces Faces.ofScore
  constructor
  · intro h
    split at h
    · next hone =>
      cases h
      exact ⟨_, rfl, (Int.toNat_of_nonneg (by omega)).symm⟩
    · cases h
  · rintro ⟨faces, rfl, hgiven⟩
    have hpos := faces.pos
    rw [dif_pos (by omega)]
    simp [Except.map, hgiven]

theorem ofValues_eq_ok_iff {values : List Score} :
    Die.ofValues values = .ok die ↔
      ∃ list : FaceList, die = .custom list ∧ list.values = values := by
  unfold Die.ofValues FaceList.ofValues
  constructor
  · intro h
    split at h
    · cases h
    · cases h
      exact ⟨_, rfl, rfl⟩
  · rintro ⟨list, rfl, rfl⟩
    rw [dif_neg list.nonempty]
    exact congrArg (fun list => Except.ok (Die.custom list)) (FaceList.ext_values rfl)

theorem ofEntries_eq_ok_iff {entries : List (Score × Nat)} :
    Die.ofEntries entries = .ok die ↔
      ∃ table : WeightTable, die = .weighted table ∧ table.entries = entries := by
  unfold Die.ofEntries WeightTable.ofEntries
  constructor
  · intro h
    split at h
    · cases h
    · split at h
      · cases h
      · split at h
        · cases h
          exact ⟨_, rfl, rfl⟩
        · cases h
  · rintro ⟨table, rfl, rfl⟩
    rw [dif_neg table.nonempty]
    split
    · next entry hfound =>
      have hpos := table.positive entry (List.mem_of_find?_eq_some hfound)
      have hzero := List.find?_some hfound
      rw [beq_iff_eq] at hzero
      omega
    · have hle : (WeightIndex.ofEntries table.entries).total ≤ WeightTable.maxTotal := by
        rw [WeightIndex.total_ofEntries]
        exact table.total_le
      rw [dif_pos hle]
      exact congrArg (fun table => Except.ok (Die.weighted table)) (WeightTable.ext_entries rfl)

end Dice

/-! ## Terms -/

section Terms
variable {sign : Sign} {count : Nat} {term : Term}

theorem make_eq_ok_iff {die : Die} :
    Term.make sign count die = .ok term ↔
      sign = term.sign ∧ count = term.count ∧ die = term.die := by
  unfold Term.make
  constructor
  · intro h
    split at h
    · cases h
    · split at h
      · cases h
      · split at h
        · split at h <;> cases h
          exact ⟨rfl, rfl, rfl⟩
        all_goals
          cases h
          exact ⟨rfl, rfl, rfl⟩
  · rintro ⟨rfl, rfl, rfl⟩
    obtain ⟨sign, count, die, hpos, hle, hone⟩ := term
    have hzero : count ≠ 0 := by omega
    have hmax : ¬Term.maxCount < count := Nat.not_lt.mpr hle
    rw [dif_neg hzero, dif_neg hmax]
    cases die with
    | constant value => exact dif_pos (hone rfl)
    | _ => rfl

theorem termOfFaces_eq_ok_iff {given : Score} :
    Term.ofFaces sign count given = .ok term ↔
      sign = term.sign ∧ count = term.count ∧
        ∃ faces : Faces, term.die = .standard faces ∧ given.toInt = faces.count := by
  simp only [Term.ofFaces, bind_eq_ok, mapError_eq_ok, make_eq_ok_iff]
  constructor
  · rintro ⟨die, hdie, hsign, hcount, rfl⟩
    exact ⟨hsign, hcount, ofFaces_eq_ok_iff.mp hdie⟩
  · rintro ⟨hsign, hcount, hdie⟩
    exact ⟨term.die, ofFaces_eq_ok_iff.mpr hdie, hsign, hcount, rfl⟩

end Terms

end DiceNotation
