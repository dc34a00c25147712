import DiceNotation.Proofs.Drawing

/-!
The places that draws pick. `Die.drawIndex` computes the place of the drawn value among the
possible ones from the words alone, with nothing that keeps it in range.

* `rangeIndex_eq` and `scaledWord_eq`: the choices of `Draw.below` and `Draw.weight` as bare
  numbers;
* `WeightTable.getElem?_find`: whatever number is looked up in the index of a table, the place that
  is found is one of the entries;
* `Die.exists_choice`: a die and its places come from one choice, and each place it picks holds the
  value that is shown;
* `draws_exactly_possibleValues`: so no place is out of range, and exactly the possible values are
  drawn.
-/
namespace DiceNotation
set_option autoImplicit false

/-! ## Bare choices -/

namespace Draw

/-- The choice of `below` as a number, corrected upwards without regard to `n`. -/
def rangeIndex (n : Nat) : Draw Nat := do
  let w ← word
  if 4294967296 - n < w.low n then
    let w' ← word
    return if 4294967296 ≤ w.low n + w'.high n then w.high n + 1 else w.high n
  else
    return w.high n

/-- The high half that the first accepted word gives. -/
def scaledWord (n : Nat) : Draw Nat
  | [] => none
  | w :: ws => if accepts n w then some (w.high n, ws) else scaledWord n ws

theorem rangeIndex_eq {n : Nat} (pos : 0 < n) :
    rangeIndex n = do let i ← below n pos; return i.val := by
  unfold rangeIndex below
  simp only [bind_assoc]
  congr 1
  funext w
  split
  · simp only [bind_assoc]
    congr 1
    funext w'
    split <;> simp
  · simp

theorem scaledWord_eq {n : Nat} (pos : 0 < n) :
    scaledWord n = do let i ← weight n pos; return i.val := by
  funext words
  induction words with
  | nil => rfl
  | cons w ws ih =>
    show (if accepts n w then some (w.high n, ws) else scaledWord n ws) =
      Option.bind (if accepts n w then some (⟨w.high n, w.high_lt pos⟩, ws) else weight n pos ws)
        fun found => some (found.1.val, found.2)
    split
    · rfl
    · exact ih

end Draw

/-! ## The place among possible values -/

theorem WeightTable.getElem?_find (table : WeightTable) (chosen : Nat) :
    table.values[table.index.find chosen]? = some (table.face chosen) := by
  rw [values, List.getElem?_map, List.getElem?_eq_getElem (table.indexes.find_lt chosen)]
  rfl

/-- The place of the drawn value among the possible ones. A flat modifier takes no word. -/
def Die.drawIndex : Die → Draw Nat
  | .standard faces => Draw.rangeIndex faces.count
  | .custom list => Draw.rangeIndex list.values.length
  | .weighted table => do
    let chosen ← Draw.scaledWord table.index.total
    return table.index.find chosen
  | .constant _ => return 0

/-- One choice decides the value and its place. -/
theorem Die.exists_choice (die : Die) :
    ∃ (n : Nat) (choose : Draw (Fin n)) (place : Fin n → Nat) (face : Fin n → Score),
      die.draw = (do let i ← choose; return face i) ∧
      die.drawIndex = (do let i ← choose; return place i) ∧
      ∀ i, die.possibleValues[place i]? = some (face i) := by
  cases die with
  | standard faces =>
    refine ⟨_, Draw.below faces.count faces.pos, Fin.val, faces.face, rfl,
      Draw.rangeIndex_eq faces.pos, fun i => ?_⟩
    simp [possibleValues]
  | custom list =>
    have hpos := List.length_pos_iff.mpr list.nonempty
    exact ⟨_, Draw.below list.values.length hpos, Fin.val, list.values.get, rfl,
      Draw.rangeIndex_eq hpos, fun i => List.getElem?_eq_getElem i.isLt⟩
  | weighted table =>
    refine ⟨_, Draw.weight table.index.total table.total_pos, fun i => table.index.find i,
      fun i => table.face i, rfl, ?_, fun i => table.getElem?_find i⟩
    rw [drawIndex, Draw.scaledWord_eq table.total_pos, bind_assoc]
    simp only [pure_bind]
  | constant value =>
    exact ⟨1, pure 0, fun _ => 0, fun _ => value, rfl, rfl, fun _ => rfl⟩

section Places
variable {die : Die} {words rest : List Word}

theorem drawIndex_lt {i : Nat} (h : die.drawIndex words = some (i, rest)) :
    i < die.possibleValues.length := by
  obtain ⟨n, choose, place, face, -, hplaces, hvalues⟩ := die.exists_choice
  rw [hplaces] at h
  obtain ⟨chosen, -, rfl⟩ := draw_return_eq_some.mp h
  exact (List.getElem?_eq_some_iff.mp (hvalues chosen)).1

theorem draw_eq_some_iff {value : Score} :
    die.draw words = some (value, rest) ↔
      ∃ i, die.drawIndex words = some (i, rest) ∧ die.possibleValues[i]? = some value := by
  obtain ⟨n, choose, place, face, hdraw, hplaces, hvalues⟩ := die.exists_choice
  rw [hdraw, hplaces]
  constructor
  · intro h
    obtain ⟨chosen, hchosen, rfl⟩ := draw_return_eq_some.mp h
    exact ⟨place chosen, draw_return_eq_some.mpr ⟨chosen, hchosen, rfl⟩, hvalues chosen⟩
  · rintro ⟨i, h, hvalue⟩
    obtain ⟨chosen, hchosen, rfl⟩ := draw_return_eq_some.mp h
    rw [hvalues chosen] at hvalue
    exact draw_return_eq_some.mpr ⟨chosen, hchosen, (Option.some.inj hvalue).symm⟩

end Places

/-- Whatever the words are, the place that is picked is one of the list of possible values, the
value that stands there is shown, and every possible value is shown with some words. -/
theorem draws_exactly_possibleValues {die : Die} (hfits : die.FitsWord) :
    (∀ words rest i, die.drawIndex words = some (i, rest) → i < die.possibleValues.length) ∧
    (∀ words rest value, die.draw words = some (value, rest) ↔
      ∃ i, die.drawIndex words = some (i, rest) ∧ die.possibleValues[i]? = some value) ∧
    ∀ value, (∃ words rest, die.draw words = some (value, rest)) ↔
      value ∈ die.possibleValues := by
  refine ⟨fun words rest i => drawIndex_lt, fun words rest value => draw_eq_some_iff,
    fun value => ⟨?_, fun hvalue => ?_⟩⟩
  · rintro ⟨words, rest, h⟩
    exact mem_possibleValues_of_draw h
  · exact (reaches_of_mem_possibleValues hfits hvalue).exists_words

theorem draws_exactly_possibleValues_fudge :
    Die.fudge.FitsWord ∧
    (∀ words rest i, Die.fudge.drawIndex words = some (i, rest) → i < 3) ∧
    ∀ value, (∃ words rest, Die.fudge.draw words = some (value, rest)) ↔
      value ∈ [Score.one.neg, .zero, .one] := by
  have hfits : Die.fudge.FitsWord := show 3 < 4294967296 by decide
  obtain ⟨hplace, -, hvalue⟩ := draws_exactly_possibleValues hfits
  exact ⟨hfits, hplace, hvalue⟩

end DiceNotation
