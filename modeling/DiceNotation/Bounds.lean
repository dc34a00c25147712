import DiceNotation.Score

/-!
The least and the greatest of some scores.

* `leastOf` and `greatestOf` go through the scores once;
* `Bounds values least greatest`: both stand among the values, and no value lies beyond them.
  `bounds_of_ne_nil` finds such bounds, and `Bounds.unique` says that there are no others.
-/
namespace DiceNotation
set_option autoImplicit false

def leastOf (values : List Score) (h : values ≠ []) : Score :=
  values.tail.foldl min (values.head h)

def greatestOf (values : List Score) (h : values ≠ []) : Score :=
  values.tail.foldl max (values.head h)

structure Bounds (values : List Score) (least greatest : Score) : Prop where
  least_mem : least ∈ values
  least_le : ∀ value ∈ values, least ≤ value
  greatest_mem : greatest ∈ values
  le_greatest : ∀ value ∈ values, value ≤ greatest

/-! ## Choosing from a list -/

section Choice
variable {choose : Score → Score → Score}

theorem foldl_choose_mem (h : ∀ a b, choose a b = a ∨ choose a b = b) (first : Score)
    (more : List Score) : more.foldl choose first ∈ first :: more := by
  induction more generalizing first with
  | nil => exact List.mem_singleton.mpr rfl
  | cons next more ih =>
    rw [List.foldl_cons, List.mem_cons, List.mem_cons]
    rcases List.mem_cons.mp (ih (choose first next)) with hchosen | hmore
    · rw [hchosen]
      exact (h first next).imp_right .inl
    · exact .inr (.inr hmore)

theorem rel_foldl_choose {r : Score → Score → Prop} (hrefl : ∀ a, r a a)
    (htrans : ∀ a b c, r a b → r b c → r a c) (hleft : ∀ a b, r (choose a b) a)
    (hright : ∀ a b, r (choose a b) b) (first : Score) (more : List Score) :
    ∀ value ∈ first :: more, r (more.foldl choose first) value := by
  induction more generalizing first with
  | nil => exact List.forall_mem_singleton.mpr (hrefl first)
  | cons next more ih =>
    obtain ⟨hchosen, hmore⟩ := List.forall_mem_cons.mp (ih (choose first next))
    exact List.forall_mem_cons.mpr ⟨htrans _ _ _ hchosen (hleft first next),
      List.forall_mem_cons.mpr ⟨htrans _ _ _ hchosen (hright first next), hmore⟩⟩

end Choice

/-! ## The bounds of a list -/

section Values
variable {values : List Score}

theorem bounds_of_ne_nil (h : values ≠ []) :
    Bounds values (leastOf values h) (greatestOf values h) := by
  cases values with
  | nil => exact absurd rfl h
  | cons first more =>
    refine ⟨foldl_choose_mem (fun a b => ?_) first more, ?_,
      foldl_choose_mem (fun a b => ?_) first more, ?_⟩
    · show (if a ≤ b then a else b) = a ∨ (if a ≤ b then a else b) = b
      split
      · exact .inl rfl
      · exact .inr rfl
    · refine rel_foldl_choose (r := (· ≤ ·)) ?_ ?_ ?_ ?_ first more <;> intros <;>
        simp only [Score.le_iff, Score.toInt_min] at * <;> omega
    · show (if a ≤ b then b else a) = a ∨ (if a ≤ b then b else a) = b
      split
      · exact .inr rfl
      · exact .inl rfl
    · refine rel_foldl_choose (r := fun a b => b ≤ a) ?_ ?_ ?_ ?_ first more <;> intros <;>
        simp only [Score.le_iff, Score.toInt_max] at * <;> omega

theorem Bounds.unique {least least' greatest greatest' : Score} (h : Bounds values least greatest)
    (h' : Bounds values least' greatest') : least = least' ∧ greatest = greatest' := by
  have hleast := Score.le_iff.mp (h.least_le least' h'.least_mem)
  have hleast' := Score.le_iff.mp (h'.least_le least h.least_mem)
  have hgreatest := Score.le_iff.mp (h.le_greatest greatest' h'.greatest_mem)
  have hgreatest' := Score.le_iff.mp (h'.le_greatest greatest h.greatest_mem)
  exact ⟨Score.ext (by omega), Score.ext (by omega)⟩

end Values

end DiceNotation
