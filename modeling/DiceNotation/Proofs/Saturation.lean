import DiceNotation.Score
import Mathlib.Algebra.GroupWithZero.Nat
import Mathlib.Algebra.Ring.Int.Defs

/-!
Saturating sums: they grow with their parts, equal parts add up to one saturated product, and a sum
is exact if the absolute values of its parts add up to a score.
-/
namespace DiceNotation.Score
set_option autoImplicit false

theorem add_le_add {a b c d : Score} (hab : a ≤ b) (hcd : c ≤ d) : a.add c ≤ b.add d := by
  rw [le_iff] at hab hcd ⊢
  rw [toInt_add, toInt_add]
  omega

theorem neg_le_neg {a b : Score} (h : a ≤ b) : b.neg ≤ a.neg := by
  rw [le_iff] at h ⊢
  rw [toInt_neg, toInt_neg]
  omega

section Pointwise
variable {α : Type} {items : List α} {f g : α → Score}

theorem foldl_add_map_le (h : ∀ item ∈ items, f item ≤ g item) {a b : Score} (hab : a ≤ b) :
    (items.map f).foldl add a ≤ (items.map g).foldl add b := by
  induction items generalizing a b with
  | nil => exact hab
  | cons item more ih =>
    obtain ⟨hitem, hmore⟩ := List.forall_mem_cons.mp h
    exact ih hmore (add_le_add hab hitem)

theorem sum_map_le (h : ∀ item ∈ items, f item ≤ g item) :
    sum (items.map f) ≤ sum (items.map g) :=
  foldl_add_map_le h (Int.le_refl _)

theorem foldl_add_flatMap_le {f g : α → List Score}
    (h : ∀ item ∈ items, ∀ a b, a ≤ b → (f item).foldl add a ≤ (g item).foldl add b)
    {a b : Score} (hab : a ≤ b) :
    (items.flatMap f).foldl add a ≤ (items.flatMap g).foldl add b := by
  induction items generalizing a b with
  | nil => exact hab
  | cons item more ih =>
    obtain ⟨hitem, hmore⟩ := List.forall_mem_cons.mp h
    rw [List.flatMap_cons, List.flatMap_cons, List.foldl_append, List.foldl_append]
    exact ih hmore (hitem a b hab)

end Pointwise

/-- Equal parts move a sum in one direction, so it saturates once. -/
theorem foldl_add_replicate (start a : Score) (n : Nat) :
    (List.replicate n a).foldl add start = clamp (start.toInt + a.toInt * n) := by
  induction n generalizing start with
  | zero => simp [clamp_toInt]
  | succ n ih =>
    have hge := start.ge
    have hle := start.le
    have hsucc : a.toInt * ((n + 1 : Nat) : Int) = a.toInt * n + a.toInt := by
      rw [Int.natCast_add, Int.mul_add, Int.natCast_one, Int.mul_one]
    have hsign : 0 ≤ a.toInt ∧ 0 ≤ a.toInt * n ∨ a.toInt ≤ 0 ∧ a.toInt * n ≤ 0 := by
      rcases Int.le_total 0 a.toInt with h | h
      · exact .inl ⟨h, Int.mul_nonneg h (Int.natCast_nonneg n)⟩
      · exact .inr ⟨h, Int.mul_nonpos_of_nonpos_of_nonneg h (Int.natCast_nonneg n)⟩
    rw [List.replicate_succ, List.foldl_cons, ih, hsucc]
    apply ext
    rw [toInt_clamp, toInt_clamp, toInt_add]
    omega

theorem sum_replicate (a : Score) (n : Nat) : sum (List.replicate n a) = a.scale n := by
  have h := foldl_add_replicate zero a n
  rwa [show zero.toInt = 0 from rfl, Int.zero_add] at h

/-! ## Sums that do not saturate -/

theorem toInt_foldl_add {scores : List Score} {start : Score}
    (h : start.toInt.natAbs + (scores.map fun a => a.toInt.natAbs).sum ≤ 2147483647) :
    (scores.foldl add start).toInt = start.toInt + (scores.map toInt).sum := by
  induction scores generalizing start with
  | nil => simp
  | cons a more ih =>
    simp only [List.map_cons, List.sum_cons] at h ⊢
    have hadd : (start.add a).toInt = start.toInt + a.toInt := by
      rw [toInt_add]
      omega
    have hmore : (start.add a).toInt.natAbs + (more.map fun a => a.toInt.natAbs).sum ≤
        2147483647 := by
      rw [hadd]
      omega
    rw [List.foldl_cons, ih hmore, hadd]
    omega

theorem toInt_sum {scores : List Score}
    (h : (scores.map fun a => a.toInt.natAbs).sum ≤ 2147483647) :
    (sum scores).toInt = (scores.map toInt).sum := by
  have hzero : zero.toInt = 0 := rfl
  rw [sum, toInt_foldl_add (by rw [hzero]; omega), hzero, Int.zero_add]

theorem natAbs_sum_le (scores : List Score) :
    (scores.map toInt).sum.natAbs ≤ (scores.map fun a => a.toInt.natAbs).sum := by
  induction scores with
  | nil => simp
  | cons a more ih =>
    simp only [List.map_cons, List.sum_cons]
    omega

end DiceNotation.Score
