/-!
Weights of entries, and which entry a number falls to.

Entries stand behind one another, and each takes as many numbers as its weight says. The sums of
their weights are kept, so that a number is looked up without adding the weights again.

* `WeightIndex.ofEntries`: the sums of the weights, added up one by one;
* `WeightIndex.Indexes`: what the sums say of the entries. `indexes_ofEntries` says that they do,
  and `Indexes.unique` that no other index does;
* `WeightIndex.find`: the number of an entry, and `Indexes.find_eq_iff`: which numbers fall to it.
-/
namespace DiceNotation
set_option autoImplicit false

/-! ## Sums of weights -/

section Weights
variable {α β : Type}

/-- The sum of the weights of some entries. -/
def weightTotal : List (α × Nat) → Nat
  | [] => 0
  | entry :: more => entry.2 + weightTotal more

theorem weightTotal_map (f : α → β) (entries : List (α × Nat)) :
    weightTotal (entries.map fun entry => (f entry.1, entry.2)) = weightTotal entries := by
  induction entries with
  | nil => rfl
  | cons entry more ih => rw [List.map_cons, weightTotal, weightTotal, ih]

theorem weightTotal_append (entries more : List (α × Nat)) :
    weightTotal (entries ++ more) = weightTotal entries + weightTotal more := by
  induction entries with
  | nil => rw [List.nil_append, weightTotal, Nat.zero_add]
  | cons entry others ih => rw [List.cons_append, weightTotal, weightTotal, ih, Nat.add_assoc]

theorem weightTotal_take_succ {entries : List (α × Nat)} {i : Nat} (hi : i < entries.length) :
    weightTotal (entries.take (i + 1)) = weightTotal (entries.take i) + entries[i].2 := by
  rw [List.take_succ_eq_append_getElem hi, weightTotal_append]
  rfl

theorem weightTotal_take_le {i j : Nat} (h : i ≤ j) (entries : List (α × Nat)) :
    weightTotal (entries.take i) ≤ weightTotal (entries.take j) := by
  have hsplit := weightTotal_append ((entries.take j).take i) ((entries.take j).drop i)
  rw [List.take_append_drop, List.take_take, Nat.min_eq_left h] at hsplit
  omega

end Weights

/-! ## The index of some entries -/

structure WeightIndex where
  /-- The weights of all beginnings, from that of the first entry to that of all but the last. -/
  sums : List Nat
  total : Nat
deriving DecidableEq

namespace WeightIndex
variable {α : Type}

/-- Adds weights to those before, and keeps each sum but the last, which is the total. -/
def adding (before : Nat) : List (α × Nat) → WeightIndex
  | [] => ⟨[], before⟩
  | entry :: more =>
    let index := adding (before + entry.2) more
    ⟨before :: index.sums, index.total⟩

def ofEntries : List (α × Nat) → WeightIndex
  | [] => ⟨[], 0⟩
  | entry :: more => adding entry.2 more

/-- The number of the entry that a number falls to: the first whose sum exceeds it, or else the
last. -/
def find (index : WeightIndex) (chosen : Nat) : Nat := index.sums.findIdx fun sum => chosen < sum

/-- The sums are those of the entries. -/
structure Indexes (index : WeightIndex) (entries : List (α × Nat)) : Prop where
  length_sums : index.sums.length + 1 = entries.length
  getElem_sums : ∀ i, (h : i < index.sums.length) →
    index.sums[i] = weightTotal (entries.take (i + 1))
  total : index.total = weightTotal entries

theorem length_sums_adding (before : Nat) (entries : List (α × Nat)) :
    (adding before entries).sums.length = entries.length := by
  induction entries generalizing before with
  | nil => rfl
  | cons entry more ih => rw [adding, List.length_cons, ih, List.length_cons]

theorem getElem_sums_adding (before : Nat) (entries : List (α × Nat)) {i : Nat}
    (h : i < (adding before entries).sums.length) :
    (adding before entries).sums[i] = before + weightTotal (entries.take i) := by
  induction entries generalizing before i with
  | nil => cases h
  | cons entry more ih =>
    cases i with
    | zero => rfl
    | succ i =>
      have hmore := ih (before + entry.2) (Nat.lt_of_succ_lt_succ h)
      rw [List.take_succ_cons, weightTotal, ← Nat.add_assoc]
      exact hmore

theorem total_adding (before : Nat) (entries : List (α × Nat)) :
    (adding before entries).total = before + weightTotal entries := by
  induction entries generalizing before with
  | nil => rfl
  | cons entry more ih => rw [adding, ih, weightTotal, Nat.add_assoc]

theorem total_ofEntries (entries : List (α × Nat)) :
    (ofEntries entries).total = weightTotal entries := by
  cases entries with
  | nil => rfl
  | cons entry more => exact total_adding entry.2 more

theorem indexes_ofEntries {entries : List (α × Nat)} (h : entries ≠ []) :
    (ofEntries entries).Indexes entries := by
  cases entries with
  | nil => exact absurd rfl h
  | cons entry more =>
    refine ⟨congrArg (· + 1) (length_sums_adding entry.2 more), fun i hi => ?_,
      total_ofEntries (entry :: more)⟩
    rw [List.take_succ_cons, weightTotal]
    exact getElem_sums_adding entry.2 more hi

namespace Indexes
variable {index : WeightIndex} {entries : List (α × Nat)}

theorem unique {index' : WeightIndex} (h : index.Indexes entries) (h' : index'.Indexes entries) :
    index = index' := by
  obtain ⟨sums, total⟩ := index
  obtain ⟨sums', total'⟩ := index'
  have hsums : sums = sums' := by
    have hlength : sums.length = sums'.length :=
      Nat.succ.inj (h.length_sums.trans h'.length_sums.symm)
    exact List.ext_getElem hlength fun i hi hi' =>
      (h.getElem_sums i hi).trans (h'.getElem_sums i hi').symm
  have htotal : total = total' := h.total.trans h'.total.symm
  rw [hsums, htotal]

theorem find_lt (h : index.Indexes entries) (chosen : Nat) :
    index.find chosen < entries.length := by
  have hle : index.find chosen ≤ index.sums.length := List.findIdx_le_length
  have hlength := h.length_sums
  omega

/-- To an entry fall the numbers from the weight before it up to the weight with it. -/
theorem find_eq_iff (h : index.Indexes entries) {chosen : Nat} (hchosen : chosen < index.total)
    {i : Nat} (hi : i < entries.length) :
    index.find chosen = i ↔
      weightTotal (entries.take i) ≤ chosen ∧ chosen < weightTotal (entries.take (i + 1)) := by
  have hlength := h.length_sums
  have hbehind (j : Nat) (hj : j < index.sums.length) :
      decide (chosen < index.sums[j]) = false ↔ weightTotal (entries.take (j + 1)) ≤ chosen := by
    rw [h.getElem_sums j hj, decide_eq_false_iff_not, Nat.not_lt]
  -- The sums grow, so the one just before the entry decides for all before it.
  have hbefore : (∀ j, (hj : j < index.sums.length) → j < i →
      decide (chosen < index.sums[j]) = false) ↔ weightTotal (entries.take i) ≤ chosen := by
    constructor
    · intro hall
      cases i with
      | zero => exact Nat.zero_le _
      | succ i => exact (hbehind i (by omega)).mp (hall i (by omega) (Nat.lt_succ_self i))
    · intro hle j hj hlt
      exact (hbehind j hj).mpr (Nat.le_trans (weightTotal_take_le hlt entries) hle)
  unfold find
  by_cases hlast : i < index.sums.length
  · rw [List.findIdx_eq hlast, and_comm]
    refine and_congr ⟨fun hall => hbefore.mp fun j hj hlt => hall j hlt,
      fun hle j hlt => hbefore.mpr hle j (Nat.lt_trans hlt hlast) hlt⟩ ?_
    rw [h.getElem_sums i hlast, decide_eq_true_eq]
  · have hi' : i = index.sums.length := by omega
    have htotal : chosen < weightTotal (entries.take (i + 1)) := by
      rw [List.take_of_length_le (by omega), ← h.total]
      exact hchosen
    rw [and_iff_left htotal, ← hbefore, hi', List.findIdx_eq_length]
    constructor
    · intro hall j hj _
      exact hall _ (List.getElem_mem hj)
    · intro hall sum hsum
      obtain ⟨j, hj, rfl⟩ := List.getElem_of_mem hsum
      exact hall j hj hj

end Indexes

end WeightIndex

end DiceNotation
