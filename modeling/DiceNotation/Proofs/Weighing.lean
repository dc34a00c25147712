import DiceNotation.Proofs.Indexing
import DiceNotation.Proofs.Supply
import Mathlib.Algebra.BigOperators.Group.Finset.Basic
import Mathlib.Data.FinEnum
import Mathlib.Order.Interval.Finset.Nat

/-!
How many words of all that there are show each entry of a weighted die.

The products of a number `n` by words are the multiples of `n`, so as many of them fall into one
stretch of `k * n` integers as into any other. The accepted words with a given high half are those
whose product falls into one such stretch, with the same `k` for every high half, and an entry
answers for as many high halves as its weight says.

* `firstMultiple_add_le_iff`: the multiples in a stretch;
* `card_acceptedWords_high`: every high half has the same number of accepted words;
* `entryIndex_eq_iff`: the high halves of an entry, and `entryIndex_eq_find`: the index that a table
  keeps finds the same entry;
* `weighted_draws_proportional`: so the words that show an entry are proportional to its weight.
-/
namespace DiceNotation
set_option autoImplicit false

/-! ## Multiples in a stretch -/

/-- The least number whose multiple of `n` is not below `a`. -/
def firstMultiple (n a : Nat) : Nat := (a + (n - 1)) / n

theorem firstMultiple_add_le_iff {n : Nat} (pos : 0 < n) (a k x : Nat) :
    firstMultiple n a + k ≤ x ↔ a + k * n ≤ x * n := by
  have hfirst := Nat.div_add_mod (a + (n - 1)) n
  have hmod := Nat.mod_lt (a + (n - 1)) pos
  rw [Nat.mul_comm] at hfirst
  change firstMultiple n a * n + _ = _ at hfirst
  constructor
  · intro hle
    have hmul := Nat.mul_le_mul_right n hle
    rw [Nat.add_mul] at hmul
    omega
  · intro hle
    by_contra hlt
    have hmul := Nat.mul_le_mul_right n (show x + 1 ≤ firstMultiple n a + k by omega)
    rw [Nat.add_mul, Nat.add_mul, Nat.one_mul] at hmul
    omega

/-! ## Accepted words -/

/-- All words that may decide among `n` equal outcomes. -/
def acceptedWords (n : Nat) : Finset Word := Finset.univ.filter fun w => Draw.accepts n w = true

theorem mem_acceptedWords {n : Nat} {w : Word} :
    w ∈ acceptedWords n ↔ Draw.accepts n w = true := by
  rw [acceptedWords, Finset.mem_filter]
  exact and_iff_right (Finset.mem_univ w)

/-- The words of one high half have their products in one stretch. -/
theorem mem_acceptedWords_high_iff {n high : Nat} {w : Word} :
    w ∈ (acceptedWords n).filter (fun w => w.high n = high) ↔
      high * 4294967296 + 4294967296 % n ≤ w.toNat * n ∧
        w.toNat * n < (high + 1) * 4294967296 := by
  have hlow : w.low n < 4294967296 := Nat.mod_lt _ (by decide)
  rw [Finset.mem_filter, mem_acceptedWords, Draw.accepts, decide_eq_true_eq]
  unfold Word.low Word.high at *
  omega

/-- The multiples of `n` in the stretch of a high half are products of words, since the last stretch
ends where those do. -/
theorem lt_of_lt_stretch {n high a x : Nat} (h : high < n)
    (hlength : a + 4294967296 / n * n = (high + 1) * 4294967296)
    (hx : x < firstMultiple n a + 4294967296 / n) : x < 4294967296 := by
  have hend := Nat.mul_le_mul_right 4294967296 h
  rw [← Nat.not_le, firstMultiple_add_le_iff (Nat.zero_lt_of_lt h), Nat.not_le, hlength] at hx
  refine Nat.lt_of_mul_lt_mul_right (a := n) ?_
  show x * n < 4294967296 * n
  omega

theorem card_acceptedWords_high {n high : Nat} (h : high < n) :
    ((acceptedWords n).filter fun w => w.high n = high).card = 4294967296 / n := by
  have pos : 0 < n := Nat.zero_lt_of_lt h
  obtain ⟨a, hstart⟩ : ∃ a, high * 4294967296 + 4294967296 % n = a := ⟨_, rfl⟩
  have hlength : a + 4294967296 / n * n = (high + 1) * 4294967296 := by
    have hdiv := Nat.div_add_mod 4294967296 n
    rw [Nat.mul_comm] at hdiv
    omega
  have hmem (w : Word) : w ∈ (acceptedWords n).filter (fun w => w.high n = high) ↔
      w.toNat ∈ Finset.Ico (firstMultiple n a) (firstMultiple n a + 4294967296 / n) := by
    have hfirst := firstMultiple_add_le_iff pos a 0 w.toNat
    rw [Nat.add_zero, Nat.zero_mul, Nat.add_zero] at hfirst
    rw [mem_acceptedWords_high_iff, hstart, Finset.mem_Ico, hfirst, ← hlength, ← Nat.not_le,
      ← firstMultiple_add_le_iff pos, Nat.not_le]
  have hword {x : Nat} (hx : x < firstMultiple n a + 4294967296 / n) :
      (UInt32.ofNat x).toNat = x :=
    UInt32.toNat_ofNat_of_lt' (lt_of_lt_stretch h hlength hx)
  calc ((acceptedWords n).filter fun w => w.high n = high).card
    _ = (Finset.Ico (firstMultiple n a) (firstMultiple n a + 4294967296 / n)).card := by
      refine Finset.card_nbij' UInt32.toNat UInt32.ofNat ?_ ?_ (fun w _ => UInt32.ofNat_toNat) ?_
      · intro w hw
        rw [Finset.mem_coe] at hw ⊢
        exact (hmem w).mp hw
      · intro x hx
        rw [Finset.mem_coe] at hx ⊢
        refine (hmem _).mpr ?_
        rwa [hword (Finset.mem_Ico.mp hx).2]
      · intro x hx
        rw [Finset.mem_coe] at hx
        exact hword (Finset.mem_Ico.mp hx).2
    _ = 4294967296 / n := by rw [Nat.card_Ico, Nat.add_sub_cancel_left]

/-! ## The words of an entry -/

/-- The weights of entries added up, from first to last, onto a weight `before` them. -/
def cumulativeWeights (before : Nat) : List (Score × Nat) → List Nat
  | [] => []
  | entry :: more => (before + entry.2) :: cumulativeWeights (before + entry.2) more

/-- The place of the first entry whose cumulative weight exceeds the chosen one, and the place
behind all entries if there is none. -/
def entryIndex (entries : List (Score × Nat)) (chosen : Nat) : Nat :=
  (cumulativeWeights 0 entries).findIdx fun total => chosen < total

theorem findIdx_cumulativeWeights_eq_iff {entries : List (Score × Nat)} {i : Nat}
    (hi : i < entries.length) (before chosen : Nat) :
    (cumulativeWeights before entries).findIdx (fun total => before + chosen < total) = i ↔
      weightTotal (entries.take i) ≤ chosen ∧
        chosen < weightTotal (entries.take i) + entries[i].2 := by
  induction entries generalizing i before chosen with
  | nil => exact absurd hi (Nat.not_lt_zero i)
  | cons entry more ih =>
    rw [cumulativeWeights, List.findIdx_cons]
    by_cases hlt : chosen < entry.2
    · have hfirst : before + chosen < before + entry.2 := by omega
      cases i with
      | zero => simp [hfirst, hlt, weightTotal]
      | succ i =>
        simp only [hfirst, decide_true, cond_true, List.take_succ_cons, weightTotal]
        omega
    · have hlater : ¬before + chosen < before + entry.2 := by omega
      -- What is chosen loses the weight that is added in front of the others.
      have hsame : before + entry.2 + (chosen - entry.2) = before + chosen := by omega
      simp only [hlater, decide_false, cond_false]
      cases i with
      | zero => simp [hlt, weightTotal]
      | succ i =>
        have hmore := ih (Nat.lt_of_succ_lt_succ hi) (before + entry.2) (chosen - entry.2)
        rw [hsame] at hmore
        rw [Nat.add_right_cancel_iff, hmore, List.take_succ_cons, weightTotal,
          List.getElem_cons_succ]
        omega

/-- An entry answers for as many high halves as its weight says, behind those of the entries
before it. -/
theorem entryIndex_eq_iff {entries : List (Score × Nat)} {i : Nat} (hi : i < entries.length)
    (chosen : Nat) :
    entryIndex entries chosen = i ↔
      weightTotal (entries.take i) ≤ chosen ∧
        chosen < weightTotal (entries.take i) + entries[i].2 := by
  have hplace := findIdx_cumulativeWeights_eq_iff hi 0 chosen
  simp only [Nat.zero_add] at hplace
  exact hplace

/-- The index of a table finds the entries that adding up the weights finds. -/
theorem entryIndex_eq_find (table : WeightTable) {chosen : Nat} (h : chosen < table.index.total) :
    entryIndex table.entries chosen = table.index.find chosen := by
  have hlt := table.indexes.find_lt chosen
  rw [entryIndex_eq_iff hlt, ← weightTotal_take_succ hlt]
  exact (table.indexes.find_eq_iff h hlt).mp rfl

theorem card_entryWords (table : WeightTable) (i : Fin table.entries.length) :
    ((acceptedWords table.total).filter fun w =>
        entryIndex table.entries (w.high table.total) = i).card =
      table.entries[i].2 * (4294967296 / table.total) := by
  have hle := weightTotal_take_le (show i + 1 ≤ table.entries.length from i.isLt) table.entries
  rw [weightTotal_take_succ i.isLt, List.take_length] at hle
  generalize hbefore : weightTotal (table.entries.take i) = before at hle
  have hindex (w : Word) : entryIndex table.entries (w.high table.total) = i ↔
      w.high table.total ∈ Finset.Ico before (before + table.entries[i].2) := by
    rw [entryIndex_eq_iff i.isLt, Finset.mem_Ico, hbefore]
    exact Iff.rfl
  have hone : ∀ high ∈ Finset.Ico before (before + table.entries[i].2),
      (((acceptedWords table.total).filter fun w =>
          entryIndex table.entries (w.high table.total) = i).filter fun w =>
            w.high table.total = high).card = 4294967296 / table.total := by
    intro high hhigh
    have hlt : high < table.total := Nat.lt_of_lt_of_le (Finset.mem_Ico.mp hhigh).2 hle
    rw [← card_acceptedWords_high hlt, Finset.filter_filter]
    refine congrArg Finset.card (Finset.filter_congr fun w _ => ?_)
    refine and_iff_right_of_imp fun hw => (hindex w).mpr ?_
    rw [hw]
    exact hhigh
  rw [Finset.card_eq_sum_card_fiberwise (f := fun w => w.high table.total)
    (t := Finset.Ico before (before + table.entries[i].2)), Finset.sum_const_nat hone,
    Nat.card_Ico, Nat.add_sub_cancel_left]
  intro w hw
  rw [Finset.mem_coe, Finset.mem_filter] at hw
  exact Finset.mem_coe.mpr ((hindex w).mp hw.2)

/-! ## Draws by one word -/

theorem draw_weighted_accepted (table : WeightTable) {w : Word} (h : w ∈ acceptedWords table.total)
    (rest : List Word) :
    ∃ i : Fin table.entries.length, entryIndex table.entries (w.high table.total) = i ∧
      (Die.weighted table).draw (w :: rest) = some (table.entries[i].1, rest) := by
  rw [← table.index_total] at h ⊢
  have hweight : Draw.weight table.index.total table.total_pos (w :: rest) = _ :=
    Draw.weight_accepted (mem_acceptedWords.mp h) rest
  have hplace := entryIndex_eq_find table (w.high_lt table.total_pos)
  exact ⟨⟨_, table.indexes.find_lt _⟩, hplace, draw_return_eq_some.mpr ⟨_, hweight, rfl⟩⟩

theorem draw_weighted_rejected (table : WeightTable) {w : Word} (h : w ∉ acceptedWords table.total)
    (rest : List Word) :
    (Die.weighted table).draw (w :: rest) = (Die.weighted table).draw rest := by
  rw [← table.index_total] at h
  have hrejected : Draw.accepts table.index.total w = false :=
    Bool.eq_false_iff.mpr fun haccepts => h (mem_acceptedWords.mpr haccepts)
  have hweight : Draw.weight table.index.total table.total_pos (w :: rest) = _ :=
    Draw.weight_rejected hrejected rest
  show Option.bind (Draw.weight table.index.total table.total_pos (w :: rest)) _ =
    Option.bind (Draw.weight table.index.total table.total_pos rest) _
  rw [hweight]

/-- Of all words, each entry of a weighted die has as many that are accepted and select it as its
weight says, times a number that is the same for all entries. An accepted word shows the value of
the entry it selects, and a word that is not accepted is left out. -/
theorem weighted_draws_proportional (table : WeightTable) :
    (∀ i : Fin table.entries.length,
      ((acceptedWords table.total).filter fun w =>
          entryIndex table.entries (w.high table.total) = i).card =
        table.entries[i].2 * (4294967296 / table.total)) ∧
    ∀ w rest,
      (w ∈ acceptedWords table.total → ∃ i : Fin table.entries.length,
        entryIndex table.entries (w.high table.total) = i ∧
        (Die.weighted table).draw (w :: rest) = some (table.entries[i].1, rest)) ∧
      (w ∉ acceptedWords table.total →
        (Die.weighted table).draw (w :: rest) = (Die.weighted table).draw rest) :=
  ⟨card_entryWords table, fun _ rest =>
    ⟨fun h => draw_weighted_accepted table h rest, fun h => draw_weighted_rejected table h rest⟩⟩

/-- With weights of three and two, two words in five of the accepted ones show zero, and the word
zero is left out. -/
theorem weighted_draws_proportional_threeToTwo : ∃ table : WeightTable,
    table.entries = [(.one, 3), (.zero, 2)] ∧
    ((acceptedWords table.total).filter fun w =>
      entryIndex table.entries (w.high table.total) = 1).card = 2 * (4294967296 / 5) ∧
    (Die.weighted table).draw [0, 1] = some (.one, []) := by
  obtain ⟨table, hentries⟩ : ∃ table : WeightTable, table.entries = [(.one, 3), (.zero, 2)] :=
    ⟨.ofPositive _ (List.cons_ne_nil _ _) (by decide) (by decide), rfl⟩
  have htotal : table.total = 5 := by
    rw [WeightTable.total, hentries]
    rfl
  have hlength : 1 < table.entries.length := by
    rw [hentries]
    decide
  have hweight : table.entries[1].2 = 2 := by simp [hentries]
  have hvalue : table.entries[0].1 = .one := by simp [hentries]
  obtain ⟨hcard, hdraw⟩ := weighted_draws_proportional table
  refine ⟨table, hentries, ?_, ?_⟩
  · rw [← hweight, ← htotal]
    exact hcard ⟨1, hlength⟩
  · have hrejected : 0 ∉ acceptedWords table.total := by
      rw [htotal, mem_acceptedWords]
      decide
    have haccepted : 1 ∈ acceptedWords table.total := by
      rw [htotal, mem_acceptedWords]
      decide
    obtain ⟨i, hi, hshown⟩ := (hdraw 1 []).1 haccepted
    have hselected : entryIndex table.entries (Word.high 1 table.total) = 0 := by
      rw [htotal, hentries]
      decide
    have hfirst : i = ⟨0, Nat.zero_lt_of_lt hlength⟩ := Fin.ext (hi.symm.trans hselected)
    rw [(hdraw 0 [1]).2 hrejected, hshown, hfirst, ← hvalue]
    rfl

end DiceNotation
