import DiceNotation.Proofs.Shares

/-!
Rounding keeps the order of counts, so the quotient of a part by its whole is at most one.

A count of at most 64 bits is shifted to a full mantissa and rounded to the nearest one, which may
carry into one bit more. Of two full mantissas with exponents, the exponents are compared first.

* `rank`: a mantissa with the bits that it lost, as one number; a shift keeps the order of ranks,
  and so does rounding;
* `Nearest count m e`: the number of a count is `m * 2 ^ e`; `nearest_of_lt` and
  `exists_nearest_of_log2` say which it is;
* `Below m e n f`: the one full mantissa is not above the other; `exists_nearest_below`: numbers of
  counts are in the order of the counts;
* `share_le_one` and `one_le_share`: the quotient of two counts against one.
-/
namespace DiceNotation
set_option autoImplicit false

open Float.Model (Format UnpackedFloat)
open Float.Model.UnpackedFloat (Accuracy ExtendedMantissa)

/-! ## Lost bits -/

/-- A mantissa and its lost bits: a whole unit counts four, and a half of it two. -/
def rank (extended : ExtendedMantissa) : Nat :=
  4 * extended.mantissa + 2 * extended.roundBit.toNat + extended.stickyBit.toNat

section Rank
variable {a b : ExtendedMantissa}

theorem rank_shiftRightOne (extended : ExtendedMantissa) :
    rank extended.shiftRightOne = 2 * (rank extended / 4) + min 1 (rank extended % 4) := by
  obtain ⟨mantissa, roundBit, stickyBit⟩ := extended
  have hbit : (mantissa % 2 != 0).toNat = mantissa % 2 := by
    rcases Nat.mod_two_eq_zero_or_one mantissa with h | h <;> rw [h] <;> rfl
  simp only [rank, ExtendedMantissa.shiftRightOne, hbit]
  cases roundBit <;> cases stickyBit <;> simp only [Bool.toNat, cond, Bool.or] <;> omega

theorem rank_shiftRight_le (h : rank a ≤ rank b) (k : Nat) : rank (a >>> k) ≤ rank (b >>> k) := by
  induction k with
  | zero => exact h
  | succ k ih =>
    change rank (a >>> k).shiftRightOne ≤ rank (b >>> k).shiftRightOne
    rw [rank_shiftRightOne, rank_shiftRightOne]
    omega

theorem roundedMantissa_le (h : rank a ≤ rank b) : a.roundedMantissa ≤ b.roundedMantissa := by
  obtain ⟨m, r, s⟩ := a
  obtain ⟨n, t, u⟩ := b
  cases r <;> cases s <;> cases t <;> cases u <;>
    simp only [rank, Bool.toNat, cond, ExtendedMantissa.roundedMantissa, ExtendedMantissa.accuracy,
      Accuracy.roundToNearestEven] at h ⊢ <;> omega

end Rank

/-- The full mantissa nearest to a count, in units of `2 ^ k`. -/
def roundedAt (k count : Nat) : Nat :=
  (ExtendedMantissa.ofMantissaAndAccuracy count .exact >>> k).roundedMantissa

theorem roundedAt_le {c d : Nat} (k : Nat) (h : c ≤ d) : roundedAt k c ≤ roundedAt k d := by
  have hrank : rank (.ofMantissaAndAccuracy c .exact) ≤ rank (.ofMantissaAndAccuracy d .exact) :=
    Nat.mul_le_mul_left 4 h
  exact roundedMantissa_le (rank_shiftRight_le hrank k)

/-! ## Counts -/

/-- The number of a count has this mantissa and this exponent. -/
structure Nearest (count m : Nat) (e : Int) : Prop where
  full : IsFull m
  ofNat_eq : UnpackedFloat.ofNat Format.binary64 count = .finite .positive m e full.pos

/-- A full mantissa with its exponent is not above another one. -/
def Below (m : Nat) (e : Int) (n : Nat) (f : Int) : Prop := e < f ∨ e = f ∧ m ≤ n

theorem Below.exponent_le {m n : Nat} {e f : Int} (h : Below m e n f) : e ≤ f := by
  rw [Below] at h
  omega

section Counts
variable {c d count k : Nat}

theorem nearest_of_lt (hpos : 0 < count) (hlt : count < 9007199254740992) :
    Nearest count (count * 2 ^ countShift count) (-countShift count) :=
  ⟨isFull_count hpos hlt, ofNat_count hpos hlt⟩

/-- A count rounded in units of `2 ^ k`. A carry makes it the least number of the next exponent. -/
def Rounded (k count m : Nat) (e : Int) : Prop :=
  e = k ∧ m = roundedAt k count ∧ m < 9007199254740992 ∨
    e = k + 1 ∧ m = 4503599627370496 ∧ roundedAt k count = 9007199254740992

theorem exists_nearest_of_log2 (hlog : count.log2 = 52 + k) :
    ∃ m e, Nearest count m e ∧ Rounded k count m e := by
  have hpos : 0 < count := by
    refine Nat.pos_of_ne_zero fun hzero => ?_
    rw [hzero, Nat.log2_zero] at hlog
    omega
  have hshift := shiftToTargetExponent_eq hlog (show -1074 ≤ (0 : Int) by decide) .exact
  rw [Int.zero_add] at hshift
  have hmantissa : IsFull (ExtendedMantissa.ofMantissaAndAccuracy count .exact >>> k).mantissa := by
    rw [mantissa_shiftRight, mantissa_ofMantissaAndAccuracy]
    exact isFull_div hpos hlog
  have hcases := roundedMantissa_cases (ExtendedMantissa.ofMantissaAndAccuracy count .exact >>> k)
  rw [← roundedAt] at hcases
  obtain ⟨hleast, hmost⟩ := hmantissa
  by_cases hcarry : roundedAt k count = 9007199254740992
  · refine ⟨4503599627370496, k + 1, ⟨by decide, ?_⟩, .inr ⟨rfl, rfl, hcarry⟩⟩
    rw [ofNat_eq_roundWithAccuracy hlog]
    exact roundWithAccuracy_of_carry hshift hcarry (by omega)
  · have hfull : IsFull (roundedAt k count) := ⟨by omega, by omega⟩
    refine ⟨roundedAt k count, k, ⟨hfull, ?_⟩, .inl ⟨rfl, rfl, hfull.2⟩⟩
    rw [ofNat_eq_roundWithAccuracy hlog]
    exact roundWithAccuracy_of_full hshift hfull (by omega)

/-- The larger one of two counts that are not rounded is shifted no further. -/
theorem below_of_lt (hpos : 0 < c) (hle : c ≤ d) (hlt : d < 9007199254740992) :
    Below (c * 2 ^ countShift c) (-countShift c) (d * 2 ^ countShift d) (-countShift d) := by
  have hc := isFull_count hpos (Nat.lt_of_le_of_lt hle hlt)
  have hd := isFull_count (Nat.lt_of_lt_of_le hpos hle) hlt
  rcases Nat.lt_or_eq_of_le (shift_le hle hc hd) with hless | heq
  · exact .inl (by omega)
  · rw [heq]
    exact .inr ⟨rfl, Nat.mul_le_mul_right _ hle⟩

/-- A smaller count reaches the exponent of a larger one by a carry, or has the same units. -/
theorem below_of_rounded {j m n : Nat} {e f : Int} (hle : c ≤ d) (hjk : j ≤ k) (hn : IsFull n)
    (hc : Rounded j c m e) (hd : Rounded k d n f) : Below m e n f := by
  rw [Rounded] at hc hd
  rw [Below]
  rcases Nat.lt_or_eq_of_le hjk with hless | rfl
  · have hleast := hn.1
    omega
  · have hrounded := roundedAt_le j hle
    omega

/-- The numbers of two counts are in their order. -/
theorem exists_nearest_below (hpos : 0 < c) (hle : c ≤ d) (hlt : d < 18446744073709551616) :
    ∃ m e n f, Nearest c m e ∧ Nearest d n f ∧ Below m e n f ∧ -52 ≤ e ∧ f ≤ 12 := by
  have hlow := Int.neg_le_neg (Int.ofNat_le.mpr (Nat.sub_le 52 c.log2))
  by_cases hd : d < 9007199254740992
  · have hc := Nat.lt_of_le_of_lt hle hd
    exact ⟨_, _, _, _, nearest_of_lt hpos hc, nearest_of_lt (by omega) hd, below_of_lt hpos hle hd,
      hlow, by omega⟩
  · have hlog : d.log2 < 64 := (Nat.log2_lt (by omega)).mpr hlt
    have hlogD : 53 ≤ d.log2 := (Nat.le_log2 (by omega)).mpr (Nat.le_of_not_lt hd)
    obtain ⟨k, hk⟩ := Nat.exists_eq_add_of_le (show 52 ≤ d.log2 by omega)
    obtain ⟨n, f, hnearestD, hroundedD⟩ := exists_nearest_of_log2 hk
    have hf : 1 ≤ f ∧ f ≤ 12 := by
      rw [Rounded] at hroundedD
      omega
    by_cases hc : c < 9007199254740992
    · -- Only the larger one has an exponent above zero.
      exact ⟨_, _, n, f, nearest_of_lt hpos hc, hnearestD, .inl (by omega), hlow, hf.2⟩
    · have hlogC : 53 ≤ c.log2 := (Nat.le_log2 (by omega)).mpr (Nat.le_of_not_lt hc)
      have hlogs : c.log2 ≤ d.log2 := by
        have hself := Nat.log2_self_le (Nat.ne_of_gt hpos)
        exact (Nat.le_log2 (by omega)).mpr (Nat.le_trans hself hle)
      obtain ⟨j, hj⟩ := Nat.exists_eq_add_of_le (show 52 ≤ c.log2 by omega)
      obtain ⟨m, e, hnearestC, hroundedC⟩ := exists_nearest_of_log2 hj
      have he : -52 ≤ e := by
        rw [Rounded] at hroundedC
        omega
      exact ⟨m, e, n, f, hnearestC, hnearestD,
        below_of_rounded hle (by omega) hnearestD.full hroundedC hroundedD, he, hf.2⟩

theorem exists_nearest (hpos : 0 < count) (hlt : count < 18446744073709551616) :
    ∃ m e, Nearest count m e ∧ -52 ≤ e ∧ e ≤ 12 := by
  obtain ⟨m, e, n, f, hnearest, -, hbelow, hlow, hhigh⟩ :=
    exists_nearest_below hpos (Nat.le_refl count) hlt
  exact ⟨m, e, hnearest, hlow, Int.le_trans hbelow.exponent_le hhigh⟩

theorem unpack_toFloat_of_nearest {m : Nat} {e : Int} (h : Nearest count m e)
    (hlt : count < 18446744073709551616) (hlow : -52 ≤ e) (hhigh : e ≤ 12) :
    (UInt64.ofNat count).toFloat.toModel.unpack = .finite .positive m e h.full.pos := by
  rw [unpack_toFloat hlt, h.ofNat_eq]
  exact unpack_pack h.full (by omega) (by omega)

end Counts

/-! ## Quotients -/

section Quotients
variable {x y : Float} {m n : Nat} {e f : Int}

/-- A number divided by itself is one, without a bit lost. -/
theorem div_self_full (hm : IsFull m) :
    UnpackedFloat.div Format.binary64 (.finite .positive m e hm.pos) (.finite .positive m e hm.pos) =
      .finite .positive 4503599627370496 (-52) (by decide) := by
  have hquotient : m * 9007199254740992 / m = 9007199254740992 := Nat.mul_div_cancel_left _ hm.pos
  have hexact : UnpackedFloat.accuracyOfFraction (m * 9007199254740992 % m) m = .exact := by
    rw [Nat.mul_mod_right, UnpackedFloat.accuracyOfFraction, if_pos rfl]
  rw [UnpackedFloat.div, divCore_eq hm hm (by omega), hquotient, hexact, Int.sub_self]
  rfl

theorem unpack_zero : (0 : Float).toModel.unpack = .zero .positive := rfl

theorem unpack_one : (1 : Float).toModel.unpack =
    .finite .positive 4503599627370496 (-52) (by decide) := rfl

theorem le_iff_below {hm : 0 < m} {hn : 0 < n} (hx : x.toModel.unpack = .finite .positive m e hm)
    (hy : y.toModel.unpack = .finite .positive n f hn) : x ≤ y ↔ Below m e n f := by
  rw [le_iff_unpack, hx, hy]
  change ((compare e f).then (compare m n)).isLE = true ↔ _
  rw [Ordering.isLE_then_iff_or, Int.compare_eq_lt, compare_eq_iff_eq, Nat.isLE_compare]
  rfl

theorem zero_le_of_finite {hm : 0 < m} (hx : x.toModel.unpack = .finite .positive m e hm) :
    0 ≤ x := by
  rw [le_iff_unpack, unpack_zero, hx]
  rfl

theorem div_le_one (hm : IsFull m) (hn : IsFull n)
    (hx : x.toModel.unpack = .finite .positive m e hm.pos)
    (hy : y.toModel.unpack = .finite .positive n f hn.pos) (hlow : -1021 ≤ e - f)
    (hbelow : Below m e n f) : x / y ≤ 1 := by
  by_cases hsame : e = f ∧ m = n
  · obtain ⟨rfl, rfl⟩ := hsame
    have hunpack : (x / y).toModel.unpack = .finite .positive 4503599627370496 (-52) (by decide) := by
      rw [unpack_div, hx, hy, div_self_full hm]
      exact unpack_pack (by decide) (by decide) (by decide)
    exact (le_iff_below hunpack unpack_one).mpr (.inr ⟨rfl, Nat.le_refl _⟩)
  · -- The exponent of the quotient is below that of one.
    rw [Below] at hbelow
    obtain ⟨q, hq, hunpack⟩ := exists_unpack_div hm hn hx hy hlow (by omega)
    refine (le_iff_below hunpack unpack_one).mpr (.inl ?_)
    split <;> omega

theorem one_le_div (hm : IsFull m) (hn : IsFull n)
    (hx : x.toModel.unpack = .finite .positive m e hm.pos)
    (hy : y.toModel.unpack = .finite .positive n f hn.pos) (hhigh : e - f ≤ 1023)
    (hbelow : Below n f m e) : 1 ≤ x / y := by
  rw [Below] at hbelow
  obtain ⟨q, hq, hunpack⟩ := exists_unpack_div hm hn hx hy (by omega) hhigh
  have hleast := hq.1
  refine (le_iff_below unpack_one hunpack).mpr ?_
  rw [Below]
  split <;> omega

end Quotients

/-! ## Shares -/

section Shares
variable {part whole : Nat}

/-- The quotient of two counts is zero or has a full mantissa, so it is not negative. -/
theorem zero_le_share (hpart : part < 18446744073709551616) (hwhole : 0 < whole)
    (hlt : whole < 18446744073709551616) :
    0 ≤ (UInt64.ofNat part).toFloat / (UInt64.ofNat whole).toFloat := by
  obtain ⟨n, f, hn, hlowN, hhighN⟩ := exists_nearest hwhole hlt
  have hy := unpack_toFloat_of_nearest hn hlt hlowN hhighN
  rcases Nat.eq_zero_or_pos part with rfl | hpos
  · rw [le_iff_unpack, unpack_zero, unpack_zero_div rfl hy]
    rfl
  · obtain ⟨m, e, hm, hlowM, hhighM⟩ := exists_nearest hpos hpart
    have hx := unpack_toFloat_of_nearest hm hpart hlowM hhighM
    obtain ⟨q, hq, hunpack⟩ := exists_unpack_div hm.full hn.full hx hy (by omega) (by omega)
    exact zero_le_of_finite hunpack

theorem share_le_one (hwhole : 0 < whole) (hlt : whole < 18446744073709551616)
    (hle : part ≤ whole) :
    (UInt64.ofNat part).toFloat / (UInt64.ofNat whole).toFloat ≤ 1 := by
  rcases Nat.eq_zero_or_pos part with rfl | hpos
  · obtain ⟨n, f, hn, hlow, hhigh⟩ := exists_nearest hwhole hlt
    rw [le_iff_unpack, unpack_zero_div rfl (unpack_toFloat_of_nearest hn hlt hlow hhigh), unpack_one]
    rfl
  · obtain ⟨m, e, n, f, hm, hn, hbelow, hlow, hhigh⟩ := exists_nearest_below hpos hle hlt
    have hexponent := hbelow.exponent_le
    exact div_le_one hm.full hn.full
      (unpack_toFloat_of_nearest hm (by omega) hlow (by omega))
      (unpack_toFloat_of_nearest hn hlt (by omega) hhigh) (by omega) hbelow

theorem one_le_share (hwhole : 0 < whole) (hlt : part < 18446744073709551616)
    (hle : whole ≤ part) :
    1 ≤ (UInt64.ofNat part).toFloat / (UInt64.ofNat whole).toFloat := by
  obtain ⟨n, f, m, e, hn, hm, hbelow, hlow, hhigh⟩ := exists_nearest_below hwhole hle hlt
  have hexponent := hbelow.exponent_le
  exact one_le_div hm.full hn.full
    (unpack_toFloat_of_nearest hm hlt (by omega) hhigh)
    (unpack_toFloat_of_nearest hn (by omega) hlow (by omega)) (by omega) hbelow

end Shares

end DiceNotation
