import Mathlib

/-!
Shares of a whole: the floating-point quotient of two counts against one half.

A positive number is `mantissa * 2 ^ exponent`, where a full mantissa has all of its 53 bits. A
count of at most 53 bits is such a number exactly, so of two of them only the quotient is rounded.
That never carries into another bit, and therefore the exponent of the quotient tells whether it is
one half or more.

* `IsFull`: all bits of a mantissa are in use, and `unpack_pack`: such numbers are kept as they are;
* `shiftToTargetExponent_eq`, `roundWithAccuracy_of_full` and `roundWithAccuracy_of_carry`: how a
  longer mantissa is rounded;
* `ofNat_count`: a count is not rounded;
* `div_full`: the exponent of a quotient;
* `half_le_share`: a count is at least half of another one just where their quotient says so;
* `half_le_self`: every count is, of itself.
-/
namespace DiceNotation
set_option autoImplicit false

open Float.Model (Format UnpackedFloat totalExponent)
open Float.Model.UnpackedFloat (Sign Accuracy ExtendedMantissa)

/-! ## Full mantissas -/

/-- The mantissa has 53 bits, and the first of them is set. -/
def IsFull (mantissa : Nat) : Prop :=
  4503599627370496 ≤ mantissa ∧ mantissa < 9007199254740992

instance (mantissa : Nat) : Decidable (IsFull mantissa) := inferInstanceAs (Decidable (_ ∧ _))

section Packing
variable {m : Nat} {e : Int}

theorem IsFull.pos (h : IsFull m) : 0 < m := Nat.lt_of_lt_of_le (by decide) h.1

theorem IsFull.log2_eq (h : IsFull m) : m.log2 = 52 :=
  (Nat.log2_eq_iff (Nat.ne_of_gt h.pos)).mpr h

/-- The first bit of a full mantissa is not stored. -/
theorem IsFull.toNat_eq (h : IsFull m) : (1#1 ++ BitVec.ofNat 52 m).toNat = m := by
  obtain ⟨hlow, hhigh⟩ := h
  have hor := Nat.shiftLeft_add_eq_or_of_lt (BitVec.ofNat 52 m).isLt 1
  rw [BitVec.toNat_append]
  change 1 <<< 52 ||| (BitVec.ofNat 52 m).toNat = m
  rw [← hor, BitVec.toNat_ofNat]
  omega

theorem ofNat_ne_of_toNat_ne {k : Nat} {b : BitVec 11} (hk : k < 2048) (h : k ≠ b.toNat) :
    BitVec.ofNat 11 k ≠ b := by
  rintro rfl
  rw [BitVec.toNat_ofNat] at h
  exact h (Nat.mod_eq_of_lt hk).symm

theorem unpack_pack (h : IsFull m) (hlow : -1074 ≤ e) (hhigh : e ≤ 971) :
    UnpackedFloat.unpack Format.binary64
      (UnpackedFloat.pack Format.binary64 (.finite .positive m e h.pos)) =
        .finite .positive m e h.pos := by
  -- The stored exponent is neither that of zero nor that of infinity.
  obtain ⟨k, rfl⟩ : ∃ k : Nat, e = k - 1075 := ⟨(e + 1075).toNat, by omega⟩
  have hbits : m.log2 + 1 = Format.binary64.mantissaBits := by
    rw [h.log2_eq]
    rfl
  have hbiased : ((k : Int) - 1075 + Format.binary64.exponentBias +
      Format.binary64.mantissaBitsWithoutImplicit).toNat = k := by
    change ((k : Int) - 1075 + 1023 + 52).toNat = k
    omega
  have hfits : ¬2 ^ Format.binary64.exponentBits ≤ k + 1 := by
    change ¬2048 ≤ k + 1
    omega
  have hones : BitVec.ofNat 11 k ≠ -1#11 :=
    ofNat_ne_of_toNat_ne (by omega) (by change k ≠ 2047; omega)
  have hzero : BitVec.ofNat 11 k ≠ 0#11 :=
    ofNat_ne_of_toNat_ne (by omega) (by change k ≠ 0; omega)
  have hexponent : ((BitVec.ofNat 11 k).toNat : Int) = k := by
    rw [BitVec.toNat_ofNat]
    omega
  simp only [UnpackedFloat.pack, hbiased, if_neg hfits, if_pos hbits]
  simp only [UnpackedFloat.unpack, UnpackedFloat.unpackSign_packComponents,
    UnpackedFloat.unpackMantissa_packComponents, UnpackedFloat.unpackExponent_packComponents]
  rw [if_neg hones, if_neg hzero]
  congr 1
  · exact h.toNat_eq
  · rw [hexponent]
    rfl

end Packing

/-! ## Rounding -/

section Rounding
variable {m k : Nat} {e f : Int} {accuracy : Accuracy} {extended : ExtendedMantissa}

theorem targetExponent_eq (h : -1021 ≤ e) : Format.binary64.targetExponent e = e - 53 := by
  change max (e - 53) (-1074) = e - 53
  omega

/-- A mantissa that is `k` bits too long is shifted by as many. -/
theorem shiftToTargetExponent_eq (hlog : m.log2 = 52 + k) (hlow : -1074 ≤ e)
    (accuracy : Accuracy) :
    UnpackedFloat.shiftToTargetExponent Format.binary64 m e accuracy =
      (ExtendedMantissa.ofMantissaAndAccuracy m accuracy >>> k, e + k) := by
  have htotal : totalExponent m e = e + k + 53 := by
    rw [totalExponent, hlog]
    omega
  have hamount : (e + k + 53 - 53 - e).toNat = k := by omega
  rw [UnpackedFloat.shiftToTargetExponent, htotal, targetExponent_eq (by omega),
    UnpackedFloat.shiftToExponent, hamount]

theorem shiftToTargetExponent_full (h : IsFull m) (hlow : -1074 ≤ e) (accuracy : Accuracy) :
    UnpackedFloat.shiftToTargetExponent Format.binary64 m e accuracy =
      (ExtendedMantissa.ofMantissaAndAccuracy m accuracy, e) := by
  have hshift : UnpackedFloat.shiftToTargetExponent Format.binary64 m e accuracy =
      (ExtendedMantissa.ofMantissaAndAccuracy m accuracy, e + (0 : Nat)) :=
    shiftToTargetExponent_eq (k := 0) h.log2_eq hlow accuracy
  rw [hshift, Int.natCast_zero, Int.add_zero]

@[simp] theorem mantissa_ofMantissaAndAccuracy (m : Nat) (accuracy : Accuracy) :
    (ExtendedMantissa.ofMantissaAndAccuracy m accuracy).mantissa = m := by
  unfold ExtendedMantissa.ofMantissaAndAccuracy
  split <;> rfl

theorem mantissa_shiftRight (extended : ExtendedMantissa) (k : Nat) :
    (extended >>> k).mantissa = extended.mantissa / 2 ^ k := by
  induction k with
  | zero => exact (Nat.div_one _).symm
  | succ k ih =>
    change (extended >>> k).mantissa / 2 = _
    rw [ih, Nat.div_div_eq_div_mul, Nat.pow_succ]

/-- Rounding leaves a mantissa or adds one to it, and only where at least half a bit is lost. -/
theorem roundedMantissa_cases (extended : ExtendedMantissa) :
    extended.roundedMantissa = extended.mantissa ∨
      extended.roundedMantissa = extended.mantissa + 1 ∧ extended.roundBit = true := by
  obtain ⟨mantissa, roundBit, stickyBit⟩ := extended
  cases roundBit <;> cases stickyBit <;>
    simp only [ExtendedMantissa.roundedMantissa, ExtendedMantissa.accuracy,
      Accuracy.roundToNearestEven]
  · exact .inl trivial
  · exact .inl trivial
  · rcases Nat.mod_two_eq_zero_or_one mantissa with heven | hodd
    · exact .inl (by rw [heven, Nat.add_zero])
    · exact .inr ⟨by rw [hodd], trivial⟩
  · exact .inr ⟨trivial, trivial⟩

/-- A full mantissa is not carried unless it is the largest and at least half a bit is lost. -/
theorem IsFull.rounded (h : IsFull extended.mantissa)
    (hround : extended.roundBit = true → extended.mantissa < 9007199254740991) :
    IsFull extended.roundedMantissa := by
  obtain ⟨hleast, hmost⟩ := h
  rcases roundedMantissa_cases extended with hsame | ⟨hnext, hbit⟩
  · rw [hsame]
    exact ⟨hleast, hmost⟩
  · have hlt := hround hbit
    rw [hnext]
    exact ⟨by omega, by omega⟩

theorem roundWithAccuracy_of_full
    (hshift : UnpackedFloat.shiftToTargetExponent Format.binary64 m e accuracy = (extended, f))
    (hfull : IsFull extended.roundedMantissa) (hlow : -1074 ≤ f) :
    UnpackedFloat.roundWithAccuracy Format.binary64 .positive m e accuracy =
      .finite .positive extended.roundedMantissa f hfull.pos := by
  rw [UnpackedFloat.roundWithAccuracy, hshift]
  simp only [shiftToTargetExponent_full hfull hlow]
  exact dif_neg (Nat.ne_of_gt hfull.pos)

/-- Where rounding carries into one bit more, only that bit is set. -/
theorem roundWithAccuracy_of_carry
    (hshift : UnpackedFloat.shiftToTargetExponent Format.binary64 m e accuracy = (extended, f))
    (hcarry : extended.roundedMantissa = 9007199254740992) (hlow : -1074 ≤ f) :
    UnpackedFloat.roundWithAccuracy Format.binary64 .positive m e accuracy =
      .finite .positive 4503599627370496 (f + 1) (by decide) := by
  have hlog : (9007199254740992 : Nat).log2 = 52 + 1 := by decide
  rw [UnpackedFloat.roundWithAccuracy, hshift]
  simp only [hcarry, shiftToTargetExponent_eq hlog hlow]
  rfl

/-- So a full mantissa stays full, and the exponent goes up by one at most. -/
theorem exists_roundWithAccuracy
    (hshift : UnpackedFloat.shiftToTargetExponent Format.binary64 m e accuracy = (extended, f))
    (hfull : IsFull extended.mantissa) (hlow : -1074 ≤ f) :
    ∃ q g, ∃ hq : IsFull q, UnpackedFloat.roundWithAccuracy Format.binary64 .positive m e accuracy =
      .finite .positive q g hq.pos ∧ (g = f ∨ g = f + 1) := by
  obtain ⟨hleast, hmost⟩ := hfull
  have hcases := roundedMantissa_cases extended
  by_cases hcarry : extended.roundedMantissa = 9007199254740992
  · exact ⟨_, _, by decide, roundWithAccuracy_of_carry hshift hcarry hlow, .inr rfl⟩
  · have hrounded : IsFull extended.roundedMantissa := ⟨by omega, by omega⟩
    exact ⟨_, _, hrounded, roundWithAccuracy_of_full hshift hrounded hlow, .inl rfl⟩

end Rounding

/-! ## Counts as numbers -/

/-- How far a count is shifted so that its mantissa is full. -/
def countShift (count : Nat) : Nat := 52 - count.log2

section Counts
variable {count : Nat}

theorem log2_add_countShift (hpos : 0 < count) (hlt : count < 9007199254740992) :
    count.log2 + countShift count = 52 := by
  have hlog : count.log2 < 53 := (Nat.log2_lt (Nat.ne_of_gt hpos)).mpr hlt
  rw [countShift]
  omega

theorem isFull_count (hpos : 0 < count) (hlt : count < 9007199254740992) :
    IsFull (count * 2 ^ countShift count) := by
  have hshift := log2_add_countShift hpos hlt
  have hlow := Nat.log2_self_le (Nat.ne_of_gt hpos)
  have hhigh := Nat.lt_log2_self (n := count)
  generalize countShift count = k at *
  constructor
  · calc 4503599627370496 = 2 ^ count.log2 * 2 ^ k := by rw [← Nat.pow_add, hshift]
      _ ≤ count * 2 ^ k := Nat.mul_le_mul_right _ hlow
  · calc count * 2 ^ k < 2 ^ (count.log2 + 1) * 2 ^ k :=
          Nat.mul_lt_mul_of_pos_right hhigh (Nat.two_pow_pos k)
      _ = 9007199254740992 := by rw [← Nat.pow_add, Nat.add_right_comm, hshift]

theorem ofNat_eq_round (hpos : 0 < count) :
    UnpackedFloat.ofNat Format.binary64 count =
      UnpackedFloat.round Format.binary64 .positive count 0 := by
  rw [UnpackedFloat.ofNat, UnpackedFloat.ofInt, UnpackedFloat.normalize,
    Int.compare_eq_gt.mpr (by omega)]
  rfl

/-- A count of at most 53 bits is not rounded. -/
theorem ofNat_count (hpos : 0 < count) (hlt : count < 9007199254740992) :
    UnpackedFloat.ofNat Format.binary64 count =
      .finite .positive (count * 2 ^ countShift count) (-countShift count)
        (isFull_count hpos hlt).pos := by
  have hshift := log2_add_countShift hpos hlt
  have hfull := isFull_count hpos hlt
  have htotal : totalExponent count 0 = 53 - countShift count := by
    rw [totalExponent]
    omega
  have htarget : Format.binary64.targetExponent (53 - countShift count) = -countShift count := by
    rw [targetExponent_eq (by omega)]
    omega
  have hdecrease : UnpackedFloat.decreaseExponent count 0 (-countShift count) =
      (count * 2 ^ countShift count, -(countShift count : Int)) := by
    have hamount : (0 - -(countShift count : Int)).toNat = countShift count := by omega
    rw [UnpackedFloat.decreaseExponent, hamount, Nat.shiftLeft_eq, Int.zero_sub]
  have hexact := shiftToTargetExponent_full hfull (show -1074 ≤ -(countShift count : Int) by omega)
    .exact
  rw [ofNat_eq_round hpos]
  simp only [UnpackedFloat.round, htotal, htarget, hdecrease]
  exact roundWithAccuracy_of_full hexact hfull (by omega)

theorem isFull_div {k : Nat} (hpos : 0 < count) (hlog : count.log2 = 52 + k) :
    IsFull (count / 2 ^ k) := by
  have hlow := Nat.log2_self_le (Nat.ne_of_gt hpos)
  have hhigh := Nat.lt_log2_self (n := count)
  rw [hlog, Nat.pow_add] at hlow
  rw [hlog, Nat.add_right_comm, Nat.pow_add] at hhigh
  exact ⟨(Nat.le_div_iff_mul_le (Nat.two_pow_pos k)).mpr hlow,
    (Nat.div_lt_iff_lt_mul (Nat.two_pow_pos k)).mpr hhigh⟩

/-- A longer count is shifted to 53 bits and rounded. -/
theorem ofNat_eq_roundWithAccuracy {k : Nat} (hlog : count.log2 = 52 + k) :
    UnpackedFloat.ofNat Format.binary64 count =
      UnpackedFloat.roundWithAccuracy Format.binary64 .positive count 0 .exact := by
  have hpos : 0 < count := by
    refine Nat.pos_of_ne_zero fun hzero => ?_
    rw [hzero, Nat.log2_zero] at hlog
    omega
  have htotal : totalExponent count 0 = k + 53 := by
    rw [totalExponent, hlog]
    omega
  have hdecrease : UnpackedFloat.decreaseExponent count 0 (k + 53 - 53) = (count, 0) := by
    have hamount : (0 - ((k : Int) + 53 - 53)).toNat = 0 := by omega
    rw [UnpackedFloat.decreaseExponent, hamount]
    rfl
  rw [ofNat_eq_round hpos]
  simp only [UnpackedFloat.round, htotal, targetExponent_eq (show -1021 ≤ (k : Int) + 53 by omega),
    hdecrease]

/-- A longer count of at most 64 bits is rounded. -/
theorem exists_ofNat_word (hlow : 9007199254740992 ≤ count)
    (hhigh : count < 18446744073709551616) :
    ∃ m e, ∃ hfull : IsFull m, UnpackedFloat.ofNat Format.binary64 count =
      .finite .positive m e hfull.pos ∧ 0 ≤ e ∧ e ≤ 12 := by
  have hpos : 0 < count := by omega
  have hlow' : 53 ≤ count.log2 := (Nat.le_log2 (Nat.ne_of_gt hpos)).mpr hlow
  have hhigh' : count.log2 < 64 := (Nat.log2_lt (Nat.ne_of_gt hpos)).mpr hhigh
  obtain ⟨k, hlog⟩ := Nat.exists_eq_add_of_le (show 52 ≤ count.log2 by omega)
  have hshift := shiftToTargetExponent_eq hlog (show -1074 ≤ (0 : Int) by decide) .exact
  have hfull : IsFull (ExtendedMantissa.ofMantissaAndAccuracy count .exact >>> k).mantissa := by
    rw [mantissa_shiftRight, mantissa_ofMantissaAndAccuracy]
    exact isFull_div hpos hlog
  obtain ⟨m, e, hm, hround, he⟩ := exists_roundWithAccuracy hshift hfull (by omega)
  rw [ofNat_eq_roundWithAccuracy hlog]
  exact ⟨m, e, hm, hround, by omega, by omega⟩

end Counts

/-! ## Quotients -/

section Quotients
variable {m n : Nat} {e f : Int}

/-- One bit too long is the quotient by a mantissa that is no larger, and the other is full. The
mantissas are no longer than 53 bits, so the quotient is less than the largest of its length. -/
theorem quotient_bounds (hm : IsFull m) (hn : IsFull n) :
    if n ≤ m then 9007199254740992 ≤ m * 9007199254740992 / n ∧
        m * 9007199254740992 / n < 18014398509481983
      else 4503599627370496 ≤ m * 9007199254740992 / n ∧
        m * 9007199254740992 / n < 9007199254740991 := by
  obtain ⟨hmlow, hmhigh⟩ := hm
  obtain ⟨hnlow, hnhigh⟩ := hn
  have hpos : 0 < n := by omega
  split <;> rw [Nat.le_div_iff_mul_le hpos, Nat.div_lt_iff_lt_mul hpos] <;> omega

theorem divCore_eq (hm : IsFull m) (hn : IsFull n) (hlow : -1021 ≤ e - f) :
    UnpackedFloat.divCore Format.binary64 m e n f = (m * 9007199254740992 / n, e - f - 53,
      UnpackedFloat.accuracyOfFraction (m * 9007199254740992 % n) n) := by
  have htotal : totalExponent m e - totalExponent n f = e - f := by
    rw [totalExponent, totalExponent, hm.log2_eq, hn.log2_eq]
    omega
  have hmin : min (e - f) (e - f - 53) = e - f - 53 := by omega
  have hamount : (e - f - (e - f - 53)).toNat = 53 := by omega
  rw [UnpackedFloat.divCore, htotal, targetExponent_eq hlow, hmin, hamount, Nat.shiftLeft_eq]

section Unrounded
variable {q : Nat} {accuracy : Accuracy}

theorem round_full (hlow : 4503599627370496 ≤ q) (hhigh : q < 9007199254740991)
    (he : -1074 ≤ e) :
    ∃ r, ∃ hr : IsFull r, UnpackedFloat.roundWithAccuracy Format.binary64 .positive q e accuracy =
      .finite .positive r e hr.pos := by
  have hfull : IsFull q := ⟨hlow, by omega⟩
  have hmantissa := mantissa_ofMantissaAndAccuracy q accuracy
  have hshift := shiftToTargetExponent_full hfull he accuracy
  generalize ExtendedMantissa.ofMantissaAndAccuracy q accuracy = extended at hmantissa hshift
  rw [← hmantissa] at hfull hhigh
  have hrounded := hfull.rounded fun _ => hhigh
  exact ⟨_, hrounded, roundWithAccuracy_of_full hshift hrounded he⟩

/-- The bit that a mantissa has too much is lost. -/
theorem round_double (hlow : 9007199254740992 ≤ q) (hhigh : q < 18014398509481983)
    (he : -1074 ≤ e) :
    ∃ r, ∃ hr : IsFull r, UnpackedFloat.roundWithAccuracy Format.binary64 .positive q e accuracy =
      .finite .positive r (e + 1) hr.pos := by
  have hlog : q.log2 = 52 + 1 := (Nat.log2_eq_iff (by omega)).mpr ⟨hlow, by omega⟩
  have hshift := shiftToTargetExponent_eq hlog he accuracy
  have hmantissa : (ExtendedMantissa.ofMantissaAndAccuracy q accuracy >>> 1).mantissa = q / 2 := by
    rw [mantissa_shiftRight, mantissa_ofMantissaAndAccuracy]
    rfl
  have hbit : (ExtendedMantissa.ofMantissaAndAccuracy q accuracy >>> 1).roundBit =
      (q % 2 != 0) := by
    change ((ExtendedMantissa.ofMantissaAndAccuracy q accuracy).mantissa % 2 != 0) = _
    rw [mantissa_ofMantissaAndAccuracy]
  generalize ExtendedMantissa.ofMantissaAndAccuracy q accuracy >>> 1 = extended at *
  have hfull : IsFull extended.mantissa := by
    rw [hmantissa]
    exact ⟨by omega, by omega⟩
  have hround : extended.roundBit = true → extended.mantissa < 9007199254740991 := by
    rw [hbit, hmantissa, bne_iff_ne]
    omega
  have hrounded := hfull.rounded hround
  exact ⟨_, hrounded, roundWithAccuracy_of_full hshift hrounded (by omega)⟩

end Unrounded

/-- The quotient of full mantissas is full or one bit too long, and rounding adds no bit. -/
theorem div_full (hm : IsFull m) (hn : IsFull n) (hlow : -1021 ≤ e - f) :
    ∃ q, ∃ hq : IsFull q, UnpackedFloat.div Format.binary64 (.finite .positive m e hm.pos)
      (.finite .positive n f hn.pos) =
        .finite .positive q (if n ≤ m then e - f - 52 else e - f - 53) hq.pos := by
  have hbounds := quotient_bounds hm hn
  rw [UnpackedFloat.div, divCore_eq hm hn hlow]
  by_cases hle : n ≤ m
  · rw [if_pos hle] at hbounds ⊢
    have hstep : e - f - 53 + 1 = e - f - 52 := by omega
    rw [← hstep]
    exact round_double hbounds.1 hbounds.2 (by omega)
  · rw [if_neg hle] at hbounds ⊢
    exact round_full hbounds.1 hbounds.2 (by omega)

end Quotients

/-! ## One half -/

section Half
variable {x y : Float}

theorem le_iff_unpack :
    x ≤ y ↔ UnpackedFloat.le x.toModel.unpack y.toModel.unpack = true := by
  change decide (x.toModel ≤ y.toModel) = true ↔ _
  rw [decide_eq_true_eq]
  rfl

theorem unpack_div :
    (x / y).toModel.unpack = UnpackedFloat.unpack Format.binary64 (UnpackedFloat.pack
      Format.binary64 (UnpackedFloat.div Format.binary64 x.toModel.unpack y.toModel.unpack)) := rfl

theorem exists_unpack_div {m n : Nat} {e f : Int} (hm : IsFull m) (hn : IsFull n)
    (hx : x.toModel.unpack = .finite .positive m e hm.pos)
    (hy : y.toModel.unpack = .finite .positive n f hn.pos) (hlow : -1021 ≤ e - f)
    (hhigh : e - f ≤ 1023) :
    ∃ q, ∃ hq : IsFull q, (x / y).toModel.unpack =
      .finite .positive q (if n ≤ m then e - f - 52 else e - f - 53) hq.pos := by
  obtain ⟨q, hq, hdiv⟩ := div_full hm hn hlow
  refine ⟨q, hq, ?_⟩
  rw [unpack_div, hx, hy, hdiv]
  exact unpack_pack hq (by split <;> omega) (by split <;> omega)

theorem unpack_zero_div {n : Nat} {f : Int} {hn : 0 < n} (hx : x.toModel.unpack = .zero .positive)
    (hy : y.toModel.unpack = .finite .positive n f hn) :
    (x / y).toModel.unpack = .zero .positive := by
  have hdiv : UnpackedFloat.div Format.binary64 x.toModel.unpack y.toModel.unpack =
      .zero .positive := by
    rw [hx, hy]
    rfl
  rw [unpack_div, hdiv]
  rfl

/-- Exponents are compared first, and one half has the least of all full mantissas. -/
theorem half_le_iff {m : Nat} {e : Int} (hfull : IsFull m)
    (hx : x.toModel.unpack = .finite .positive m e hfull.pos) : x ≥ 0.5 ↔ -53 ≤ e := by
  have hhalf : (Float.toModel 0.5).unpack =
      .finite .positive 4503599627370496 (-53) (by decide) := rfl
  have hmantissa : (compare 4503599627370496 m).isLE = true := Nat.isLE_compare.mpr hfull.1
  rw [ge_iff_le, le_iff_unpack, hhalf, hx]
  change ((compare (-53) e).then (compare 4503599627370496 m)).isLE = true ↔ _
  rw [Ordering.isLE_then_iff_and, hmantissa, Int.isLE_compare]
  exact ⟨fun h => h.1, fun h => ⟨h, .inr rfl⟩⟩

theorem half_le_div_iff {m n : Nat} {e f : Int} (hm : IsFull m) (hn : IsFull n)
    (hx : x.toModel.unpack = .finite .positive m e hm.pos)
    (hy : y.toModel.unpack = .finite .positive n f hn.pos) (hlow : -1021 ≤ e - f)
    (hhigh : e - f ≤ 1023) :
    x / y ≥ 0.5 ↔ -53 ≤ if n ≤ m then e - f - 52 else e - f - 53 := by
  obtain ⟨q, hq, hunpack⟩ := exists_unpack_div hm hn hx hy hlow hhigh
  exact half_le_iff hq hunpack

theorem not_half_le_zero {m : Nat} {e : Int} {h : 0 < m}
    (hx : x.toModel.unpack = .zero .positive) (hy : y.toModel.unpack = .finite .positive m e h) :
    ¬x / y ≥ 0.5 := by
  rw [ge_iff_le, le_iff_unpack, unpack_zero_div hx hy]
  decide

end Half

/-! ## Shares -/

section Shares
variable {count part whole : Nat}

theorem unpack_toFloat (hlt : count < 18446744073709551616) :
    (UInt64.ofNat count).toFloat.toModel.unpack =
      UnpackedFloat.unpack Format.binary64 (UnpackedFloat.pack Format.binary64
        (UnpackedFloat.ofNat Format.binary64 count)) := by
  have hword : (UInt64.ofNat count).toNat = count := UInt64.toNat_ofNat_of_lt' hlt
  change UnpackedFloat.unpack Format.binary64 (UnpackedFloat.pack Format.binary64
    (UnpackedFloat.ofNat Format.binary64 (UInt64.ofNat count).toNat)) = _
  rw [hword]

theorem unpack_toFloat_count (hpos : 0 < count) (hlt : count < 9007199254740992) :
    (UInt64.ofNat count).toFloat.toModel.unpack =
      .finite .positive (count * 2 ^ countShift count) (-countShift count)
        (isFull_count hpos hlt).pos := by
  have hshift := log2_add_countShift hpos hlt
  rw [unpack_toFloat (by omega), ofNat_count hpos hlt]
  exact unpack_pack (isFull_count hpos hlt) (by omega) (by omega)

/-- The smaller count is shifted no less. -/
theorem shift_le {j k : Nat} (hle : part ≤ whole) (hpart : IsFull (part * 2 ^ j))
    (hwhole : IsFull (whole * 2 ^ k)) : k ≤ j := by
  obtain ⟨hpartLow, -⟩ := hpart
  obtain ⟨-, hwholeHigh⟩ := hwhole
  refine Nat.le_of_not_lt fun hlt => ?_
  have hpow : 2 ^ (j + 1) ≤ 2 ^ k := Nat.pow_le_pow_right (by decide) hlt
  have hshifted : part * 2 ^ (j + 1) ≤ whole * 2 ^ k := Nat.mul_le_mul hle hpow
  rw [Nat.pow_succ, ← Nat.mul_assoc] at hshifted
  omega

/-- The part is at least half of the whole if it is shifted no further, and also if it is shifted
one place further and is then not the smaller. -/
theorem half_le_shifted {j k : Nat} (hle : part ≤ whole) (hpart : IsFull (part * 2 ^ j))
    (hwhole : IsFull (whole * 2 ^ k)) :
    (-53 : Int) ≤ (if whole * 2 ^ k ≤ part * 2 ^ j then -(j : Int) - -(k : Int) - 52
      else -(j : Int) - -(k : Int) - 53) ↔ whole ≤ 2 * part := by
  have hk := shift_le hle hpart hwhole
  obtain ⟨hpartLow, hpartHigh⟩ := hpart
  obtain ⟨hwholeLow, hwholeHigh⟩ := hwhole
  obtain ⟨d, rfl⟩ := Nat.exists_eq_add_of_le hk
  have hcompare : whole * 2 ^ k ≤ 2 * (part * 2 ^ k) ↔ whole ≤ 2 * part := by
    rw [← Nat.mul_assoc, Nat.mul_le_mul_right_iff (Nat.two_pow_pos k)]
  rw [← hcompare]
  rcases d with _ | _ | d
  · rw [Nat.add_zero] at *
    split <;> omega
  · rw [Nat.zero_add, Nat.pow_succ, ← Nat.mul_assoc] at *
    split <;> omega
  · -- Two places further, the part is less than half of the whole.
    have hfour : 2 ^ 2 ≤ 2 ^ (d + 1 + 1) := Nat.pow_le_pow_right (by decide) (by omega)
    have hpow : 2 ^ k * 4 ≤ 2 ^ (k + (d + 1 + 1)) := by
      rw [Nat.pow_add]
      exact Nat.mul_le_mul_left (2 ^ k) hfour
    have hshifted := Nat.mul_le_mul_left part hpow
    rw [← Nat.mul_assoc] at hshifted
    split <;> omega

/-- Rounded or not, the quotient of two counts is at least one half just where they say so. -/
theorem half_le_share (hwhole : 0 < whole) (hlt : whole < 9007199254740992) (hle : part ≤ whole) :
    (UInt64.ofNat part).toFloat / (UInt64.ofNat whole).toFloat ≥ 0.5 ↔ whole ≤ 2 * part := by
  have hunpack := unpack_toFloat_count hwhole hlt
  rcases Nat.eq_zero_or_pos part with rfl | hpart
  · have hzero : (UInt64.ofNat 0).toFloat.toModel.unpack = .zero .positive := rfl
    exact iff_of_false (not_half_le_zero hzero hunpack) (by omega)
  · have hpartLt := Nat.lt_of_le_of_lt hle hlt
    have hshift := log2_add_countShift hwhole hlt
    have hpartShift := log2_add_countShift hpart hpartLt
    rw [half_le_div_iff (isFull_count hpart hpartLt) (isFull_count hwhole hlt)
      (unpack_toFloat_count hpart hpartLt) hunpack (by omega) (by omega)]
    exact half_le_shifted hle (isFull_count hpart hpartLt) (isFull_count hwhole hlt)

/-- The quotient of a count by itself is not less than one half, even if the count is rounded. -/
theorem half_le_self (hpos : 0 < count) (hlt : count < 18446744073709551616) :
    (UInt64.ofNat count).toFloat / (UInt64.ofNat count).toFloat ≥ 0.5 := by
  by_cases hshort : count < 9007199254740992
  · exact (half_le_share hpos hshort (Nat.le_refl count)).mpr (by omega)
  · obtain ⟨m, e, hfull, hround, hlow, hhigh⟩ := exists_ofNat_word (Nat.le_of_not_lt hshort) hlt
    have hunpack := unpack_toFloat hlt
    rw [hround, unpack_pack hfull (by omega) (by omega)] at hunpack
    rw [half_le_div_iff hfull hfull hunpack hunpack (by omega) (by omega),
      if_pos (Nat.le_refl m)]
    omega

end Shares

end DiceNotation
