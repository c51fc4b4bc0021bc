import Mathlib
import NonAxiomatic.Engine.Basic

/-!
# Products are rounded down

A queue orders its entries by the words of their priorities. The priority of a derived sentence is
a product of `0.99` and a confidence, which is less than one by one unit of its last place at least.
Rounding gives half a unit of the last place back at most (`rounded_le`), so that the product stays
below.

* `Double.word`: the word for a mantissa and an exponent, in which a number with a greater exponent
  comes after all with a smaller one.

**Theorem (`Double.rank_mul_clampConfidence_lt`).** The product of `0.99` and any confidence that
was moved into its range ranks below `0.99`.
-/

namespace NonAxiomatic

namespace Double

open Float.Model Float.Model.UnpackedFloat

/-! ## Rounding -/

/-- A rounded mantissa is at most one above the mantissa, and not above it where the first digit
that was cut off is zero. -/
theorem roundedMantissa_le (m : ExtendedMantissa) :
    m.roundedMantissa ≤ m.mantissa + m.roundBit.toNat := by
  obtain ⟨mantissa, roundBit, stickyBit⟩ := m
  cases roundBit <;> cases stickyBit <;>
    simp [ExtendedMantissa.roundedMantissa, ExtendedMantissa.accuracy,
      Accuracy.roundToNearestEven]
  omega

/-- What is left of a number after digits have been cut off. -/
theorem shifted_le (number digits : Nat) :
    (2 * (ExtendedMantissa.mk number false false >>> digits).mantissa +
      (ExtendedMantissa.mk number false false >>> digits).roundBit.toNat) * 2 ^ digits ≤
        2 * number := by
  induction digits with
  | zero => simp [HShiftRight.hShiftRight, Nat.repeat]
  | succ digits ih =>
    rw [show ExtendedMantissa.mk number false false >>> (digits + 1) =
      (ExtendedMantissa.mk number false false >>> digits).shiftRightOne from rfl]
    generalize ExtendedMantissa.mk number false false >>> digits = m at ih ⊢
    have hcut : 2 * (m.mantissa / 2) + (m.mantissa % 2 != 0).toNat = m.mantissa := by
      rcases Nat.mod_two_eq_zero_or_one m.mantissa with h | h <;> simp [h] <;> omega
    calc (2 * m.shiftRightOne.mantissa + m.shiftRightOne.roundBit.toNat) * 2 ^ (digits + 1)
        = 2 * m.mantissa * 2 ^ digits := by
          simp only [ExtendedMantissa.shiftRightOne, hcut]
          ring
      _ ≤ (2 * m.mantissa + m.roundBit.toNat) * 2 ^ digits := Nat.mul_le_mul_right _ (by omega)
      _ ≤ 2 * number := ih

/-- A number is rounded up by half of the last digit at most. -/
theorem rounded_le (number digits : Nat) :
    2 * (ExtendedMantissa.mk number false false >>> digits).roundedMantissa * 2 ^ digits ≤
      2 * number + 2 ^ digits := by
  have hshifted := shifted_le number digits
  have hrounded := roundedMantissa_le (ExtendedMantissa.mk number false false >>> digits)
  generalize ExtendedMantissa.mk number false false >>> digits = m at hshifted hrounded ⊢
  have hbit : m.roundBit.toNat ≤ 1 := Bool.toNat_le _
  calc 2 * m.roundedMantissa * 2 ^ digits
      ≤ (2 * m.mantissa + m.roundBit.toNat + 1) * 2 ^ digits := Nat.mul_le_mul_right _ (by omega)
    _ ≤ 2 * number + 2 ^ digits := by
      rw [Nat.add_mul _ 1, Nat.one_mul]
      omega

/-! ## Words -/

/-- The word without a sign for a mantissa and an exponent. -/
def word (mantissa : Nat) (exponent : Int) : Nat := (exponent + 1074).toNat * 2 ^ 52 + mantissa

theorem toNat_packComponents (exponent : BitVec 11) (mantissa : BitVec 52) :
    (packComponents Format.binary64 .positive exponent mantissa).toNat =
      exponent.toNat * 2 ^ 52 + mantissa.toNat := by
  have he := exponent.isLt
  have hm := mantissa.isLt
  simp only [packComponents, BitVec.toNat_append, Sign.toBitVec]
  rw [← Nat.shiftLeft_add_eq_or_of_lt hm, ← Nat.shiftLeft_add_eq_or_of_lt he]
  simp [Nat.shiftLeft_eq]

theorem toNat_pack_le {mantissa : Nat} {exponent : Int} (hpos : 0 < mantissa)
    (hm : mantissa < 2 ^ 53) (hmin : -1074 ≤ exponent) (hmax : exponent ≤ 0) :
    (UnpackedFloat.pack Format.binary64 (.finite .positive mantissa exponent hpos)).toNat ≤
      word mantissa exponent := by
  have hbias : (exponent + (Format.exponentBias Format.binary64 : Nat) + (52 : Nat)).toNat =
      (exponent + 1074).toNat + 1 := by
    have : Format.exponentBias Format.binary64 = 1023 := by decide
    omega
  have hplaces : Format.mantissaBits Format.binary64 = 53 := rfl
  simp only [UnpackedFloat.pack, hbias, hplaces, word]
  rw [if_neg (by simp; omega)]
  split
  · rename_i hlog
    have hlow : 2 ^ 52 ≤ mantissa := (Nat.le_log2 (by omega)).1 (by omega)
    rw [toNat_packComponents]
    simp only [BitVec.toNat_ofNat]
    omega
  · rw [toNat_packComponents]
    simp only [BitVec.toNat_ofNat]
    omega

/-- The exponent that a number is rounded to. -/
def roundedExponent (number : Nat) (exponent : Int) : Int :=
  max (number.log2 + exponent - 52) (-1074)

theorem targetExponent_eq (number : Nat) (exponent : Int) :
    Format.binary64.targetExponent (totalExponent number exponent) =
      roundedExponent number exponent := by
  have hplaces : Format.mantissaBits Format.binary64 = 53 := rfl
  have hmin : Format.minExponent Format.binary64 = -1074 := rfl
  rw [Format.targetExponent, totalExponent, hplaces, hmin, roundedExponent]
  omega

theorem shiftToTargetExponent_eq (number : Nat) (exponent : Int) :
    shiftToTargetExponent Format.binary64 number exponent .exact =
      (ExtendedMantissa.mk number false false >>>
          (roundedExponent number exponent - exponent).toNat,
        exponent + (roundedExponent number exponent - exponent).toNat) := by
  rw [shiftToTargetExponent, targetExponent_eq]
  rfl

/-- What fits into a word is left as it is. -/
theorem shiftToTargetExponent_of_lt {mantissa : Nat} {exponent : Int} (hm : mantissa < 2 ^ 53)
    (hmin : -1074 ≤ exponent) :
    shiftToTargetExponent Format.binary64 mantissa exponent .exact =
      (ExtendedMantissa.mk mantissa false false, exponent) := by
  have hlog : mantissa.log2 ≤ 52 := by
    rcases Nat.eq_zero_or_pos mantissa with rfl | hpos
    · simp
    · have := (Nat.log2_lt hpos.ne').2 hm
      omega
  have hnone : (roundedExponent mantissa exponent - exponent).toNat = 0 := by
    rw [roundedExponent]
    omega
  rw [shiftToTargetExponent_eq, hnone]
  simp [HShiftRight.hShiftRight, Nat.repeat]

/-- A mantissa that has become too long by rounding loses its last digit, which is zero. -/
theorem shiftToTargetExponent_two_pow {exponent : Int} (hmin : -1074 ≤ exponent) :
    shiftToTargetExponent Format.binary64 (2 ^ 53) exponent .exact =
      (ExtendedMantissa.mk (2 ^ 52) false false, exponent + 1) := by
  have hone : (roundedExponent (2 ^ 53) exponent - exponent).toNat = 1 := by
    rw [roundedExponent, Nat.log2_two_pow]
    omega
  rw [shiftToTargetExponent_eq, hone]
  rfl

/-- A number is put into the word for its rounded mantissa, where a mantissa that has become too
long counts as one more place. -/
theorem toNat_roundWithAccuracy_of_le {number : Nat} {exponent e : Int} {m : ExtendedMantissa}
    (hfirst : shiftToTargetExponent Format.binary64 number exponent .exact = (m, e))
    (hm : m.roundedMantissa ≤ 2 ^ 53) (hmin : -1074 ≤ e) (hmax : e < 0) :
    (UnpackedFloat.pack Format.binary64
      (roundWithAccuracy Format.binary64 .positive number exponent .exact)).toNat ≤
        word m.roundedMantissa e := by
  rw [roundWithAccuracy, hfirst]
  dsimp only
  generalize m.roundedMantissa = mantissa at hm ⊢
  rcases hm.lt_or_eq with hlt | rfl
  · simp only [shiftToTargetExponent_of_lt hlt hmin]
    split
    · exact Nat.zero_le _
    · exact toNat_pack_le _ hlt hmin hmax.le
  · simp only [shiftToTargetExponent_two_pow hmin]
    rw [dif_neg (by decide)]
    refine (toNat_pack_le _ (by decide) (by omega) (by omega)).trans ?_
    simp only [word]
    omega

/-- A number is rounded up by half of the last place at most. -/
theorem toNat_roundWithAccuracy_le {number : Nat} {exponent : Int}
    (hlong : exponent ≤ roundedExponent number exponent)
    (hmax : roundedExponent number exponent < 0) : ∃ mantissa,
      (2 * mantissa * 2 ^ (roundedExponent number exponent - exponent).toNat ≤
        2 * number + 2 ^ (roundedExponent number exponent - exponent).toNat) ∧
      mantissa ≤ 2 ^ 53 ∧
      (UnpackedFloat.pack Format.binary64
        (roundWithAccuracy Format.binary64 .positive number exponent .exact)).toNat ≤
          word mantissa (roundedExponent number exponent) := by
  have hmin : -1074 ≤ roundedExponent number exponent := le_max_right _ _
  have hlog : (number.log2 : Int) + exponent - 52 ≤ roundedExponent number exponent :=
    le_max_left _ _
  have hfirst := shiftToTargetExponent_eq number exponent
  rw [Int.toNat_of_nonneg (by omega), add_sub_cancel] at hfirst
  set e := roundedExponent number exponent
  set digits := (e - exponent).toNat with hdigits
  have hrounded := rounded_le number digits
  set mantissa := (ExtendedMantissa.mk number false false >>> digits).roundedMantissa
    with hmantissa
  -- The digits that are kept are at most fifty-three; rounding up may reach the next power.
  have hle : mantissa ≤ 2 ^ 53 := by
    have hlt : number < 2 ^ (number.log2 + 1) := Nat.lt_log2_self
    have hpow : 2 ^ (number.log2 + 1) ≤ 2 ^ 53 * 2 ^ digits := by
      rw [← Nat.pow_add]
      exact Nat.pow_le_pow_right (by decide) (by omega)
    have hhalf : 2 * mantissa * 2 ^ digits < (2 * 2 ^ 53 + 1) * 2 ^ digits := by
      rw [Nat.add_mul, Nat.one_mul, Nat.mul_assoc 2 (2 ^ 53)]
      omega
    have := Nat.lt_of_mul_lt_mul_right hhalf
    omega
  refine ⟨mantissa, hrounded, hle, ?_⟩
  exact toNat_roundWithAccuracy_of_le hfirst hle hmin hmax

/-- What lies less than half of a last place above a word is rounded to this word at most. -/
theorem toNat_roundWithAccuracy_le_word {number mantissa : Nat} {exponent e : Int}
    (hm : mantissa < 2 ^ 53) (hmin : -1074 ≤ e) (hmax : e < 0)
    (hfull : 2 ^ 52 ≤ mantissa ∨ e = -1074) (hle : exponent ≤ e)
    (hlong : exponent ≤ roundedExponent number exponent)
    (h : 2 * number < (2 * mantissa + 1) * 2 ^ (e - exponent).toNat) :
    (UnpackedFloat.pack Format.binary64
      (roundWithAccuracy Format.binary64 .positive number exponent .exact)).toNat ≤
        word mantissa e := by
  -- Less than half a step above the bound, a number does not round to a higher binary place.
  have hnotAbove : roundedExponent number exponent ≤ e := by
    by_contra habove
    have hlog : (e - exponent).toNat + 53 ≤ number.log2 := by
      rw [roundedExponent] at habove
      omega
    have hpow : 2 ^ 53 * 2 ^ (e - exponent).toNat ≤ number := by
      rw [← Nat.pow_add, Nat.add_comm]
      exact (Nat.pow_le_pow_right (by decide) hlog).trans (Nat.log2_self_le (by
        rintro rfl
        simp at hlog))
    have hless : (2 * mantissa + 1) * 2 ^ (e - exponent).toNat ≤
        2 * 2 ^ 53 * 2 ^ (e - exponent).toNat := Nat.mul_le_mul_right _ (by omega)
    rw [Nat.mul_assoc] at hless
    omega
  obtain ⟨r, hr, hr53, hword⟩ := toNat_roundWithAccuracy_le hlong (by omega)
  refine hword.trans ?_
  rcases hnotAbove.lt_or_eq with hlt | heq
  · -- One binary place less is half as much, rounded up or not.
    have hleast : -1074 ≤ roundedExponent number exponent := le_max_right _ _
    simp only [word]
    omega
  · rw [heq] at hr ⊢
    have hless : 2 * r * 2 ^ (e - exponent).toNat <
        (2 * mantissa + 1 + 1) * 2 ^ (e - exponent).toNat := by
      rw [Nat.add_mul (2 * mantissa + 1) 1, Nat.one_mul]
      omega
    have := Nat.lt_of_mul_lt_mul_right hless
    simp only [word]
    omega

/-! ## The product with a number that is less than one -/

/-- The product of a number that is no power of two and a number that is less than one is rounded to
less than the former. -/
theorem toNat_product_lt {m mantissa : Nat} {e exponent : Int} (hlow : 2 ^ 52 < m) (hm : m < 2 ^ 53)
    (hmin : -1074 ≤ e) (hmax : e < 0) (hpos : 0 < mantissa) (hmantissa : mantissa < 2 ^ 53)
    (hexponent : exponent ≤ -53) :
    (UnpackedFloat.pack Format.binary64
      (roundWithAccuracy Format.binary64 .positive (m * mantissa) (e + exponent) .exact)).toNat <
        word m e := by
  have hlog : 52 ≤ (m * mantissa).log2 := by
    have hle : m ≤ m * mantissa := Nat.le_mul_of_pos_right _ hpos
    exact (Nat.le_log2 (by omega)).2 (by omega)
  have hless : 2 * (m * mantissa) < (2 * (m - 1) + 1) * 2 ^ (e - (e + exponent)).toNat :=
    calc 2 * (m * mantissa) ≤ 2 * (m * (2 ^ 53 - 1)) :=
          Nat.mul_le_mul_left 2 (Nat.mul_le_mul_left m (by omega))
      _ < (2 * (m - 1) + 1) * 2 ^ 53 := by omega
      _ ≤ (2 * (m - 1) + 1) * 2 ^ (e - (e + exponent)).toNat :=
          Nat.mul_le_mul_left _ (Nat.pow_le_pow_right (by decide) (by omega))
  refine (toNat_roundWithAccuracy_le_word (by omega) hmin hmax (.inl (by omega)) (by omega)
    (by rw [roundedExponent]; omega) hless).trans_lt ?_
  simp only [word]
  omega

/-- The mantissa of `0.99`. -/
def mantissa99 : Nat := 8917127262193582

theorem word_mantissa99 : word mantissa99 (-53) = 0x3FEFAE147AE147AE := by decide

/-! ## Reading words -/

/-- A double is computed with as its word says. -/
theorem unpack_toFloat (x : Double) : x.toFloat.toModel.unpack =
    UnpackedFloat.unpack Format.binary64 x.bits.toBitVec := by
  have hread : x.toFloat.toModel.unpack = UnpackedFloat.unpack Format.binary64
      (UnpackedFloat.pack Format.binary64
        (UnpackedFloat.unpack Format.binary64 x.bits.toBitVec)) := rfl
  rw [hread, pack_unpack]
  split
  · rename_i hnan
    rw [unpack_packedNaN]
    simp only [isNaNBits, decide_eq_true_eq] at hnan
    simp [UnpackedFloat.unpack, hnan]
  · rfl

/-- A word is the one for what is read of it, unless that is no number. -/
theorem pack_unpack_of_ne {b : BitVec 64}
    (h : UnpackedFloat.unpack Format.binary64 b ≠ .notANumber) :
    UnpackedFloat.pack Format.binary64 (UnpackedFloat.unpack Format.binary64 b) = b := by
  have hpack := @pack_unpack Format.binary64 b (by decide)
  rwa [if_neg] at hpack
  intro hnan
  simp only [isNaNBits, decide_eq_true_eq] at hnan
  exact h (by simp [UnpackedFloat.unpack, hnan])

theorem toNat_magnitude (x : Double) : x.magnitude.toNat = x.bits.toNat % 2 ^ 63 := by
  rw [magnitude, UInt64.toNat_and]
  exact Nat.and_two_pow_sub_one_eq_mod _ 63

theorem toNat_unpackExponent (b : BitVec 64) :
    (@unpackExponent Format.binary64 b).toNat = b.toNat / 2 ^ 52 % 2 ^ 11 := by
  simp [unpackExponent_def, Nat.shiftRight_eq_div_pow]

theorem toNat_unpackMantissa (b : BitVec 64) :
    (@unpackMantissa Format.binary64 b).toNat = b.toNat % 2 ^ 52 := by
  simp [unpackMantissa_def]

theorem toNat_implicit (mantissa : BitVec 52) :
    (1#1 ++ mantissa).toNat = 2 ^ 52 + mantissa.toNat := by
  rw [BitVec.toNat_append, ← Nat.shiftLeft_add_eq_or_of_lt mantissa.isLt]
  rfl

/-- The mantissa and the exponent of a finite number. -/
theorem word_le_of_unpack {b : BitVec 64} {sign : Sign} {mantissa : Nat} {exponent : Int}
    {hpos : 0 < mantissa}
    (h : UnpackedFloat.unpack Format.binary64 b = .finite sign mantissa exponent hpos) :
    mantissa < 2 ^ 53 ∧ -1074 ≤ exponent ∧ (2 ^ 52 ≤ mantissa ∨ exponent = -1074) ∧
      word mantissa exponent ≤ b.toNat := by
  have hexponent := toNat_unpackExponent b
  have hmantissa := toNat_unpackMantissa b
  have hbias : (Format.exponentBias Format.binary64 : Int) = 1023 := rfl
  have hlt : b.toNat % 2 ^ 52 < 2 ^ 52 := Nat.mod_lt _ (by decide)
  simp only [UnpackedFloat.unpack, hbias] at h
  split_ifs at h with h1 h2 h3 h4
  · injection h with _ hm he
    rw [h3] at hexponent he
    rw [hmantissa] at hm
    have hleast : exponent = -1074 := he.symm
    subst hm hleast
    exact ⟨by omega, le_refl _, .inr rfl, by simp only [word]; omega⟩
  · injection h with _ hm he
    have hnormal : (@unpackExponent Format.binary64 b).toNat ≠ 0 := fun h =>
      h3 (BitVec.eq_of_toNat_eq h)
    rw [toNat_implicit, hmantissa] at hm
    subst hm he
    refine ⟨by omega, by omega, .inl (by omega), ?_⟩
    simp only [word]
    omega

theorem infinity_le_of_unpack {b : BitVec 64} {sign : Sign}
    (h : UnpackedFloat.unpack Format.binary64 b = .infinity sign) : 2047 * 2 ^ 52 ≤ b.toNat := by
  have hexponent := toNat_unpackExponent b
  simp only [UnpackedFloat.unpack] at h
  split_ifs at h with hall
  · rw [hall] at hexponent
    simp at hexponent
    omega

theorem lt_iff_compare {x y : Double} : x < y ↔
    UnpackedFloat.compare (UnpackedFloat.unpack Format.binary64 x.bits.toBitVec)
      (UnpackedFloat.unpack Format.binary64 y.bits.toBitVec) = some .lt := by
  rw [← unpack_toFloat, ← unpack_toFloat, ← beq_iff_eq]
  exact decide_eq_true_iff

theorem le_iff_compare {x y : Double} : x ≤ y ↔
    (UnpackedFloat.compare (UnpackedFloat.unpack Format.binary64 x.bits.toBitVec)
      (UnpackedFloat.unpack Format.binary64 y.bits.toBitVec)).any Ordering.isLE = true := by
  rw [← unpack_toFloat, ← unpack_toFloat]
  exact decide_eq_true_iff

theorem beq_iff_compare {x y : Double} : (x == y) = true ↔
    UnpackedFloat.compare (UnpackedFloat.unpack Format.binary64 x.bits.toBitVec)
      (UnpackedFloat.unpack Format.binary64 y.bits.toBitVec) = some .eq := by
  rw [← unpack_toFloat, ← unpack_toFloat]
  show UnpackedFloat.beq _ _ = true ↔ _
  rw [UnpackedFloat.beq]
  exact beq_iff_eq

/-- Of a positive number, what is greater has a greater word. -/
theorem word_lt_of_lt {x y : Double} {mantissa : Nat} {exponent : Int} {hpos : 0 < mantissa}
    (hx : UnpackedFloat.unpack Format.binary64 x.bits.toBitVec =
      .finite .positive mantissa exponent hpos) (hmax : exponent < 971) (h : x < y) :
    word mantissa exponent < y.bits.toNat := by
  obtain ⟨hm, hmin, _, _⟩ := word_le_of_unpack hx
  rw [lt_iff_compare, hx] at h
  cases hy : UnpackedFloat.unpack Format.binary64 y.bits.toBitVec with
  | infinity sign =>
    have hinf := infinity_le_of_unpack hy
    rw [UInt64.toNat_toBitVec] at hinf
    simp only [word]
    omega
  | notANumber =>
    rw [hy] at h
    exact absurd h (by simp [UnpackedFloat.compare])
  | zero sign =>
    rw [hy] at h
    exact absurd h (by simp [UnpackedFloat.compare])
  | finite sign m e hpos' =>
    obtain ⟨hm', _, hfull, hword⟩ := word_le_of_unpack hy
    rw [hy] at h
    cases sign with
    | negative => exact absurd h (by simp [UnpackedFloat.compare])
    | positive =>
      simp only [UnpackedFloat.compare, Option.some.injEq, Ordering.then_eq_lt,
        Nat.compare_eq_lt, Int.compare_eq_lt, Int.compare_eq_eq] at h
      rw [UInt64.toNat_toBitVec] at hword
      simp only [word] at hword ⊢
      omega

/-! ## What is less than one -/

/-- A confidence that stays where it is when it is moved inside of the unit interval. -/
theorem finite_of_clampConfidence {c : Double} (hone : ¬ (1.0 : Double) ≤ c)
    (hzero : ¬ c ≤ (0.0 : Double)) :
    UnpackedFloat.unpack Format.binary64 c.bits.toBitVec = .notANumber ∨
      ∃ mantissa exponent hpos, mantissa < 2 ^ 53 ∧ -1074 ≤ exponent ∧ exponent ≤ -53 ∧
        UnpackedFloat.unpack Format.binary64 c.bits.toBitVec =
          .finite .positive mantissa exponent hpos := by
  have h1 : UnpackedFloat.unpack Format.binary64 (1.0 : Double).bits.toBitVec =
    .finite .positive (2 ^ 52) (-52) (by decide) := by rfl
  have h0 : UnpackedFloat.unpack Format.binary64 (0.0 : Double).bits.toBitVec =
    .zero .positive := by rfl
  rw [le_iff_compare, h1] at hone
  rw [le_iff_compare, h0] at hzero
  cases hc : UnpackedFloat.unpack Format.binary64 c.bits.toBitVec with
  | infinity sign =>
    rw [hc] at hone hzero
    cases sign with
    | positive => exact absurd rfl hone
    | negative => exact absurd rfl hzero
  | notANumber => exact .inl rfl
  | zero sign =>
    rw [hc] at hzero
    exact absurd rfl hzero
  | finite sign m e hpos =>
    obtain ⟨hm, hmin, hfull, _⟩ := word_le_of_unpack hc
    rw [hc] at hone hzero
    cases sign with
    | negative => exact absurd rfl hzero
    | positive =>
      refine .inr ⟨m, e, hpos, hm, hmin, ?_, rfl⟩
      simp only [UnpackedFloat.compare, Option.any_some, Bool.not_eq_true,
        Ordering.isLE_eq_false, Ordering.then_eq_gt, Nat.compare_eq_gt, Int.compare_eq_gt,
        Int.compare_eq_eq] at hone
      omega

/-! ## Ranks -/

open PriorityQueue (rank)

theorem rank_of_isNaN {x : Double} (h : x.isNaN = true) : rank x = 0 := by
  simp only [rank, h, if_true]
  rfl

/-- What is not greater than the ceiling has a rank that is its word or zero. -/
theorem rank_le_bits {x : Double} (h : ¬ Budget.ceiling < x) : rank x ≤ x.bits := by
  simp only [rank]
  split
  · exact UInt64.zero_le
  · split
    · exact UInt64.zero_le
    · exact UInt64.le_refl _

theorem rank_ofFloat_lt {f : Float} (h : f.toBits.toNat < 0x3FEFAE147AE147AE) :
    rank (ofFloat f) < 0x3FEFAE147AE147AE := by
  unfold ofFloat
  split
  · rw [rank_of_isNaN (by decide)]
    decide
  · have hceiling : UnpackedFloat.unpack Format.binary64 Budget.ceiling.bits.toBitVec =
      .finite .positive 9007199164668999 (-53) (by decide) := by rfl
    have hle : ¬ Budget.ceiling < (⟨f.toBits⟩ : Double) := by
      intro hlt
      have := word_lt_of_lt hceiling (by decide) hlt
      simp only [word] at this
      omega
    exact UInt64.lt_of_le_of_lt (rank_le_bits hle) (UInt64.lt_iff_toNat_lt.2 h)

theorem isNaN_quiet {x : Double} (h : x.isNaN = true) : x.quiet.isNaN = true := by
  have hlt := UInt64.lt_iff_toNat_lt.1 (of_decide_eq_true h)
  refine decide_eq_true (UInt64.lt_iff_toNat_lt.2 (lt_of_lt_of_le hlt ?_))
  simp only [magnitude, quiet, UInt64.toNat_and, UInt64.toNat_or, Nat.and_or_distrib_right]
  exact Nat.left_le_or

theorem clampConfidence_eq (c : Double) : Scale.clampConfidence c =
    if (1.0 : Double) ≤ c then (0.9999 : Double)
    else if c ≤ (0.0 : Double) then 0.0001 else c := by
  have h : Scale.clampConfidence c = if decide ((1.0 : Double) ≤ c) = true then (0.9999 : Double)
    else if decide (c ≤ (0.0 : Double)) = true then 0.0001 else c := rfl
  simpa only [decide_eq_true_eq] using h

theorem toModel_mul (x y : Double) : (x.toFloat * y.toFloat).toModel = Float.Model.pack
    (UnpackedFloat.mul Format.binary64
      (UnpackedFloat.unpack Format.binary64 x.bits.toBitVec)
      (UnpackedFloat.unpack Format.binary64 y.bits.toBitVec)) := by
  rw [← unpack_toFloat, ← unpack_toFloat]
  rfl

/-- **Main theorem.** What `0.99` is multiplied with a confidence ranks below `0.99` itself. -/
theorem rank_mul_clampConfidence_lt (c : Double) :
    rank (0.99 * Scale.clampConfidence c) < rank 0.99 := by
  have hrank : rank 0.99 = 0x3FEFAE147AE147AE := by decide
  have h99 : UnpackedFloat.unpack Format.binary64 (0.99 : Double).bits.toBitVec =
    .finite .positive mantissa99 (-53) (by decide) := by rfl
  have hmul : (0.99 : Double) * c = if c.isNaN then c.quiet
      else ofFloat ((0.99 : Double).toFloat * c.toFloat) := by
    show binary _ _ _ = _
    rw [binary, if_neg (by decide)]
  rw [hrank, clampConfidence_eq]
  split
  · decide
  split
  · decide
  rename_i hone hzero
  rw [hmul]
  split
  · rw [rank_of_isNaN (isNaN_quiet ‹_›)]
    decide
  -- The confidence is no number at all, or it is finite and below one.
  rcases finite_of_clampConfidence hone hzero with hc | ⟨m, e, hpos, hm, hmin, hmax, hc⟩
  · have hnan : ((0.99 : Double).toFloat * c.toFloat).isNaN = true := by
      rw [Float.isNaN, toModel_mul, h99, hc]
      rfl
    rw [ofFloat, if_pos hnan]
    decide
  · apply rank_ofFloat_lt
    rw [Float.toBits, toModel_mul, h99, hc, ← word_mantissa99]
    exact toNat_product_lt (by decide) (by decide) (by decide) (by decide) hpos hm hmax

end Double

end NonAxiomatic
