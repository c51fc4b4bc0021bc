import NonAxiomatic.Proofs.Commuting
import NonAxiomatic.Proofs.TotalOrder

/-!
# Numbers between zero and one in hundredths

A number of the unit interval is written with two decimal places, that is as a number of hundredths.
It is rounded to no more than a hundred of them (`Double.hundredths_le`), so that there are few such
texts (`Double.exists_fixed_eq`), and each of them is read as a number of the unit interval again.
The zero with a sign keeps its sign in the text.

**Theorem (`Double.read_fixed`).** The text of a number between zero and one is read as a number
between zero and one.
-/

namespace NonAxiomatic.Double

variable {x : Double}

/-! ## The unit interval -/

theorem le_of_lt {y : Double} (h : x < y) : x ≤ y := by
  rw [le_iff_compare, lt_iff_compare.1 h]
  rfl

/-- A number between zero and one has no sign, unless it is zero. -/
theorem inUnit_or (hzero : 0.0 ≤ x) (hone : x ≤ 1.0) : x = ⟨signMask⟩ ∨ x.InUnit := by
  have hnumber : x.isNaN = false :=
    Bool.eq_false_iff.2 fun hnan => not_le_of_isNaN_right _ hnan hzero
  rw [le_iff_place_le (by decide) hnumber] at hzero
  rw [le_iff_place_le hnumber (by decide)] at hone
  have hplaces : (0.0 : Double).place = 0 ∧ (1.0 : Double).place = 1023 * 2 ^ 52 := by
    decide
  have hlt := x.bits.toNat_lt
  have hmask : signMask.toNat = 2 ^ 63 := rfl
  rw [hplaces.1, place, toNat_magnitude, sign] at hzero
  rw [hplaces.2, place, toNat_magnitude, sign] at hone
  split_ifs at hzero hone with h <;> rw [UInt64.le_iff_toNat_le, hmask] at h <;>
    simp only [Float.Model.UnpackedFloat.Sign.apply] at hzero hone
  · refine .inl (Double.ext (UInt64.toNat_inj.1 ?_))
    show x.bits.toNat = signMask.toNat
    omega
  · refine .inr ?_
    rw [InUnit]
    omega

/-! ## Hundredths -/

/-- A number of hundredths with two decimal places. -/
def hundredths (n : Nat) : List Char := (Decimal.mk n (-2)).positional false

theorem ratio_le {m : Nat} {q : Int} (hm : m ≤ 2 ^ 53) (hq : q ≤ -53) :
    (Ratio.ofBinary m q).numerator ≤ (Ratio.ofBinary m q).denominator := by
  rw [Ratio.ofBinary, if_neg (by omega)]
  show m ≤ 1 <<< (-q).toNat
  rw [Nat.one_shiftLeft]
  exact hm.trans (Nat.pow_le_pow_right (by decide) (by omega))

/-- A number of the unit interval is a quotient that is at most one. -/
theorem exists_binary_eq (h : x.InUnit) : ∃ m q, Binary.of x = .finite false m q ∧
    (Ratio.ofBinary m q).numerator ≤ (Ratio.ofBinary m q).denominator := by
  rw [InUnit] at h
  have hsign : decide (signBit ≤ x.bits.toNat) = false := decide_eq_false (by rw [signBit]; omega)
  have hfraction : x.bits.toNat % leadingBit < 2 ^ 52 := Nat.mod_lt _ (by decide)
  have hlead : leadingBit = 2 ^ 52 := rfl
  simp only [Binary.of, Binary.ofBits, hsign]
  rw [if_neg (by rw [leadingBit]; omega)]
  split_ifs with hfield <;> refine ⟨_, _, rfl, ?_⟩
  · exact ratio_le (by omega) (by decide)
  · by_cases hlast : x.bits.toNat = 1023 * 2 ^ 52
    · rw [hlast]
      decide
    · exact ratio_le (by omega) (by rw [leadingBit]; omega)

/-- What is at most one is rounded to at most a hundred hundredths. -/
theorem hundredths_le {numerator denominator : Nat} (hpos : 0 < denominator)
    (h : numerator ≤ denominator) : roundHalfEven (numerator * 100) denominator ≤ 100 := by
  have hround := roundHalfEven_le (numerator * 100) hpos
  by_contra hmore
  have hmany := Nat.mul_le_mul_right denominator (show 101 ≤ _ from Nat.lt_of_not_le hmore)
  omega

/-- The text of a number between zero and one. -/
theorem exists_fixed_eq (hzero : 0.0 ≤ x) (hone : x ≤ 1.0) :
    fixed 2 x = String.ofList ('-' :: hundredths 0) ∨
      ∃ n, n ≤ 100 ∧ fixed 2 x = String.ofList (hundredths n) := by
  obtain rfl | hunit := inUnit_or hzero hone
  · exact .inl (by decide)
  · obtain ⟨m, q, hbinary, hle⟩ := exists_binary_eq hunit
    refine .inr ⟨_, hundredths_le (Ratio.denominator_pos m q) hle, ?_⟩
    rw [fixed, hbinary]
    rfl

/-! ## Reading -/

/-- Whether a text consists of characters of decimal numbers only and is read as a number between
zero and one. -/
def isShare (text : List Char) : Bool :=
  (text.all fun c => c.isDigit || c == '.' || c == '-') &&
    (read? text).any fun d => decide (0.0 ≤ d) && decide (d ≤ 1.0)

theorem isShare_hundredths : ∀ n ≤ 100, isShare (hundredths n) = true := by
  decide +kernel

/-- **Main theorem.** The text of a number between zero and one is read as a number between zero and
one. -/
theorem read_fixed (hzero : 0.0 ≤ x) (hone : x ≤ 1.0) : isShare (fixed 2 x).toList = true := by
  obtain heq | ⟨n, hn, heq⟩ := exists_fixed_eq hzero hone <;> rw [heq, String.toList_ofList]
  · decide
  · exact isShare_hundredths n hn

end NonAxiomatic.Double
