import NonAxiomatic.Proofs.Rounding

/-!
# Sums and products with their operands exchanged

Doubles are added and multiplied alike in both orders, except that what is no number is handed on
from the first operand that is none. So a result is the same word, or no number in either order
(`Double.Agrees`); to compare it with a number, this is enough (`Double.Agrees.le_iff`).

* `Double.agrees_add_comm`, `Double.agrees_mul_comm`: sums and products.
* `Double.agrees_one_mul`: nothing is lost in a product with one.

**Theorem (`Double.agrees_mean_comm`).** The mean of two doubles is the same in both orders.
-/

namespace NonAxiomatic

namespace Double

open Float.Model Float.Model.UnpackedFloat

/-- Whether two doubles are the same word, or neither is a number. -/
def Agrees (x y : Double) : Prop := x = y ∨ (x.isNaN = true ∧ y.isNaN = true)

variable {x y z x' y' : Double}

namespace Agrees

theorem refl (x : Double) : x.Agrees x := .inl rfl

theorem symm (h : x.Agrees y) : y.Agrees x := h.imp Eq.symm And.symm

theorem trans (h : x.Agrees y) (h' : y.Agrees z) : x.Agrees z := by
  obtain rfl | ⟨hx, hy⟩ := h
  · exact h'
  · obtain rfl | ⟨_, hz⟩ := h'
    · exact .inr ⟨hx, hy⟩
    · exact .inr ⟨hx, hz⟩

/-- Operations on operands that agree agree. -/
theorem binary (op : Float → Float → Float) (hx : x.Agrees x') (hy : y.Agrees y') :
    (Double.binary op x y).Agrees (Double.binary op x' y') := by
  obtain rfl | ⟨hx, hx'⟩ := hx
  · obtain rfl | ⟨hy, hy'⟩ := hy
    · exact refl _
    · by_cases hx : x.isNaN = true
      · rw [binary_of_isNaN op hx, binary_of_isNaN op hx]
        exact refl _
      · rw [Double.binary, Double.binary, if_neg hx, if_neg hx, if_pos hy, if_pos hy']
        exact .inr ⟨isNaN_quiet hy, isNaN_quiet hy'⟩
  · rw [binary_of_isNaN op hx, binary_of_isNaN op hx']
    exact .inr ⟨isNaN_quiet hx, isNaN_quiet hx'⟩

end Agrees

/-! ## What is no number -/

/-- Exactly what is no number is not read as one. -/
theorem unpack_eq_notANumber_iff :
    UnpackedFloat.unpack Format.binary64 x.bits.toBitVec = .notANumber ↔ x.isNaN = true := by
  have hinfinity : infinity.bits.toNat = 2047 * 2 ^ 52 := rfl
  have hmagnitude := x.toNat_magnitude
  have hb : x.bits.toBitVec.toNat = x.bits.toNat := rfl
  rw [isNaN, decide_eq_true_eq, UInt64.lt_iff_toNat_lt, hinfinity, hmagnitude, ← hb]
  generalize x.bits.toBitVec = b
  have hexponent := toNat_unpackExponent b
  have hmantissa := toNat_unpackMantissa b
  have hall : @unpackExponent Format.binary64 b = -1#_ ↔ b.toNat / 2 ^ 52 % 2 ^ 11 = 2047 := by
    rw [← hexponent]
    exact ⟨fun h => congrArg BitVec.toNat h, fun h => BitVec.eq_of_toNat_eq h⟩
  have hnone : @unpackMantissa Format.binary64 b = 0#_ ↔ b.toNat % 2 ^ 52 = 0 := by
    rw [← hmantissa]
    exact ⟨fun h => congrArg BitVec.toNat h, fun h => BitVec.eq_of_toNat_eq h⟩
  simp only [UnpackedFloat.unpack]
  by_cases h : @unpackExponent Format.binary64 b = -1#_
  · have h2047 := hall.1 h
    rw [if_pos h]
    by_cases hzero : @unpackMantissa Format.binary64 b = 0#_
    · have := hnone.1 hzero
      rw [if_pos hzero]
      simp only [reduceCtorEq, false_iff]
      omega
    · have : b.toNat % 2 ^ 52 ≠ 0 := fun h => hzero (hnone.2 h)
      rw [if_neg hzero]
      simp only [true_iff]
      omega
  · have : b.toNat / 2 ^ 52 % 2 ^ 11 ≠ 2047 := fun h' => h (hall.2 h')
    rw [if_neg h]
    have hright : ¬ 2047 * 2 ^ 52 < b.toNat % 2 ^ 63 := by omega
    split
    · split
      · simp only [reduceCtorEq, false_iff]
        exact hright
      · simp only [reduceCtorEq, false_iff]
        exact hright
    · simp only [reduceCtorEq, false_iff]
      exact hright

theorem not_le_of_isNaN (h : x.isNaN = true) (y : Double) : ¬ x ≤ y := by
  rw [le_iff_compare, unpack_eq_notANumber_iff.2 h]
  simp [UnpackedFloat.compare]

theorem not_le_of_isNaN_right (x : Double) (h : y.isNaN = true) : ¬ x ≤ y := by
  rw [le_iff_compare, unpack_eq_notANumber_iff.2 h]
  cases UnpackedFloat.unpack Format.binary64 x.bits.toBitVec <;> simp [UnpackedFloat.compare]

/-- Of two doubles that agree, both are at most a number or neither is. -/
theorem Agrees.le_iff (h : x.Agrees y) (z : Double) : x ≤ z ↔ y ≤ z := by
  obtain rfl | ⟨hx, hy⟩ := h
  · rfl
  · exact iff_of_false (not_le_of_isNaN hx z) (not_le_of_isNaN hy z)

theorem Agrees.clampConfidence (h : x.Agrees y) :
    (Scale.clampConfidence x).Agrees (Scale.clampConfidence y) := by
  obtain rfl | ⟨hx, hy⟩ := h
  · exact refl _
  · rw [clampConfidence_eq, clampConfidence_eq, if_neg (not_le_of_isNaN_right _ hx),
      if_neg (not_le_of_isNaN hx _), if_neg (not_le_of_isNaN_right _ hy),
      if_neg (not_le_of_isNaN hy _)]
    exact .inr ⟨hx, hy⟩

/-! ## Sums and products -/

theorem eq_of_toModel_eq {f g : Float} (h : f.toModel = g.toModel) : f = g := by
  cases f
  cases g
  exact congrArg Float.ofModel h

theorem sign_mul_comm (s t : Sign) : s * t = t * s := by
  cases s <;> cases t <;> rfl

theorem unpacked_mul_comm (format : Format) (u v : UnpackedFloat) :
    UnpackedFloat.mul format u v = UnpackedFloat.mul format v u := by
  cases u <;> cases v <;> simp only [UnpackedFloat.mul, sign_mul_comm, Nat.mul_comm, Int.add_comm]

theorem unpacked_add_comm (format : Format) (u v : UnpackedFloat) :
    UnpackedFloat.add format u v = UnpackedFloat.add format v u := by
  -- Two infinities, or two zeros, have the same sign or give what does not depend on their order.
  have hsigns : ∀ s t : Sign, s = t ∨ ((s == t) = false ∧ (t == s) = false) := by
    intro s t
    cases s <;> cases t <;> simp
  cases u with
  | infinity s =>
    cases v with
    | infinity t =>
      obtain rfl | ⟨h, h'⟩ := hsigns s t
      · rfl
      · simp only [UnpackedFloat.add, h, h', Bool.false_eq_true, if_false]
    | _ => rfl
  | notANumber => cases v <;> rfl
  | zero s =>
    cases v with
    | zero t =>
      obtain rfl | ⟨h, h'⟩ := hsigns s t
      · rfl
      · simp only [UnpackedFloat.add, h, h', Bool.false_eq_true, if_false]
    | _ => rfl
  | finite s m e hpos =>
    cases v with
    | finite t m' e' hpos' => simp only [UnpackedFloat.add, Int.add_comm, Int.min_comm]
    | _ => rfl

/-- An operation that may be computed with its operands exchanged. -/
theorem agrees_binary_comm {op : Float → Float → Float} (hop : ∀ f g, op f g = op g f)
    (x y : Double) : (binary op x y).Agrees (binary op y x) := by
  by_cases hx : x.isNaN = true
  · rw [binary_of_isNaN op hx]
    by_cases hy : y.isNaN = true
    · rw [binary_of_isNaN op hy]
      exact .inr ⟨isNaN_quiet hx, isNaN_quiet hy⟩
    · rw [binary, if_neg hy, if_pos hx]
      exact .refl _
  · by_cases hy : y.isNaN = true
    · rw [binary_of_isNaN op hy, binary, if_neg hx, if_pos hy]
      exact .refl _
    · rw [binary, binary, if_neg hx, if_neg hy, if_neg hx, if_neg hy, hop]
      exact .refl _

theorem agrees_mul_comm (x y : Double) : (x * y).Agrees (y * x) :=
  agrees_binary_comm (fun f g => eq_of_toModel_eq
    (congrArg Float.Model.pack (unpacked_mul_comm _ f.toModel.unpack g.toModel.unpack))) x y

theorem agrees_add_comm (x y : Double) : (x + y).Agrees (y + x) :=
  agrees_binary_comm (fun f g => eq_of_toModel_eq
    (congrArg Float.Model.pack (unpacked_add_comm _ f.toModel.unpack g.toModel.unpack))) x y

/-! ## Products with one -/

/-- Zeros that are cut off leave no trace. -/
theorem shifted_zeros (number digits : Nat) :
    ExtendedMantissa.mk (number * 2 ^ digits) false false >>> digits =
      ExtendedMantissa.mk number false false := by
  induction digits generalizing number with
  | zero => simp [HShiftRight.hShiftRight, Nat.repeat]
  | succ digits ih =>
    have hlast : ExtendedMantissa.mk (number * 2 ^ (digits + 1)) false false >>> (digits + 1) =
        (ExtendedMantissa.mk (number * 2 ^ (digits + 1)) false false >>> digits).shiftRightOne :=
      rfl
    rw [hlast, show number * 2 ^ (digits + 1) = number * 2 * 2 ^ digits by ring, ih]
    simp [ExtendedMantissa.shiftRightOne]

/-- What is read of a word is rounded to itself. -/
theorem roundWithAccuracy_eq_self {b : BitVec 64} {sign : Sign} {m : Nat} {e : Int} {hpos : 0 < m}
    (h : UnpackedFloat.unpack Format.binary64 b = .finite sign m e hpos) :
    roundWithAccuracy Format.binary64 sign (m * 2 ^ 52) (e - 52) .exact =
      .finite sign m e hpos := by
  obtain ⟨hm, hmin, hfull, _⟩ := word_le_of_unpack h
  have hhigh : (m * 2 ^ 52).log2 < 105 := (Nat.log2_lt (by omega)).2 (by omega)
  have hlow : 2 ^ 52 ≤ m → 104 ≤ (m * 2 ^ 52).log2 := fun h =>
    (Nat.le_log2 (by omega)).2 (by omega)
  have hexponent : roundedExponent (m * 2 ^ 52) (e - 52) = e := by
    rw [roundedExponent]
    omega
  have hdigits : (e - (e - 52)).toNat = 52 := by omega
  have hfirst := shiftToTargetExponent_eq (m * 2 ^ 52) (e - 52)
  rw [hexponent, hdigits, shifted_zeros, show e - 52 + ((52 : Nat) : Int) = e by omega] at hfirst
  -- The first shift takes the zeros off again, and the second one has nothing left to do.
  have hrounded : (ExtendedMantissa.mk m false false).roundedMantissa = m := rfl
  rw [roundWithAccuracy, hfirst]
  dsimp only
  simp only [hrounded, shiftToTargetExponent_of_lt hm hmin]
  rw [dif_neg hpos.ne']

theorem unpacked_one_mul (x : Double) :
    UnpackedFloat.mul Format.binary64
      (UnpackedFloat.unpack Format.binary64 (1.0 : Double).bits.toBitVec)
      (UnpackedFloat.unpack Format.binary64 x.bits.toBitVec) =
    UnpackedFloat.unpack Format.binary64 x.bits.toBitVec := by
  have h1 : UnpackedFloat.unpack Format.binary64 (1.0 : Double).bits.toBitVec =
    .finite .positive (2 ^ 52) (-52) (by decide) := by rfl
  rw [h1]
  cases hx : UnpackedFloat.unpack Format.binary64 x.bits.toBitVec with
  | infinity sign => cases sign <;> rfl
  | notANumber => rfl
  | zero sign => cases sign <;> rfl
  | finite sign m e hpos =>
    have hsign : Sign.positive * sign = sign := by cases sign <;> rfl
    have hself := roundWithAccuracy_eq_self hx
    rw [Nat.mul_comm, Int.sub_eq_add_neg, Int.add_comm] at hself
    rw [UnpackedFloat.mul, hsign]
    exact hself

/-- In a product with one, nothing is lost. -/
theorem agrees_one_mul (x : Double) : ((1.0 : Double) * x).Agrees x := by
  have hone : ¬ (1.0 : Double).isNaN = true := by decide +kernel
  show (binary (· * ·) 1.0 x).Agrees x
  by_cases hx : x.isNaN = true
  · rw [binary, if_neg hone, if_pos hx]
    exact .inr ⟨isNaN_quiet hx, hx⟩
  · have hread : UnpackedFloat.unpack Format.binary64 x.bits.toBitVec ≠ .notANumber := fun h =>
      hx (unpack_eq_notANumber_iff.1 h)
    have hbits : ((1.0 : Double).toFloat * x.toFloat).toBits = x.bits := by
      rw [Float.toBits, toModel_mul, unpacked_one_mul]
      exact congrArg UInt64.ofBitVec (pack_unpack_of_ne hread)
    have hnumber : ((1.0 : Double).toFloat * x.toFloat).isNaN = false := by
      show (UnpackedFloat.unpack Format.binary64
        ((1.0 : Double).toFloat * x.toFloat).toBits.toBitVec).isNaN = false
      rw [hbits]
      cases hcase : UnpackedFloat.unpack Format.binary64 x.bits.toBitVec with
      | notANumber => exact absurd hcase hread
      | _ => rfl
    rw [binary, if_neg hone, if_neg hx, ofFloat, hnumber, hbits]
    exact .refl _

/-! ## Means -/

theorem isNaN_abs (x : Double) : x.abs.isNaN = x.isNaN := by
  have hmagnitude : x.abs.magnitude = x.magnitude := by
    rw [magnitude, abs, magnitude, UInt64.and_assoc, UInt64.and_self]
  rw [isNaN, hmagnitude, isNaN]

theorem isNaN_sqrt (h : x.isNaN = true) : x.sqrt.isNaN = true := by
  have hfinite : x.abs ≠ infinity := by
    intro heq
    have hnan := x.isNaN_abs
    rw [heq, h] at hnan
    exact absurd hnan (by decide)
  rw [Double.sqrt, if_neg hfinite, if_pos h, isNaN_abs]
  exact isNaN_quiet h

theorem Agrees.sqrt (h : x.Agrees y) : x.sqrt.Agrees y.sqrt := by
  obtain rfl | ⟨hx, hy⟩ := h
  · exact refl _
  · exact .inr ⟨isNaN_sqrt hx, isNaN_sqrt hy⟩

/-- **Main theorem.** The mean of two doubles is the same in both orders. -/
theorem agrees_mean_comm (x y : Double) : (Scale.mean x y).Agrees (Scale.mean y x) := by
  have hproduct : ∀ x y : Double, ((1.0 : Double) * x * y).Agrees (x * y) := fun x y =>
    (agrees_one_mul x).binary (· * ·) (.refl y)
  exact ((hproduct x y).trans ((agrees_mul_comm x y).trans (hproduct y x).symm)).sqrt

end Double

end NonAxiomatic
