import NonAxiomatic.Proofs.Fading

/-!
# The nearest double

The exact number that a double is (`Double.value`), and what rounding makes of an exact number: the
double that is nearest to it, of two equally near ones the one with an even mantissa
(`Double.Nearest`).

Rounding cuts digits off. What is kept of them says whether there were any, and on which side of the
middle they lie (`Double.Tells`), and this is enough to round to the nearest whole number
(`Double.Tells.rounded`).

* `Double.Nearest.bits_le`: what is nearest to a greater number is not less.
* `Double.Nearest.abs_value_sub_le`: how far the nearest double is away.

**Theorem (`Double.nearest_ofFloat`).** A computation whose result is rounded gives the double that
is nearest to the exact result.
-/

namespace NonAxiomatic.Double

open Float.Model Float.Model.UnpackedFloat

/-! ## The nearest whole number -/

/-- A whole number that is nearest to a number; of two equally near ones, the even one. -/
structure Rounded (x : ℚ) (r : ℕ) : Prop where
  le : 2 * x ≤ 2 * r + 1
  ge : 2 * (r : ℚ) ≤ 2 * x + 1
  even : 2 * x = 2 * r + 1 ∨ 2 * (r : ℚ) = 2 * x + 1 → r % 2 = 0

variable {x y : ℚ} {r s : ℕ}

theorem Rounded.le_of_le (hx : Rounded x r) (hy : Rounded y s) (h : x ≤ y) : r ≤ s := by
  by_contra hlt
  have hcast : (s : ℚ) + 1 ≤ r := by exact_mod_cast Nat.lt_of_not_le hlt
  have hxge := hx.ge
  have hyle := hy.le
  -- Both numbers lie in the middle between two neighbours, which cannot both be even.
  have hr := hx.even (.inr (by linarith))
  have hs := hy.even (.inl (by linarith))
  have hnext : r = s + 1 := by
    have : (r : ℚ) = s + 1 := by linarith
    exact_mod_cast this
  omega

theorem rounded_natCast (n : ℕ) : Rounded n n :=
  ⟨by linarith, by linarith, fun h => by rcases h with h | h <;> linarith⟩

theorem Rounded.eq_of_natCast {n : ℕ} (h : Rounded n r) : r = n :=
  Nat.le_antisymm (h.le_of_le (rounded_natCast n) le_rfl)
    ((rounded_natCast n).le_of_le h le_rfl)

/-! ## Digits that are cut off -/

/-- What is kept of a number: its whole part, whether the rest reaches the middle, and whether
anything is left then. -/
structure Tells (x : ℚ) (em : ExtendedMantissa) : Prop where
  le : 2 * (em.mantissa : ℚ) + em.roundBit.toNat ≤ 2 * x
  lt : 2 * x < 2 * em.mantissa + em.roundBit.toNat + 1
  exact_iff : em.stickyBit = false ↔ 2 * x = 2 * em.mantissa + em.roundBit.toNat

theorem Tells.shiftRightOne {em : ExtendedMantissa} (h : Tells x em) :
    Tells (x / 2) em.shiftRightOne := by
  obtain ⟨m, roundBit, stickyBit⟩ := em
  obtain ⟨hle, hlt, hexact⟩ := h
  have hcut : 2 * (m / 2) + (m % 2 != 0).toNat = m := by
    rcases Nat.mod_two_eq_zero_or_one m with hbit | hbit <;> simp [hbit] <;> omega
  have hm : 2 * (m / 2 : ℕ) + ((m % 2 != 0).toNat : ℚ) = m := by exact_mod_cast hcut
  dsimp only at hle hlt hexact
  refine ⟨?_, ?_, ?_⟩ <;> simp only [ExtendedMantissa.shiftRightOne, hm]
  · have : (0 : ℚ) ≤ roundBit.toNat := Nat.cast_nonneg _
    linarith
  · have : (roundBit.toNat : ℚ) ≤ 1 := by exact_mod_cast Bool.toNat_le roundBit
    linarith
  · cases roundBit with
    | false =>
      rw [Bool.false_or, hexact]
      simp only [Bool.toNat_false, Nat.cast_zero]
      constructor <;> intro h <;> linarith
    | true =>
      simp only [Bool.toNat_true, Nat.cast_one] at hle
      simp only [Bool.true_or, Bool.true_eq_false, false_iff]
      intro h
      linarith

theorem Tells.shift {em : ExtendedMantissa} (h : Tells x em) (digits : ℕ) :
    Tells (x / 2 ^ digits) (em >>> digits) := by
  induction digits with
  | zero => simpa [HShiftRight.hShiftRight, Nat.repeat] using h
  | succ digits ih =>
    rw [show em >>> (digits + 1) = (em >>> digits).shiftRightOne from rfl, pow_succ, ← div_div]
    exact ih.shiftRightOne

/-- What is kept is enough to find the nearest whole number. -/
theorem Tells.rounded {em : ExtendedMantissa} (h : Tells x em) : Rounded x em.roundedMantissa := by
  obtain ⟨m, roundBit, stickyBit⟩ := em
  obtain ⟨hle, hlt, hexact⟩ := h
  dsimp only at hle hlt hexact
  cases roundBit with
  | false =>
    have hbelow : (ExtendedMantissa.mk m false stickyBit).roundedMantissa = m := by
      cases stickyBit <;> rfl
    simp only [Bool.toNat_false, Nat.cast_zero, add_zero] at hle hlt
    rw [hbelow]
    refine ⟨hlt.le, by linarith, fun hmiddle => ?_⟩
    rcases hmiddle with hmiddle | hmiddle <;> linarith
  | true =>
    simp only [Bool.toNat_true, Nat.cast_one] at hle hlt hexact
    cases stickyBit with
    | false =>
      -- In the middle, the even one of the two neighbours is taken.
      have hmiddle := hexact.1 rfl
      have heven : (ExtendedMantissa.mk m true false).roundedMantissa = m + m % 2 := rfl
      have hbit : ((m % 2 : ℕ) : ℚ) ≤ 1 := by
        exact_mod_cast Nat.lt_succ_iff.1 (Nat.mod_lt m two_pos)
      have hnonneg : (0 : ℚ) ≤ (m % 2 : ℕ) := Nat.cast_nonneg _
      rw [heven]
      refine ⟨?_, ?_, fun _ => by omega⟩ <;> push_cast <;> linarith
    | true =>
      have hmore : 2 * x ≠ 2 * m + 1 := fun h => Bool.noConfusion (hexact.2 h)
      have habove : (ExtendedMantissa.mk m true true).roundedMantissa = m + 1 := rfl
      have hgt : 2 * (m : ℚ) + 1 < 2 * x := lt_of_le_of_ne hle hmore.symm
      rw [habove]
      refine ⟨by push_cast; linarith, by push_cast; linarith, fun hmiddle => ?_⟩
      push_cast at hmiddle
      rcases hmiddle with hmiddle | hmiddle <;> linarith

/-! ## The nearest word -/

/-- The mantissa and the exponent that a number is rounded to. -/
structure RoundsTo (q : ℚ) (mantissa : ℕ) (exponent : ℤ) : Prop where
  exponent_ge : -1074 ≤ exponent
  full : exponent = -1074 ∨ 2 ^ 52 * 2 ^ exponent ≤ q
  lt : q < 2 ^ 53 * 2 ^ exponent
  rounded : Rounded (q / 2 ^ exponent) mantissa

variable {q q' : ℚ} {m m' : ℕ} {e e' : ℤ}

theorem zpow_two_pos (e : ℤ) : (0 : ℚ) < 2 ^ e := zpow_pos two_pos e

/-- Counting in smaller places. -/
theorem two_pow_mul_zpow (h : e' ≤ e) : (2 : ℚ) ^ (e - e').toNat * 2 ^ e' = 2 ^ e := by
  rw [← zpow_natCast, ← zpow_add₀ two_ne_zero, Int.toNat_of_nonneg (by omega), sub_add_cancel]

namespace RoundsTo

theorem mantissa_le (h : RoundsTo q m e) : m ≤ 2 ^ 53 := by
  have hlt : q / 2 ^ e ≤ (2 ^ 53 : ℕ) := by
    rw [div_le_iff₀ (zpow_two_pos e)]
    exact_mod_cast h.lt.le
  exact h.rounded.le_of_le (rounded_natCast _) hlt

theorem mantissa_ge (h : RoundsTo q m e) : e = -1074 ∨ 2 ^ 52 ≤ m := by
  refine h.full.imp_right fun hfull => ?_
  have hge : ((2 ^ 52 : ℕ) : ℚ) ≤ q / 2 ^ e := by
    rw [le_div_iff₀ (zpow_two_pos e)]
    exact_mod_cast hfull
  exact (rounded_natCast _).le_of_le h.rounded hge

/-- A greater number is not rounded to a smaller word. -/
theorem word_le_word (h : RoundsTo q m e) (h' : RoundsTo q' m' e') (hle : q ≤ q') :
    word m e ≤ word m' e' := by
  have hmin := h.exponent_ge
  have hmin' := h'.exponent_ge
  have hm := h.mantissa_le
  rcases lt_trichotomy e e' with hlt | rfl | hgt
  · have hm' : 2 ^ 52 ≤ m' := h'.mantissa_ge.resolve_left (by omega)
    simp only [word]
    omega
  · have hmantissa := h.rounded.le_of_le h'.rounded
      (div_le_div_of_nonneg_right hle (zpow_two_pos e).le)
    simp only [word]
    omega
  · -- The binary places of the smaller number do not begin above those of the greater one.
    have hfull := h.full.resolve_left (by omega)
    have hplace : (2 : ℚ) * 2 ^ e' ≤ 2 ^ e := by
      rw [mul_comm, ← zpow_add_one₀ two_ne_zero]
      exact zpow_le_zpow_right₀ one_le_two (by omega)
    have := h'.lt
    linarith

end RoundsTo

/-- A double without a sign that is the nearest one to a number. -/
structure Nearest (q : ℚ) (x : Double) : Prop where
  unsigned : x.Unsigned
  rounds : ∃ m e, RoundsTo q m e ∧ x.bits.toNat = word m e

variable {a b : Double}

/-- The double that is nearest to a greater number is not less. -/
theorem Nearest.bits_le (ha : Nearest q a) (hb : Nearest q' b) (h : q ≤ q') :
    a.bits.toNat ≤ b.bits.toNat := by
  obtain ⟨m, e, hrounds, hbits⟩ := ha.rounds
  obtain ⟨m', e', hrounds', hbits'⟩ := hb.rounds
  rw [hbits, hbits']
  exact hrounds.word_le_word hrounds' h

/-! ## The number that a double is -/

/-- The number that is read of a word; zero for what is no finite number. -/
def valueOf : UnpackedFloat → ℚ
  | .finite sign mantissa exponent _ => (sign.apply mantissa : ℤ) * 2 ^ exponent
  | _ => 0

/-- The number that a finite double is. -/
def value (x : Double) : ℚ := valueOf (UnpackedFloat.unpack Format.binary64 x.bits.toBitVec)

/-- The number that a word without a sign stands for, also when its mantissa is one place too
long. -/
theorem value_eq_of_word (ha : a.Unsigned) (hbits : a.bits.toNat = word m e) (hm : m ≤ 2 ^ 53)
    (hfull : e = -1074 ∨ 2 ^ 52 ≤ m) (hmin : -1074 ≤ e) : a.value = m * 2 ^ e := by
  obtain ⟨hzero, hread⟩ | ⟨m', e', hreads, hread⟩ := ha.unpack
  · have hm0 : m = 0 := by
      rw [hbits, word] at hzero
      omega
    rw [value, hread, hm0, Nat.cast_zero, zero_mul]
    rfl
  · obtain ⟨hpos', hm', hmin', hfull', hword'⟩ := hreads
    rw [value, hread, valueOf]
    simp only [Sign.apply, Int.cast_natCast]
    rw [hbits, word, word] at hword'
    rcases hm.lt_or_eq with hlt | rfl
    · obtain ⟨rfl, rfl⟩ : m' = m ∧ e' = e := by omega
      rfl
    · obtain ⟨rfl, rfl⟩ : m' = 2 ^ 52 ∧ e' = e + 1 := by omega
      rw [zpow_add_one₀ two_ne_zero]
      push_cast
      ring

theorem Unsigned.exists_word (ha : a.Unsigned) : ∃ m e, a.bits.toNat = word m e ∧ m < 2 ^ 53 ∧
    (e = -1074 ∨ 2 ^ 52 ≤ m) ∧ -1074 ≤ e ∧ a.value = m * 2 ^ e := by
  obtain ⟨hzero, hread⟩ | ⟨m, e, ⟨_, hm, hmin, hfull, hword⟩, hread⟩ := ha.unpack
  · refine ⟨0, -1074, by rw [hzero]; rfl, by decide, .inl rfl, le_refl _, ?_⟩
    rw [value, hread, Nat.cast_zero, zero_mul]
    rfl
  · refine ⟨m, e, hword.symm, hm, hfull.symm, hmin, ?_⟩
    rw [value, hread, valueOf]
    simp [Sign.apply]

theorem Unsigned.value_nonneg (ha : a.Unsigned) : 0 ≤ a.value := by
  obtain ⟨m, e, _, _, _, _, hvalue⟩ := ha.exists_word
  rw [hvalue]
  exact mul_nonneg (Nat.cast_nonneg _) (zpow_two_pos e).le

/-- A double is nearest to the number that it is. -/
theorem Unsigned.nearest_value (ha : a.Unsigned) : Nearest a.value a := by
  obtain ⟨m, e, hbits, hm, hfull, hmin, hvalue⟩ := ha.exists_word
  have hpos := zpow_two_pos e
  refine ⟨ha, m, e, ⟨hmin, hfull.imp_right fun h => ?_, ?_, ?_⟩, hbits⟩
  · rw [hvalue]
    exact mul_le_mul_of_nonneg_right (by exact_mod_cast h) hpos.le
  · rw [hvalue]
    exact mul_lt_mul_of_pos_right (by exact_mod_cast hm) hpos
  · rw [hvalue, mul_div_cancel_right₀ _ hpos.ne']
    exact rounded_natCast m

/-- Doubles without a sign are compared as the numbers that they are. -/
theorem Unsigned.value_le_iff (ha : a.Unsigned) (hb : b.Unsigned) : a.value ≤ b.value ↔ a ≤ b := by
  rw [ha.le_iff hb]
  refine ⟨ha.nearest_value.bits_le hb.nearest_value, fun h => ?_⟩
  by_contra hlt
  have hback := hb.nearest_value.bits_le ha.nearest_value (le_of_not_ge hlt)
  have heq : a = b := Double.ext (UInt64.toNat_inj.1 (Nat.le_antisymm h hback))
  exact hlt (heq ▸ le_rfl)

theorem Unsigned.lt_iff (ha : a.Unsigned) (hb : b.Unsigned) :
    a < b ↔ a.bits.toNat < b.bits.toNat := by
  rw [lt_iff_compare, ha.compare_unpack hb, Option.some.injEq, Nat.compare_eq_lt]

theorem Unsigned.value_lt_iff (ha : a.Unsigned) (hb : b.Unsigned) : a.value < b.value ↔ a < b := by
  rw [← not_le, hb.value_le_iff ha, hb.le_iff ha, ha.lt_iff hb, not_le]

theorem Nearest.exists_eq (h : Nearest q a) : ∃ m e, RoundsTo q m e ∧ a.value = m * 2 ^ e := by
  obtain ⟨m, e, hrounds, hbits⟩ := h.rounds
  exact ⟨m, e, hrounds, value_eq_of_word h.unsigned hbits hrounds.mantissa_le hrounds.mantissa_ge
    hrounds.exponent_ge⟩

/-! ## Rounding a number to a word -/

theorem toNat_pack {mantissa : ℕ} {exponent : ℤ} (hpos : 0 < mantissa) (hm : mantissa < 2 ^ 53)
    (hmin : -1074 ≤ exponent) (hfull : exponent = -1074 ∨ 2 ^ 52 ≤ mantissa)
    (hmax : exponent ≤ 971) :
    (UnpackedFloat.pack Format.binary64 (.finite .positive mantissa exponent hpos)).toNat =
      word mantissa exponent := by
  have hbias : (exponent + (Format.exponentBias Format.binary64 : Nat) + (52 : Nat)).toNat =
      (exponent + 1074).toNat + 1 := by
    have : Format.exponentBias Format.binary64 = 1023 := by decide
    omega
  have hplaces : Format.mantissaBits Format.binary64 = 53 := rfl
  simp only [UnpackedFloat.pack, hbias, hplaces, word]
  rw [if_neg (by simp; omega)]
  split
  · rename_i hlog
    have hlow : 2 ^ 52 ≤ mantissa := (Nat.le_log2 (by omega)).1 (by omega)
    rw [toNat_packComponents]
    simp only [BitVec.toNat_ofNat]
    omega
  · rename_i hlog
    have hshort : mantissa < 2 ^ 52 := by
      by_contra hlong
      have hle : 52 ≤ mantissa.log2 := (Nat.le_log2 (by omega)).2 (by omega)
      have hlt : mantissa.log2 < 53 := (Nat.log2_lt (by omega)).2 hm
      omega
    rw [toNat_packComponents]
    simp only [BitVec.toNat_ofNat]
    omega

/-- Digits are cut off until the mantissa fits. -/
theorem shiftToTargetExponent_eq_shift (number : ℕ) (exponent : ℤ) (accuracy : Accuracy) :
    shiftToTargetExponent Format.binary64 number exponent accuracy =
      (ExtendedMantissa.ofMantissaAndAccuracy number accuracy >>>
          (roundedExponent number exponent - exponent).toNat,
        exponent + (roundedExponent number exponent - exponent).toNat) := by
  rw [shiftToTargetExponent, targetExponent_eq]
  rfl

theorem toNat_roundWithAccuracy {number : ℕ} {exponent : ℤ} {accuracy : Accuracy}
    {em : ExtendedMantissa}
    (hfirst : shiftToTargetExponent Format.binary64 number exponent accuracy = (em, e))
    (hm : em.roundedMantissa ≤ 2 ^ 53) (hmin : -1074 ≤ e)
    (hfull : e = -1074 ∨ 2 ^ 52 ≤ em.roundedMantissa) (hmax : e ≤ 970) :
    (UnpackedFloat.pack Format.binary64
      (roundWithAccuracy Format.binary64 .positive number exponent accuracy)).toNat =
        word em.roundedMantissa e := by
  rw [roundWithAccuracy, hfirst]
  dsimp only
  generalize em.roundedMantissa = mantissa at hm hfull ⊢
  rcases hm.lt_or_eq with hlt | rfl
  · simp only [shiftToTargetExponent_of_lt hlt hmin]
    split
    · rename_i hzero
      obtain rfl : e = -1074 := hfull.resolve_right (by omega)
      rw [hzero]
      rfl
    · exact toNat_pack _ hlt hmin hfull (by omega)
  · simp only [shiftToTargetExponent_two_pow hmin]
    rw [dif_neg (by decide), toNat_pack _ (by decide) (by omega) (.inr (le_refl _)) (by omega)]
    simp only [word]
    omega

theorem mantissa_ofMantissaAndAccuracy (number : ℕ) (accuracy : Accuracy) :
    (ExtendedMantissa.ofMantissaAndAccuracy number accuracy).mantissa = number := by
  rcases accuracy with _ | order
  · rfl
  · cases order <;> rfl

/-- A number lies between what is kept of it and the next whole number. -/
theorem Tells.mantissa_le {em : ExtendedMantissa} (h : Tells x em) : (em.mantissa : ℚ) ≤ x := by
  have : (0 : ℚ) ≤ em.roundBit.toNat := Nat.cast_nonneg _
  linarith [h.le]

theorem Tells.lt_mantissa {em : ExtendedMantissa} (h : Tells x em) :
    x < (em.mantissa + 1 : ℕ) := by
  have : (em.roundBit.toNat : ℚ) ≤ 1 := by exact_mod_cast Bool.toNat_le em.roundBit
  push_cast
  linarith [h.lt]

/-- Cutting digits off until the mantissa fits rounds a number. -/
theorem roundsTo_of_tells {number : ℕ} {exponent : ℤ} {accuracy : Accuracy}
    (htells : Tells (q / 2 ^ exponent) (.ofMantissaAndAccuracy number accuracy))
    (hlong : exponent ≤ roundedExponent number exponent) :
    RoundsTo q (ExtendedMantissa.ofMantissaAndAccuracy number accuracy >>>
      (roundedExponent number exponent - exponent).toNat).roundedMantissa
        (roundedExponent number exponent) := by
  have hle := htells.mantissa_le
  have hgt := htells.lt_mantissa
  rw [mantissa_ofMantissaAndAccuracy] at hle hgt
  have hlog : (number.log2 : ℤ) + exponent - 52 ≤ roundedExponent number exponent :=
    le_max_left _ _
  have hchoice : roundedExponent number exponent = number.log2 + exponent - 52 ∨
      roundedExponent number exponent = -1074 := max_choice _ _
  refine ⟨le_max_right _ _, hchoice.symm.imp_right fun he => ?_, ?_, ?_⟩
  · have hpos : number ≠ 0 := by
      rintro rfl
      simp at he
      omega
    have hlow : ((2 ^ number.log2 : ℕ) : ℚ) ≤ q / 2 ^ exponent :=
      (Nat.cast_le.2 (Nat.log2_self_le hpos)).trans hle
    rw [le_div_iff₀ (zpow_two_pos exponent)] at hlow
    refine le_of_eq_of_le ?_ hlow
    rw [he, Nat.cast_pow, Nat.cast_ofNat, ← zpow_natCast, ← zpow_natCast, ← zpow_add₀ two_ne_zero,
      ← zpow_add₀ two_ne_zero]
    congr 1
    push_cast
    omega
  · have hhigh : q / 2 ^ exponent < (2 ^ (number.log2 + 1) : ℕ) :=
      hgt.trans_le (Nat.cast_le.2 (Nat.lt_log2_self (n := number)))
    rw [div_lt_iff₀ (zpow_two_pos exponent)] at hhigh
    refine hhigh.trans_le ?_
    rw [Nat.cast_pow, Nat.cast_ofNat, ← zpow_natCast, ← zpow_natCast, ← zpow_add₀ two_ne_zero,
      ← zpow_add₀ two_ne_zero]
    exact zpow_le_zpow_right₀ one_le_two (by push_cast; omega)
  · have hshift := htells.shift (roundedExponent number exponent - exponent).toNat
    rw [div_div, ← zpow_natCast, ← zpow_add₀ two_ne_zero, Int.toNat_of_nonneg (by omega),
      add_sub_cancel] at hshift
    exact hshift.rounded

theorem RoundsTo.exponent_le (h : RoundsTo q m e) (hq : q < 2 ^ 1023) : e ≤ 970 := by
  rcases h.full with rfl | hfull
  · decide
  · have hpow : (2 : ℚ) ^ (52 + e) < 2 ^ (1023 : ℤ) := by
      rw [zpow_add₀ two_ne_zero]
      exact_mod_cast hfull.trans_lt hq
    have := (zpow_lt_zpow_iff_right₀ one_lt_two).1 hpow
    omega

/-- What a computation gives whose result is rounded. -/
theorem nearest_ofFloat {f : Float} {number : ℕ} {exponent : ℤ} {accuracy : Accuracy}
    (hf : f.toModel = Float.Model.pack
      (roundWithAccuracy Format.binary64 .positive number exponent accuracy))
    (htells : Tells (q / 2 ^ exponent) (.ofMantissaAndAccuracy number accuracy))
    (hlong : exponent ≤ roundedExponent number exponent) (hq : q < 2 ^ 1023) :
    Nearest q (ofFloat f) := by
  have hrounds := roundsTo_of_tells htells hlong
  have hmin := hrounds.exponent_ge
  have hmax := hrounds.exponent_le hq
  have hm := hrounds.mantissa_le
  have hfirst := shiftToTargetExponent_eq_shift number exponent accuracy
  rw [Int.toNat_of_nonneg (by omega), add_sub_cancel] at hfirst
  have hbits : f.toBits.toNat = (UnpackedFloat.pack Format.binary64
      (roundWithAccuracy Format.binary64 .positive number exponent accuracy)).toNat := by
    rw [Float.toBits, hf]
    rfl
  rw [toNat_roundWithAccuracy hfirst hm hmin hrounds.mantissa_ge hmax] at hbits
  have hfinite : f.toBits.toNat < 2047 * 2 ^ 52 := by
    rw [hbits, word]
    omega
  rw [ofFloat_of_lt hfinite]
  exact ⟨hfinite, _, _, hrounds, hbits⟩

/-! ## Errors -/

/-- What has a word is its own nearest double. -/
theorem Nearest.value_eq {n : ℕ} (h : Nearest (n * 2 ^ e) a) (hn : n < 2 ^ 53) (he : -1074 ≤ e) :
    a.value = n * 2 ^ e := by
  obtain ⟨m, e', hrounds, hvalue⟩ := h.exists_eq
  have hplaces : e' ≤ e := by
    rcases hrounds.full with rfl | hfull
    · exact he
    · by_contra hlt
      have hless : (n : ℚ) * 2 ^ e < 2 ^ 53 * 2 ^ e :=
        mul_lt_mul_of_pos_right (by exact_mod_cast hn) (zpow_two_pos e)
      have hnext : (2 : ℚ) * 2 ^ e ≤ 2 ^ e' := by
        rw [mul_comm, ← zpow_add_one₀ two_ne_zero]
        exact zpow_le_zpow_right₀ one_le_two (by omega)
      linarith
  have hscale : (n : ℚ) * 2 ^ e = (n * 2 ^ (e - e').toNat : ℕ) * 2 ^ e' := by
    rw [Nat.cast_mul, Nat.cast_pow, Nat.cast_ofNat, mul_assoc, two_pow_mul_zpow hplaces]
  have hround := hrounds.rounded
  rw [hscale, mul_div_cancel_right₀ _ (zpow_two_pos e').ne'] at hround
  rw [hvalue, hscale, hround.eq_of_natCast]

/-- Rounding moves a number by at most half a unit of the last place. -/
theorem RoundsTo.abs_sub_le (h : RoundsTo q m e) : |m * 2 ^ e - q| ≤ 2 ^ e / 2 := by
  have hpos := zpow_two_pos e
  have hle := h.rounded.le
  have hge := h.rounded.ge
  have hcancel : q / 2 ^ e * 2 ^ e = q := div_mul_cancel₀ _ hpos.ne'
  rw [abs_le]
  constructor <;> nlinarith

theorem RoundsTo.two_zpow_le (h : RoundsTo q m e) (hne : e ≠ -1074) :
    (2 : ℚ) ^ e / 2 ≤ q / 2 ^ 53 := by
  have hfull := h.full.resolve_left hne
  rw [div_le_div_iff₀ two_pos (by positivity)]
  linarith

/-- The nearest double is away by a share of the number, or by half of the least positive
double. -/
theorem Nearest.abs_value_sub_le (h : Nearest q a) :
    |a.value - q| ≤ max (q / 2 ^ 53) (2 ^ (-1074 : ℤ) / 2) := by
  obtain ⟨m, e, hrounds, hvalue⟩ := h.exists_eq
  rw [hvalue]
  refine hrounds.abs_sub_le.trans ?_
  by_cases he : e = -1074
  · exact le_max_of_le_right (he ▸ le_rfl)
  · exact le_max_of_le_left (hrounds.two_zpow_le he)

/-- A multiple of the least positive double is rounded by a share of itself. -/
theorem Nearest.abs_value_sub_le_of_multiple {n : ℕ} (h : Nearest q a)
    (hq : q = n * 2 ^ (-1074 : ℤ)) : |a.value - q| ≤ q / 2 ^ 53 := by
  obtain ⟨m, e, hrounds, hvalue⟩ := h.exists_eq
  rw [hvalue]
  by_cases he : e = -1074
  · subst he
    have hround := hrounds.rounded
    rw [hq, mul_div_cancel_right₀ _ (zpow_two_pos _).ne'] at hround
    rw [hround.eq_of_natCast, hq, sub_self, abs_zero]
    positivity
  · exact hrounds.abs_sub_le.trans (hrounds.two_zpow_le he)

theorem Unsigned.exists_multiple (ha : a.Unsigned) : ∃ n : ℕ, a.value = n * 2 ^ (-1074 : ℤ) := by
  obtain ⟨m, e, _, _, _, hmin, hvalue⟩ := ha.exists_word
  refine ⟨m * 2 ^ (e - -1074).toNat, ?_⟩
  rw [hvalue, Nat.cast_mul, Nat.cast_pow, Nat.cast_ofNat, mul_assoc, two_pow_mul_zpow hmin]

end NonAxiomatic.Double
