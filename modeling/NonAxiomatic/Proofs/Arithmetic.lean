import NonAxiomatic.Proofs.Nearest

/-!
# Computing with doubles

Sums, products and quotients of doubles without a sign are the doubles that are nearest to the
exact ones. A whole number below `2 ^ 53` is a double, and the whole part of a double is found by
cutting its fraction off.

**Theorem (`Double.nearest_mul`, `Double.nearest_add`, `Double.nearest_div`).** A sum, a product or
a quotient of two doubles without a sign is the double nearest to the exact one, unless that one is
out of range.
-/

namespace NonAxiomatic.Double

open Float.Model Float.Model.UnpackedFloat

variable {a b : Double} {x q : ℚ} {m : ℕ} {e : ℤ}

/-! ## Results -/

theorem tells_natCast (n : ℕ) : Tells n (.ofMantissaAndAccuracy n .exact) := by
  refine ⟨?_, ?_, ?_⟩ <;> simp [ExtendedMantissa.ofMantissaAndAccuracy]

/-- What a computation gives whose result is zero. -/
theorem nearest_ofFloat_zero {f : Float} (hf : f.toModel = Float.Model.pack (.zero .positive)) :
    Nearest 0 (ofFloat f) := by
  have hround : roundWithAccuracy Format.binary64 .positive 0 (-1074) .exact = .zero .positive :=
    rfl
  rw [← hround] at hf
  refine nearest_ofFloat hf ?_ (by decide) (by positivity)
  rw [zero_div]
  exact_mod_cast tells_natCast 0

/-- A double without a sign is zero, or the number that is read. -/
theorem Unsigned.read (ha : a.Unsigned) :
    (a.value = 0 ∧ UnpackedFloat.unpack Format.binary64 a.bits.toBitVec = .zero .positive) ∨
    ∃ m e, ∃ hreads : ReadsAs a.bits.toNat m e, a.value = m * 2 ^ e ∧
      UnpackedFloat.unpack Format.binary64 a.bits.toBitVec =
        .finite .positive m e hreads.mantissa_pos := by
  rcases ha.unpack with ⟨_, hread⟩ | ⟨m, e, hreads, hread⟩
  · exact .inl ⟨by rw [value, hread]; rfl, hread⟩
  · exact .inr ⟨m, e, hreads, by rw [value, hread]; simp [valueOf, Sign.apply], hread⟩

/-! ## Products, sums and quotients -/

theorem binary_of_unsigned (op : Float → Float → Float) (ha : a.Unsigned) (hb : b.Unsigned) :
    binary op a b = ofFloat (op a.toFloat b.toFloat) := by
  rw [binary, if_neg (by simp [ha.isNaN]), if_neg (by simp [hb.isNaN])]

/-- The product of doubles without a sign is the double that is nearest to the exact product. -/
theorem nearest_mul (ha : a.Unsigned) (hb : b.Unsigned) (hmax : a.value * b.value < 2 ^ 1023) :
    Nearest (a.value * b.value) (a * b) := by
  rw [show a * b = _ from binary_of_unsigned _ ha hb]
  obtain ⟨hzero, hread⟩ | ⟨m, e, hreads, hvalue, hread⟩ := ha.read <;>
    obtain ⟨hzero', hread'⟩ | ⟨m', e', hreads', hvalue', hread'⟩ := hb.read
  · rw [hzero, zero_mul]
    exact nearest_ofFloat_zero (by rw [toModel_mul, hread, hread']; rfl)
  · rw [hzero, zero_mul]
    exact nearest_ofFloat_zero (by rw [toModel_mul, hread, hread']; rfl)
  · rw [hzero', mul_zero]
    exact nearest_ofFloat_zero (by rw [toModel_mul, hread, hread']; rfl)
  · have hpos := zpow_two_pos (e + e')
    have hproduct : a.value * b.value = (m * m' : ℕ) * 2 ^ (e + e') := by
      rw [hvalue, hvalue', zpow_add₀ two_ne_zero]
      push_cast
      ring
    have hmodel : (a.toFloat * b.toFloat).toModel = Float.Model.pack
        (roundWithAccuracy Format.binary64 .positive (m * m') (e + e') .exact) := by
      rw [toModel_mul, hread, hread']
      rfl
    -- The product is exact before it is rounded, so that only its size has to be looked at.
    refine nearest_ofFloat hmodel ?_ ?_ hmax
    · rw [hproduct, mul_div_cancel_right₀ _ hpos.ne']
      exact tells_natCast _
    · have hmin := hreads.exponent_ge
      have hmin' := hreads'.exponent_ge
      -- Unless both factors are subnormal, the product has places enough.
      have hlog : e ≠ -1074 ∨ e' ≠ -1074 → 52 ≤ (m * m').log2 := by
        intro hnormal
        have hle : m ≤ m * m' := Nat.le_mul_of_pos_right _ hreads'.mantissa_pos
        have hle' : m' ≤ m * m' := Nat.le_mul_of_pos_left _ hreads.mantissa_pos
        have hfull := hreads.full
        have hfull' := hreads'.full
        exact (Nat.le_log2 (by have := hreads.mantissa_pos; omega)).2 (by omega)
      rw [roundedExponent]
      omega

theorem toModel_add (x y : Double) : (x.toFloat + y.toFloat).toModel = Float.Model.pack
    (UnpackedFloat.add Format.binary64
      (UnpackedFloat.unpack Format.binary64 x.bits.toBitVec)
      (UnpackedFloat.unpack Format.binary64 y.bits.toBitVec)) := by
  rw [← unpack_toFloat, ← unpack_toFloat]
  rfl

theorem toModel_div (x y : Double) : (x.toFloat / y.toFloat).toModel = Float.Model.pack
    (UnpackedFloat.div Format.binary64
      (UnpackedFloat.unpack Format.binary64 x.bits.toBitVec)
      (UnpackedFloat.unpack Format.binary64 y.bits.toBitVec)) := by
  rw [← unpack_toFloat, ← unpack_toFloat]
  rfl

/-- What a computation gives that rounds a whole number of binary places. -/
theorem nearest_ofFloat_round {f : Float} {number : ℕ} {exponent : ℤ} (hpos : 0 < number)
    (hf : f.toModel =
      Float.Model.pack (UnpackedFloat.round Format.binary64 .positive number exponent))
    (hq : number * 2 ^ exponent < (2 : ℚ) ^ 1023) :
    Nearest (number * 2 ^ exponent) (ofFloat f) := by
  rw [UnpackedFloat.round, targetExponent_eq] at hf
  simp only [decreaseExponent, Nat.shiftLeft_eq] at hf
  set k := (exponent - roundedExponent number exponent).toNat with hk
  have hplaces := zpow_two_pos (exponent - k)
  have hshift : (number : ℚ) * 2 ^ exponent = (number * 2 ^ k : ℕ) * 2 ^ (exponent - k) := by
    rw [Nat.cast_mul, Nat.cast_pow, Nat.cast_ofNat, mul_assoc, ← zpow_natCast,
      ← zpow_add₀ two_ne_zero, add_sub_cancel]
  refine nearest_ofFloat hf ?_ ?_ hq
  · rw [hshift, mul_div_cancel_right₀ _ hplaces.ne']
    exact tells_natCast _
  · have hlog : number.log2 + k ≤ (number * 2 ^ k).log2 := by
      refine (Nat.le_log2 (Nat.mul_pos hpos (Nat.two_pow_pos k)).ne').2 ?_
      rw [Nat.pow_add]
      exact Nat.mul_le_mul_right _ (Nat.log2_self_le hpos.ne')
    rw [roundedExponent] at hk ⊢
    omega

/-- What a computation gives whose result is a double without a sign. -/
theorem ofFloat_eq_of_unpack {f : Float} (ha : a.Unsigned) (hf : f.toModel =
    Float.Model.pack (UnpackedFloat.unpack Format.binary64 a.bits.toBitVec)) : ofFloat f = a := by
  have hnumber : UnpackedFloat.unpack Format.binary64 a.bits.toBitVec ≠ .notANumber := by
    obtain ⟨_, hread⟩ | ⟨_, _, _, hread⟩ := ha.unpack <;> rw [hread] <;> simp
  have hbits : f.toBits = a.bits := by
    rw [Float.toBits, hf]
    exact congrArg UInt64.ofBitVec (pack_unpack_of_ne hnumber)
  rw [ofFloat_of_lt (hbits ▸ ha), hbits]

theorem normalize_natCast {number : ℕ} (hpos : 0 < number) (exponent : ℤ) (sign : Sign) :
    normalize Format.binary64 number exponent sign =
      UnpackedFloat.round Format.binary64 .positive number exponent := by
  have hcompare : compare (number : ℤ) 0 = .gt := Int.compare_eq_gt.2 (by exact_mod_cast hpos)
  rw [UnpackedFloat.normalize, hcompare]
  rfl

/-- The sum of doubles without a sign is the double that is nearest to the exact sum. -/
theorem nearest_add (ha : a.Unsigned) (hb : b.Unsigned) (hmax : a.value + b.value < 2 ^ 1023) :
    Nearest (a.value + b.value) (a + b) := by
  rw [show a + b = _ from binary_of_unsigned _ ha hb]
  obtain ⟨hzero, hread⟩ | ⟨m, e, hreads, hvalue, hread⟩ := ha.read <;>
    obtain ⟨hzero', hread'⟩ | ⟨m', e', hreads', hvalue', hread'⟩ := hb.read
  · rw [hzero, hzero', zero_add]
    exact nearest_ofFloat_zero (by rw [toModel_add, hread, hread']; rfl)
  -- Nothing is rounded where one of the numbers is zero.
  · rw [hzero, zero_add, ofFloat_eq_of_unpack hb (by rw [toModel_add, hread, hread']; rfl)]
    exact hb.nearest_value
  · rw [hzero', add_zero, ofFloat_eq_of_unpack ha (by rw [toModel_add, hread, hread']; rfl)]
    exact ha.nearest_value
  · -- Both numbers are counted in the smaller one of their binary places.
    have hsum : ((m * 2 ^ (e - min e e').toNat + m' * 2 ^ (e' - min e e').toNat : ℕ) : ℚ) *
        2 ^ min e e' = a.value + b.value := by
      push_cast
      rw [add_mul, mul_assoc, mul_assoc, two_pow_mul_zpow (min_le_left e e'),
        two_pow_mul_zpow (min_le_right e e'), hvalue, hvalue']
    have hpos : 0 < m * 2 ^ (e - min e e').toNat + m' * 2 ^ (e' - min e e').toNat :=
      Nat.add_pos_left (Nat.mul_pos hreads.mantissa_pos (Nat.two_pow_pos _)) _
    rw [← hsum] at hmax ⊢
    refine nearest_ofFloat_round hpos ?_ hmax
    rw [toModel_add, hread, hread']
    simp only [UnpackedFloat.add, decreaseExponent, Nat.shiftLeft_eq, Sign.apply]
    rw [← Nat.cast_add, normalize_natCast hpos]

/-- The rest of a division tells where the quotient lies. -/
theorem tells_div {n d : ℕ} (hd : 0 < d) : Tells ((n : ℚ) / d)
    (.ofMantissaAndAccuracy (n / d) (accuracyOfFraction (n % d) d)) := by
  have hpos : (0 : ℚ) < d := Nat.cast_pos.2 hd
  have hrest : n % d < d := Nat.mod_lt n hd
  have hquotient : (n : ℚ) / d = (n / d : ℕ) + (n % d : ℕ) / d := by
    rw [div_eq_iff hpos.ne', add_mul, div_mul_cancel₀ _ hpos.ne', mul_comm]
    exact_mod_cast (Nat.div_add_mod n d).symm
  -- What counts of the rest is only whether it is nothing, below the middle, in it or above.
  generalize n / d = whole at hquotient ⊢
  generalize n % d = rest at hquotient hrest ⊢
  have htwice : 2 * ((n : ℚ) / d) = 2 * whole + (2 * rest : ℕ) / d := by
    rw [hquotient]
    push_cast
    ring
  have hless : ((2 * rest : ℕ) : ℚ) / d < 2 := by
    rw [div_lt_iff₀ hpos]
    exact_mod_cast Nat.mul_lt_mul_of_pos_left hrest two_pos
  have hlt : 2 * rest < d → ((2 * rest : ℕ) : ℚ) / d < 1 := fun h =>
    (div_lt_one hpos).2 (Nat.cast_lt.2 h)
  have heq : 2 * rest = d → ((2 * rest : ℕ) : ℚ) / d = 1 := fun h => by rw [h, div_self hpos.ne']
  have hgt : d < 2 * rest → 1 < ((2 * rest : ℕ) : ℚ) / d := fun h =>
    (one_lt_div hpos).2 (Nat.cast_lt.2 h)
  have hzero : rest = 0 → ((2 * rest : ℕ) : ℚ) / d = 0 := fun h => by simp [h]
  have hsome : rest ≠ 0 → 0 < ((2 * rest : ℕ) : ℚ) / d := fun h =>
    div_pos (Nat.cast_pos.2 (by omega)) hpos
  generalize ((2 * rest : ℕ) : ℚ) / d = y at htwice hless hlt heq hgt hzero hsome
  rw [accuracyOfFraction]
  split
  · have hnone := hzero ‹_›
    refine ⟨?_, ?_, ?_⟩ <;> simp [ExtendedMantissa.ofMantissaAndAccuracy, htwice, hnone]
  · have hmore := hsome ‹_›
    rcases hcompare : compare (2 * rest) d with _ | _ | _
    · have hbelow := hlt (Nat.compare_eq_lt.1 hcompare)
      refine ⟨?_, ?_, ?_⟩ <;> simp [ExtendedMantissa.ofMantissaAndAccuracy, htwice] <;> linarith
    · have hmiddle := heq (Nat.compare_eq_eq.1 hcompare)
      refine ⟨?_, ?_, ?_⟩ <;> simp [ExtendedMantissa.ofMantissaAndAccuracy, htwice, hmiddle]
    · have habove := hgt (Nat.compare_eq_gt.1 hcompare)
      refine ⟨?_, ?_, ?_⟩ <;> simp [ExtendedMantissa.ofMantissaAndAccuracy, htwice] <;> linarith

/-- A quotient has as many digits as the number that is divided has more than the other. -/
theorem le_log2_div {n d s : ℕ} (hn : 0 < n) (hd : 0 < d) (h : d.log2 + 53 ≤ n.log2 + s) :
    52 ≤ (n * 2 ^ s / d).log2 := by
  have hle : 2 ^ 52 * d ≤ n * 2 ^ s :=
    calc 2 ^ 52 * d ≤ 2 ^ 52 * 2 ^ (d.log2 + 1) := Nat.mul_le_mul_left _ Nat.lt_log2_self.le
      _ ≤ 2 ^ (n.log2 + s) := by
        rw [← Nat.pow_add]
        exact Nat.pow_le_pow_right two_pos (by omega)
      _ ≤ n * 2 ^ s := by
        rw [Nat.pow_add]
        exact Nat.mul_le_mul_right _ (Nat.log2_self_le hn.ne')
  have hquotient : 2 ^ 52 ≤ n * 2 ^ s / d := (Nat.le_div_iff_mul_le hd).2 hle
  exact (Nat.le_log2 (by omega)).2 hquotient

/-- The quotient of doubles without a sign is the double that is nearest to the exact quotient. -/
theorem nearest_div (ha : a.Unsigned) (hb : b.Unsigned) (hpos : 0 < b.value)
    (hmax : a.value / b.value < 2 ^ 1023) : Nearest (a.value / b.value) (a / b) := by
  rw [show a / b = _ from binary_of_unsigned _ ha hb]
  obtain ⟨hzero', _⟩ | ⟨m', e', hreads', hvalue', hread'⟩ := hb.read
  · exact absurd hzero' hpos.ne'
  obtain ⟨hzero, hread⟩ | ⟨m, e, hreads, hvalue, hread⟩ := ha.read
  · rw [hzero, zero_div]
    exact nearest_ofFloat_zero (by rw [toModel_div, hread, hread']; rfl)
  · have hd := hreads'.mantissa_pos
    -- The division goes on to as many binary places as a result of its size is rounded to.
    set target := min (e - e') (Format.binary64.targetExponent
      (totalExponent m e - totalExponent m' e')) with htarget
    have hplaces := zpow_two_pos target
    have hquotient : a.value / b.value =
        ((m * 2 ^ (e - e' - target).toNat : ℕ) : ℚ) / m' * 2 ^ target := by
      rw [hvalue, hvalue', mul_div_mul_comm, ← zpow_sub₀ two_ne_zero,
        ← two_pow_mul_zpow (min_le_left (e - e') _), ← htarget]
      push_cast
      ring
    have hmodel : (a.toFloat / b.toFloat).toModel = Float.Model.pack
        (roundWithAccuracy Format.binary64 .positive (m * 2 ^ (e - e' - target).toNat / m') target
          (accuracyOfFraction (m * 2 ^ (e - e' - target).toNat % m') m')) := by
      rw [toModel_div, hread, hread']
      simp only [UnpackedFloat.div, divCore, Nat.shiftLeft_eq, ← htarget]
      rfl
    refine nearest_ofFloat hmodel ?_ ?_ hmax
    · rw [hquotient, mul_div_cancel_right₀ _ hplaces.ne']
      exact tells_div hd
    -- The place that is rounded to is the one of the exact quotient.
    · have hbinary : Format.binary64.targetExponent (totalExponent m e - totalExponent m' e') =
          max ((m.log2 : ℤ) - m'.log2 + e - e' - 53) (-1074) := by
        have hplaces : Format.mantissaBits Format.binary64 = 53 := rfl
        have hmin : Format.minExponent Format.binary64 = -1074 := rfl
        rw [Format.targetExponent, totalExponent, totalExponent, hplaces, hmin]
        congr 1
        push_cast
        ring
      have hlog : target ≠ -1074 → -1074 ≤ target →
          52 ≤ (m * 2 ^ (e - e' - target).toNat / m').log2 := fun hne hge =>
        le_log2_div hreads.mantissa_pos hd (by omega)
      rw [roundedExponent]
      omega

/-! ## Whole numbers -/

theorem value_zero : (0.0 : Double).value = 0 := by
  rw [value_eq_of_word (m := 0) (e := -1074) inUnit_zero.unsigned (by decide) (by decide)
    (.inl rfl) (by decide), Nat.cast_zero, zero_mul]

theorem value_one : (1.0 : Double).value = 1 := by
  rw [value_eq_of_word (m := 2 ^ 52) (e := -52) inUnit_one.unsigned (by decide) (by decide)
    (.inr (le_refl _)) (by decide)]
  norm_num

theorem toFloat_ofFloat {f : Float} (h : (ofFloat f).Unsigned) : (ofFloat f).toFloat = f := by
  have hbits : (ofFloat f).bits = f.toBits := by
    unfold ofFloat at h ⊢
    split
    · rw [if_pos ‹_›] at h
      exact absurd h (by decide)
    · rfl
  have hnumber : UnpackedFloat.unpack Format.binary64 f.toBits.toBitVec ≠ .notANumber := by
    rw [← hbits]
    obtain ⟨_, hread⟩ | ⟨_, _, _, hread⟩ := h.unpack <;> rw [hread] <;> simp
  have hmodel : (ofFloat f).toFloat.toModel.toBits = f.toModel.toBits := by
    rw [toFloat, hbits]
    exact congrArg UInt64.ofBitVec (pack_unpack_of_ne hnumber)
  obtain ⟨⟨bits, valid⟩⟩ := f
  generalize (ofFloat _).toFloat = g at hmodel ⊢
  obtain ⟨⟨bits', valid'⟩⟩ := g
  dsimp only at hmodel
  subst hmodel
  rfl

/-- The double for a whole number is this number. -/
theorem nearest_ofNat {n : ℕ} (hn : n < 2 ^ 53) : Nearest n (ofNat n) := by
  have hq : ((n : ℚ) * 2 ^ (0 : ℤ)) < 2 ^ 1023 := by
    have hcast : (n : ℚ) < 2 ^ 53 := by exact_mod_cast hn
    rw [zpow_zero, mul_one]
    exact hcast.trans_le (pow_le_pow_right₀ one_le_two (by decide))
  have hword : Nearest (n * 2 ^ (0 : ℤ)) (ofFloat n.toUInt64.toFloat) := by
    rcases Nat.eq_zero_or_pos n with rfl | hpos
    · rw [Nat.cast_zero, zero_mul]
      exact nearest_ofFloat_zero (by decide)
    · have hsmall : n.toUInt64.toNat = n :=
        UInt64.toNat_ofNat_of_lt' (hn.trans (by decide))
      refine nearest_ofFloat_round hpos ?_ hq
      show Float.Model.pack (normalize Format.binary64 (n.toUInt64.toNat : ℕ) 0 .positive) = _
      rw [hsmall, normalize_natCast hpos]
  have hvalue := hword.value_eq hn (by decide)
  have hproduct := nearest_mul hword.unsigned inUnit_one.unsigned
  rw [hvalue, value_one, mul_one, zpow_zero, mul_one] at hproduct
  have hfast : ofNat n = ofFloat n.toUInt64.toFloat * 1.0 := by
    rw [show ofFloat n.toUInt64.toFloat * (1.0 : Double) = _ from
      binary_of_unsigned _ hword.unsigned inUnit_one.unsigned, toFloat_ofFloat hword.unsigned]
    have hone : (1.0 : Double).toFloat = Float.ofBits 0x3FF0000000000000 := by
      rw [toFloat, show (1.0 : Double).bits = 0x3FF0000000000000 by decide]
    rw [ofNat, Float.ofNat, hone]
    show ofFloat (Float.ofScientific n false 0) = _
    rw [Float.ofScientific, dif_pos ⟨hn, by decide⟩]
    rfl
  rw [hfast]
  exact hproduct (by simpa using hq)

theorem value_ofNat {n : ℕ} (hn : n < 2 ^ 53) : (ofNat n).value = n := by
  have hnearest : Nearest ((n : ℚ) * 2 ^ (0 : ℤ)) (ofNat n) := by
    rw [zpow_zero, mul_one]
    exact nearest_ofNat hn
  rw [hnearest.value_eq hn (by decide), zpow_zero, mul_one]

theorem Tells.floor_eq {em : ExtendedMantissa} (h : Tells x em) : ⌊x⌋₊ = em.mantissa :=
  (Nat.floor_eq_iff ((Nat.cast_nonneg _).trans h.mantissa_le)).2
    ⟨h.mantissa_le, by exact_mod_cast h.lt_mantissa⟩

theorem roundToInt_eq (m : ℕ) (e : ℤ) :
    roundToInt .positive m e = (⌊(m : ℚ) * 2 ^ e⌋₊ : ℤ) := by
  have htells := (tells_natCast (m * 2 ^ e.toNat)).shift (-(e - e.toNat)).toNat
  have hscale : ((m * 2 ^ e.toNat : ℕ) : ℚ) / 2 ^ (-(e - e.toNat)).toNat = m * 2 ^ e := by
    rw [Nat.cast_mul, Nat.cast_pow, Nat.cast_ofNat, mul_div_assoc, ← zpow_natCast, ← zpow_natCast,
      ← zpow_sub₀ two_ne_zero]
    congr 2
    omega
  rw [hscale] at htells
  rw [htells.floor_eq]
  simp only [roundToInt, decreaseExponent, shiftToExponent, Nat.shiftLeft_eq, sub_zero, zero_sub,
    Sign.apply]

/-- The whole part of a double without a sign. -/
theorem toNat_toUInt32 (ha : a.Unsigned) :
    a.toUInt32.toNat = min ⌊a.value⌋₊ (2 ^ 32 - 1) := by
  have hclamp : ∀ n : ℕ, (UInt32.ofNatClamp n).toNat = min n (2 ^ 32 - 1) := by
    intro n
    rw [UInt32.ofNatClamp]
    have hsize : UInt32.size = 2 ^ 32 := rfl
    split
    · rw [UInt32.toNat_ofNatLT]
      omega
    · rw [UInt32.toNat_ofNatLT]
      omega
  have hmodel : a.toUInt32 = (a.toFloat.toModel.unpack).toUInt32 := rfl
  rw [hmodel, unpack_toFloat, UnpackedFloat.toUInt32, hclamp]
  congr 1
  obtain ⟨hzero, hread⟩ | ⟨m, e, _, hvalue, hread⟩ := ha.read
  · rw [hread, hzero, Nat.floor_zero]
    rfl
  · rw [hread, hvalue]
    show (roundToInt .positive m e).toNat = _
    rw [roundToInt_eq, Int.toNat_natCast]

end NonAxiomatic.Double
