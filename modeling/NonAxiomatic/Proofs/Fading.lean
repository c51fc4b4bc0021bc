import NonAxiomatic.Proofs.Admission
import NonAxiomatic.Proofs.Rounding

/-!
# How confidence fades

The confidence in an event is multiplied with a power of the decay, which lies between zero and one.
All of these numbers are in the unit interval and without a sign (`Double.InUnit`), and such doubles
are compared as their words are.

Rounding keeps a product of them in the interval and does not bring it above its factors
(`Double.toNat_bits_mul_le`), so that a power is at most its base (`Double.toNat_bits_power_le`).
The product of the usual confidence and a number that is less than one is less than this confidence.

**Theorem (`Standpoint.not_le_confidence`).** Seen from any other cycle than its own, less
confidence is put in an event than the usual confidence with which it was believed.
-/

namespace NonAxiomatic

namespace Double

open Float.Model Float.Model.UnpackedFloat

/-! ## Words without a sign -/

/-- Whether a double is a finite number without a sign. -/
def Unsigned (x : Double) : Prop := x.bits.toNat < 2047 * 2 ^ 52

instance (x : Double) : Decidable x.Unsigned := inferInstanceAs (Decidable (_ < _))

/-- How a word without a sign is read. -/
structure ReadsAs (b mantissa : Nat) (exponent : Int) : Prop where
  mantissa_pos : 0 < mantissa
  mantissa_lt : mantissa < 2 ^ 53
  exponent_ge : -1074 ≤ exponent
  full : 2 ^ 52 ≤ mantissa ∨ exponent = -1074
  word_eq : word mantissa exponent = b

theorem unpackSign_of_lt {b : BitVec 64} (h : b.toNat < 2 ^ 63) :
    Sign.ofBitVec (@unpackSign Format.binary64 b) = .positive := by
  refine if_pos (BitVec.eq_of_toNat_eq ?_)
  simp only [unpackSign, BitVec.toNat_cast, BitVec.extractLsb_toNat, Nat.shiftRight_eq_div_pow]
  rw [Nat.div_eq_of_lt (by simpa using h)]
  rfl

/-- A word without a sign is zero, or a positive number. -/
theorem Unsigned.unpack {x : Double} (h : x.Unsigned) :
    (x.bits.toNat = 0 ∧
      UnpackedFloat.unpack Format.binary64 x.bits.toBitVec = .zero .positive) ∨
    ∃ mantissa exponent, ∃ hreads : ReadsAs x.bits.toNat mantissa exponent,
      UnpackedFloat.unpack Format.binary64 x.bits.toBitVec =
        .finite .positive mantissa exponent hreads.mantissa_pos := by
  have hb : x.bits.toBitVec.toNat = x.bits.toNat := rfl
  rw [Unsigned, ← hb] at h
  rw [← hb]
  generalize x.bits.toBitVec = b at h ⊢
  have hsign := unpackSign_of_lt (b := b) (by omega)
  have hexponent := toNat_unpackExponent b
  have hmantissa := toNat_unpackMantissa b
  have hbias : (Format.exponentBias Format.binary64 : Int) = 1023 := rfl
  have hplaces : (Format.mantissaBitsWithoutImplicit Format.binary64 : Int) = 52 := rfl
  have hfinite : @unpackExponent Format.binary64 b ≠ -1#_ := by
    intro hall
    rw [hall] at hexponent
    simp at hexponent
    omega
  simp only [UnpackedFloat.unpack, hsign, if_neg hfinite, hbias, hplaces]
  split
  · rename_i hleast
    have hzero : (@unpackExponent Format.binary64 b).toNat = 0 := congrArg BitVec.toNat hleast
    split
    · rename_i hnone
      have hno : (@unpackMantissa Format.binary64 b).toNat = 0 := congrArg BitVec.toNat hnone
      exact .inl ⟨by omega, rfl⟩
    · rename_i hsome
      have hpos : (@unpackMantissa Format.binary64 b).toNat ≠ 0 := fun h =>
        hsome (BitVec.eq_of_toNat_eq h)
      refine .inr ⟨_, _, ⟨Nat.pos_of_ne_zero hpos, by omega, by omega, .inr (by omega), ?_⟩, rfl⟩
      simp only [word]
      omega
  · rename_i hnormal
    have hnonzero : (@unpackExponent Format.binary64 b).toNat ≠ 0 := fun h =>
      hnormal (BitVec.eq_of_toNat_eq h)
    have himplicit := toNat_implicit (@unpackMantissa Format.binary64 b)
    refine .inr ⟨_, _, ⟨by omega, by omega, by omega, .inl (by omega), ?_⟩, rfl⟩
    simp only [word]
    omega

/-- Doubles without a sign are compared as their words are. -/
theorem Unsigned.compare_unpack {x y : Double} (hx : x.Unsigned) (hy : y.Unsigned) :
    UnpackedFloat.compare (UnpackedFloat.unpack Format.binary64 x.bits.toBitVec)
      (UnpackedFloat.unpack Format.binary64 y.bits.toBitVec) =
        some (compare x.bits.toNat y.bits.toNat) := by
  obtain ⟨hxzero, hxu⟩ | ⟨m, e, hxr, hxu⟩ := hx.unpack <;>
    obtain ⟨hyzero, hyu⟩ | ⟨m', e', hyr, hyu⟩ := hy.unpack <;>
      -- Where both have a leading place, the exponents are compared first, and then the mantissas.
      rw [hxu, hyu, UnpackedFloat.compare, Option.some.injEq]
  · rw [hxzero, hyzero]
    rfl
  · have hpos := hyr.mantissa_pos
    have hword := hyr.word_eq
    rw [word] at hword
    exact (Nat.compare_eq_lt.2 (by omega)).symm
  · have hpos := hxr.mantissa_pos
    have hword := hxr.word_eq
    rw [word] at hword
    exact (Nat.compare_eq_gt.2 (by omega)).symm
  · obtain ⟨-, hm, hmin, hfull, hword⟩ := hxr
    obtain ⟨-, hm', hmin', hfull', hword'⟩ := hyr
    rw [← hword, ← hword', word, word]
    rcases Int.lt_trichotomy e e' with h | rfl | h
    · rw [Int.compare_eq_lt.2 h, Ordering.lt_then, eq_comm, Nat.compare_eq_lt]
      omega
    · rw [Int.compare_eq_eq.2 rfl, Ordering.eq_then]
      simp only [Nat.compare_eq_ite_lt, Nat.add_lt_add_iff_left]
    · rw [Int.compare_eq_gt.2 h, Ordering.gt_then, eq_comm, Nat.compare_eq_gt]
      omega

theorem Unsigned.le_iff {x y : Double} (hx : x.Unsigned) (hy : y.Unsigned) :
    x ≤ y ↔ x.bits.toNat ≤ y.bits.toNat := by
  rw [le_iff_compare, hx.compare_unpack hy, Option.any_some, Nat.isLE_compare]

theorem Unsigned.magnitude {x : Double} (h : x.Unsigned) : x.magnitude = x.bits := by
  rw [Unsigned] at h
  apply UInt64.toNat_inj.1
  rw [toNat_magnitude, Nat.mod_eq_of_lt (by omega)]

theorem Unsigned.isNaN {x : Double} (h : x.Unsigned) : x.isNaN = false := by
  rw [Double.isNaN, h.magnitude, decide_eq_false_iff_not, UInt64.lt_iff_toNat_lt]
  have : infinity.bits.toNat = 2047 * 2 ^ 52 := rfl
  rw [Unsigned] at h
  omega

theorem Unsigned.totalKey {x : Double} (h : x.Unsigned) : x.totalKey = x.bits.toNat := by
  have hsign : ¬ signMask ≤ x.bits := by
    rw [UInt64.le_iff_toNat_le]
    have : signMask.toNat = 2 ^ 63 := rfl
    rw [Unsigned] at h
    omega
  simp only [Double.totalKey, h.magnitude, if_neg hsign]

/-! ## The unit interval -/

/-- Whether a double is a number from zero to one, without a sign. -/
def InUnit (x : Double) : Prop := x.bits.toNat ≤ 1023 * 2 ^ 52

variable {x y : Double}

theorem InUnit.unsigned (h : x.InUnit) : x.Unsigned := by
  rw [InUnit] at h
  rw [Unsigned]
  omega

theorem InUnit.of_le (hy : y.InUnit) (h : x.bits.toNat ≤ y.bits.toNat) : x.InUnit :=
  Nat.le_trans h hy

theorem InUnit.le_iff (hx : x.InUnit) (hy : y.InUnit) : x ≤ y ↔ x.bits.toNat ≤ y.bits.toNat :=
  hx.unsigned.le_iff hy.unsigned

theorem toNat_bits_zero : (0.0 : Double).bits.toNat = 0 := by decide

theorem toNat_bits_one : (1.0 : Double).bits.toNat = 1023 * 2 ^ 52 := by decide

theorem inUnit_zero : InUnit 0.0 := toNat_bits_zero.trans_le (Nat.zero_le _)

theorem inUnit_one : InUnit 1.0 := toNat_bits_one.le

theorem eq_zero_of_toNat_bits (h : x.bits.toNat = 0) : x = 0.0 :=
  Double.ext (UInt64.toNat_inj.1 (h.trans toNat_bits_zero.symm))

theorem not_one_le (h : x.bits.toNat < 1023 * 2 ^ 52) : ¬ 1.0 ≤ x := by
  have hunit : x.InUnit := h.le
  rw [inUnit_one.le_iff hunit, toNat_bits_one]
  exact Nat.not_le.2 h

/-- The word of a number between zero and one. -/
theorem toNat_bits_lt (hzero : 0.0 < x) (hone : x < 1.0) : x.bits.toNat < 1023 * 2 ^ 52 := by
  have h1 : UnpackedFloat.unpack Format.binary64 (1.0 : Double).bits.toBitVec =
    .finite .positive (2 ^ 52) (-52) (by decide) := by rfl
  have h0 : UnpackedFloat.unpack Format.binary64 (0.0 : Double).bits.toBitVec =
    .zero .positive := by rfl
  rw [lt_iff_compare, h0] at hzero
  rw [lt_iff_compare, h1] at hone
  have hb : x.bits.toBitVec.toNat = x.bits.toNat := rfl
  rw [← hb]
  generalize x.bits.toBitVec = b at hzero hone ⊢
  cases hread : UnpackedFloat.unpack Format.binary64 b with
  | infinity sign =>
    rw [hread] at hzero hone
    cases sign with
    | positive => exact absurd hone (by decide)
    | negative => exact absurd hzero (by decide)
  | notANumber =>
    rw [hread] at hzero
    exact absurd hzero (by simp [UnpackedFloat.compare])
  | zero sign =>
    rw [hread] at hzero
    exact absurd hzero (by simp [UnpackedFloat.compare])
  | finite sign m e hpos =>
    rw [hread] at hzero hone
    cases sign with
    | negative => exact absurd hzero (by simp [UnpackedFloat.compare])
    | positive =>
      obtain ⟨hm, hmin, hfull, _⟩ := word_le_of_unpack hread
      simp only [UnpackedFloat.compare, Option.some.injEq, Ordering.then_eq_lt, Nat.compare_eq_lt,
        Int.compare_eq_lt, Int.compare_eq_eq] at hone
      have hword := toNat_pack_le hpos hm hmin (by omega)
      rw [← hread, pack_unpack_of_ne (by rw [hread]; simp)] at hword
      simp only [word] at hword
      omega

theorem inUnit_of_lt (hzero : 0.0 < x) (hone : x < 1.0) : x.InUnit := (toNat_bits_lt hzero hone).le

/-! ## Products -/

theorem ofFloat_of_lt {f : Float} (h : f.toBits.toNat < 2047 * 2 ^ 52) :
    ofFloat f = ⟨f.toBits⟩ := by
  have hnumber : f.isNaN = false := by
    show (UnpackedFloat.unpack Format.binary64 f.toBits.toBitVec).isNaN = false
    have hunsigned : Unsigned ⟨f.toBits⟩ := h
    obtain ⟨_, hread⟩ | ⟨_, _, _, hread⟩ := hunsigned.unpack <;> rw [hread] <;> rfl
  rw [ofFloat, hnumber]
  rfl

/-- The product of doubles without a sign, as long as its word has none. -/
theorem toNat_bits_mul (hx : x.Unsigned) (hy : y.Unsigned) {n : Nat} (hn : n ≤ 1023 * 2 ^ 52)
    (h : (UnpackedFloat.pack Format.binary64 (UnpackedFloat.mul Format.binary64
      (UnpackedFloat.unpack Format.binary64 x.bits.toBitVec)
      (UnpackedFloat.unpack Format.binary64 y.bits.toBitVec))).toNat ≤ n) :
    (x * y).bits.toNat ≤ n := by
  have hmul : x * y = ofFloat (x.toFloat * y.toFloat) := by
    show binary _ _ _ = _
    rw [binary, if_neg (by simp [hx.isNaN]), if_neg (by simp [hy.isNaN])]
  have hbits : (x.toFloat * y.toFloat).toBits.toNat ≤ n := by
    rw [Float.toBits, toModel_mul]
    exact h
  rw [hmul, ofFloat_of_lt (by omega)]
  exact hbits

/-- The product of two doubles in the unit interval is at most the second one. -/
theorem toNat_bits_mul_le (hx : x.InUnit) (hy : y.InUnit) : (x * y).bits.toNat ≤ y.bits.toNat := by
  refine toNat_bits_mul hx.unsigned hy.unsigned hy ?_
  obtain ⟨_, hxu⟩ | ⟨m, e, hxr, hxu⟩ := hx.unsigned.unpack <;>
    obtain ⟨_, hyu⟩ | ⟨m', e', hyr, hyu⟩ := hy.unsigned.unpack <;> rw [hxu, hyu]
  · exact Nat.zero_le _
  · exact Nat.zero_le _
  · exact Nat.zero_le _
  · obtain ⟨hpos, hm, hmin, hfull, hword⟩ := hxr
    obtain ⟨hpos', hm', hmin', hfull', hword'⟩ := hyr
    rw [InUnit, ← hword] at hx
    rw [InUnit, ← hword'] at hy
    simp only [word] at hx hy
    -- Unless the greater factor is subnormal, the product has places enough.
    have hlog : e' ≠ -1074 → 52 ≤ (m * m').log2 := by
      intro hnormal
      have hle : m' ≤ m * m' := Nat.le_mul_of_pos_left _ hpos
      exact (Nat.le_log2 (by omega)).2 (by omega)
    have hone : m ≤ 2 ^ (e' - (e + e')).toNat := by
      rcases Int.lt_or_le e (-52) with h | h
      · have hlarge : 2 ^ 53 ≤ 2 ^ (e' - (e + e')).toNat :=
          Nat.pow_le_pow_right (by decide) (by omega)
        omega
      · rw [show (e' - (e + e')).toNat = 52 by omega]
        omega
    have hless : 2 * (m * m') < (2 * m' + 1) * 2 ^ (e' - (e + e')).toNat :=
      calc 2 * (m * m') = 2 * m' * m := by ring
        _ ≤ 2 * m' * 2 ^ (e' - (e + e')).toNat := Nat.mul_le_mul_left _ hone
        _ < (2 * m' + 1) * 2 ^ (e' - (e + e')).toNat :=
          Nat.mul_lt_mul_of_pos_right (Nat.lt_succ_self _) (Nat.two_pow_pos _)
    refine le_of_le_of_eq ?_ hword'
    exact toNat_roundWithAccuracy_le_word hm' hmin' (by omega) hfull' (by omega)
      (by rw [roundedExponent]; omega) hless

theorem InUnit.mul (hx : x.InUnit) (hy : y.InUnit) : (x * y).InUnit :=
  hy.of_le (toNat_bits_mul_le hx hy)

theorem toNat_bits_nine_tenths : (0.9 : Double).bits.toNat = 0x3FECCCCCCCCCCCCD := by
  decide

theorem inUnit_nine_tenths : InUnit 0.9 := by
  rw [InUnit, toNat_bits_nine_tenths]
  decide

/-- The product of `0.9` and a number that is less than one is less than `0.9`. -/
theorem toNat_bits_mul_lt (hy : y.bits.toNat < 1023 * 2 ^ 52) :
    ((0.9 : Double) * y).bits.toNat < (0.9 : Double).bits.toNat := by
  have hword : word 0x1CCCCCCCCCCCCD (-53) = 0x3FECCCCCCCCCCCCD := by decide
  have h9 : UnpackedFloat.unpack Format.binary64 (0.9 : Double).bits.toBitVec =
    .finite .positive 0x1CCCCCCCCCCCCD (-53) (by decide) := by rfl
  have hyu : y.InUnit := hy.le
  have hle : ((0.9 : Double) * y).bits.toNat ≤ 0x3FECCCCCCCCCCCCC := by
    refine toNat_bits_mul inUnit_nine_tenths.unsigned hyu.unsigned (by decide)
      (Nat.le_of_lt_succ ?_)
    rw [h9]
    obtain ⟨_, hread⟩ | ⟨m, e, ⟨hpos, hm, hmin, hfull, hyword⟩, hread⟩ := hyu.unsigned.unpack <;>
      rw [hread]
    · exact Nat.succ_pos _
    · rw [← hyword] at hy
      simp only [word] at hy
      refine lt_of_lt_of_eq ?_ hword
      exact toNat_product_lt (by decide) (by decide) (by decide) (by decide) hpos hm (by omega)
  rw [toNat_bits_nine_tenths]
  omega

/-! ## Powers -/

theorem toNat_bits_powerFrom_le {r a : Double} {n rounds : Nat} (hr : r.InUnit) (ha : a.InUnit)
    (hn : 0 < n) (hrounds : n ≤ rounds) :
    (Scale.powerFrom r a n rounds).bits.toNat ≤ a.bits.toNat := by
  induction rounds generalizing r a n with
  | zero => omega
  | succ rounds ih =>
    rw [Scale.powerFrom]
    by_cases hlast : n / 2 = 0
    · rw [if_pos hlast, if_pos (by omega)]
      exact toNat_bits_mul_le hr ha
    · rw [if_neg hlast]
      have hr' : (if n % 2 = 1 then r * a else r).InUnit := by
        split
        · exact hr.mul ha
        · exact hr
      exact (ih hr' (ha.mul ha) (by omega) (by omega)).trans (toNat_bits_mul_le ha ha)

/-- A power of a number in the unit interval is at most the number. -/
theorem toNat_bits_power_le {a : Double} {n : Nat} (ha : a.InUnit) (hn : 0 < n) :
    (Scale.power a n).bits.toNat ≤ a.bits.toNat := by
  exact toNat_bits_powerFrom_le inUnit_one ha hn (Nat.le_succ n)

theorem InUnit.clampConfidence (h : x.InUnit) : (Scale.clampConfidence x).InUnit := by
  rw [clampConfidence_eq]
  split
  · unfold InUnit
    decide
  · split
    · unfold InUnit
      decide
    · exact h

end Double

open Double

/-! ## Confidence -/

theorem TruthValue.distance_pos {s t : UInt64} (h : s ≠ t) : 0 < distance s t := by
  have hne : s.toNat ≠ t.toNat := fun heq => h (UInt64.toNat_inj.1 heq)
  rw [distance]
  omega

theorem Sentence.value?_of_isQuestion (s : Sentence) (h : s.isQuestion = true) :
    s.value? = none := by
  rw [Sentence.isQuestion, Sentence.punctuation] at h
  rw [Sentence.value?]
  cases hkind : s.kind with
  | judgment v => exact absurd h (by simp [hkind, SentenceKind.punctuation])
  | question => rfl
  | goal v => exact absurd h (by simp [hkind, SentenceKind.punctuation])

namespace Standpoint

variable {p : Standpoint} {s : Sentence}

theorem decay_bounds (hvalid : p.settings.validate = .ok ()) (s : Sentence) :
    0.0 < p.decay s ∧ p.decay s < 1.0 := by
  obtain ⟨_, hfault⟩ := Settings.validate_eq_ok.1 hvalid
  have hevent := hfault "projection_decay_event" (by decide)
  have hdesire := hfault "projection_decay_desire" (by decide)
  have hslotEvent : Settings.slot? "projection_decay_event" =
    some (.real Settings.eventDecay fun s x => { s with eventDecay := x }) := by rfl
  have hslotDesire : Settings.slot? "projection_decay_desire" =
    some (.real Settings.desireDecay fun s x => { s with desireDecay := x }) := by rfl
  rw [Settings.fault?, hslotEvent] at hevent
  rw [Settings.fault?, hslotDesire] at hdesire
  rw [decay]
  split
  · simpa using hdesire
  · simpa using hevent

theorem inUnit_decay (hvalid : p.settings.validate = .ok ()) (s : Sentence) :
    (p.decay s).InUnit :=
  inUnit_of_lt (decay_bounds hvalid s).1 (decay_bounds hvalid s).2

/-- The confidence in a sentence with a value in range is in the unit interval at all times. -/
theorem inUnit_confidence (hvalid : p.settings.validate = .ok ())
    (hrange : ∀ v ∈ s.value?, v.InRange) : (p.confidence s).InUnit := by
  have hzero : InUnit 0.0 := by
    unfold InUnit
    decide
  rw [confidence, value?]
  cases hv : s.value? with
  | none => exact hzero
  | some v =>
    have hconfidence : v.confidence.InUnit :=
      inUnit_of_lt (hrange v hv).confidence_pos (hrange v hv).confidence_lt
    -- A timeless value does not fade; that of an event is multiplied by a share between zero and
    -- one.
    cases ht : s.occurrence with
    | none => exact hconfidence
    | some t =>
      show (v.projection t p.now (p.decay s)).confidence.InUnit
      rw [TruthValue.projection]
      split
      · exact hconfidence
      · have hdistance := TruthValue.distance_pos ‹_›
        have hpos : 0 < min (TruthValue.distance t p.now) TruthValue.maxDistance :=
          lt_min hdistance (by decide)
        have hdecay := inUnit_decay hvalid s
        exact (hconfidence.mul (hdecay.of_le (toNat_bits_power_le hdecay hpos))).clampConfidence

/-- What holds timelessly, or is only asked, is seen alike from everywhere. -/
theorem confidence_of_isEvent (p : Standpoint) (now : Cycle)
    (h : s.isEvent = true → s.isQuestion = true) :
    ({ p with now } : Standpoint).confidence s = p.confidence s := by
  simp only [confidence, value?]
  cases hv : s.value? with
  | none => rfl
  | some v =>
    have hnever : s.occurrence = none := by
      by_contra hsome
      rw [s.value?_of_isQuestion (h (Option.isSome_iff_ne_none.2 hsome))] at hv
      exact absurd hv (by simp)
    rw [hnever]

theorem confidence_default : (TruthValue.default).confidence = 0.9 := by decide

/-- The confidence in an event in its own cycle, when it was believed with the usual confidence. -/
theorem confidence_eq (hvalue : s.value? = some .default) (hnow : s.occurrence = some p.now) :
    p.confidence s = 0.9 := by
  simp only [confidence, value?, hvalue, hnow, Option.map_some, TruthValue.projection, if_true]
  exact confidence_default

/-- **Main theorem.** From another cycle, an event that was believed with the usual confidence is
seen with less. -/
theorem not_le_confidence (hvalid : p.settings.validate = .ok ()) {t : Cycle}
    (hvalue : s.value? = some .default) (ht : s.occurrence = some t) (hne : t ≠ p.now) :
    ¬ (0.9 : Double) ≤ p.confidence s := by
  have hdecay := inUnit_decay hvalid s
  have hpos : 0 < min (TruthValue.distance t p.now) TruthValue.maxDistance :=
    lt_min (TruthValue.distance_pos hne) (by decide)
  -- One factor below one takes away more than rounding could give back.
  have hfaded : ((0.9 : Double) * Scale.power (p.decay s)
      (min (TruthValue.distance t p.now) TruthValue.maxDistance)).bits.toNat <
        (0.9 : Double).bits.toNat :=
    toNat_bits_mul_lt ((toNat_bits_power_le hdecay hpos).trans_lt
      (toNat_bits_lt (decay_bounds hvalid s).1 (decay_bounds hvalid s).2))
  have hseen : p.confidence s = Scale.clampConfidence ((0.9 : Double) * Scale.power (p.decay s)
      (min (TruthValue.distance t p.now) TruthValue.maxDistance)) := by
    simp only [confidence, value?, hvalue, ht, Option.map_some, TruthValue.projection, if_neg hne]
    rw [← confidence_default]
    rfl
  generalize (0.9 : Double) * Scale.power (p.decay s)
    (min (TruthValue.distance t p.now) TruthValue.maxDistance) = c at hfaded hseen
  have hc : c.InUnit := inUnit_nine_tenths.of_le hfaded.le
  rw [hseen, clampConfidence_eq, if_neg (not_one_le (hfaded.trans_le inUnit_nine_tenths))]
  split
  · decide
  · rw [inUnit_nine_tenths.le_iff hc]
    omega

end Standpoint

end NonAxiomatic
