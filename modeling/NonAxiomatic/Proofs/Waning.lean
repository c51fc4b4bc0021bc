import NonAxiomatic.Proofs.Arithmetic
import NonAxiomatic.Proofs.Hundredths

/-!
# How confidence wanes with time

The further an event is away, the less confidence is put in it. A power of the decay is computed by
repeated squaring, and every product is rounded, so that the digits of an exponent cannot simply be
traded against each other. What remains is that the product for the highest digit comes last
(`Scale.powerFrom_two_pow_add`), and that products are ordered as their factors are
(`Double.toNat_bits_mul_le_mul`). By both of them a greater power is not the greater number
(`Double.power_anti`).

A product that is too small for a double is zero, and a confidence of zero is lifted to the least
confidence: what has faded away altogether comes back (`TruthValue.Vanishes`).

**Theorem (`TruthValue.projection_le_iff`).** The further away, the less confidence, and never more
than in the event itself, unless a confidence that has vanished comes back as more than that.
-/

namespace NonAxiomatic

/-! ## Repeated squaring -/

namespace Scale

variable {α : Type} [Scale α]

/-- A number after squaring it `k` times. -/
def squares (a : α) : (k : Nat) → α
  | 0 => a
  | k + 1 => squares (a * a) k

theorem squares_succ (a : α) (k : Nat) : squares a (k + 1) = squares a k * squares a k := by
  induction k generalizing a with
  | zero => rfl
  | succ k ih => exact ih (a * a)

theorem powerFrom_zero (r a : α) {rounds : Nat} : powerFrom r a 0 rounds = r := by
  cases rounds <;> rfl

/-- The lowest digit of an exponent comes first. -/
theorem powerFrom_eq_half (r a : α) (n rounds : Nat) :
    powerFrom r a n (rounds + 1) =
      powerFrom (if n % 2 = 1 then r * a else r) (a * a) (n / 2) rounds := by
  rw [powerFrom]
  split
  · rename_i hlast
    simp only [hlast, powerFrom_zero]
  · rfl

/-- More rounds than digits make no difference. -/
theorem powerFrom_eq_of_le (r a : α) {n rounds rounds' : Nat} (h : n ≤ rounds) (h' : n ≤ rounds') :
    powerFrom r a n rounds = powerFrom r a n rounds' := by
  induction rounds generalizing r a n rounds' with
  | zero =>
    obtain rfl := Nat.le_zero.1 h
    rw [powerFrom_zero, powerFrom_zero]
  | succ rounds ih =>
    cases rounds' with
    | zero =>
      obtain rfl := Nat.le_zero.1 h'
      rw [powerFrom_zero, powerFrom_zero]
    | succ rounds' =>
      rw [powerFrom_eq_half, powerFrom_eq_half]
      exact ih _ _ (by omega) (by omega)

/-- The highest digit of an exponent comes last. -/
theorem powerFrom_two_pow_add (r a : α) {k low rounds : Nat} (hlow : low < 2 ^ k)
    (h : 2 ^ k + low ≤ rounds) :
    powerFrom r a (2 ^ k + low) rounds = powerFrom r a low rounds * squares a k := by
  induction k generalizing r a low rounds with
  | zero =>
    obtain rfl : low = 0 := by omega
    obtain ⟨rounds, rfl⟩ : ∃ n, rounds = n + 1 := ⟨rounds - 1, by omega⟩
    rfl
  | succ k ih =>
    obtain ⟨rounds, rfl⟩ : ∃ n, rounds = n + 1 := ⟨rounds - 1, by omega⟩
    have hpow : 2 ^ (k + 1) = 2 * 2 ^ k := Nat.pow_succ'
    have hpos := Nat.two_pow_pos k
    rw [powerFrom_eq_half, powerFrom_eq_half r a low,
      show (2 ^ (k + 1) + low) % 2 = low % 2 by omega,
      show (2 ^ (k + 1) + low) / 2 = 2 ^ k + low / 2 by omega, ih _ _ (by omega) (by omega)]
    rfl

end Scale

/-! ## Powers in the unit interval -/

namespace Double

variable {a x x' y y' : Double} {n n' : Nat}

theorem InUnit.value_le_one (h : x.InUnit) : x.value ≤ 1 := by
  rw [← value_one, h.unsigned.value_le_iff inUnit_one.unsigned, h.le_iff inUnit_one, toNat_bits_one]
  exact h

theorem InUnit.nearest_mul (hx : x.InUnit) (hy : y.InUnit) :
    Nearest (x.value * y.value) (x * y) := by
  refine Double.nearest_mul hx.unsigned hy.unsigned ?_
  have hle := mul_le_one₀ hx.value_le_one hy.unsigned.value_nonneg hy.value_le_one
  exact hle.trans_lt (one_lt_pow₀ one_lt_two (by decide))

/-- Rounded products are ordered as their factors are. -/
theorem toNat_bits_mul_le_mul (hx : x'.InUnit) (hy : y'.InUnit)
    (h : x.bits.toNat ≤ x'.bits.toNat) (h' : y.bits.toNat ≤ y'.bits.toNat) :
    (x * y).bits.toNat ≤ (x' * y').bits.toNat := by
  have hxu := hx.of_le h
  have hyu := hy.of_le h'
  refine (hxu.nearest_mul hyu).bits_le (hx.nearest_mul hy) ?_
  have hvalue := (hxu.unsigned.value_le_iff hx.unsigned).2 ((hxu.le_iff hx).2 h)
  have hvalue' := (hyu.unsigned.value_le_iff hy.unsigned).2 ((hyu.le_iff hy).2 h')
  exact mul_le_mul hvalue hvalue' hyu.unsigned.value_nonneg hx.unsigned.value_nonneg

theorem toNat_bits_mul_le_left (hx : x.InUnit) (hy : y.InUnit) :
    (x * y).bits.toNat ≤ x.bits.toNat := by
  refine (hx.nearest_mul hy).bits_le hx.unsigned.nearest_value ?_
  exact mul_le_of_le_one_right hx.unsigned.value_nonneg hy.value_le_one

theorem InUnit.squares (ha : a.InUnit) (k : Nat) : (Scale.squares a k).InUnit := by
  induction k with
  | zero => exact ha
  | succ k ih =>
    rw [Scale.squares_succ]
    exact ih.mul ih

/-- The power for an exponent with one digit more. -/
theorem power_two_pow_add (a : Double) {k low : Nat} (hlow : low < 2 ^ k) :
    Scale.power a (2 ^ k + low) = Scale.power a low * Scale.squares a k := by
  rw [Scale.power, Scale.powerFrom_two_pow_add _ _ hlow (Nat.le_succ _), Scale.power,
    Scale.powerFrom_eq_of_le _ _ (show low ≤ 2 ^ k + low + 1 by omega) (Nat.le_succ low)]

/-- The exponent without its highest digit. -/
theorem exists_two_pow_add (hn : n ≠ 0) : ∃ k low, low < 2 ^ k ∧ n = 2 ^ k + low := by
  have hle := Nat.log2_self_le hn
  have hlt : n < 2 ^ (n.log2 + 1) := Nat.lt_log2_self
  rw [Nat.pow_succ] at hlt
  exact ⟨n.log2, n - 2 ^ n.log2, by omega, by omega⟩

theorem InUnit.power (ha : a.InUnit) (n : Nat) : (Scale.power a n).InUnit := by
  rcases Nat.eq_zero_or_pos n with rfl | hpos
  · exact inUnit_one
  · exact ha.of_le (toNat_bits_power_le ha hpos)

/-- A power for an exponent with few digits is not less than a square for a higher digit. -/
theorem squares_le_power (ha : a.InUnit) {k : Nat} (hn : n < 2 ^ k) :
    (Scale.squares a k).bits.toNat ≤ (Scale.power a n).bits.toNat := by
  induction k generalizing n with
  | zero =>
    obtain rfl : n = 0 := by omega
    exact Nat.le_trans ha toNat_bits_one.ge
  | succ k ih =>
    rw [Scale.squares_succ]
    rcases Nat.lt_or_ge n (2 ^ k) with hlt | hge
    · exact (toNat_bits_mul_le (ha.squares k) (ha.squares k)).trans (ih hlt)
    · obtain ⟨low, rfl⟩ := Nat.exists_eq_add_of_le hge
      have hlow : low < 2 ^ k := by
        rw [Nat.pow_succ] at hn
        omega
      rw [power_two_pow_add a hlow]
      exact toNat_bits_mul_le_mul (ha.power low) (ha.squares k) (ih hlow) (le_refl _)

/-- A greater power of a number in the unit interval is not greater. -/
theorem power_anti (ha : a.InUnit) (h : n ≤ n') :
    (Scale.power a n').bits.toNat ≤ (Scale.power a n).bits.toNat := by
  induction n' using Nat.strong_induction_on generalizing n with
  | _ n' ih =>
    rcases h.eq_or_lt with rfl | hlt
    · exact le_refl _
    obtain ⟨k', low', hlow', rfl⟩ := exists_two_pow_add (Nat.ne_of_gt (Nat.zero_lt_of_lt hlt))
    rw [power_two_pow_add a hlow']
    rcases Nat.lt_or_ge n (2 ^ k') with hless | hge
    · -- The product with the square for the highest digit is at most this square.
      exact (toNat_bits_mul_le (ha.power low') (ha.squares k')).trans (squares_le_power ha hless)
    · obtain ⟨low, rfl⟩ := Nat.exists_eq_add_of_le hge
      have hpos := Nat.two_pow_pos k'
      rw [power_two_pow_add a (show low < 2 ^ k' by omega)]
      exact toNat_bits_mul_le_mul (ha.power low) (ha.squares k')
        (ih low' (by omega) (by omega)) (le_refl _)

/-! ## Numbers that stay where they are -/

theorem clampUnit_eq (hzero : 0.0 ≤ x) (hone : x ≤ 1.0) : Scale.clampUnit x = x := by
  rcases inUnit_or hzero hone with rfl | h
  · decide
  · have hbelow : ¬ x < 0.0 := by
      rw [h.unsigned.lt_iff inUnit_zero.unsigned, toNat_bits_zero]
      exact Nat.not_lt_zero _
    have habove : ¬ (1.0 : Double) < x := by
      rw [inUnit_one.unsigned.lt_iff h.unsigned, toNat_bits_one]
      exact Nat.not_lt.2 h
    show (if decide ((1.0 : Double) < if decide (x < 0.0) then 0.0 else x) then 1.0
      else if decide (x < 0.0) then 0.0 else x) = x
    simp only [hbelow, habove, decide_false, Bool.false_eq_true, if_false]

/-- A confidence that is less than one only moves when it is zero. -/
theorem clampConfidence_of_lt (h : x.bits.toNat < 1023 * 2 ^ 52) :
    Scale.clampConfidence x = if x = 0.0 then 0.0001 else x := by
  have hunit : x.InUnit := h.le
  have hzero : x ≤ 0.0 ↔ x = 0.0 := by
    rw [hunit.le_iff inUnit_zero, toNat_bits_zero, Nat.le_zero]
    constructor
    · exact eq_zero_of_toNat_bits
    · rintro rfl
      exact toNat_bits_zero
  rw [clampConfidence_eq, if_neg (not_one_le h)]
  simp only [hzero]

end Double

open Double

namespace TruthValue

variable {v : TruthValue Double} {source target t₁ t₂ : UInt64} {decay : Double}

/-- The confidence that is left of a value at another time, before it is moved into its range. -/
def remaining (v : TruthValue Double) (source target : UInt64) (decay : Double) : Double :=
  if source = target then v.confidence
  else v.confidence * Scale.power decay (min (distance source target) maxDistance)

/-- Whether nothing that a double can hold is left of the confidence in a value. -/
def Vanishes (v : TruthValue Double) (source target : UInt64) (decay : Double) : Prop :=
  v.remaining source target decay = 0.0

instance : Decidable (v.Vanishes source target decay) := inferInstanceAs (Decidable (_ = _))

theorem toNat_bits_remaining_le (hv : v.InRange) (hdecay : decay.InUnit) :
    (v.remaining source target decay).bits.toNat ≤ v.confidence.bits.toNat := by
  have hconfidence := inUnit_of_lt hv.confidence_pos hv.confidence_lt
  rw [remaining]
  split
  · exact le_refl _
  · exact toNat_bits_mul_le_left hconfidence (hdecay.power _)

theorem projection_eq (hv : v.InRange) (hdecay : decay.InUnit) :
    v.projection source target decay = ⟨v.frequency,
      if v.Vanishes source target decay then 0.0001 else v.remaining source target decay⟩ := by
  have hless : (v.remaining source target decay).bits.toNat < 1023 * 2 ^ 52 :=
    (toNat_bits_remaining_le hv hdecay).trans_lt
      (toNat_bits_lt hv.confidence_pos hv.confidence_lt)
  rw [projection]
  split
  · rename_i hsame
    have hconfidence : v.remaining source target decay = v.confidence := if_pos hsame
    have hstays : ¬ v.Vanishes source target decay := by
      rw [Vanishes, hconfidence]
      intro hzero
      exact absurd (hzero ▸ hv.confidence_pos) (by decide)
    rw [if_neg hstays, hconfidence]
  · rename_i hother
    have hproduct : v.remaining source target decay = v.confidence *
        Scale.power decay (min (distance source target) maxDistance) := if_neg hother
    rw [← hproduct, withConfidence, of, clampUnit_eq hv.frequency_nonneg hv.frequency_le,
      clampConfidence_of_lt hless]
    rfl

theorem remaining_anti (hv : v.InRange) (hdecay : decay.InUnit)
    (h : distance source t₁ ≤ distance source t₂) :
    (v.remaining source t₂ decay).bits.toNat ≤ (v.remaining source t₁ decay).bits.toNat := by
  by_cases hsame : source = t₁
  · rw [show v.remaining source t₁ decay = v.confidence from if_pos hsame]
    exact toNat_bits_remaining_le hv hdecay
  · have hother : source ≠ t₂ := by
      rintro rfl
      have := distance_pos hsame
      simp only [distance, max_self, min_self, Nat.sub_self] at h this
      omega
    rw [remaining, remaining, if_neg hsame, if_neg hother]
    refine toNat_bits_mul_le_mul (inUnit_of_lt hv.confidence_pos hv.confidence_lt)
      (hdecay.power _) (le_refl _) (power_anti hdecay ?_)
    exact min_le_min h (le_refl _)

/-- What has vanished has vanished from further away as well. -/
theorem vanishes_of_distance_le (hv : v.InRange) (hdecay : decay.InUnit)
    (h : distance source t₁ ≤ distance source t₂) (hvanishes : v.Vanishes source t₁ decay) :
    v.Vanishes source t₂ decay := by
  have hanti := remaining_anti hv hdecay h
  rw [hvanishes, toNat_bits_zero, Nat.le_zero] at hanti
  exact eq_zero_of_toNat_bits hanti

/-- **Main theorem.** Seen from further away, a value has its frequency and no more confidence, and
never more than itself, unless a confidence that has vanished comes back as more than that. -/
theorem projection_le_iff (hv : v.InRange) (hzero : 0.0 < decay) (hone : decay < 1.0)
    (h : distance source t₁ ≤ distance source t₂) :
    (v.projection source t₁ decay).frequency = v.frequency ∧
    (v.projection source t₂ decay).frequency = v.frequency ∧
    (((v.projection source t₂ decay).confidence ≤ (v.projection source t₁ decay).confidence ∧
        (v.projection source t₁ decay).confidence ≤ v.confidence ∧
        (v.projection source t₂ decay).confidence ≤ v.confidence) ↔
      (v.Vanishes source t₂ decay → (0.0001 : Double) ≤ v.confidence ∧
        (0.0001 : Double) ≤ (v.projection source t₁ decay).confidence)) := by
  have hdecay := inUnit_of_lt hzero hone
  have hconfidence := inUnit_of_lt hv.confidence_pos hv.confidence_lt
  have hunit : ∀ t, (v.remaining source t decay).InUnit := fun t =>
    hconfidence.of_le (toNat_bits_remaining_le hv hdecay)
  have hle : ∀ t, v.remaining source t decay ≤ v.confidence := fun t =>
    ((hunit t).le_iff hconfidence).2 (toNat_bits_remaining_le hv hdecay)
  refine ⟨by rw [projection_eq hv hdecay], by rw [projection_eq hv hdecay], ?_⟩
  by_cases hlater : v.Vanishes source t₂ decay
  · have hback : (v.projection source t₂ decay).confidence = 0.0001 := by
      rw [projection_eq hv hdecay, if_pos hlater]
    rw [hback]
    refine ⟨fun ⟨hfirst, _, hsecond⟩ _ => ⟨hsecond, hfirst⟩, fun hleast => ?_⟩
    obtain ⟨hself, hfirst⟩ := hleast hlater
    refine ⟨hfirst, ?_, hself⟩
    rw [projection_eq hv hdecay]
    dsimp only
    split
    · exact hself
    · exact hle t₁
  · have hearlier : ¬ v.Vanishes source t₁ decay := fun hvanishes =>
      hlater (vanishes_of_distance_le hv hdecay h hvanishes)
    rw [projection_eq hv hdecay, projection_eq hv hdecay, if_neg hlater, if_neg hearlier]
    refine ⟨fun _ hvanishes => absurd hvanishes hlater, fun _ => ⟨?_, hle t₁, hle t₂⟩⟩
    exact ((hunit t₂).le_iff (hunit t₁)).2 (remaining_anti hv hdecay h)

/-- A usual confidence has vanished after 5000 cycles, and is the least confidence then. After 2000
cycles there was less of it. -/
theorem least_confidence_comes_back :
    (⟨1.0, 0.9⟩ : TruthValue Double).Vanishes 0 5000 0.8 ∧
      ¬ (((⟨1.0, 0.9⟩ : TruthValue Double).projection 0 5000 0.8).confidence ≤
          ((⟨1.0, 0.9⟩ : TruthValue Double).projection 0 2000 0.8).confidence ∧
        ((⟨1.0, 0.9⟩ : TruthValue Double).projection 0 2000 0.8).confidence ≤ 0.9 ∧
        ((⟨1.0, 0.9⟩ : TruthValue Double).projection 0 5000 0.8).confidence ≤ 0.9) := by
  have hrange : (⟨1.0, 0.9⟩ : TruthValue Double).InRange :=
    ⟨by decide, by decide, by decide, by decide⟩
  have hvanishes : (⟨1.0, 0.9⟩ : TruthValue Double).Vanishes 0 5000 0.8 := by decide +kernel
  have hless : ¬ (0.0001 : Double) ≤
      ((⟨1.0, 0.9⟩ : TruthValue Double).projection 0 2000 0.8).confidence := by decide +kernel
  exact ⟨hvanishes, fun hall => hless (((projection_le_iff hrange (by decide)
    (by decide) (by decide)).2.2.1 hall hvanishes).2)⟩

end TruthValue

end NonAxiomatic
