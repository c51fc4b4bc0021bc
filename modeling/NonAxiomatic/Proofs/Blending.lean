import NonAxiomatic.Proofs.Arithmetic
import NonAxiomatic.Proofs.Revising

/-!
# Blended time gaps

When sequences are revised, every gap becomes the mean of the gaps of the premises, weighted by
their confidences. The mean is computed in doubles: two products, two sums and a quotient are
rounded, and the whole part of the result is kept. The computed mean is next to the exact one
(`Double.abs_value_mean_sub_le`), but if that is a whole number, as for two equal gaps, it may have
become a little less, and then its whole part is less by one (`Double.blends_blendGap`).

**Theorem (`revise_gaps`).** Two sentences about one sequence are revised to one about it that has
as many gaps. Each of them is at most the greater one of the two, and at least the lesser one, or
one less where the computed mean falls below it. For gaps that differ this needs a confidence below
the least one that is given.
-/

namespace NonAxiomatic

namespace Double

variable {c c₁ c₂ : Double} {g g₁ g₂ : ℕ}

/-! ## Confidences -/

/-- The number of a confidence. -/
theorem value_bounds (hzero : 0.0 < c) (hone : c < 1.0) :
    c.Unsigned ∧ 0 < c.value ∧ c.value < 1 := by
  have hunsigned := (inUnit_of_lt hzero hone).unsigned
  refine ⟨hunsigned, ?_, ?_⟩
  · rw [← value_zero]
    exact (inUnit_zero.unsigned.value_lt_iff hunsigned).2 hzero
  · rw [← value_one]
    exact (hunsigned.value_lt_iff inUnit_one.unsigned).2 hone

/-! ## The mean -/

/-- The mean of two gaps, weighted by confidences, before its fraction is cut off. -/
def mean (c₁ c₂ : Double) (g₁ g₂ : ℕ) : Double := (ofNat g₁ * c₁ + ofNat g₂ * c₂) / (c₁ + c₂)

/-- The exact mean of two gaps. -/
def exactMean (c₁ c₂ : Double) (g₁ g₂ : ℕ) : ℚ :=
  (g₁ * c₁.value + g₂ * c₂.value) / (c₁.value + c₂.value)

/-- A number that another one differs from by a share of it. -/
def Close (x q : ℚ) : Prop := |x - q| ≤ q / 2 ^ 53

theorem lt_two_pow_of_le {q : ℚ} (h : q ≤ 2 ^ 64) : q < 2 ^ 1023 :=
  h.trans_lt (pow_lt_pow_right₀ one_lt_two (by decide))

/-- The product of a gap and a confidence is rounded by a share of it. -/
theorem close_mul (hzero : 0.0 < c) (hone : c < 1.0) (hg : g < 2 ^ 32) :
    (ofNat g * c).Unsigned ∧ Close (ofNat g * c).value (g * c.value) := by
  obtain ⟨hc, hpos, hlt⟩ := value_bounds hzero hone
  have hexact : g < 2 ^ 53 := hg.trans (by decide)
  have hcast : (g : ℚ) ≤ 2 ^ 64 := by exact_mod_cast hg.le.trans (by decide)
  have hmax : (g : ℚ) * c.value < 2 ^ 1023 :=
    lt_two_pow_of_le ((mul_le_of_le_one_right (Nat.cast_nonneg g) hlt.le).trans hcast)
  have hproduct := nearest_mul (nearest_ofNat hexact).unsigned hc
  rw [value_ofNat hexact] at hproduct
  obtain ⟨n, hn⟩ := hc.exists_multiple
  refine ⟨(hproduct hmax).unsigned, (hproduct hmax).abs_value_sub_le_of_multiple (n := g * n) ?_⟩
  rw [hn, Nat.cast_mul, mul_assoc]

/-- A sum is rounded by a share of it. -/
theorem close_add {a b : Double} (ha : a.Unsigned) (hb : b.Unsigned)
    (hmax : a.value + b.value ≤ 2 ^ 64) :
    (a + b).Unsigned ∧ Close (a + b).value (a.value + b.value) := by
  have hsum := nearest_add ha hb (lt_two_pow_of_le hmax)
  obtain ⟨n, hn⟩ := ha.exists_multiple
  obtain ⟨n', hn'⟩ := hb.exists_multiple
  refine ⟨hsum.unsigned, hsum.abs_value_sub_le_of_multiple (n := n + n') ?_⟩
  rw [hn, hn', Nat.cast_add, add_mul]

/-- How far the quotient of two sums is away from the exact one if they and the summands of the
first one were rounded. -/
theorem abs_div_sub_div_le {p₁ p₂ q₁ q₂ s t d : ℚ} (hq₁ : 0 ≤ q₁) (hq₂ : 0 ≤ q₂) (ht : 0 < t)
    (hp₁ : Close p₁ q₁) (hp₂ : Close p₂ q₂) (hs : Close s (p₁ + p₂)) (hd : Close d t)
    (hle : q₁ + q₂ ≤ 2 ^ 32 * t) : 0 < d ∧ 0 ≤ s ∧ |s / d - (q₁ + q₂) / t| ≤ 1 / 2 ^ 19 := by
  rw [Close, abs_le] at hp₁ hp₂ hs hd
  have hdpos : 0 < d := by linarith
  have hspos : 0 ≤ s := by linarith
  refine ⟨hdpos, hspos, ?_⟩
  have hmean : (q₁ + q₂) / t * t = q₁ + q₂ := div_mul_cancel₀ _ ht.ne'
  have hnonneg : 0 ≤ (q₁ + q₂) / t := by positivity
  generalize (q₁ + q₂) / t = r at hmean hnonneg ⊢
  have hrd : r * (t - t / 2 ^ 53) ≤ r * d := mul_le_mul_of_nonneg_left (by linarith) hnonneg
  have hrd' : r * d ≤ r * (t + t / 2 ^ 53) := mul_le_mul_of_nonneg_left (by linarith) hnonneg
  rw [abs_le]
  constructor
  · rw [neg_le_sub_iff_le_add, ← sub_le_iff_le_add, le_div_iff₀ hdpos]
    linarith
  · rw [sub_le_iff_le_add, div_le_iff₀ hdpos]
    linarith

/-- The computed mean is next to the exact one. -/
theorem abs_value_mean_sub_le (hzero₁ : 0.0 < c₁) (hone₁ : c₁ < 1.0) (hzero₂ : 0.0 < c₂)
    (hone₂ : c₂ < 1.0) (hg₁ : g₁ < 2 ^ 32) (hg₂ : g₂ < 2 ^ 32) :
    (mean c₁ c₂ g₁ g₂).Unsigned ∧
      |(mean c₁ c₂ g₁ g₂).value - exactMean c₁ c₂ g₁ g₂| ≤ 1 / 2 ^ 18 := by
  -- Three roundings: those of the products, of the sums and of the quotient.
  obtain ⟨hc₁, hpos₁, hlt₁⟩ := value_bounds hzero₁ hone₁
  obtain ⟨hc₂, hpos₂, hlt₂⟩ := value_bounds hzero₂ hone₂
  obtain ⟨hx₁, hclose₁⟩ := close_mul hzero₁ hone₁ hg₁
  obtain ⟨hx₂, hclose₂⟩ := close_mul hzero₂ hone₂ hg₂
  have hcast₁ : (g₁ : ℚ) ≤ 2 ^ 32 := by exact_mod_cast hg₁.le
  have hcast₂ : (g₂ : ℚ) ≤ 2 ^ 32 := by exact_mod_cast hg₂.le
  have hproduct₁ : (g₁ : ℚ) * c₁.value ≤ 2 ^ 32 * c₁.value :=
    mul_le_mul_of_nonneg_right hcast₁ hpos₁.le
  have hproduct₂ : (g₂ : ℚ) * c₂.value ≤ 2 ^ 32 * c₂.value :=
    mul_le_mul_of_nonneg_right hcast₂ hpos₂.le
  have hnonneg₁ : 0 ≤ (g₁ : ℚ) * c₁.value := mul_nonneg (Nat.cast_nonneg _) hpos₁.le
  have hnonneg₂ : 0 ≤ (g₂ : ℚ) * c₂.value := mul_nonneg (Nat.cast_nonneg _) hpos₂.le
  have hbound₁ := (abs_le.1 hclose₁).2
  have hbound₂ := (abs_le.1 hclose₂).2
  obtain ⟨hs, hcloseSum⟩ := close_add hx₁ hx₂ (by linarith)
  obtain ⟨hd, hcloseTotal⟩ := close_add hc₁ hc₂ (by linarith)
  obtain ⟨hdpos, hsnonneg, hquotient⟩ := abs_div_sub_div_le hnonneg₁ hnonneg₂ (add_pos hpos₁ hpos₂)
    hclose₁ hclose₂ hcloseSum hcloseTotal (by linarith)
  have hexact : exactMean c₁ c₂ g₁ g₂ ≤ 2 ^ 32 := by
    rw [exactMean, div_le_iff₀ (add_pos hpos₁ hpos₂)]
    linarith
  rw [← exactMean] at hquotient
  have hle := (abs_le.1 hquotient).2
  have hnearest := nearest_div hs hd hdpos (lt_two_pow_of_le (by linarith))
  -- The quotient is at most `2 ^ 33`, and is rounded in its 53rd place.
  have hround : |(mean c₁ c₂ g₁ g₂).value -
      (ofNat g₁ * c₁ + ofNat g₂ * c₂).value / (c₁ + c₂).value| ≤ 1 / 2 ^ 20 := by
    refine hnearest.abs_value_sub_le.trans (max_le (by linarith) ?_)
    have hleast : (2 : ℚ) ^ (-1074 : ℤ) ≤ 2 ^ (-20 : ℤ) :=
      zpow_le_zpow_right₀ one_le_two (by decide)
    have hvalue : (2 : ℚ) ^ (-20 : ℤ) = 1 / 2 ^ 20 := by norm_num
    exact (half_le_self (zpow_two_pos _).le).trans (hleast.trans_eq hvalue)
  refine ⟨hnearest.unsigned, (abs_sub_le _ _ _).trans ((add_le_add hround hquotient).trans ?_)⟩
  norm_num

/-! ## Whole parts -/

/-- The gap that the whole part of the mean is. -/
theorem toNat_blendGap (hzero₁ : 0.0 < c₁) (hone₁ : c₁ < 1.0) (hzero₂ : 0.0 < c₂)
    (hone₂ : c₂ < 1.0) (g₁ g₂ : UInt32) : (blendGap c₁ c₂ g₁ g₂).toNat =
      min ⌊(mean c₁ c₂ g₁.toNat g₂.toNat).value⌋₊ (2 ^ 32 - 1) :=
  toNat_toUInt32 (abs_value_mean_sub_le hzero₁ hone₁ hzero₂ hone₂ g₁.toNat_lt g₂.toNat_lt).1

/-- The exact mean lies between the gaps. -/
theorem exactMean_bounds (hpos₁ : 0 < c₁.value) (hpos₂ : 0 < c₂.value) (g₁ g₂ : ℕ) :
    (min g₁ g₂ : ℕ) ≤ exactMean c₁ c₂ g₁ g₂ ∧ exactMean c₁ c₂ g₁ g₂ ≤ (max g₁ g₂ : ℕ) := by
  have hpos := add_pos hpos₁ hpos₂
  have hweigh : ∀ {m n : ℕ} {c : ℚ}, 0 < c → m ≤ n → (m : ℚ) * c ≤ n * c := fun hc h =>
    mul_le_mul_of_nonneg_right (Nat.cast_le.2 h) hc.le
  rw [exactMean, le_div_iff₀ hpos, div_le_iff₀ hpos, mul_add, mul_add]
  exact ⟨add_le_add (hweigh hpos₁ (min_le_left _ _)) (hweigh hpos₂ (min_le_right _ _)),
    add_le_add (hweigh hpos₁ (le_max_left _ _)) (hweigh hpos₂ (le_max_right _ _))⟩

/-- Where the gaps differ and no confidence is too small, the exact mean is greater than the lesser
one. -/
theorem lt_exactMean (hpos₁ : 1 / 2 ^ 14 ≤ c₁.value) (hlt₁ : c₁.value < 1)
    (hpos₂ : 1 / 2 ^ 14 ≤ c₂.value) (hlt₂ : c₂.value < 1) (hne : g₁ ≠ g₂) :
    (min g₁ g₂ : ℕ) + 1 / 2 ^ 15 ≤ exactMean c₁ c₂ g₁ g₂ := by
  rw [exactMean, le_div_iff₀ (by linarith)]
  rcases Nat.lt_or_gt_of_ne hne with hlt | hgt
  · have hnext : (g₁ : ℚ) + 1 ≤ g₂ := by exact_mod_cast hlt
    rw [min_eq_left hlt.le]
    nlinarith
  · have hnext : (g₂ : ℚ) + 1 ≤ g₁ := by exact_mod_cast hgt
    rw [min_eq_right hgt.le]
    nlinarith

theorem unsigned_least : (0.0001 : Double).Unsigned := by decide

theorem value_least : 1 / 2 ^ 14 ≤ (0.0001 : Double).value := by
  rw [value_eq_of_word (m := 0x1a36e2eb1c432d) (e := -66) unsigned_least (by decide)
    (by decide) (.inr (by decide)) (by decide)]
  norm_num

/-- The whole part of a number next to one that lies between whole numbers. -/
theorem floor_bounds {q r : ℚ} {m n : ℕ} (hq : 0 ≤ q) (hnear : |q - r| ≤ 1 / 2 ^ 18)
    (hm : (m : ℚ) ≤ r) (hn : r ≤ n) : m ≤ ⌊q⌋₊ + 1 ∧ ⌊q⌋₊ ≤ n := by
  rw [abs_le] at hnear
  constructor
  · have hcast : (m : ℚ) < (⌊q⌋₊ + 1 + 1 : ℕ) := by
      have hbelow := Nat.lt_floor_add_one q
      push_cast
      linarith
    exact Nat.le_of_lt_succ (by exact_mod_cast hcast)
  · refine Nat.le_of_lt_succ ((Nat.floor_lt hq).2 ?_)
    push_cast
    linarith

/-- How a gap lies to the two that it is blended from. -/
structure Blends (c₁ c₂ : Double) (g₁ g₂ g : UInt32) : Prop where
  le_max : g.toNat ≤ max g₁.toNat g₂.toNat
  min_le_succ : min g₁.toNat g₂.toNat ≤ g.toNat + 1
  min_le_iff : min g₁.toNat g₂.toNat ≤ g.toNat ↔
    ofNat (min g₁.toNat g₂.toNat) ≤ mean c₁ c₂ g₁.toNat g₂.toNat
  min_le_of_ne : g₁ ≠ g₂ → 0.0001 ≤ c₁ → 0.0001 ≤ c₂ → min g₁.toNat g₂.toNat ≤ g.toNat

theorem blends_blendGap (hzero₁ : 0.0 < c₁) (hone₁ : c₁ < 1.0) (hzero₂ : 0.0 < c₂)
    (hone₂ : c₂ < 1.0) (g₁ g₂ : UInt32) : Blends c₁ c₂ g₁ g₂ (blendGap c₁ c₂ g₁ g₂) := by
  have hg₁ := g₁.toNat_lt
  have hg₂ := g₂.toNat_lt
  obtain ⟨hc₁, hpos₁, hlt₁⟩ := value_bounds hzero₁ hone₁
  obtain ⟨hc₂, hpos₂, hlt₂⟩ := value_bounds hzero₂ hone₂
  obtain ⟨hunsigned, hnear⟩ := abs_value_mean_sub_le hzero₁ hone₁ hzero₂ hone₂ hg₁ hg₂
  obtain ⟨hleast, hgreatest⟩ := exactMean_bounds hpos₁ hpos₂ g₁.toNat g₂.toNat
  obtain ⟨hlower, hupper⟩ := floor_bounds hunsigned.value_nonneg hnear hleast hgreatest
  have hexact : min g₁.toNat g₂.toNat < 2 ^ 53 := by omega
  -- A gap is at most `2 ^ 32 - 1`, so that the whole part is cut off at no gap.
  have hwhole : min g₁.toNat g₂.toNat ≤ (blendGap c₁ c₂ g₁ g₂).toNat ↔
      (min g₁.toNat g₂.toNat : ℕ) ≤ (mean c₁ c₂ g₁.toNat g₂.toNat).value := by
    rw [toNat_blendGap hzero₁ hone₁ hzero₂ hone₂, ← Nat.le_floor_iff hunsigned.value_nonneg]
    omega
  -- Never below what has been cut off by one, never above; and not below the lesser gap once the
  -- mean is greater than it.
  refine ⟨?_, ?_, ?_, ?_⟩
  · rw [toNat_blendGap hzero₁ hone₁ hzero₂ hone₂]
    omega
  · rw [toNat_blendGap hzero₁ hone₁ hzero₂ hone₂]
    omega
  · rw [hwhole, ← (nearest_ofNat hexact).unsigned.value_le_iff hunsigned, value_ofNat hexact]
  · intro hne hleast₁ hleast₂
    have hle₁ := value_least.trans ((unsigned_least.value_le_iff hc₁).2 hleast₁)
    have hle₂ := value_least.trans ((unsigned_least.value_le_iff hc₂).2 hleast₂)
    have hmore := lt_exactMean hle₁ hlt₁ hle₂ hlt₂ fun h => hne (UInt32.toNat_inj.1 h)
    have hbelow := (abs_le.1 hnear).1
    exact hwhole.2 (by linarith)

end Double

/-! ## Revisions -/

/-- The gaps between the operands of a compound. -/
def Term.gaps : Term → List UInt32
  | compound _ _ gaps => gaps
  | _ => []

variable {p : Standpoint} {s t : Sentence} {v w : TruthValue Double} {operands : List Term}
  {gaps : List UInt32}

theorem Term.compose_sequentialConjunction (operands : List Term) (gaps : List UInt32) :
    compose .sequentialConjunction operands gaps =
      compound .sequentialConjunction operands (resize (operands.length - 1) 1 gaps) :=
  compose_eq_compound (fun h => absurd h (by decide)) (fun h => absurd h (by decide)) gaps

/-- A sequence that was built has a gap before each operand but the first. -/
theorem Term.Built.length_gaps (h : (Term.compound .sequentialConjunction operands gaps).Built) :
    gaps.length = operands.length - 1 := by
  obtain ⟨ts, _, heq⟩ := build_compound_eq_ok.1 h.build_eq
  rw [compose_sequentialConjunction] at heq
  obtain ⟨-, rfl, hgaps⟩ := compound.inj heq
  rw [hgaps, length_resize]

theorem Sentence.isQuestion_eq_of_value? (h : s.value? = some v) : s.isQuestion = false := by
  rw [← Bool.not_eq_true]
  intro hquestion
  rw [value?_of_isQuestion s hquestion] at h
  exact absurd h (by simp)

/-- What is written like a sequence is a sequence of as many operands. -/
theorem Term.exists_sequence {u : Term} (hu : u.Built)
    (h : (Term.compound .sequentialConjunction operands gaps).Built)
    (same : (Term.compound .sequentialConjunction operands gaps == u) = true) :
    ∃ operands' gaps', u = .compound .sequentialConjunction operands' gaps' ∧
      gaps'.length = gaps.length := by
  have hskeleton := (text_eq_iff h.named hu.named).1 (beq_iff_text_eq.1 same)
  cases u with
  | compound connector operands' gaps' =>
    simp only [untagged, skeleton, compound.injEq, skeletons_eq_map] at hskeleton
    obtain ⟨rfl, hoperands, -⟩ := hskeleton
    have hlength : operands.length = operands'.length := by
      simpa using congrArg List.length hoperands
    exact ⟨operands', gaps', rfl, by rw [hu.length_gaps, h.length_gaps, hlength]⟩
  | _ => simp [untagged, skeleton] at hskeleton

theorem revisedStatement?_of_sequence {operands' : List Term} {gaps' : List UInt32}
    (hs : s.statement = .compound .sequentialConjunction operands gaps)
    (ht : t.statement = .compound .sequentialConjunction operands' gaps')
    (hv : s.value? = some v) (hw : t.value? = some w) (hlength : gaps.length = operands.length - 1)
    (hlength' : gaps'.length = gaps.length) :
    revisedStatement? s t = some (.compound .sequentialConjunction operands
      (List.zipWith (blendGap v.confidence w.confidence) gaps gaps')) := by
  have hfits : (List.zipWith (blendGap v.confidence w.confidence) gaps gaps').length =
      operands.length - 1 := by
    rw [List.length_zipWith, hlength', min_self, hlength]
  have hresize : Term.resize (operands.length - 1) 1
      (List.zipWith (blendGap v.confidence w.confidence) gaps gaps') =
        List.zipWith (blendGap v.confidence w.confidence) gaps gaps' := by
    rw [Term.resize, hfits, Nat.sub_self, List.replicate_zero, List.append_nil, ← hfits,
      List.take_length]
  simp only [revisedStatement?, hs, ht, hv, hw, Option.bind_eq_bind, Option.bind_some,
    Option.pure_def, Term.compose_sequentialConjunction, hresize]

/-- **Main theorem.** The gaps of a revised sequence are blended from those of its premises, one by
one. So a gap lies between the two it is blended from exactly if the computed mean of them is not
less than the lesser one, and equal gaps are kept exactly if theirs is not. -/
theorem revise_gaps (hs : s.statement.Built) (ht : t.statement.Built)
    (same : (s.statement == t.statement) = true)
    (hsequence : s.statement.connector? = some .sequentialConjunction)
    (hv : s.value? = some v) (hw : t.value? = some w)
    (hzero : 0.0 < v.confidence) (hone : v.confidence < 1.0)
    (hzero' : 0.0 < w.confidence) (hone' : w.confidence < 1.0) :
    ∃ c, revise p s t = some c ∧ (c.statement == s.statement) = true ∧
      c.statement.gaps.length = s.statement.gaps.length ∧
      t.statement.gaps.length = s.statement.gaps.length ∧
      ∀ {i : ℕ} {g₁ g₂ g : UInt32}, s.statement.gaps[i]? = some g₁ →
        t.statement.gaps[i]? = some g₂ → c.statement.gaps[i]? = some g →
          Double.Blends v.confidence w.confidence g₁ g₂ g := by
  obtain ⟨operands, gaps, hstatement⟩ : ∃ operands gaps,
      s.statement = .compound .sequentialConjunction operands gaps := by
    cases hstatement : s.statement with
    | compound connector operands gaps =>
      rw [hstatement] at hsequence
      obtain rfl := Option.some.inj hsequence
      exact ⟨operands, gaps, rfl⟩
    | _ =>
      rw [hstatement] at hsequence
      exact absurd hsequence (by simp [Term.connector?])
  rw [hstatement] at hs same
  obtain ⟨operands', gaps', hstatement', hlength⟩ := Term.exists_sequence ht hs same
  have hrevised := revisedStatement?_of_sequence hstatement hstatement' hv hw hs.length_gaps hlength
  rw [← hstatement] at same
  obtain ⟨c, hc⟩ := Option.isSome_iff_exists.1
    ((isSome_revise_of_statement (p := p) (Sentence.isQuestion_eq_of_value? hv)
      (Sentence.isQuestion_eq_of_value? hw) same hrevised).2 rfl)
  refine ⟨c, hc, Term.beq_iff_text_eq.2 (Standpoint.text_revise hc), ?_⟩
  obtain ⟨_, _, _, x, hx, hconclude⟩ := Standpoint.revise_eq_some.1 hc
  obtain ⟨_, _, _, rfl⟩ := Standpoint.conclude_eq_some.1 hconclude
  obtain rfl := Option.some.inj (hrevised.symm.trans hx)
  simp only [hstatement, hstatement', Term.gaps]
  refine ⟨by rw [List.length_zipWith, hlength, min_self], hlength, ?_⟩
  intro i g₁ g₂ g hg₁ hg₂ hg
  obtain rfl : blendGap v.confidence w.confidence g₁ g₂ = g := by
    rw [List.getElem?_zipWith, hg₁, hg₂] at hg
    exact Option.some.inj hg
  exact Double.blends_blendGap hzero hone hzero' hone' g₁ g₂

/-- A gap of three cycles in both premises becomes one of two. -/
theorem equal_gaps_shrink :
    let a := Term.relate (.atom "a") .inheritance (.atom "b") 0
    let b := Term.relate (.atom "c") .inheritance (.atom "d") 0
    let sequence := Term.compose .sequentialConjunction [a, b] [3]
    let s := Sentence.fresh sequence (.judgment ⟨1.0, 0.9⟩) ⟨0⟩ none
    let t := Sentence.fresh sequence (.judgment ⟨1.0, 0.7⟩) ⟨1⟩ none
    sequence.Built ∧ sequence.gaps = [3] ∧ ∃ c, revise ⟨{}, 0⟩ s t = some c ∧
      c.statement.gaps = [2] := by
  intro a b sequence s t
  have hname : ∀ name, Term.ofName name = .ok (.atom name) → (Term.atom name).Built :=
    fun _ h => .ofName h
  have ha : a.Built := .relate (hname _ rfl) (hname _ rfl)
  have hb : b.Built := .relate (hname _ rfl) (hname _ rfl)
  have hsequence : sequence.Built := .compose (by simp [ha, hb])
  have same : (s.statement == t.statement) = true :=
    Term.beq_iff_text_eq.2 (Eq.refl sequence.text)
  obtain ⟨c, hc, -, hlength, -, hblends⟩ := revise_gaps (p := ⟨{}, 0⟩) (s := s) (t := t) hsequence
    hsequence same rfl rfl rfl (by decide) (by decide) (by decide)
    (by decide)
  obtain ⟨g, hgaps⟩ := List.length_eq_one_iff.1 (show c.statement.gaps.length = 1 from hlength)
  have hblend : Double.Blends 0.9 0.7 3 3 g := hblends (i := 0) rfl rfl (by rw [hgaps]; rfl)
  have hmean : ¬ Double.ofNat (min (3 : UInt32).toNat (3 : UInt32).toNat) ≤
      Double.mean 0.9 0.7 (3 : UInt32).toNat (3 : UInt32).toNat := by decide +kernel
  have hbelow := mt hblend.min_le_iff.1 hmean
  have hnext := hblend.min_le_succ
  rw [min_self, show (3 : UInt32).toNat = 3 from rfl] at hbelow hnext
  have hgap : g = 2 := UInt32.toNat_inj.1 (show g.toNat = 2 by omega)
  exact ⟨hsequence, rfl, c, hc, by rw [hgaps, hgap]⟩

end NonAxiomatic
