import NonAxiomatic.Proofs.Exact

/-!
# Conclusions claim no more than their premises

Over exact numbers, every truth function but revision gives a confidence that is at most that of
the more confident premise. The confidence of a conclusion is computed in one of three ways. It is a
product with the confidences of the premises among its factors, which are numbers of the unit
interval; or the confidence that such a product gives as an amount of evidence, which is less when
the horizon is at least one; or the geometric mean of the confidences.

Where a product is zero, the least confidence is put in its place. So the bound holds for premises
that have at least this confidence.

**Theorem (`TruthFunction.confidence_apply_le`).** No truth function but revision gives more
confidence than its premises have.
-/

namespace NonAxiomatic

open Scale

variable {K : Type} [OrderedField K] [Roots K]

namespace TruthValue

variable {a b : TruthValue K} {bound f c : K} {xs : List K}

/-! ## The three ways -/

theorem proper_of (hle : c ≤ bound) (hone : bound < 1) (hleast : minConfidence ≤ bound) (f : K) :
    (of f c).Proper ∧ (of f c).confidence ≤ bound := by
  obtain ⟨hmem, hbound⟩ := clampConfidence_mem hle hone hleast
  exact ⟨⟨clampUnit_mem f, hmem⟩, hbound⟩

/-- An amount of evidence gives less confidence than it is itself. -/
theorem confidenceOf_le {k w : K} (hk : 1 ≤ k) (hw : 0 ≤ w) : confidenceOf k w ≤ w :=
  div_le_self hw (le_add_of_nonneg_of_le hw hk)

theorem proper_ofEvidence {k : K} {e : Evidence K} (hk : 1 ≤ k) (htotal : e.total ∈ Set.Icc 0 bound)
    (hone : bound < 1) (hleast : minConfidence ≤ bound) :
    (ofEvidence k e).Proper ∧ (ofEvidence k e).confidence ≤ bound :=
  proper_of ((confidenceOf_le hk htotal.1).trans htotal.2) hone hleast _

theorem mean_le_max [LawfulRoots K] {x y : K} (hx : 0 ≤ x) (hy : 0 ≤ y) : mean x y ≤ max x y := by
  have hmax : 0 ≤ max x y := hx.trans (le_max_left x y)
  rw [mean_eq, mul_self_le_mul_self_iff (LawfulRoots.sqrt_nonneg _) hmax,
    LawfulRoots.sqrt_mul_sqrt (mul_nonneg hx hy)]
  exact mul_le_mul (le_max_left x y) (le_max_right x y) hy hmax

/-! ## What is multiplied -/

/-- The factors that products of two premises are made of. -/
def factors (a b : TruthValue K) : List K :=
  [a.frequency, b.frequency, or [a.frequency, b.frequency], a.confidence, b.confidence]

theorem factors_mem (ha : a.Proper) (hb : b.Proper) : ∀ x ∈ a.factors b, x ∈ Set.Icc 0 1 := by
  have hfrequencies : ∀ x ∈ [a.frequency, b.frequency], x ∈ Set.Icc 0 1 := by
    simpa using ⟨ha.frequency_mem, hb.frequency_mem⟩
  simp only [factors, List.forall_mem_cons, List.not_mem_nil, false_imp_iff, implies_true, and_true]
  exact ⟨ha.frequency_mem, hb.frequency_mem, or_mem_Icc hfrequencies,
    Set.Ioo_subset_Icc_self ha.confidence_mem, Set.Ioo_subset_Icc_self hb.confidence_mem⟩

/-- A product with the confidence of the first premise among its factors is at most the greater
confidence. -/
theorem and_mem (ha : a.Proper) (hb : b.Proper) (hfactors : xs ⊆ a.factors b)
    (hconfidence : a.confidence ∈ xs) : and xs ∈ Set.Icc 0 (max a.confidence b.confidence) := by
  have hshares : ∀ x ∈ xs, x ∈ Set.Icc 0 1 := fun x hx => factors_mem ha hb x (hfactors hx)
  exact ⟨(and_mem_Icc hshares).1, (and_le hshares hconfidence).trans (le_max_left _ _)⟩

end TruthValue

namespace TruthFunction

open TruthValue

variable {a b : TruthValue K}

/-- **Main theorem.** Every truth function but revision gives a proper value, with a confidence that
is at most that of the more confident premise. -/
theorem confidence_apply_le [LawfulRoots K] {function : TruthFunction}
    (hfunction : function ≠ revision) {k : K} (hk : 1 ≤ k) (ha : a.Proper) (hb : b.Proper)
    (hleast : minConfidence ≤ max a.confidence b.confidence) :
    (function.apply k a b).Proper ∧
      (function.apply k a b).confidence ≤ max a.confidence b.confidence := by
  have hone : max a.confidence b.confidence < 1 :=
    max_lt ha.confidence_mem.2 hb.confidence_mem.2
  have hmean : mean a.confidence b.confidence ≤ max a.confidence b.confidence :=
    mean_le_max ha.confidence_mem.1.le hb.confidence_mem.1.le
  have hproduct {xs : List K} (hfactors : xs ⊆ a.factors b) (hconfidence : a.confidence ∈ xs) :
      and xs ∈ Set.Icc 0 (max a.confidence b.confidence) := and_mem ha hb hfactors hconfidence
  cases function with
  | revision => exact absurd rfl hfunction
  | deduction | analogy | resemblance | difference =>
    exact proper_of (hproduct (by simp [factors]) (by simp)).2 hone hleast _
  | abduction | induction | exemplification | comparison =>
    exact proper_ofEvidence hk (hproduct (by simp [factors]) (by simp)) hone hleast
  | intersection | union => exact proper_of hmean hone hleast _

/-- Without evidence, the least confidence is put in the place of none. -/
theorem confidence_apply_le_least :
    let a : TruthValue ℝ := ⟨0, 1 / 10000⟩
    let b : TruthValue ℝ := ⟨1, 1 / 2⟩
    a.Proper ∧ b.Proper ∧ minConfidence ≤ max a.confidence b.confidence ∧
      (abduction.apply 1 a b).Proper ∧ (abduction.apply 1 a b).confidence ≤ 1 / 2 := by
  intro a b
  have ha : a.Proper := ⟨by norm_num [a], by norm_num [a]⟩
  have hb : b.Proper := ⟨by norm_num [b], by norm_num [b]⟩
  have hmax : max a.confidence b.confidence = 1 / 2 := max_eq_right (by norm_num [a, b])
  have hleast : (minConfidence : ℝ) ≤ max a.confidence b.confidence := by
    rw [hmax]
    show (1 / 10000 : ℝ) ≤ 1 / 2
    norm_num
  have hresult := confidence_apply_le (show abduction ≠ revision by decide) le_rfl ha hb hleast
  rw [hmax] at hresult
  exact ⟨ha, hb, hleast, hresult⟩

end TruthFunction

end NonAxiomatic
