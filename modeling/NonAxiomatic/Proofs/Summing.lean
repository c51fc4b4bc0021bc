import NonAxiomatic.Proofs.Exact

/-!
# Evidence adds up

Over exact numbers, proper values and amounts of evidence stand for each other
(`TruthValue.Proper.ofEvidence_evidence`, `Evidence.Sound.evidence_ofEvidence`), and what revision
does to values is to add up their evidence. So the order in which values are revised does not
matter, for two of them as for any number.

**Theorem (`TruthFunction.revision_adds`).** The evidence of a revision is the sum of that of its
premises. Revision is commutative and associative, with a frequency between those of its premises
and a confidence above theirs.

**Theorem (`TruthFunction.foldl_revision_perm`).** Any number of values give the same revision in
every order.
-/

namespace NonAxiomatic

variable {K : Type} [OrderedField K] [Roots K]

/-! ## Amounts of evidence -/

namespace Evidence

instance : Zero (Evidence K) := ⟨⟨0, 0⟩⟩

instance : Add (Evidence K) := ⟨fun d e => ⟨d.positive + e.positive, d.total + e.total⟩⟩

@[simp] theorem positive_add (d e : Evidence K) : (d + e).positive = d.positive + e.positive := rfl

@[simp] theorem total_add (d e : Evidence K) : (d + e).total = d.total + e.total := rfl

instance : AddCommMonoid (Evidence K) where
  add_assoc _ _ _ := congrArg₂ Evidence.mk (add_assoc _ _ _) (add_assoc _ _ _)
  zero_add _ := congrArg₂ Evidence.mk (zero_add _) (zero_add _)
  add_zero _ := congrArg₂ Evidence.mk (add_zero _) (add_zero _)
  add_comm _ _ := congrArg₂ Evidence.mk (add_comm _ _) (add_comm _ _)
  nsmul := nsmulRec

/-- There is evidence, and a part of it is positive. -/
structure Sound (e : Evidence K) : Prop where
  positive_nonneg : 0 ≤ e.positive
  positive_le : e.positive ≤ e.total
  total_pos : 0 < e.total

end Evidence

/-! ## Values and evidence -/

theorem TruthValue.evidence_eq (k : K) (v : TruthValue K) :
    v.evidence k = ⟨v.frequency * (k * v.confidence / (1 - v.confidence)),
      k * v.confidence / (1 - v.confidence)⟩ := rfl

theorem TruthFunction.apply_revision (k : K) (a b : TruthValue K) :
    revision.apply k a b = .ofEvidence k (a.evidence k + b.evidence k) := rfl

theorem TruthFunction.revision_comm (k : K) (a b : TruthValue K) :
    revision.apply k a b = revision.apply k b a := by
  rw [apply_revision, apply_revision, add_comm]

variable {k : K}

namespace TruthValue.Proper

variable {v : TruthValue K}

theorem total_pos (hv : v.Proper) (hk : 0 < k) : 0 < (v.evidence k).total :=
  div_pos (mul_pos hk hv.confidence_mem.1) (sub_pos.2 hv.confidence_mem.2)

theorem sound_evidence (hv : v.Proper) (hk : 0 < k) : (v.evidence k).Sound where
  positive_nonneg := mul_nonneg hv.frequency_mem.1 (hv.total_pos hk).le
  positive_le := mul_le_of_le_one_left (hv.total_pos hk).le hv.frequency_mem.2
  total_pos := hv.total_pos hk

end TruthValue.Proper

namespace Evidence.Sound

variable {d e : Evidence K}

theorem add (hd : d.Sound) (he : e.Sound) : (d + e).Sound where
  positive_nonneg := add_nonneg hd.positive_nonneg he.positive_nonneg
  positive_le := add_le_add hd.positive_le he.positive_le
  total_pos := add_pos hd.total_pos he.total_pos

theorem confidenceOf_mem (he : e.Sound) (hk : 0 < k) :
    TruthValue.confidenceOf k e.total ∈ Set.Ioo 0 1 := by
  have hsum : 0 < e.total + k := add_pos he.total_pos hk
  exact ⟨div_pos he.total_pos hsum, (div_lt_one hsum).2 (lt_add_of_pos_right _ hk)⟩

/-- Sound evidence is neither zero nor does it lead out of the ranges. -/
theorem ofEvidence_eq (he : e.Sound) (hk : 0 < k) :
    TruthValue.ofEvidence k e = ⟨e.positive / e.total, e.total / (e.total + k)⟩ := by
  have hfrequency : e.positive / e.total ∈ Set.Icc 0 1 :=
    ⟨div_nonneg he.positive_nonneg he.total_pos.le, (div_le_one he.total_pos).2 he.positive_le⟩
  have hsome : Scale.eq e.total Scale.zero = false := decide_eq_false he.total_pos.ne'
  rw [TruthValue.ofEvidence, hsome, Bool.and_false, if_neg Bool.false_ne_true]
  exact TruthValue.of_eq hfrequency (he.confidenceOf_mem hk)

theorem proper_ofEvidence (he : e.Sound) (hk : 0 < k) : (TruthValue.ofEvidence k e).Proper := by
  rw [he.ofEvidence_eq hk]
  exact ⟨⟨div_nonneg he.positive_nonneg he.total_pos.le,
    (div_le_one he.total_pos).2 he.positive_le⟩, he.confidenceOf_mem hk⟩

/-- Evidence is found again in the value that stands for it. -/
theorem evidence_ofEvidence (he : e.Sound) (hk : 0 < k) :
    (TruthValue.ofEvidence k e).evidence k = e := by
  have htotal := he.total_pos.ne'
  have hsum : e.total + k ≠ 0 := (add_pos he.total_pos hk).ne'
  have hweight : k * (e.total / (e.total + k)) / (1 - e.total / (e.total + k)) = e.total := by
    rw [one_sub_div hsum, add_sub_cancel_left]
    field_simp
  rw [he.ofEvidence_eq hk, TruthValue.evidence_eq, hweight, div_mul_cancel₀ _ htotal]

end Evidence.Sound

/-- A value is found again in the evidence that it stands for. -/
theorem TruthValue.Proper.ofEvidence_evidence {v : TruthValue K} (hv : v.Proper) (hk : 0 < k) :
    ofEvidence k (v.evidence k) = v := by
  obtain ⟨f, c⟩ := v
  have hrest : 1 - c ≠ 0 := (sub_pos.2 hv.confidence_mem.2).ne'
  have htotal := (hv.total_pos hk).ne'
  have hconfidence : k * c / (1 - c) / (k * c / (1 - c) + k) = c := by
    have hsum : k * c / (1 - c) + k = k / (1 - c) := by
      field_simp
      ring
    rw [hsum, div_div_div_cancel_right₀ hrest, mul_div_cancel_left₀ _ hk.ne']
  rw [(hv.sound_evidence hk).ofEvidence_eq hk]
  exact congrArg₂ TruthValue.mk (mul_div_cancel_right₀ _ htotal) hconfidence

/-! ## Revision -/

namespace TruthFunction

variable {a b c : TruthValue K}

theorem proper_revision (hk : 0 < k) (ha : a.Proper) (hb : b.Proper) :
    (revision.apply k a b).Proper :=
  ((ha.sound_evidence hk).add (hb.sound_evidence hk)).proper_ofEvidence hk

theorem evidence_revision (hk : 0 < k) (ha : a.Proper) (hb : b.Proper) :
    (revision.apply k a b).evidence k = a.evidence k + b.evidence k :=
  ((ha.sound_evidence hk).add (hb.sound_evidence hk)).evidence_ofEvidence hk

theorem revision_assoc (hk : 0 < k) (ha : a.Proper) (hb : b.Proper) (hc : c.Proper) :
    revision.apply k (revision.apply k a b) c = revision.apply k a (revision.apply k b c) := by
  calc revision.apply k (revision.apply k a b) c
      = .ofEvidence k ((revision.apply k a b).evidence k + c.evidence k) := rfl
    _ = .ofEvidence k (a.evidence k + (b.evidence k + c.evidence k)) := by
      rw [evidence_revision hk ha hb, add_assoc]
    _ = .ofEvidence k (a.evidence k + (revision.apply k b c).evidence k) := by
      rw [evidence_revision hk hb hc]
    _ = revision.apply k a (revision.apply k b c) := rfl

/-- The frequency of a revision is a mean, weighted by the evidence of its premises. -/
theorem frequency_revision_mem (hk : 0 < k) (ha : a.Proper) (hb : b.Proper) :
    (revision.apply k a b).frequency ∈
      Set.Icc (min a.frequency b.frequency) (max a.frequency b.frequency) := by
  have hpos := ha.total_pos hk
  have hpos' := hb.total_pos hk
  have hsound := (ha.sound_evidence hk).add (hb.sound_evidence hk)
  have hmean : (revision.apply k a b).frequency =
      (a.frequency * (a.evidence k).total + b.frequency * (b.evidence k).total) /
        ((a.evidence k).total + (b.evidence k).total) := by
    rw [apply_revision, hsound.ofEvidence_eq hk]
    rfl
  have hsum : 0 < (a.evidence k).total + (b.evidence k).total := add_pos hpos hpos'
  rw [hmean, Set.mem_Icc, le_div_iff₀ hsum, div_le_iff₀ hsum, mul_add, mul_add]
  constructor
  · exact add_le_add (mul_le_mul_of_nonneg_right (min_le_left _ _) hpos.le)
      (mul_le_mul_of_nonneg_right (min_le_right _ _) hpos'.le)
  · exact add_le_add (mul_le_mul_of_nonneg_right (le_max_left _ _) hpos.le)
      (mul_le_mul_of_nonneg_right (le_max_right _ _) hpos'.le)

/-- More evidence gives more confidence. -/
theorem confidence_lt_revision (hk : 0 < k) (ha : a.Proper) (hb : b.Proper) :
    a.confidence < (revision.apply k a b).confidence := by
  have hpos := ha.total_pos hk
  have hpos' := hb.total_pos hk
  have hsound := (ha.sound_evidence hk).add (hb.sound_evidence hk)
  have hconfidence : a.confidence =
      (a.evidence k).total / ((a.evidence k).total + k) := by
    conv_lhs => rw [← ha.ofEvidence_evidence hk, (ha.sound_evidence hk).ofEvidence_eq hk]
  rw [hconfidence, apply_revision, hsound.ofEvidence_eq hk, Evidence.total_add,
    div_lt_div_iff₀ (add_pos hpos hk) (add_pos (add_pos hpos hpos') hk)]
  have hmore : 0 < (b.evidence k).total * k := mul_pos hpos' hk
  linarith

/-- **Main theorem.** Revision adds up evidence. So it does not matter in which order values are
revised, the frequency of a revision is between those of its premises, and its confidence is above
both of theirs. -/
theorem revision_adds (hk : 0 < k) (ha : a.Proper) (hb : b.Proper) (hc : c.Proper) :
    (revision.apply k a b).evidence k = a.evidence k + b.evidence k ∧
    revision.apply k a b = revision.apply k b a ∧
    revision.apply k (revision.apply k a b) c = revision.apply k a (revision.apply k b c) ∧
    (revision.apply k a b).frequency ∈
      Set.Icc (min a.frequency b.frequency) (max a.frequency b.frequency) ∧
    a.confidence < (revision.apply k a b).confidence ∧
    b.confidence < (revision.apply k a b).confidence := by
  refine ⟨evidence_revision hk ha hb, revision_comm k a b, revision_assoc hk ha hb hc,
    frequency_revision_mem hk ha hb, confidence_lt_revision hk ha hb, ?_⟩
  rw [revision_comm]
  exact confidence_lt_revision hk hb ha

/-- Nine pieces of evidence for a statement and one against it. -/
theorem revision_adds_opposite :
    let a : TruthValue ℚ := ⟨1, 9 / 10⟩
    let b : TruthValue ℚ := ⟨0, 1 / 2⟩
    a.Proper ∧ b.Proper ∧ (revision.apply 1 a b).evidence 1 = ⟨9, 10⟩ ∧
      revision.apply 1 (revision.apply 1 a b) b = revision.apply 1 a (revision.apply 1 b b) ∧
      (revision.apply 1 a b).frequency ∈ Set.Icc 0 1 ∧
      9 / 10 < (revision.apply 1 a b).confidence := by
  intro a b
  have ha : a.Proper := ⟨by norm_num [a], by norm_num [a]⟩
  have hb : b.Proper := ⟨by norm_num [b], by norm_num [b]⟩
  obtain ⟨hevidence, _, hassoc, hfrequency, hconfidence, _⟩ := revision_adds one_pos ha hb hb
  refine ⟨ha, hb, hevidence.trans ?_, hassoc, by simpa [a, b] using hfrequency, hconfidence⟩
  rw [TruthValue.evidence_eq, TruthValue.evidence_eq]
  exact congrArg₂ Evidence.mk (by norm_num [a, b]) (by norm_num [a, b])

/-! ## Many values -/

/-- The evidence of values that are revised one after the other is the sum of theirs. -/
theorem evidence_foldl_revision (hk : 0 < k) {vs : List (TruthValue K)} (ha : a.Proper)
    (hvs : ∀ v ∈ vs, v.Proper) : (vs.foldl (revision.apply k) a).Proper ∧
      (vs.foldl (revision.apply k) a).evidence k =
        ((a :: vs).map fun v => v.evidence k).sum := by
  induction vs generalizing a with
  | nil => exact ⟨ha, (add_zero _).symm⟩
  | cons v vs ih =>
    obtain ⟨hv, hrest⟩ := List.forall_mem_cons.1 hvs
    obtain ⟨hproper, hevidence⟩ := ih (proper_revision hk ha hv) hrest
    refine ⟨hproper, hevidence.trans ?_⟩
    simp only [List.map_cons, List.sum_cons, evidence_revision hk ha hv, add_assoc]

/-- Values that are revised one after the other give the same value in every order. -/
theorem foldl_revision_perm (hk : 0 < k) {vs ws : List (TruthValue K)}
    (hperm : (a :: vs).Perm (b :: ws)) (hvs : ∀ v ∈ a :: vs, v.Proper) :
    vs.foldl (revision.apply k) a = ws.foldl (revision.apply k) b := by
  obtain ⟨ha, hrest⟩ := List.forall_mem_cons.1 hvs
  obtain ⟨hb, hrest'⟩ := List.forall_mem_cons.1 fun w hw => hvs w (hperm.mem_iff.2 hw)
  obtain ⟨hproper, hevidence⟩ := evidence_foldl_revision hk ha hrest
  obtain ⟨hproper', hevidence'⟩ := evidence_foldl_revision hk hb hrest'
  rw [← hproper.ofEvidence_evidence hk, ← hproper'.ofEvidence_evidence hk, hevidence, hevidence',
    (hperm.map _).sum_eq]

end TruthFunction

end NonAxiomatic
