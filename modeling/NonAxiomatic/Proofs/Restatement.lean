import NonAxiomatic.Proofs.Exchange

/-!
# Conclusions that restate a premise

Two premises that could only restate each other are not put together (`Relation.restates`), and a
syllogism does not relate a term with itself. What is left are premises that do so already
(`Relation.Loops`): from `M→M` and `S→M` follows `S→M` again.

Where the terms of two statements coincide decides which syllogisms apply (`Rule.Allows`);
induction, abduction and comparison are only tried where no deduction is
(`Standpoint.not_chained_of_inferAsymmetric`).

**Theorem (`restates_premise_iff`).** A syllogism never relates a term with itself. It restates one
of its premises exactly if the other one relates a term with itself, the restated one has the copula
of the conclusion, and it is no exemplification.
-/

namespace NonAxiomatic

/-- Whether a statement relates a term with itself. -/
def Relation.Loops (r : Relation) : Prop := r.subject.text = r.predicate.text

/-- Whether a statement relates two terms by a copula, in this order or in one that does not
matter. -/
def Relation.Says (r : Relation) (x : Term) (copula : Copula) (y : Term) : Prop :=
  copula = r.copula ∧ (x.text = r.subject.text ∧ y.text = r.predicate.text ∨
    copula.isSymmetric = true ∧ x.text = r.predicate.text ∧ y.text = r.subject.text)

namespace Term

/-! ## Statements with one text -/

variable {t u x y : Term} {a : Relation}

/-- The sides of a statement that was built and may change places are sorted. -/
theorem Built.sorted {copula : Copula} {interval : UInt32}
    (h : (statement x copula y interval).Built) (hsym : copula.isSymmetric = true) :
    ¬ y.text < x.text := by
  obtain ⟨s, u, _, _, heq⟩ := build_statement_eq_ok.1 h.build_eq
  rw [Term.relate] at heq
  split at heq <;> obtain ⟨rfl, _, rfl, _⟩ := Term.statement.inj heq
  · rename_i hswap
    simp only [Bool.and_eq_true, decide_eq_true_eq] at hswap
    exact String.lt_asymm hswap.2
  · rename_i hkeep
    intro hlt
    exact hkeep (by simp only [hsym, hlt, decide_true, Bool.and_self])

theorem named_on (h : t.Named) (ha : t.relation? = some a) (i : Side) : (a.on i).Named := by
  rw [eq_of_relation? ha] at h
  cases h with
  | statement left right =>
    cases i with
    | subject => exact left
    | predicate => exact right

/-- Statements about named terms have one text if they say the same of the same. -/
theorem text_statement_eq_iff {x' y' : Term} {copula copula' : Copula} {interval interval' : UInt32}
    (hx : x.Named) (hy : y.Named) (hx' : x'.Named) (hy' : y'.Named) :
    (statement x copula y interval).text = (statement x' copula' y' interval').text ↔
      x.text = x'.text ∧ copula = copula' ∧ y.text = y'.text := by
  rw [text_eq_iff (.statement hx hy) (.statement hx' hy'), text_eq_iff hx hx', text_eq_iff hy hy']
  simp [untagged, skeleton]

/-- A statement is built again exactly from the sides and the copula that it has. -/
theorem relate_beq_iff {copula : Copula} {interval : UInt32} (ht : t.Built)
    (ha : t.relation? = some a) (hx : x.Named) (hy : y.Named) :
    (relate x copula y interval == t) = true ↔ a.Says x copula y := by
  have hnamed := named_on ht.named ha
  have hsubject : a.subject.Named := hnamed .subject
  have hpredicate : a.predicate.Named := hnamed .predicate
  rw [eq_of_relation? ha] at ht
  rw [beq_iff_text_eq, eq_of_relation? ha, Term.relate, Relation.Says]
  have hsorted : copula = a.copula → copula.isSymmetric = true →
      ¬ a.predicate.text < a.subject.text := by
    rintro rfl hsym
    exact ht.sorted hsym
  split
  · rename_i hswap
    simp only [Bool.and_eq_true, decide_eq_true_eq] at hswap
    rw [text_statement_eq_iff hy hx hsubject hpredicate]
    grind
  · rename_i hkeep
    simp only [Bool.and_eq_true, decide_eq_true_eq, not_and] at hkeep
    rw [text_statement_eq_iff hx hy hsubject hpredicate]
    have hequal : ¬ a.predicate.text < a.subject.text → ¬ a.subject.text < a.predicate.text →
        a.subject.text = a.predicate.text := fun h h' =>
      String.le_antisymm (String.not_lt.1 h) (String.not_lt.1 h')
    grind

end Term

/-- The rules that leave out a term which two statements share. -/
def Rule.isSyllogistic : Rule → Bool
  | deduction | induction | abduction | exemplification | comparison | analogy | resemblance => true
  | _ => false

/-! ## Which pairs of premises there are -/

namespace Standpoint

variable {p : Standpoint} {s t : Sentence} {c : Conclusion} {cs : List Conclusion}

/-- The two statements share a term as in a chain, where it is the subject of one of them and the
predicate of the other one. -/
def Chained (a b : Relation) : Prop :=
  a.subject.text = b.predicate.text ∨ a.predicate.text = b.subject.text

theorem rule_goalDeduction (h : p.goalDeduction s t = some c) :
    c.rule = .conditionalGoalDeduction := by
  simp only [goalDeduction, Option.bind_eq_bind, Option.bind_eq_some_iff,
    Option.ite_none_left_eq_some, Option.bind_none] at h
  obtain ⟨_, _, _, h⟩ := h
  exact rule_conclude h

theorem rule_goalInduction (h : p.goalInduction s t = some c) :
    c.rule = .conditionalGoalInduction := by
  simp only [goalInduction, Option.bind_eq_bind, Option.bind_eq_some_iff,
    Option.ite_none_left_eq_some, Option.bind_none] at h
  obtain ⟨_, _, _, h⟩ := h
  exact rule_conclude h

theorem rule_simplifyGoal (h : p.simplifyGoal s t = some c) :
    c.rule = .simplifyConjunctiveGoal := by
  simp only [simplifyGoal, Option.bind_eq_bind, Option.bind_eq_some_iff,
    Option.ite_none_left_eq_some, Option.bind_none] at h
  obtain ⟨_, _, _, h⟩ := h
  exact rule_conclude h

theorem rule_simplifyNegatedGoal (h : p.simplifyNegatedGoal s t = some c) :
    c.rule = .simplifyNegatedConjunctiveGoal := by
  simp only [simplifyNegatedGoal, Option.bind_eq_bind, Option.bind_eq_some_iff,
    Option.ite_none_left_eq_some, Option.bind_none] at h
  obtain ⟨_, _, _, _, _, h⟩ := h
  exact rule_conclude h

/-- A deduction or an exemplification needs a chain, which the other rules are not tried on. -/
theorem not_chained_of_inferAsymmetric {a b : Relation} (h : c ∈ p.inferAsymmetric s t a b) :
    c.rule = .deduction ∨ c.rule = .exemplification ∨ ¬ Chained a b := by
  simp only [inferAsymmetric] at h
  split_ifs at h with hfirst hsecond
  · rcases List.mem_append.1 h with h | h
    · exact .inl (rule_syllogism (Option.mem_toList.1 h))
    · exact .inr (.inl (rule_syllogism (Option.mem_toList.1 h)))
  · rcases List.mem_append.1 h with h | h
    · exact .inl (rule_syllogism (Option.mem_toList.1 h))
    · exact .inr (.inl (rule_syllogism (Option.mem_toList.1 h)))
  all_goals
    rw [Term.beq_iff_text_eq] at hfirst hsecond
    exact .inr (.inr (not_or.2 ⟨hfirst, hsecond⟩))

theorem rule_inferGoal (h : c ∈ p.inferGoal s t) : c.rule.isSyllogistic = false := by
  simp only [inferGoal] at h
  split at h
  · exact absurd h (by simp)
  · split_ifs at h <;> simp only [List.not_mem_nil, Option.mem_toList] at h
    · rw [rule_goalDeduction h]
      rfl
    · rw [rule_goalInduction h]
      rfl
    · rw [rule_simplifyGoal h]
      rfl
    · rw [rule_simplifyNegatedGoal h]
      rfl

theorem rule_inferMixedOrder (h : c ∈ p.inferMixedOrder s t) : c.rule.isSyllogistic = false := by
  simp only [inferMixedOrder] at h
  split at h
  · exact absurd h (by simp)
  · split_ifs at h <;> simp only [List.not_mem_nil, Option.mem_toList] at h
    · rw [rule_conditionalAnalogy h]
      rfl
    · rw [rule_conditionalDeduction h]
      rfl
    · rw [rule_conditionalAbduction h]
      rfl
    · rw [rule_conjunctionalDeduction h]
      rfl

/-- Syllogisms are drawn from two statements of one order. -/
theorem inferSameOrder_of_isSyllogistic (h : p.infer s t = .ok cs) (hc : c ∈ cs)
    (hrule : c.rule.isSyllogistic = true) : c ∈ p.inferSameOrder s t := by
  have hno : c.rule.isSyllogistic = false → c ∈ p.inferSameOrder s t := fun hfalse =>
    absurd (hfalse.symm.trans hrule) (by decide)
  have hdeduction : ∀ u u', p.conditionalDeduction u u' = some c → c ∈ p.inferSameOrder s t :=
    fun u u' h => hno (by rw [rule_conditionalDeduction h]; rfl)
  simp only [infer] at h
  split_ifs at h <;> simp only [Except.ok.injEq] at h <;> subst h
  · exact hno (by rw [rule_revise (Option.mem_toList.1 hc)]; rfl)
  · exact absurd hc (by simp)
  · exact hno (rule_inferGoal hc)
  · simp only [inferByShape] at hc
    split at hc
    · exact hdeduction _ _ (Option.mem_toList.1 hc)
    · exact hdeduction _ _ (Option.mem_toList.1 hc)
    · exact absurd hc (by simp)
    · exact absurd hc (by simp)
    · exact hc
    · exact hc
    · exact hno (rule_inferMixedOrder hc)
    · exact hno (rule_inferMixedOrder hc)

/-- What is known of two statements from which a syllogism is drawn. -/
structure Figure (rule : Rule) (t u : Term) (a b : Relation) : Prop where
  first : t.relation? = some a
  second : u.relation? = some b
  guarded : a.restates b = false
  chained : rule = .deduction ∨ rule = .exemplification ∨ ¬ Chained a b ∨
    a.isSymmetric = true ∨ b.isSymmetric = true

theorem Figure.swap {rule : Rule} {u v : Term} {a b : Relation} (h : Figure rule u v a b) :
    Figure rule v u b a := by
  refine ⟨h.second, h.first, restates_comm a b ▸ h.guarded, ?_⟩
  have hcomm : Chained a b ↔ Chained b a := by
    rw [Chained, Chained, or_comm, eq_comm (a := b.subject.text), eq_comm (a := b.predicate.text)]
  rw [← hcomm, or_comm (a := b.isSymmetric = true)]
  exact h.chained

theorem exists_figure (h : p.infer s t = .ok cs) (hc : c ∈ cs)
    (hrule : c.rule.isSyllogistic = true) : ∃ a b, Figure c.rule s.statement t.statement a b := by
  have hsame := inferSameOrder_of_isSyllogistic h hc hrule
  rw [inferSameOrder] at hsame
  split at hsame
  · rename_i a b ha hb
    split_ifs at hsame with hguard htime
    · exact absurd hsame (by simp)
    · exact absurd hsame (by simp)
    · refine ⟨a, b, ha, hb, by simpa using hguard, ?_⟩
      cases hsa : a.isSymmetric with
      | true => exact .inr (.inr (.inr (.inl rfl)))
      | false =>
        cases hsb : b.isSymmetric with
        | true => exact .inr (.inr (.inr (.inr rfl)))
        | false =>
          rw [hsa, hsb] at hsame
          rcases not_chained_of_inferAsymmetric hsame with h | h | h
          · exact .inl h
          · exact .inr (.inl h)
          · exact .inr (.inr (.inl h))
  · exact absurd hsame (by simp)

/-! ## What is restated -/

theorem restates_eq_false {a b : Relation} : a.restates b = false ↔
    ¬ (a.subject.text = b.predicate.text ∧ a.predicate.text = b.subject.text) ∧
      ¬ (a.subject.text = b.subject.text ∧ a.predicate.text = b.predicate.text ∧
        a.isSymmetric ≠ b.isSymmetric) := by
  rw [Bool.eq_false_iff, Ne, Relation.restates]
  simp only [Bool.or_eq_true, Bool.and_eq_true, Term.beq_iff_text_eq, bne_iff_ne, not_or, and_assoc]

/-- Two terms are related as in one of two premises exactly if the other premise relates a term with
itself; an exemplification never relates them so. -/
def Restated (rule : Rule) (a b : Relation) (x : Term) (copula : Copula) (y : Term) : Prop :=
  a.Says x copula y ∨ b.Says x copula y ↔
    rule ≠ .exemplification ∧ (b.Loops ∧ a.copula = copula ∨ a.Loops ∧ b.copula = copula)

theorem relation?_relate (x : Term) (copula : Copula) (y : Term) (interval : UInt32) :
    ∃ c, (Term.relate x copula y interval).relation? = some c ∧ c.copula = copula ∧
      (c.Loops ↔ x.text = y.text) := by
  rw [Term.relate]
  split
  · exact ⟨_, rfl, rfl, eq_comm⟩
  · exact ⟨_, rfl, rfl, Iff.rfl⟩

variable {rule : Rule} {u v w : Term} {a b : Relation}

theorem restated_syllogism {i j : Side} (h : Figure rule u v a b)
    (figure : rule.figure? = some (i, j)) (hsa : a.isSymmetric = false)
    (hsb : b.isSymmetric = false) (shared : (a.on i == b.on j) = true)
    (different : (b.on j.opposite == a.on i.opposite) = false) :
    Restated rule a b (b.on j.opposite) a.copula (a.on i.opposite) := by
  have hguarded := (restates_eq_false.1 h.guarded).1
  have hchained := h.chained
  rw [Term.beq_iff_text_eq] at shared
  rw [Bool.eq_false_iff, Ne, Term.beq_iff_text_eq] at different
  rw [hsa, hsb] at hchained
  rw [Relation.isSymmetric] at hsa
  simp only [Restated, Relation.Says, Relation.Loops]
  cases rule <;> simp only [Rule.figure?, reduceCtorEq, Option.some.injEq, Prod.mk.injEq] at figure
  all_goals
    obtain ⟨rfl, rfl⟩ := figure
    simp only [Relation.on, Side.opposite, Chained] at shared different hchained ⊢
    clear h
    grind

/-- A comparison relates by a copula that neither of its premises has. -/
theorem restated_comparison (hsa : a.isSymmetric = false) (hsb : b.isSymmetric = false)
    (x y : Term) : Restated .comparison a b x (Rule.comparing a) y := by
  have hsymmetric : (Rule.comparing a).isSymmetric = true := by
    rw [Rule.comparing]
    split <;> rfl
  have hne : ∀ r : Relation, r.isSymmetric = false → r.copula ≠ Rule.comparing a := by
    rintro r hr heq
    rw [Relation.isSymmetric, heq, hsymmetric] at hr
    exact absurd hr (by decide)
  have hna := hne a hsa
  have hnb := hne b hsb
  simp only [Restated, Relation.Says]
  grind

theorem restated_substitution {x y : Term} (h : Figure rule u v a b)
    (hrule : rule ≠ .exemplification) (hsb : b.isSymmetric = true)
    (replaced : a.substitute? b = some (x, y)) (different : (x == y) = false) :
    Restated rule a b x a.copula y := by
  have hguarded := restates_eq_false.1 h.guarded
  rw [Bool.eq_false_iff, Ne, Term.beq_iff_text_eq] at different
  rw [substitute?_eq] at replaced
  simp only [Term.beq_iff_text_eq] at replaced
  simp only [Restated, Relation.Says, Relation.Loops]
  rw [Relation.isSymmetric] at hsb
  clear h
  split_ifs at replaced with h1 h2 h3 h4 <;>
    obtain ⟨rfl, rfl⟩ := Prod.mk.inj (Option.some.inj replaced)
  · grind
  · grind
  · grind
  · grind

theorem named_substitute? {x y : Term} (ha : ∀ i, (a.on i).Named) (hb : ∀ i, (b.on i).Named)
    (h : a.substitute? b = some (x, y)) : x.Named ∧ y.Named := by
  rw [substitute?_eq] at h
  split_ifs at h <;> obtain ⟨rfl, rfl⟩ := Prod.mk.inj (Option.some.inj h)
  · exact ⟨hb .subject, ha .predicate⟩
  · exact ⟨hb .predicate, ha .predicate⟩
  · exact ⟨ha .subject, hb .subject⟩
  · exact ⟨ha .subject, hb .predicate⟩

theorem not_isSyllogistic_of_joining {aboutTerms : Bool} {x : Connector × Copula}
    (h : rule.joining? aboutTerms = some x) : ¬ rule.isSyllogistic = true := by
  cases rule <;> simp [Rule.joining?, Rule.isSyllogistic] at h ⊢

/-- What a syllogism concludes relates two different terms, and restates one of its premises exactly
if the other one relates a term with itself. -/
theorem Figure.exists_relation (h : Figure rule u v a b) (allowed : rule.Allows u v w)
    (hrule : rule.isSyllogistic = true) (hu : u.Built) (hv : v.Built) :
    ∃ c, w.relation? = some c ∧ ¬ c.Loops ∧ ((w == u) = true ∨ (w == v) = true ↔
      rule ≠ .exemplification ∧
        (b.Loops ∧ a.copula = c.copula ∨ a.Loops ∧ b.copula = c.copula)) := by
  have ha := Term.named_on hu.named h.first
  have hb := Term.named_on hv.named h.second
  have hrelates : ∀ {x y : Term} {copula : Copula}, x.Named → y.Named → (x == y) = false →
      Restated rule a b x copula y → w = Term.relate x copula y 0 →
      ∃ c, w.relation? = some c ∧ ¬ c.Loops ∧ ((w == u) = true ∨ (w == v) = true ↔
        rule ≠ .exemplification ∧
          (b.Loops ∧ a.copula = c.copula ∨ a.Loops ∧ b.copula = c.copula)) := by
    rintro x y copula hx hy hne hrestated rfl
    obtain ⟨c, hc, rfl, hloops⟩ := relation?_relate x copula y 0
    refine ⟨c, hc, ?_, ?_⟩
    · rw [hloops, ← Term.beq_iff_text_eq, hne]
      decide
    · rw [Term.relate_beq_iff hu h.first hx hy, Term.relate_beq_iff hv h.second hx hy]
      exact hrestated
  have hparts : ∀ {c d : Relation}, u.relation? = some c → v.relation? = some d →
      c = a ∧ d = b := fun hc hd =>
    ⟨Option.some.inj (hc.symm.trans h.first), Option.some.inj (hd.symm.trans h.second)⟩
  cases allowed with
  | syllogism figure pair shared different =>
    obtain ⟨first, second, hsa, hsb⟩ := Relation.asymmetricPair?_eq_some.1 pair
    obtain ⟨rfl, rfl⟩ := hparts first second
    exact hrelates (hb _) (ha _) different
      (restated_syllogism h figure hsa hsb shared different) rfl
  | comparison pair shared different =>
    obtain ⟨first, second, hsa, hsb⟩ := Relation.asymmetricPair?_eq_some.1 pair
    obtain ⟨rfl, rfl⟩ := hparts first second
    exact hrelates (hb _) (ha _) different (restated_comparison hsa hsb _ _) rfl
  | substitution first second symmetric replaced different =>
    obtain ⟨rfl, rfl⟩ := hparts first second
    have hnamed := named_substitute? ha hb replaced
    have hne : ∀ alike : Bool,
        (if alike then Rule.resemblance else .analogy) ≠ .exemplification := by decide
    exact hrelates hnamed.1 hnamed.2 different
      (restated_substitution h (hne _) symmetric replaced different) rfl
  | joinSubjects _ joining => exact absurd hrule (not_isSyllogistic_of_joining joining)
  | joinPredicates _ joining => exact absurd hrule (not_isSyllogistic_of_joining joining)
  | _ => exact absurd hrule (by decide)

end Standpoint

/-! ## Derivations -/

variable {p : Standpoint} {s t r : Sentence} {ids ids' : IdSupply} {rs : List Sentence}
  {rule : Rule}

/-- **Main theorem.** A syllogism relates two different terms. Its conclusion restates one of its
premises exactly if the other premise relates a term with itself, and the restated one has the
copula of the conclusion; an exemplification never restates a premise. -/
theorem restates_premise_iff (hs : s.statement.Built) (ht : t.statement.Built)
    (h : p.derive ids s t = .ok (rs, ids')) (hr : r ∈ rs) (hrule : r.stamp.rule = some rule)
    (hsyllogistic : rule.isSyllogistic = true) : ∃ a b c, s.statement.relation? = some a ∧
      t.statement.relation? = some b ∧ r.statement.relation? = some c ∧ ¬ c.Loops ∧
      ((r.statement == s.statement) = true ∨ (r.statement == t.statement) = true ↔
        rule ≠ .exemplification ∧
          (b.Loops ∧ a.copula = c.copula ∨ a.Loops ∧ b.copula = c.copula)) := by
  obtain ⟨cs, hcs, hcollect⟩ := derive_eq_ok.1 h
  obtain rfl : (Conclusion.collect ids cs).1 = rs := by rw [hcollect]
  obtain ⟨c, hc, ids'', _, _, rfl⟩ := mem_collect hr
  obtain rfl : c.rule = rule := Option.some.inj hrule
  obtain ⟨a, b, hfigure⟩ := Standpoint.exists_figure hcs hc hsyllogistic
  rcases Standpoint.infer_concludes hcs hc with hconcludes | hconcludes
  · obtain ⟨d, hd, hloops, hiff⟩ :=
      hfigure.exists_relation hconcludes.allowed hsyllogistic hs ht
    exact ⟨a, b, d, hfigure.first, hfigure.second, hd, hloops, hiff⟩
  · obtain ⟨d, hd, hloops, hiff⟩ :=
      hfigure.swap.exists_relation hconcludes.allowed hsyllogistic ht hs
    refine ⟨a, b, d, hfigure.first, hfigure.second, hd, hloops, ?_⟩
    rw [or_comm, or_comm (a := b.Loops ∧ _)]
    exact hiff

/-- What is deduced through a statement that relates a term with itself is known already. -/
theorem deduction_restates :
    let m := Term.atom "m"
    let s := Sentence.fresh (.relate m .inheritance m 0) (.judgment .default) ⟨0⟩ none
    let t := Sentence.fresh (.relate (.atom "s") .inheritance m 0) (.judgment .default) ⟨1⟩ none
    s.statement.Built ∧ t.statement.Built ∧ ∃ rs ids' r,
      Standpoint.derive ⟨{}, 0⟩ ⟨2⟩ s t = .ok (rs, ids') ∧ r ∈ rs ∧
        r.stamp.rule = some .deduction ∧
        ((r.statement == s.statement) = true ∨ (r.statement == t.statement) = true) := by
  intro m s t
  have hname : ∀ name, Term.ofName name = .ok (.atom name) → (Term.atom name).Built :=
    fun _ h => .ofName h
  have hm : m.Built := hname _ rfl
  have hs : (Term.relate m .inheritance m 0).Built := .relate hm hm
  have ht : (Term.relate (.atom "s") .inheritance m 0).Built := .relate (hname _ rfl) hm
  have hfound : ((Standpoint.derive ⟨{}, 0⟩ ⟨2⟩ s t).toOption.any fun derived =>
      derived.1.any fun r => r.stamp.rule == some .deduction &&
        r.statement.relation?.any fun c => c.copula == .inheritance) = true := by decide +kernel
  obtain ⟨⟨rs, ids'⟩, hderived, hany⟩ := (Option.any_eq_true _ _).1 hfound
  obtain ⟨r, hr, hdrawn⟩ := List.any_eq_true.1 hany
  simp only [Bool.and_eq_true, beq_iff_eq, Option.any_eq_true] at hdrawn
  obtain ⟨hrule, d, hd, hcopula⟩ := hdrawn
  have hderive := toOption_eq_some.1 hderived
  obtain ⟨a, b, c, ha, hb, hc, _, hiff⟩ := restates_premise_iff hs ht hderive hr hrule rfl
  obtain rfl := Option.some.inj (hd.symm.trans hc)
  refine ⟨hs, ht, rs, ids', r, hderive, hr, hrule, hiff.2 ⟨by decide, .inr ⟨?_, ?_⟩⟩⟩
  · obtain rfl := Option.some.inj (ha.symm.trans (rfl : s.statement.relation? = some ⟨m, _, m, 0⟩))
    rfl
  · obtain rfl := Option.some.inj (hb.symm.trans (rfl :
      t.statement.relation? = some ⟨.atom "s", .inheritance, m, 0⟩))
    exact hcopula.symm

end NonAxiomatic
