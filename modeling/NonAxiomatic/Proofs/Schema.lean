import Mathlib.Tactic.SplitIfs
import NonAxiomatic.Inference.Rules

/-!
# Inference schemata

What the rules for two premises may say, apart from values, times and evidence.
`Rule.Allows r t u w` holds when the rule `r` leads from a first premise about `t` and a second
one about `u` to a conclusion about `w`; there is one case for each form of a rule.

**Theorem (`infer_concludes`).** Every conclusion of `Standpoint.infer` is drawn by
`Standpoint.conclude` from the two premises in one of their orders, and its rule allows its
statement for this order.

What holds of all conclusions is proved from these cases, and the definitions of the rules are
not opened again.
-/

namespace NonAxiomatic

/-! ## Parts of statements -/

namespace Relation

theorem asymmetricPair?_eq_some {t u : Term} {a b : Relation} :
    asymmetricPair? t u = some (a, b) ↔
      t.relation? = some a ∧ u.relation? = some b ∧ a.isSymmetric = false ∧
        b.isSymmetric = false := by
  simp only [asymmetricPair?, Option.bind_eq_bind, Option.bind_eq_some_iff,
    Option.ite_none_left_eq_some, Option.some.injEq, Prod.mk.injEq, Bool.or_eq_true, not_or,
    Bool.not_eq_true]
  constructor
  · rintro ⟨a, ht, b, hu, ⟨ha, hb⟩, rfl, rfl⟩
    exact ⟨ht, hu, ha, hb⟩
  · rintro ⟨ht, hu, ha, hb⟩
    exact ⟨a, ht, b, hu, ⟨ha, hb⟩, rfl, rfl⟩

theorem firstOrderPair?_eq_some {t u : Term} {a b : Relation} :
    firstOrderPair? t u = some (a, b) ↔
      asymmetricPair? t u = some (a, b) ∧ a.isFirstOrder = true ∧ b.isFirstOrder = true := by
  simp only [firstOrderPair?, Option.bind_eq_bind, Option.bind_eq_some_iff, Prod.exists,
    Option.ite_none_left_eq_some, Option.some.injEq, Prod.mk.injEq, Bool.or_eq_true,
    Bool.not_eq_true', not_or, Bool.not_eq_false]
  constructor
  · rintro ⟨a, b, h, ⟨ha, hb⟩, rfl, rfl⟩
    exact ⟨h, ha, hb⟩
  · rintro ⟨h, ha, hb⟩
    exact ⟨a, b, h, ⟨ha, hb⟩, rfl, rfl⟩

end Relation

theorem Term.implication?_eq_some {t : Term} {r : Relation} :
    t.implication? = some r ↔ t.relation? = some r ∧ r.copula.isForwardImplication = true := by
  simp only [implication?, Option.filter_eq_some_iff]

/-! ## Schemata -/

namespace Rule

/-- Where the premises of a syllogism share a term: the side in the first one and the side in the
second one. -/
def figure? : Rule → Option (Side × Side)
  | deduction => some (.subject, .predicate)
  | abduction => some (.predicate, .predicate)
  | induction => some (.subject, .subject)
  | exemplification => some (.predicate, .subject)
  | _ => none

/-- The connector by which a rule joins what two statements do not share, and the copula of its
conclusion; for two statements about terms, or else for any others. -/
def joining? (aboutTerms : Bool) : Rule → Option (Connector × Copula)
  | disjunctionOrIntensionalIntersection =>
    some (if aboutTerms then (.intensionalIntersection, .inheritance)
      else (.disjunction, .implication))
  | conjunctionOrExtensionalIntersection =>
    some (if aboutTerms then (.extensionalIntersection, .inheritance)
      else (.conjunction, .implication))
  | _ => none

/-- The copula by which the rule of comparison relates what two statements do not share. -/
def comparing (a : Relation) : Copula := if a.isFirstOrder then .similarity else .equivalence

/-- What a rule may conclude from a first premise about `t` and a second one about `u`. -/
inductive Allows : Rule → (t u w : Term) → Prop where
  | restatement {t u : Term} (same : (t == u) = true) : Allows .revision t u t
  | blend {operands : List Term} {gaps : List UInt32} {u : Term} (gaps' : List UInt32)
      (same : (Term.compound .sequentialConjunction operands gaps == u) = true) :
      Allows .revision (.compound .sequentialConjunction operands gaps) u
        (Term.compose .sequentialConjunction operands gaps')
  | syllogism {r : Rule} {t u : Term} {a b : Relation} {i j : Side}
      (figure : r.figure? = some (i, j)) (pair : Relation.asymmetricPair? t u = some (a, b))
      (shared : (a.on i == b.on j) = true)
      (different : (b.on j.opposite == a.on i.opposite) = false) :
      Allows r t u (Term.relate (b.on j.opposite) a.copula (a.on i.opposite) 0)
  | comparison {t u : Term} {a b : Relation} {i : Side}
      (pair : Relation.asymmetricPair? t u = some (a, b)) (shared : (a.on i == b.on i) = true)
      (different : (b.on i.opposite == a.on i.opposite) = false) :
      Allows .comparison t u (Term.relate (b.on i.opposite) (comparing a) (a.on i.opposite) 0)
  | substitution {t u : Term} {a b : Relation} {subject predicate : Term}
      (first : t.relation? = some a) (second : u.relation? = some b)
      (symmetric : b.isSymmetric = true)
      (replaced : a.substitute? b = some (subject, predicate))
      (different : (subject == predicate) = false) :
      Allows (if a.isSymmetric then .resemblance else .analogy) t u
        (Term.relate subject a.copula predicate 0)
  | joinSubjects {r : Rule} {t u x : Term} {a b : Relation} {connector : Connector}
      {copula : Copula} (pair : Relation.asymmetricPair? t u = some (a, b))
      (joining : r.joining? (a.isFirstOrder && b.isFirstOrder) = some (connector, copula))
      (shared : (a.predicate == b.predicate) = true)
      (joined : Term.join? connector a.subject b.subject = some x) :
      Allows r t u (Term.relate x copula a.predicate 0)
  | joinPredicates {r : Rule} {t u x : Term} {a b : Relation} {connector : Connector}
      {copula : Copula} (pair : Relation.asymmetricPair? t u = some (a, b))
      (joining : r.joining? (a.isFirstOrder && b.isFirstOrder) = some (connector, copula))
      (shared : (a.subject == b.subject) = true)
      (joined : Term.join? connector a.predicate b.predicate = some x) :
      Allows r t u (Term.relate a.subject copula x 0)
  | subtractSubjects {t u x : Term} {a b : Relation}
      (pair : Relation.firstOrderPair? t u = some (a, b))
      (shared : (a.predicate == b.predicate) = true)
      (joined : Term.join? .intensionalDifference a.subject b.subject = some x) :
      Allows .intensionalDifference t u (Term.relate x .inheritance a.predicate 0)
  | subtractPredicates {t u x : Term} {a b : Relation}
      (pair : Relation.firstOrderPair? t u = some (a, b))
      (shared : (a.subject == b.subject) = true)
      (joined : Term.join? .extensionalDifference a.predicate b.predicate = some x) :
      Allows .extensionalDifference t u (Term.relate a.subject .inheritance x 0)
  | conditionalAnalogy {t u w : Term} {r : Relation} (second : u.relation? = some r)
      (equivalence : r.copula.isEquivalence = true)
      (side : (t == r.subject) = true ∧ w = r.predicate ∨
        (t == r.predicate) = true ∧ w = r.subject) :
      Allows .conditionalAnalogy t u w
  | conditionalDeduction {t u : Term} {r : Relation} (first : t.implication? = some r)
      (known : (u == r.subject) = true) :
      Allows .conditionalJudgmentDeduction t u r.predicate
  | conditionalAbduction {t u : Term} {r : Relation} (first : t.implication? = some r)
      (known : (u == r.predicate) = true) :
      Allows .conditionalJudgmentAbduction t u r.subject
  | goalDeduction {t u : Term} {r : Relation} (second : u.implication? = some r)
      (wanted : (t == r.predicate) = true) : Allows .conditionalGoalDeduction t u r.subject
  | goalInduction {t u : Term} {r : Relation} (second : u.implication? = some r)
      (wanted : (t == r.subject) = true) : Allows .conditionalGoalInduction t u r.predicate
  | simplifyGoal {t u w : Term} (rest : t.without? u = some w) :
      Allows .simplifyConjunctiveGoal t u w
  | simplifyNegatedGoal {t u c w : Term} (denied : t.denied? = some c)
      (rest : c.without? u = some w) :
      Allows .simplifyNegatedConjunctiveGoal t u (Term.compose .negation [w] [])
  | conjunctionalDeduction {t u w : Term} {r : Relation} (first : t.implication? = some r)
      (rest : r.subject.without? u = some w) :
      Allows .conditionalConjunctionalDeduction t u
        (Term.relate w r.copula r.predicate r.interval)
  | conjunctionalAbduction {t u w : Term} {a b : Relation} (first : t.implication? = some a)
      (second : u.implication? = some b) (shared : (a.predicate == b.predicate) = true)
      (extra : a.subject.extraConjuncts b.subject = [w]) :
      Allows .conditionalConjunctionalAbduction t u w

end Rule

namespace Standpoint

/-! ## Conclusions -/

variable {p : Standpoint} {s t : Sentence} {c : Conclusion}

/-- What is known of a conclusion once the order of its premises is known. -/
structure Concludes (p : Standpoint) (s t : Sentence) (c : Conclusion) : Prop where
  /-- Its rule allows its statement. -/
  allowed : c.rule.Allows s.statement t.statement c.statement
  /-- It was drawn from the premises. -/
  drawn : ∃ function, p.conclude s t c.statement function c.rule = some c

theorem conclude_eq_some {statement : Term} {function : TruthFunction} {rule : Rule} :
    p.conclude s t statement function rule = some c ↔
      statement.headsSentence = true ∧ ∃ kind, p.kindOf? s t statement function = some kind ∧
        c = { statement, kind, rule
              occurrence :=
                if ((s.isEvent || t.isEvent) && !statement.isHigherOrder) = true then some p.now
                else none
              grounds :=
                if ((s.isEvent || t.isEvent) && !statement.isHigherOrder) = true then []
                else [s.base, t.base]
              parents := [s.id, t.id] } := by
  simp only [conclude, Option.ite_none_left_eq_some, Bool.not_eq_true', Bool.not_eq_false,
    Option.map_eq_some_iff, eq_comm (a := c)]

theorem concludes_of_conclude {statement : Term} {function : TruthFunction} {rule : Rule}
    (allowed : rule.Allows s.statement t.statement statement)
    (h : p.conclude s t statement function rule = some c) : p.Concludes s t c := by
  obtain ⟨_, kind, _, rfl⟩ := conclude_eq_some.1 h
  exact ⟨allowed, function, h⟩

theorem Concludes.eq_conclude (h : p.Concludes s t c) :
    ∃ kind function, p.kindOf? s t c.statement function = some kind ∧
      c = { statement := c.statement, kind, rule := c.rule
            occurrence :=
              if ((s.isEvent || t.isEvent) && !c.statement.isHigherOrder) = true then some p.now
              else none
            grounds :=
              if ((s.isEvent || t.isEvent) && !c.statement.isHigherOrder) = true then []
              else [s.base, t.base]
            parents := [s.id, t.id] } := by
  obtain ⟨function, h⟩ := h.drawn
  obtain ⟨_, kind, hk, hc⟩ := conclude_eq_some.1 h
  exact ⟨kind, function, hk, hc⟩

theorem Concludes.parents_eq (h : p.Concludes s t c) : c.parents = [s.id, t.id] := by
  obtain ⟨_, _, _, hc⟩ := h.eq_conclude
  rw [hc]

theorem Concludes.occurrence_eq (h : p.Concludes s t c) :
    c.occurrence =
      if ((s.isEvent || t.isEvent) && !c.statement.isHigherOrder) = true then some p.now
      else none := by
  obtain ⟨_, _, _, hc⟩ := h.eq_conclude
  rw [hc]

theorem Concludes.grounds_eq (h : p.Concludes s t c) :
    c.grounds =
      if ((s.isEvent || t.isEvent) && !c.statement.isHigherOrder) = true then []
      else [s.base, t.base] := by
  obtain ⟨_, _, _, hc⟩ := h.eq_conclude
  rw [hc]

theorem concludes_of_concludeRelation {subject predicate : Term} {copula : Copula}
    {function : TruthFunction} {rule : Rule}
    (allowed : (subject == predicate) = false →
      rule.Allows s.statement t.statement (Term.relate subject copula predicate 0))
    (h : p.concludeRelation s t subject copula predicate function rule = some c) :
    p.Concludes s t c := by
  rw [concludeRelation, Option.ite_none_left_eq_some] at h
  exact concludes_of_conclude (allowed (by simpa using h.1)) h.2

/-! ## Rules -/

theorem revise_eq_some :
    revise p s t = some c ↔ (s.statement == t.statement) = true ∧ s.isQuestion = false ∧
      t.isQuestion = false ∧ ∃ w, revisedStatement? s t = some w ∧
        p.conclude s t w .revision .revision = some c := by
  simp only [revise, Option.bind_eq_bind, Option.bind_eq_some_iff,
    Option.ite_none_left_eq_some, Option.bind_none, Bool.or_eq_true, not_or, bne,
    Bool.not_eq_true', Bool.not_eq_false, Bool.not_eq_true, and_assoc]

theorem concludes_of_revise (h : revise p s t = some c) : p.Concludes s t c := by
  obtain ⟨same, _, _, w, hw, h⟩ := revise_eq_some.1 h
  refine concludes_of_conclude ?_ h
  simp only [revisedStatement?] at hw
  split at hw
  · rename_i hs ht
    simp only [Option.bind_eq_bind, Option.bind_eq_some_iff, Option.pure_def,
      Option.some.injEq] at hw
    obtain ⟨_, _, _, _, rfl⟩ := hw
    rw [hs] at same ⊢
    exact .blend _ same
  · exact absurd hw (by simp)
  · obtain rfl := Option.some.inj hw
    exact .restatement same

/-- A revision is about the same statement as its premises. -/
theorem text_revise (h : revise p s t = some c) : c.statement.text = s.statement.text := by
  obtain ⟨_, _, _, w, hw, h⟩ := revise_eq_some.1 h
  obtain ⟨_, _, _, rfl⟩ := conclude_eq_some.1 h
  show w.text = s.statement.text
  simp only [revisedStatement?] at hw
  split at hw
  · rename_i hs ht
    simp only [Option.bind_eq_bind, Option.bind_eq_some_iff, Option.pure_def,
      Option.some.injEq] at hw
    obtain ⟨_, _, _, _, rfl⟩ := hw
    rw [hs, Term.compose_of_not_isSet rfl]
    simp only [Term.composeFlat, Connector.isOrderInvariant, Bool.false_eq_true, if_false,
      Term.text]
  · exact absurd hw (by simp)
  · obtain rfl := Option.some.inj hw
    rfl

theorem punctuation_kindOf? {w : Term} {function : TruthFunction} {kind : SentenceKind}
    (h : p.kindOf? s t w function = some kind) (hst : s.punctuation = t.punctuation) :
    kind.punctuation = s.punctuation := by
  simp only [kindOf?] at h
  split at h
  · obtain rfl := Option.some.inj h
    simp_all [SentenceKind.punctuation]
  · simp_all
  · obtain ⟨v, _, rfl⟩ := Option.map_eq_some_iff.1 h
    simp_all [SentenceKind.punctuation]
  · simp_all
  · obtain ⟨v, _, rfl⟩ := Option.map_eq_some_iff.1 h
    simp_all [SentenceKind.punctuation]

/-- The revision of two judgments is a judgment, and that of two goals is a goal. -/
theorem punctuation_revise (h : revise p s t = some c) (hst : s.punctuation = t.punctuation) :
    c.kind.punctuation = s.punctuation := by
  obtain ⟨_, _, _, w, _, h⟩ := revise_eq_some.1 h
  obtain ⟨_, kind, hkind, rfl⟩ := conclude_eq_some.1 h
  exact punctuation_kindOf? hkind hst

theorem concludes_of_syllogism {i j : Side} {function : TruthFunction} {rule : Rule}
    (figure : rule.figure? = some (i, j)) (h : p.syllogism s t i j function rule = some c) :
    p.Concludes s t c := by
  simp only [syllogism, Option.bind_eq_bind, Option.bind_eq_some_iff, Prod.exists,
    Option.ite_none_left_eq_some, Option.bind_none, bne, Bool.not_eq_true',
    Bool.not_eq_false] at h
  obtain ⟨a, b, pair, shared, h⟩ := h
  exact concludes_of_concludeRelation (.syllogism figure pair shared) h

theorem concludes_of_comparison (h : p.comparison s t = some c) : p.Concludes s t c := by
  simp only [comparison, Option.bind_eq_bind, Option.bind_eq_some_iff, Prod.exists] at h
  obtain ⟨a, b, pair, h⟩ := h
  split at h
  · exact concludes_of_concludeRelation (.comparison (i := .subject) pair ‹_›) h
  · split at h
    · exact concludes_of_concludeRelation (.comparison (i := .predicate) pair ‹_›) h
    · exact absurd h (by simp)

theorem concludes_of_analogy (h : p.analogy s t = some c) : p.Concludes s t c := by
  simp only [analogy, Option.bind_eq_bind, Option.bind_eq_some_iff, Prod.exists,
    Option.ite_none_left_eq_some, Option.bind_none, Bool.or_eq_true, not_or,
    Bool.not_eq_true', Bool.not_eq_false, Bool.not_eq_true] at h
  obtain ⟨a, first, b, second, ⟨plain, symmetric⟩, subject, predicate, replaced, h⟩ := h
  refine concludes_of_concludeRelation ?_ h
  intro different
  have allowed := Rule.Allows.substitution first second symmetric replaced different
  rwa [plain] at allowed

theorem concludes_of_resemblance (h : p.resemblance s t = some c) : p.Concludes s t c := by
  simp only [resemblance, Option.bind_eq_bind, Option.bind_eq_some_iff, Prod.exists,
    Option.ite_none_left_eq_some, Option.bind_none, Bool.or_eq_true, not_or,
    Bool.not_eq_true', Bool.not_eq_false] at h
  obtain ⟨a, first, b, second, ⟨alike, symmetric⟩, subject, predicate, replaced, h⟩ := h
  refine concludes_of_concludeRelation ?_ h
  intro different
  have allowed := Rule.Allows.substitution first second symmetric replaced different
  rwa [alike] at allowed

theorem concludes_of_join {first higher : Connector} {f g : TruthFunction} {rule : Rule}
    (joining : ∀ aboutTerms, rule.joining? aboutTerms =
      some (if aboutTerms then (first, Copula.inheritance) else (higher, Copula.implication)))
    (h : p.join s t first higher f g rule = some c) : p.Concludes s t c := by
  simp only [join, Option.bind_eq_bind, Option.bind_eq_some_iff, Prod.exists] at h
  obtain ⟨a, b, pair, h⟩ := h
  have hj := joining (a.isFirstOrder && b.isFirstOrder)
  split at h
  · obtain ⟨x, joined, h⟩ := Option.bind_eq_some_iff.1 h
    exact concludes_of_conclude (.joinSubjects pair hj ‹_› joined) h
  · split at h
    · obtain ⟨x, joined, h⟩ := Option.bind_eq_some_iff.1 h
      exact concludes_of_conclude (.joinPredicates pair hj ‹_› joined) h
    · exact absurd h (by simp)

theorem concludes_of_unite (h : p.unite s t = some c) : p.Concludes s t c :=
  concludes_of_join (fun aboutTerms => by cases aboutTerms <;> rfl) h

theorem concludes_of_intersect (h : p.intersect s t = some c) : p.Concludes s t c :=
  concludes_of_join (fun aboutTerms => by cases aboutTerms <;> rfl) h

theorem concludes_of_subtractSubjects (h : p.subtractSubjects s t = some c) :
    p.Concludes s t c := by
  simp only [subtractSubjects, Option.bind_eq_bind, Option.bind_eq_some_iff, Prod.exists,
    Option.ite_none_left_eq_some, Option.bind_none, bne, Bool.not_eq_true',
    Bool.not_eq_false] at h
  obtain ⟨a, b, pair, shared, x, joined, h⟩ := h
  exact concludes_of_conclude (.subtractSubjects pair shared joined) h

theorem concludes_of_subtractPredicates (h : p.subtractPredicates s t = some c) :
    p.Concludes s t c := by
  simp only [subtractPredicates, Option.bind_eq_bind, Option.bind_eq_some_iff, Prod.exists,
    Option.ite_none_left_eq_some, Option.bind_none, bne, Bool.not_eq_true',
    Bool.not_eq_false] at h
  obtain ⟨a, b, pair, shared, x, joined, h⟩ := h
  exact concludes_of_conclude (.subtractPredicates pair shared joined) h

theorem concludes_of_conditionalAnalogy (h : p.conditionalAnalogy s t = some c) :
    p.Concludes s t c := by
  simp only [conditionalAnalogy, Option.bind_eq_bind, Option.bind_eq_some_iff,
    Option.ite_none_left_eq_some, Option.bind_none, Bool.not_eq_true', Bool.not_eq_false] at h
  obtain ⟨r, second, equivalence, h⟩ := h
  split at h
  · exact concludes_of_conclude (.conditionalAnalogy second equivalence (.inl ⟨‹_›, rfl⟩)) h
  · split at h
    · exact concludes_of_conclude (.conditionalAnalogy second equivalence (.inr ⟨‹_›, rfl⟩)) h
    · exact absurd h (by simp)

theorem concludes_of_conditionalDeduction (h : p.conditionalDeduction s t = some c) :
    p.Concludes s t c := by
  simp only [conditionalDeduction, Option.bind_eq_bind, Option.bind_eq_some_iff,
    Option.ite_none_left_eq_some, Option.bind_none, bne, Bool.not_eq_true',
    Bool.not_eq_false] at h
  obtain ⟨r, first, known, h⟩ := h
  exact concludes_of_conclude (.conditionalDeduction first known) h

theorem concludes_of_conditionalAbduction (h : p.conditionalAbduction s t = some c) :
    p.Concludes s t c := by
  simp only [conditionalAbduction, Option.bind_eq_bind, Option.bind_eq_some_iff,
    Option.ite_none_left_eq_some, Option.bind_none, bne, Bool.not_eq_true',
    Bool.not_eq_false] at h
  obtain ⟨r, first, known, h⟩ := h
  exact concludes_of_conclude (.conditionalAbduction first known) h

theorem concludes_of_goalDeduction (h : p.goalDeduction s t = some c) : p.Concludes s t c := by
  simp only [goalDeduction, Option.bind_eq_bind, Option.bind_eq_some_iff,
    Option.ite_none_left_eq_some, Option.bind_none, bne, Bool.or_eq_true, not_or,
    Bool.not_eq_true', Bool.not_eq_false] at h
  obtain ⟨r, second, ⟨_, wanted⟩, h⟩ := h
  exact concludes_of_conclude (.goalDeduction second wanted) h

theorem concludes_of_goalInduction (h : p.goalInduction s t = some c) : p.Concludes s t c := by
  simp only [goalInduction, Option.bind_eq_bind, Option.bind_eq_some_iff,
    Option.ite_none_left_eq_some, Option.bind_none, bne, Bool.or_eq_true, not_or,
    Bool.not_eq_true', Bool.not_eq_false] at h
  obtain ⟨r, second, ⟨_, wanted⟩, h⟩ := h
  exact concludes_of_conclude (.goalInduction second wanted) h

theorem concludes_of_simplifyGoal (h : p.simplifyGoal s t = some c) : p.Concludes s t c := by
  simp only [simplifyGoal, Option.bind_eq_bind, Option.bind_eq_some_iff,
    Option.ite_none_left_eq_some, Option.bind_none] at h
  obtain ⟨_, w, rest, h⟩ := h
  exact concludes_of_conclude (.simplifyGoal rest) h

theorem concludes_of_simplifyNegatedGoal (h : p.simplifyNegatedGoal s t = some c) :
    p.Concludes s t c := by
  simp only [simplifyNegatedGoal, Option.bind_eq_bind, Option.bind_eq_some_iff,
    Option.ite_none_left_eq_some, Option.bind_none] at h
  obtain ⟨_, d, denied, w, rest, h⟩ := h
  exact concludes_of_conclude (.simplifyNegatedGoal denied rest) h

theorem concludes_of_conjunctionalDeduction (h : p.conjunctionalDeduction s t = some c) :
    p.Concludes s t c := by
  simp only [conjunctionalDeduction, Option.bind_eq_bind, Option.bind_eq_some_iff] at h
  obtain ⟨r, first, w, rest, h⟩ := h
  exact concludes_of_conclude (.conjunctionalDeduction first rest) h

theorem concludes_of_conjunctionalAbduction (h : p.conjunctionalAbduction s t = some c) :
    p.Concludes s t c := by
  simp only [conjunctionalAbduction, Option.bind_eq_bind, Option.bind_eq_some_iff,
    Option.ite_none_left_eq_some, Option.bind_none, bne, Bool.not_eq_true',
    Bool.not_eq_false] at h
  obtain ⟨a, first, b, second, shared, h⟩ := h
  split at h
  · exact concludes_of_conclude (.conjunctionalAbduction first second shared ‹_›) h
  · exact absurd h (by simp)

/-! ## All conclusions -/

/-- A conclusion from two premises in one of their orders. -/
def ConcludesEither (p : Standpoint) (s t : Sentence) (c : Conclusion) : Prop :=
  p.Concludes s t c ∨ p.Concludes t s c

theorem ConcludesEither.swap (h : p.ConcludesEither s t c) : p.ConcludesEither t s c := Or.symm h

theorem inferGoal_concludes (h : c ∈ p.inferGoal s t) : p.ConcludesEither s t c := by
  refine .inl ?_
  simp only [inferGoal] at h
  split at h
  · exact absurd h (by simp)
  · split_ifs at h <;> simp only [List.not_mem_nil, Option.mem_toList] at h
    · exact concludes_of_goalDeduction h
    · exact concludes_of_goalInduction h
    · exact concludes_of_simplifyGoal h
    · exact concludes_of_simplifyNegatedGoal h

theorem inferConjunct_concludes {a b : Relation} (h : c ∈ p.inferConjunct s t a b) :
    p.ConcludesEither s t c := by
  simp only [inferConjunct] at h
  split_ifs at h <;> simp only [List.not_mem_nil, Option.mem_toList] at h
  · exact .inl (concludes_of_conjunctionalAbduction h)
  · exact .inr (concludes_of_conjunctionalAbduction h)

theorem inferAsymmetric_concludes {a b : Relation} (h : c ∈ p.inferAsymmetric s t a b) :
    p.ConcludesEither s t c := by
  simp only [inferAsymmetric] at h
  split_ifs at h <;>
    simp only [List.not_mem_nil, List.mem_append, Option.mem_toList, or_assoc, or_false] at h
  · rcases h with h | h
    · exact .inl (concludes_of_syllogism rfl h)
    · exact .inr (concludes_of_syllogism rfl h)
  · rcases h with h | h
    · exact .inr (concludes_of_syllogism rfl h)
    · exact .inl (concludes_of_syllogism rfl h)
  · rcases h with h | h | h | h | h | h | h
    · exact .inl (concludes_of_syllogism rfl h)
    · exact .inr (concludes_of_syllogism rfl h)
    · exact .inl (concludes_of_comparison h)
    · exact .inl (concludes_of_unite h)
    · exact .inl (concludes_of_intersect h)
    · exact .inl (concludes_of_subtractPredicates h)
    · exact .inr (concludes_of_subtractPredicates h)
  · rcases h with h | h | h | h | h | h | h
    · exact .inl (concludes_of_syllogism rfl h)
    · exact .inr (concludes_of_syllogism rfl h)
    · exact .inl (concludes_of_unite h)
    · exact .inl (concludes_of_intersect h)
    · exact .inl (concludes_of_subtractSubjects h)
    · exact .inr (concludes_of_subtractSubjects h)
    · exact .inl (concludes_of_comparison h)
  · rcases h with h | h | h | h | h | h | h | h
    · exact .inl (concludes_of_syllogism rfl h)
    · exact .inr (concludes_of_syllogism rfl h)
    · exact inferConjunct_concludes h
    · exact .inl (concludes_of_unite h)
    · exact .inl (concludes_of_intersect h)
    · exact .inl (concludes_of_subtractSubjects h)
    · exact .inr (concludes_of_subtractSubjects h)
    · exact .inl (concludes_of_comparison h)

theorem inferSameOrder_concludes (h : c ∈ p.inferSameOrder s t) : p.ConcludesEither s t c := by
  simp only [inferSameOrder] at h
  split at h
  · split_ifs at h
    · exact absurd h (by simp)
    · exact absurd h (by simp)
    · split at h
      · exact inferAsymmetric_concludes h
      · exact .inl (concludes_of_analogy (by simpa using h))
      · exact .inr (concludes_of_analogy (by simpa using h))
      · exact .inl (concludes_of_resemblance (by simpa using h))
  · exact absurd h (by simp)

theorem inferMixedOrder_concludes (h : c ∈ p.inferMixedOrder s t) :
    p.ConcludesEither s t c := by
  simp only [inferMixedOrder] at h
  split at h
  · exact absurd h (by simp)
  · split_ifs at h <;> simp only [List.not_mem_nil, Option.mem_toList] at h
    · exact .inr (concludes_of_conditionalAnalogy h)
    · exact .inl (concludes_of_conditionalDeduction h)
    · exact .inl (concludes_of_conditionalAbduction h)
    · exact .inl (concludes_of_conjunctionalDeduction h)

theorem inferByShape_concludes (h : c ∈ p.inferByShape s t) : p.ConcludesEither s t c := by
  simp only [inferByShape] at h
  split at h
  · exact .inr (concludes_of_conditionalDeduction (by simpa using h))
  · exact .inl (concludes_of_conditionalDeduction (by simpa using h))
  · exact absurd h (by simp)
  · exact absurd h (by simp)
  · exact inferSameOrder_concludes h
  · exact inferSameOrder_concludes h
  · exact inferMixedOrder_concludes h
  · exact (inferMixedOrder_concludes h).swap

theorem mayInteract_of_infer {cs : List Conclusion} (h : p.infer s t = .ok cs) :
    mayInteract s t = true := by
  simp only [infer] at h
  split at h
  · exact absurd h (by simp)
  · simp_all

/-- **Main theorem.** Every conclusion from two premises is drawn from them in one of their
orders, and its rule allows its statement for this order. -/
theorem infer_concludes {cs : List Conclusion} (h : p.infer s t = .ok cs) (hc : c ∈ cs) :
    p.ConcludesEither s t c := by
  simp only [infer] at h
  split_ifs at h <;> simp only [Except.ok.injEq] at h <;> subst h
  · exact .inl (concludes_of_revise (by simpa using hc))
  · exact absurd hc (by simp)
  · exact inferGoal_concludes hc
  · exact inferByShape_concludes hc

end Standpoint

/-! ## Events -/

theorem Succession.inOrder?_cases {s t : Sentence} {e : Succession}
    (h : inOrder? s t = some e) : s.isEvent = true ∧ t.isEvent = true ∧
      (e.first = s ∧ e.second = t ∨ e.first = t ∧ e.second = s) := by
  unfold inOrder? at h
  split at h
  · rename_i i j hs ht
    refine ⟨by simp [Sentence.isEvent, hs], by simp [Sentence.isEvent, ht], ?_⟩
    split at h
    · exact absurd h (by simp)
    · split at h
      · obtain rfl := Option.some.inj h
        exact .inl ⟨rfl, rfl⟩
      · obtain rfl := Option.some.inj h
        exact .inr ⟨rfl, rfl⟩
  · exact absurd h (by simp)

/-- What follows from two events follows from them in the order in which they happen. -/
theorem Standpoint.inOrder?_of_inferEvents {p : Standpoint} {s t : Sentence} {c : Conclusion}
    (h : c ∈ p.inferEvents s t) : s.id ≠ t.id ∧ ∃ e, Succession.inOrder? s t = some e ∧
      (e.both p = some c ∨ e.leadsTo p = some c) := by
  unfold inferEvents at h
  split at h
  · exact absurd h (by simp)
  · rename_i hid
    split at h
    · exact absurd h (by simp)
    · rename_i e he
      refine ⟨by simpa using hid, e, he, ?_⟩
      rcases List.mem_append.1 h with h | h
      · exact .inl (Option.mem_toList.1 h)
      · exact .inr (Option.mem_toList.1 h)

end NonAxiomatic
