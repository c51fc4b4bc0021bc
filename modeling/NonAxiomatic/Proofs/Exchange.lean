import NonAxiomatic.Proofs.Circularity
import NonAxiomatic.Proofs.Commuting
import NonAxiomatic.Proofs.Revising
import NonAxiomatic.Proofs.Said

/-!
# Premises in the other order

What is derived from two timeless judgments, once with the one and once with the other as the first
premise. Most rules are applied to the premises in an order of their own, or in both orders, or say
the same in both. What is concluded in one order alone (`Standpoint.OneSided`) is

* all that follows from two statements about statements of which only the second one says when its
  sides happen: it is the first premise alone that is looked at (`Standpoint.Overlooked`);
* a conjunct by which two conditions with equally many conjuncts differ, some of them repeated: that
  of the second premise is taken for the longer one (`Standpoint.Uneven.condition`);
* a comparison or a resemblance with next to no confidence, where the product of the factors is
  rounded down to the least confidence in one order, and not in the other
  (`Standpoint.Uneven.comparison`, `Standpoint.Uneven.resemblance`).

The parts of an inference are compared one by one (`Standpoint.Exchanged`), and put together along
the way in which the premises are told apart.

**Theorem (`Standpoint.derive_exchange`).** Two timeless judgments that have held and say something
are refused in both orders or in none; and what a rule derives in one order it derives in the other,
unless this is one-sided.

One-sided conclusions do occur: `Standpoint.derive_exchange_timed`.
-/

namespace NonAxiomatic

namespace Standpoint

variable {p : Standpoint} {s t : Sentence} {v w : TruthValue Double} {rule : Rule} {text : String}

/-! ## What gets lost -/

/-- Whether what a rule concludes from two premises gets lost when they are exchanged. -/
inductive Uneven (p : Standpoint) (s t : Sentence) (v w : TruthValue Double) : Rule → Prop where
  /-- The conditions have equally many conjuncts, although the second one has one that the first one
  has not: then some are repeated. Of two such conditions, that of the second premise is taken for
  the longer one. -/
  | condition {a b : Relation} (first : s.statement.relation? = some a)
      (second : t.statement.relation? = some b)
      (length_eq : a.subject.conjuncts.length = b.subject.conjuncts.length)
      (extra : b.subject.extraConjuncts a.subject ≠ []) :
      Uneven p s t v w .conditionalConjunctionalAbduction
  /-- With the factors in another order, the confidence is rounded down to the least one. -/
  | comparison (vacuous : ¬ Tells (TruthFunction.comparison.apply p.settings.horizon w v)) :
      Uneven p s t v w .comparison
  /-- With the factors in another order, the confidence is rounded down to the least one. -/
  | resemblance (vacuous : ¬ Tells (TruthFunction.resemblance.apply p.settings.horizon w v)) :
      Uneven p s t v w .resemblance

/-- What is said once the premises have been exchanged: all but what gets lost, and nothing of what
gets lost. -/
structure Exchanged (lost : Rule → Prop) (cs ds : List Conclusion) : Prop where
  gone : ∀ rule text, lost rule → ¬ Says ds rule text
  kept : ∀ rule text, Says cs rule text → ¬ lost rule → Says ds rule text

namespace Exchanged

variable {lost : Rule → Prop} {cs ds cs' ds' : List Conclusion}

theorem append (h : Exchanged lost cs ds) (h' : Exchanged lost cs' ds') :
    Exchanged lost (cs ++ cs') (ds ++ ds') := by
  refine ⟨fun rule text hlost => ?_, fun rule text hsaid hlost => ?_⟩
  · rw [says_append, not_or]
    exact ⟨h.gone rule text hlost, h'.gone rule text hlost⟩
  · rw [says_append] at hsaid ⊢
    exact hsaid.imp (h.kept rule text · hlost) (h'.kept rule text · hlost)

theorem of_says_iff (h : Exchanged lost cs ds)
    (hiff : ∀ rule text, Says ds rule text ↔ Says ds' rule text) : Exchanged lost cs ds' :=
  ⟨fun rule text hlost hsaid => h.gone rule text hlost ((hiff rule text).2 hsaid),
    fun rule text hsaid hlost => (hiff rule text).1 (h.kept rule text hsaid hlost)⟩

theorem append_comm (h : Exchanged lost cs ds) (h' : Exchanged lost cs' ds') :
    Exchanged lost (cs ++ cs') (ds' ++ ds) :=
  (h.append h').of_says_iff fun rule text => by rw [says_append, says_append, or_comm]

/-- What no rule concludes whose conclusions get lost stays. -/
theorem self (h : ∀ c ∈ cs, ¬ lost c.rule) : Exchanged lost cs cs := by
  refine ⟨?_, fun rule text hsaid _ => hsaid⟩
  rintro rule text hlost ⟨c, hc, _, rfl, _⟩
  exact h c hc hlost

end Exchanged

theorem Uneven.ne {rule' : Rule} (h : Uneven p s t v w rule) (hc : rule' ≠
    .conditionalConjunctionalAbduction) (hco : rule' ≠ .comparison) (hr : rule' ≠ .resemblance) :
    rule ≠ rule' := by
  cases h with
  | condition => exact hc.symm
  | comparison => exact hco.symm
  | resemblance => exact hr.symm

/-- What a rule concludes is not lost, other than that of the three rules. -/
theorem Exchanged.of_rule {o : Option Conclusion} {r : Rule} (ho : ∀ c, o = some c → c.rule = r)
    (hr : r ≠ .conditionalConjunctionalAbduction ∧ r ≠ .comparison ∧ r ≠ .resemblance) :
    Exchanged (Uneven p s t v w) o.toList o.toList := by
  refine .self fun c hc hlost => ?_
  have hrule := ho c (Option.mem_toList.1 hc)
  exact hlost.ne hr.1 hr.2.1 hr.2.2 hrule

/-! ## Comparison -/

theorem exchanged_comparison (hs : s.IsPremise v) (ht : t.IsPremise w) {a b : Relation}
    (ha : s.statement.relation? = some a) (hb : t.statement.relation? = some b)
    (hsa : a.isSymmetric = false) (hsb : b.isSymmetric = false)
    (horder : a.isFirstOrder = b.isFirstOrder) :
    Exchanged (Uneven p s t v w) (p.comparison s t).toList (p.comparison t s).toList := by
  have hpair : Relation.asymmetricPair? s.statement t.statement = some (a, b) :=
    Relation.asymmetricPair?_eq_some.2 ⟨ha, hb, hsa, hsb⟩
  have hpair' : Relation.asymmetricPair? t.statement s.statement = some (b, a) :=
    Relation.asymmetricPair?_eq_some.2 ⟨hb, ha, hsb, hsa⟩
  -- Whichever side is shared, the two other terms come out on exchanged sides of a symmetric
  -- copula.
  have hsides : ∀ side : Side,
      Exchanged (Uneven p s t v w)
        (p.concludeRelation s t (b.on side.opposite)
          (if a.isFirstOrder then .similarity else .equivalence) (a.on side.opposite)
          .comparison .comparison).toList
        (p.concludeRelation t s (a.on side.opposite)
          (if b.isFirstOrder then .similarity else .equivalence) (b.on side.opposite)
          .comparison .comparison).toList := by
    intro side
    generalize a.on side.opposite = x
    generalize b.on side.opposite = y
    have hsymmetric : (if b.isFirstOrder then Copula.similarity else .equivalence).isSymmetric =
        true := by
      split <;> rfl
    refine ⟨?_, ?_⟩
    -- If the exchanged premises say next to nothing, nothing is said; otherwise the texts agree.
    · intro rule text hlost hsaid
      rw [says_concludeRelation ht hs] at hsaid
      obtain ⟨_, htells, rfl, _⟩ := hsaid
      cases hlost with
      | comparison hvacuous => exact hvacuous htells
    · intro rule text hsaid hlost
      rw [says_concludeRelation hs ht] at hsaid
      obtain ⟨hne, _, rfl, htext⟩ := hsaid
      rw [says_concludeRelation ht hs, BEq.comm, ← Term.text_relate_swap hsymmetric, ← horder]
      refine ⟨hne, ?_, rfl, htext⟩
      by_contra hvacuous
      exact hlost (.comparison hvacuous)
  -- The rule looks at the subjects first, in both orders.
  simp only [comparison, hpair, hpair', Option.bind_eq_bind, Option.bind_some]
  rw [BEq.comm (a := b.subject), BEq.comm (a := b.predicate)]
  by_cases hsubject : a.subject == b.subject
  · simp only [hsubject, if_true]
    exact hsides .subject
  · by_cases hpredicate : a.predicate == b.predicate
    · simp only [hsubject, hpredicate, if_true, Bool.false_eq_true, if_false]
      exact hsides .predicate
    · simp only [hsubject, hpredicate, Bool.false_eq_true, if_false, Option.bind_none]
      exact .self fun c hc => absurd hc (by simp)

/-! ## Joined terms -/

/-- A mean of confidences is the same in both orders. -/
theorem tells_mean_comm (v w : TruthValue Double) :
    ¬ Scale.clampConfidence (Scale.mean v.confidence w.confidence) ≤ Scale.minConfidence ↔
      ¬ Scale.clampConfidence (Scale.mean w.confidence v.confidence) ≤ Scale.minConfidence :=
  not_congr ((Double.agrees_mean_comm _ _).clampConfidence.le_iff _)

theorem text_compose_swap {connector : Connector} (h : connector.isOrderInvariant = true)
    (x y : Term) : (Term.compose connector [x, y] []).text =
      (Term.compose connector [y, x] []).text := by
  refine Term.text_compose_congr ?_ []
  rw [Term.SameTexts, if_pos h]
  exact List.Perm.swap y.text x.text []

/-- Statements about two joined terms are concluded alike in both orders. -/
theorem says_joined_comm (hs : s.IsPremise v) (ht : t.IsPremise w) {connector : Connector}
    (hconnector : connector.isOrderInvariant = true) {f : TruthFunction} {r : Rule}
    (hf : Tells (f.apply p.settings.horizon v w) ↔ Tells (f.apply p.settings.horizon w v))
    {of of' : Term → Term} (hof : ∀ z, (of z).headsSentence = true)
    (hof' : ∀ z, (of' z).headsSentence = true)
    (htext : ∀ z z' : Term, z.text = z'.text → (of z).text = (of' z').text) (x y : Term) :
    Says ((Term.join? connector x y).bind fun z => p.conclude s t (of z) f r).toList rule text ↔
      Says ((Term.join? connector y x).bind fun z => p.conclude t s (of' z) f r).toList rule
        text := by
  rw [Term.join?, Term.join?, Bool.or_comm y.isCompound]
  by_cases hcompound : (x.isCompound || y.isCompound) = true
  · rw [if_pos hcompound, if_pos hcompound, Option.bind_none, Option.bind_none]
  · rw [if_neg hcompound, if_neg hcompound, Option.bind_some, Option.bind_some,
      says_conclude hs ht, says_conclude ht hs, hof, hof', hf,
      htext _ _ (text_compose_swap hconnector x y)]

theorem says_join_comm (hs : s.IsPremise v) (ht : t.IsPremise w) {a b : Relation}
    (ha : s.statement.relation? = some a) (hb : t.statement.relation? = some b)
    (hsa : a.isSymmetric = false) (hsb : b.isSymmetric = false) {first higher : Connector}
    {f g : TruthFunction} {r : Rule} (hfirst : first.isOrderInvariant = true)
    (hhigher : higher.isOrderInvariant = true)
    (hf : Tells (f.apply p.settings.horizon v w) ↔ Tells (f.apply p.settings.horizon w v))
    (hg : Tells (g.apply p.settings.horizon v w) ↔ Tells (g.apply p.settings.horizon w v))
    (rule : Rule) (text : String) :
    Says (p.join s t first higher f g r).toList rule text ↔
      Says (p.join t s first higher f g r).toList rule text := by
  have hpair : Relation.asymmetricPair? s.statement t.statement = some (a, b) :=
    Relation.asymmetricPair?_eq_some.2 ⟨ha, hb, hsa, hsb⟩
  have hpair' : Relation.asymmetricPair? t.statement s.statement = some (b, a) :=
    Relation.asymmetricPair?_eq_some.2 ⟨hb, ha, hsb, hsa⟩
  have hconnector : (if a.isFirstOrder && b.isFirstOrder then (first, Copula.inheritance)
      else (higher, Copula.implication)).1.isOrderInvariant = true := by
    split
    · exact hfirst
    · exact hhigher
  simp only [join, hpair, hpair', Option.bind_eq_bind, Option.bind_some]
  rw [BEq.comm (a := b.subject), BEq.comm (a := b.predicate), Bool.and_comm b.isFirstOrder]
  by_cases hpredicate : a.predicate == b.predicate
  -- With the predicates shared, the two subjects are joined; with the subjects shared, the
  -- predicates.
  · rw [if_pos hpredicate, if_pos hpredicate]
    exact says_joined_comm hs ht hconnector hf (fun _ => headsSentence_relate _ _ _ _)
      (fun _ => headsSentence_relate _ _ _ _)
      (fun z z' h => Term.text_relate_congr h (Term.beq_iff_text_eq.1 hpredicate) 0) _ _
  · rw [if_neg hpredicate, if_neg hpredicate]
    by_cases hsubject : a.subject == b.subject
    · rw [if_pos hsubject, if_pos hsubject]
      exact says_joined_comm hs ht hconnector hg (fun _ => headsSentence_relate _ _ _ _)
        (fun _ => headsSentence_relate _ _ _ _)
        (fun z z' h => Term.text_relate_congr (Term.beq_iff_text_eq.1 hsubject) h 0) _ _
    · rw [if_neg hsubject, if_neg hsubject]

/-! ## Conditions that differ by a conjunct -/

/-- What is concluded is a conjunct of the first condition that the second one has not. -/
theorem extraConjuncts_of_conjunctionalAbduction {a b : Relation} {c : Conclusion}
    (ha : s.statement.relation? = some a) (hb : t.statement.relation? = some b)
    (h : p.conjunctionalAbduction s t = some c) : a.subject.extraConjuncts b.subject ≠ [] := by
  simp only [conjunctionalAbduction, Option.bind_eq_bind, Option.bind_eq_some_iff,
    Option.ite_none_left_eq_some, Option.bind_none] at h
  obtain ⟨a', ha', b', hb', _, h⟩ := h
  obtain rfl := Option.some.inj (ha.symm.trans (Term.implication?_eq_some.1 ha').1)
  obtain rfl := Option.some.inj (hb.symm.trans (Term.implication?_eq_some.1 hb').1)
  intro hnil
  rw [hnil] at h
  exact absurd h (by simp)

theorem exchanged_inferConjunct {a b : Relation}
    (ha : s.statement.relation? = some a) (hb : t.statement.relation? = some b) :
    Exchanged (Uneven p s t v w) (p.inferConjunct s t a b) (p.inferConjunct t s b a) := by
  rw [inferConjunct, inferConjunct, Bool.and_comm (!b.subject.isConjunction),
    Nat.add_comm (b.subject.extraConjuncts a.subject).length]
  by_cases hnone : (!a.subject.isConjunction && !b.subject.isConjunction) = true
  · rw [if_pos hnone, if_pos hnone]
    exact .self fun c hc => absurd hc (by simp)
  rw [if_neg hnone, if_neg hnone]
  by_cases hmany : ((a.subject.extraConjuncts b.subject).length +
      (b.subject.extraConjuncts a.subject).length != 1) = true
  · rw [if_pos hmany, if_pos hmany]
    exact .self fun c hc => absurd hc (by simp)
  rw [if_neg hmany, if_neg hmany]
  -- As long as one condition is the longer one, the rule is applied in the same way.
  have hlonger : a.subject.conjuncts.length ≠ b.subject.conjuncts.length → ∀ u u' : Sentence,
      Exchanged (Uneven p s t v w) (p.conjunctionalAbduction u u').toList
        (p.conjunctionalAbduction u u').toList := by
    intro hne u u'
    refine .self fun c hc hlost => ?_
    rw [rule_conjunctionalAbduction (Option.mem_toList.1 hc)] at hlost
    cases hlost with
    | condition first second length_eq _ =>
      obtain rfl := Option.some.inj (ha.symm.trans first)
      obtain rfl := Option.some.inj (hb.symm.trans second)
      exact hne length_eq
  rcases Nat.lt_trichotomy a.subject.conjuncts.length b.subject.conjuncts.length with h | h | h
  · rw [if_neg (by omega), if_pos h]
    exact hlonger h.ne t s
  · -- With equally many conjuncts, the second premise goes first.
    rw [if_neg (by omega), if_neg (by omega)]
    have hone : (a.subject.extraConjuncts b.subject).length +
        (b.subject.extraConjuncts a.subject).length = 1 := by simpa using hmany
    -- The one missing conjunct is missing on one side only: so the rule fits in one order alone.
    refine ⟨fun rule text hlost hsaid => ?_, fun rule text hsaid hlost => ?_⟩
    · obtain ⟨c, hc, _, rfl, _⟩ := says_toList.1 hsaid
      have hfirst := List.length_pos_iff.2 (extraConjuncts_of_conjunctionalAbduction ha hb hc)
      rw [rule_conjunctionalAbduction hc] at hlost
      cases hlost with
      | condition first second _ extra =>
        obtain rfl := Option.some.inj (ha.symm.trans first)
        obtain rfl := Option.some.inj (hb.symm.trans second)
        -- Both conditions would have to lack a conjunct, and together they lack one.
        have hsecond := List.length_pos_iff.2 extra
        omega
    · obtain ⟨c, hc, _, rfl, _⟩ := says_toList.1 hsaid
      rw [rule_conjunctionalAbduction hc] at hlost
      exact absurd (.condition ha hb h (extraConjuncts_of_conjunctionalAbduction hb ha hc)) hlost
  · rw [if_pos h, if_neg (by omega)]
    exact hlonger h.ne' s t

/-! ## Statements whose sides must not change places -/

theorem exchanged_inferAsymmetric (hs : s.IsPremise v) (ht : t.IsPremise w) {a b : Relation}
    (ha : s.statement.relation? = some a) (hb : t.statement.relation? = some b)
    (hsa : a.isSymmetric = false) (hsb : b.isSymmetric = false)
    (horder : a.isFirstOrder = b.isFirstOrder) (hrestates : a.restates b = false) :
    Exchanged (Uneven p s t v w) (p.inferAsymmetric s t a b) (p.inferAsymmetric t s b a) := by
  -- What a rule is applied to in both orders comes out in both; unions and intersections join terms
  -- that may change places.
  have hsyllogism : ∀ {u u' : Sentence} {i j : Side} {f : TruthFunction} {r : Rule},
      r ≠ .conditionalConjunctionalAbduction ∧ r ≠ .comparison ∧ r ≠ .resemblance →
      Exchanged (Uneven p s t v w) (p.syllogism u u' i j f r).toList
        (p.syllogism u u' i j f r).toList :=
    fun hr => .of_rule (fun _ => rule_syllogism) hr
  have hunite : Exchanged (Uneven p s t v w) (p.unite s t).toList (p.unite t s).toList :=
    (Exchanged.of_rule (fun _ => rule_join) (by decide)).of_says_iff
      (says_join_comm hs ht ha hb hsa hsb rfl rfl (tells_mean_comm v w) (tells_mean_comm v w))
  have hintersect : Exchanged (Uneven p s t v w) (p.intersect s t).toList
      (p.intersect t s).toList :=
    (Exchanged.of_rule (fun _ => rule_join) (by decide)).of_says_iff
      (says_join_comm hs ht ha hb hsa hsb rfl rfl (tells_mean_comm v w) (tells_mean_comm v w))
  -- Of the rules in the list, comparison is the only one whose value depends on the order.
  have hcomparison := exchanged_comparison (p := p) hs ht ha hb hsa hsb horder
  have hpredicates : ∀ u u' : Sentence, Exchanged (Uneven p s t v w)
      (p.subtractPredicates u u').toList (p.subtractPredicates u u').toList :=
    fun _ _ => .of_rule (fun _ => rule_subtractPredicates) (by decide)
  have hsubjects : ∀ u u' : Sentence, Exchanged (Uneven p s t v w)
      (p.subtractSubjects u u').toList (p.subtractSubjects u u').toList :=
    fun _ _ => .of_rule (fun _ => rule_subtractSubjects) (by decide)
  rw [inferAsymmetric, inferAsymmetric, BEq.comm (a := b.subject) (b := a.predicate),
    BEq.comm (a := b.predicate) (b := a.subject), BEq.comm (a := b.subject) (b := a.subject),
    BEq.comm (a := b.predicate) (b := a.predicate), ← horder]
  by_cases hfirst : (a.subject == b.predicate) = true
  · -- The sides of the premises are not exchanged, so that this is the only place of the term.
    have hsecond : (a.predicate == b.subject) = false := by
      rw [Relation.restates, hfirst, Bool.true_and, Bool.or_eq_false_iff] at hrestates
      exact hrestates.1
    simp only [hfirst, hsecond, if_true, Bool.false_eq_true, if_false]
    exact (hsyllogism (by decide)).append (hsyllogism (by decide))
  -- Where the terms cross the other way, the two syllogisms change roles.
  rw [if_neg hfirst, if_neg hfirst]
  by_cases hsecond : (a.predicate == b.subject) = true
  · rw [if_pos hsecond, if_pos hsecond]
    exact (hsyllogism (by decide)).append (hsyllogism (by decide))
  rw [if_neg hsecond, if_neg hsecond]
  by_cases hsubject : (a.subject == b.subject) = true
  -- Subjects shared: the differences are taken in both orders, so the two lists only trade places.
  · rw [if_pos hsubject, if_pos hsubject, List.append_assoc _ (p.subtractPredicates s t).toList,
      List.append_assoc _ (p.subtractPredicates t s).toList]
    exact (((((hsyllogism (by decide)).append_comm (hsyllogism (by decide))).append
      hcomparison).append hunite).append hintersect).append
        ((hpredicates s t).append_comm (hpredicates t s))
  rw [if_neg hsubject, if_neg hsubject]
  by_cases hpredicate : (a.predicate == b.predicate) = true
  · have hconjunct : Exchanged (Uneven p s t v w)
        (if a.isFirstOrder then [] else p.inferConjunct s t a b)
        (if a.isFirstOrder then [] else p.inferConjunct t s b a) := by
      split
      · exact .self fun c hc => absurd hc (by simp)
      · exact exchanged_inferConjunct ha hb
    rw [if_pos hpredicate, if_pos hpredicate,
      List.append_assoc _ (p.subtractSubjects s t).toList (p.subtractSubjects t s).toList,
      List.append_assoc _ (p.subtractSubjects t s).toList (p.subtractSubjects s t).toList]
    exact ((((((hsyllogism (by decide)).append_comm (hsyllogism (by decide))).append
      hconjunct).append hunite).append hintersect).append
        ((hsubjects s t).append_comm (hsubjects t s))).append hcomparison
  · rw [if_neg hpredicate, if_neg hpredicate]
    exact .self fun c hc => absurd hc (by simp)

/-! ## Statements whose sides may change places -/

/-- A statement with one of its sides replaced, by where the terms stand that it shares with the
other one. -/
theorem substitute?_eq (a b : Relation) : a.substitute? b =
    if a.subject == b.predicate then some (b.subject, a.predicate)
    else if a.subject == b.subject then some (b.predicate, a.predicate)
    else if a.predicate == b.predicate then some (a.subject, b.subject)
    else if a.predicate == b.subject then some (a.subject, b.predicate)
    else none := by
  rw [Relation.substitute?, Relation.across?, Relation.across?]
  split
  · rfl
  · split
    · rfl
    · split
      · rfl
      · split <;> rfl

/-- Two statements that share one term leave the same two terms over, whichever of them has its
sides replaced. -/
theorem substitute?_exchange {a b : Relation} {x y : Term}
    (hcrossed : ¬ (a.subject.text = b.predicate.text ∧ a.predicate.text = b.subject.text))
    (h : a.substitute? b = some (x, y)) : ∃ x' y', b.substitute? a = some (x', y') ∧
      ((x'.text = x.text ∧ y'.text = y.text) ∨ (x'.text = y.text ∧ y'.text = x.text)) := by
  rw [substitute?_eq] at h ⊢
  simp only [Term.beq_iff_text_eq] at h ⊢
  -- Where two places hold one term, it does not matter which of them is looked at first.
  split_ifs at h with h1 h2 h3 h4 <;> obtain ⟨rfl, rfl⟩ := Prod.mk.inj (Option.some.inj h) <;>
    grind

theorem copula_eq_of_isSymmetric {c d : Copula} (hc : c.isSymmetric = true)
    (hd : d.isSymmetric = true) (horder : c.isFirstOrder = d.isFirstOrder)
    (htc : c.isTemporal = false) (htd : d.isTemporal = false) : c = d := by
  cases c <;> simp [Copula.isSymmetric, Copula.isTemporal] at hc htc <;>
    cases d <;> simp [Copula.isSymmetric, Copula.isTemporal] at hd htd <;>
    first | rfl | exact absurd horder (by decide)

theorem exchanged_resemblance (hs : s.IsPremise v) (ht : t.IsPremise w) {a b : Relation}
    (ha : s.statement.relation? = some a) (hb : t.statement.relation? = some b)
    (hsa : a.isSymmetric = true) (hsb : b.isSymmetric = true) (hcopula : a.copula = b.copula)
    (hcrossed : ¬ (a.subject.text = b.predicate.text ∧ a.predicate.text = b.subject.text)) :
    Exchanged (Uneven p s t v w) (p.resemblance s t).toList (p.resemblance t s).toList := by
  have hrelations : ∀ {u u' : Sentence} {c d : Relation}, u.statement.relation? = some c →
      u'.statement.relation? = some d → c.isSymmetric = true → d.isSymmetric = true →
      p.resemblance u u' = (c.substitute? d).bind fun sides =>
        p.concludeRelation u u' sides.1 c.copula sides.2 .resemblance .resemblance := by
    intro u u' c d hc hd hsc hsd
    simp only [resemblance, hc, hd, hsc, hsd, Option.bind_eq_bind, Option.bind_some, Bool.not_true,
      Bool.or_self, Bool.false_eq_true, if_false]
  rw [hrelations ha hb hsa hsb, hrelations hb ha hsb hsa, ← hcopula]
  refine ⟨fun rule text hlost hsaid => ?_, fun rule text hsaid hlost => ?_⟩
  -- Lost: the value of the exchanged premises says next to nothing.
  · obtain ⟨c, hc, htells, rfl, htext⟩ := says_toList.1 hsaid
    obtain ⟨sides, _, hc⟩ := Option.bind_eq_some_iff.1 hc
    obtain ⟨_, htells, hrule, _⟩ :=
      (says_concludeRelation ht hs).1 (says_toList.2 ⟨c, hc, htells, rfl, htext⟩)
    rw [← hrule] at hlost
    cases hlost with
    | resemblance hvacuous => exact hvacuous htells
  -- Kept: the same two terms are left over, perhaps with their places exchanged.
  · obtain ⟨c, hc, htells, rfl, htext⟩ := says_toList.1 hsaid
    obtain ⟨⟨x, y⟩, hsides, hc⟩ := Option.bind_eq_some_iff.1 hc
    obtain ⟨hne, _, hrule, htext⟩ :=
      (says_concludeRelation hs ht).1 (says_toList.2 ⟨c, hc, htells, rfl, htext⟩)
    obtain ⟨x', y', hsides', halike⟩ := substitute?_exchange hcrossed hsides
    rw [hsides', Option.bind_some, says_concludeRelation ht hs]
    refine ⟨?_, ?_, hrule, ?_⟩
    · rw [Bool.eq_false_iff, Ne, Term.beq_iff_text_eq] at hne ⊢
      obtain ⟨hx, hy⟩ | ⟨hx, hy⟩ := halike
      · rwa [hx, hy]
      · rwa [hx, hy, eq_comm]
    · by_contra hvacuous
      rw [← hrule] at hlost
      exact hlost (.resemblance hvacuous)
    · rw [← htext]
      obtain ⟨hx, hy⟩ | ⟨hx, hy⟩ := halike
      · exact Term.text_relate_congr hx hy 0
      · rw [Term.text_relate_congr hx hy 0]
        exact Term.text_relate_swap hsa _ _ 0

/-! ## Statements of one order -/

/-- Whether two statements about statements go together in the other order only: the second one says
when its sides happen, and the first one does not. -/
def Overlooked (s t : Sentence) : Prop :=
  ∃ a b, s.statement.relation? = some a ∧ t.statement.relation? = some b ∧
    a.isFirstOrder = false ∧ a.copula.isTemporal = false ∧ b.copula.isTemporal = true

/-- Whether what a rule concludes from two premises is concluded in this order alone. -/
def OneSided (p : Standpoint) (s t : Sentence) (v w : TruthValue Double) (rule : Rule) : Prop :=
  Overlooked s t ∨ Uneven p s t v w rule

/-- What is said is said in the other order as well, unless it is concluded in this order alone. -/
def Keeps (lost : Rule → Prop) (cs ds : List Conclusion) : Prop :=
  ∀ rule text, Says cs rule text → (Says ds rule text ↔ ¬ lost rule)

theorem keeps_nil {lost : Rule → Prop} {ds : List Conclusion} : Keeps lost [] ds :=
  fun rule text h => absurd h (not_says_nil rule text)

theorem Exchanged.keeps {lost : Rule → Prop} {cs ds : List Conclusion} (h : Exchanged lost cs ds) :
    Keeps lost cs ds :=
  fun rule text hsaid => ⟨fun hsaid' hlost => h.gone rule text hlost hsaid', h.kept rule text hsaid⟩

theorem Exchanged.keeps_oneSided {cs ds : List Conclusion} (hnot : ¬ Overlooked s t)
    (h : Exchanged (Uneven p s t v w) cs ds) : Keeps (OneSided p s t v w) cs ds := by
  intro rule text hsaid
  rw [h.keeps rule text hsaid, OneSided, or_iff_right hnot]

theorem restates_comm (a b : Relation) : a.restates b = b.restates a := by
  rw [Relation.restates, Relation.restates, BEq.comm (a := a.subject) (b := b.predicate),
    BEq.comm (a := a.predicate) (b := b.subject), BEq.comm (a := a.subject) (b := b.subject),
    BEq.comm (a := a.predicate) (b := b.predicate), Bool.and_comm (b.predicate == a.subject),
    bne_comm]

theorem keeps_inferSameOrder (hs : s.IsPremise v) (ht : t.IsPremise w)
    (horder : s.statement.shape = t.statement.shape) :
    Keeps (OneSided p s t v w) (p.inferSameOrder s t) (p.inferSameOrder t s) := by
  cases ha : s.statement.relation? with
  | none =>
    rw [inferSameOrder, ha]
    exact keeps_nil
  | some a =>
  cases hb : t.statement.relation? with
  | none =>
    rw [inferSameOrder, ha, hb]
    exact keeps_nil
  | some b =>
  -- The shapes agree, and so do the orders of the copulas.
  have hfirst : a.isFirstOrder = b.isFirstOrder := by
    rw [Term.shape, Term.shape, ha, hb] at horder
    cases hfa : a.isFirstOrder <;> cases hfb : b.isFirstOrder <;> simp [hfa, hfb] at horder ⊢
  simp only [inferSameOrder, ha, hb, hs.isEvent_eq, ht.isEvent_eq, Bool.and_false, Bool.or_false,
    restates_comm b a]
  -- Premises that restate each other have no conclusion, and neither has a first one with a timed
  -- copula.
  by_cases hrestates : a.restates b = true
  · rw [if_pos hrestates]
    exact keeps_nil
  by_cases htemporal : a.copula.isTemporal = true
  · rw [if_neg hrestates, if_pos htemporal]
    exact keeps_nil
  rw [if_neg hrestates, if_neg htemporal, if_neg hrestates]
  rw [Bool.not_eq_true] at hrestates htemporal
  by_cases htimed : b.copula.isTemporal = true
  · -- What says when its sides happen is refused as the first premise alone.
    have hover : Overlooked s t := by
      refine ⟨a, b, ha, hb, ?_, htemporal, htimed⟩
      rw [hfirst, Relation.isFirstOrder]
      revert htimed
      cases b.copula <;> decide
    intro rule text _
    rw [if_pos htimed]
    exact iff_of_false (not_says_nil _ _) (not_not_intro (.inl hover))
  rw [if_neg htimed]
  have hnot : ¬ Overlooked s t := by
    rintro ⟨a', b', ha', hb', _, _, htimed'⟩
    obtain rfl := Option.some.inj (hb.symm.trans hb')
    exact htimed htimed'
  refine Exchanged.keeps_oneSided hnot ?_
  have hanalogy : ∀ u u' : Sentence,
      Exchanged (Uneven p s t v w) (p.analogy u u').toList (p.analogy u u').toList :=
    fun _ _ => .of_rule (fun _ => rule_analogy) (by decide)
  -- What is left goes by which of the two copulas lets its sides change places.
  cases hsa : a.isSymmetric with
  | false =>
    cases hsb : b.isSymmetric with
    | false => exact exchanged_inferAsymmetric hs ht ha hb hsa hsb hfirst hrestates
    | true => exact hanalogy s t
  | true =>
    cases hsb : b.isSymmetric with
    | false => exact hanalogy t s
    | true =>
      -- If the sides were the same crosswise, the premises would restate each other.
      refine exchanged_resemblance hs ht ha hb hsa hsb
        (copula_eq_of_isSymmetric hsa hsb hfirst htemporal (Bool.not_eq_true _ ▸ htimed)) ?_
      rintro ⟨hx, hy⟩
      rw [Relation.restates, Term.beq_iff_text_eq.2 hx, Term.beq_iff_text_eq.2 hy] at hrestates
      exact absurd hrestates (by simp)

/-! ## All statements that differ -/

/-- What a rule concludes from a statement about statements and one about terms is not lost. -/
theorem exchanged_inferMixedOrder (higher first : Sentence) :
    Exchanged (Uneven p s t v w) (p.inferMixedOrder higher first)
      (p.inferMixedOrder higher first) := by
  have hnone : Exchanged (Uneven p s t v w) ([] : List Conclusion) [] :=
    .self fun c hc => absurd hc (by simp)
  rw [inferMixedOrder]
  split
  · exact hnone
  · dsimp only
    split
    · split
      · exact .of_rule (fun _ => rule_conditionalAnalogy) (by decide)
      · exact hnone
    · split
      · split
        · exact .of_rule (fun _ => rule_conditionalDeduction) (by decide)
        · split
          · exact .of_rule (fun _ => rule_conditionalAbduction) (by decide)
          · split
            · exact .of_rule (fun _ => rule_conjunctionalDeduction) (by decide)
            · exact hnone
      · exact hnone

theorem shape_of_overlooked (h : Overlooked s t) :
    s.statement.shape = .higherOrder ∧ t.statement.shape = .higherOrder := by
  obtain ⟨a, b, ha, hb, hfirst, _, htimed⟩ := h
  have hfirst' : b.isFirstOrder = false := by
    rw [Relation.isFirstOrder]
    revert htimed
    cases b.copula <;> decide
  rw [Term.shape, Term.shape, ha, hb]
  simp [hfirst, hfirst']

theorem keeps_inferByShape (hs : s.IsPremise v) (ht : t.IsPremise w) :
    Keeps (OneSided p s t v w) (p.inferByShape s t) (p.inferByShape t s) := by
  have hdeduction : ∀ u u' : Sentence, Exchanged (Uneven p s t v w)
      (p.conditionalDeduction u u').toList (p.conditionalDeduction u u').toList :=
    fun _ _ => .of_rule (fun _ => rule_conditionalDeduction) (by decide)
  have hover := @shape_of_overlooked s t
  have hsame := keeps_inferSameOrder (p := p) hs ht
  rw [inferByShape, inferByShape]
  -- Where the shapes differ, they tell which premise a rule takes first.
  cases hshape : s.statement.shape <;> cases hshape' : t.statement.shape <;>
    rw [hshape, hshape'] at hover hsame
  case firstOrder.firstOrder => exact hsame rfl
  case higherOrder.higherOrder => exact hsame rfl
  case firstOrder.higherOrder | higherOrder.firstOrder =>
    exact (exchanged_inferMixedOrder _ _).keeps_oneSided fun h => absurd (hover h) (by decide)
  case combined.higherOrder | higherOrder.combined =>
    exact (hdeduction _ _).keeps_oneSided fun h => absurd (hover h) (by decide)
  case combined.firstOrder | firstOrder.combined | combined.combined => exact keeps_nil

/-! ## One statement -/

theorem says_revise (hs : s.IsPremise v) (ht : t.IsPremise w)
    (h : (s.statement == t.statement) = true) : Says (revise p s t).toList rule text ↔
      s.statement.headsSentence = true ∧
        Tells (TruthFunction.revision.apply p.settings.horizon v w) ∧ .revision = rule ∧
          s.statement.text = text := by
  obtain ⟨x, hx, hheads, htext⟩ := exists_revisedStatement? hs.named ht.named hs.value?_eq
    ht.value?_eq (Term.beq_iff_text_eq.1 h)
  have hrevise : revise p s t = p.conclude s t x .revision .revision := by
    ext c
    rw [revise_eq_some, hs.isQuestion_eq, ht.isQuestion_eq, hx]
    simp [h]
  rw [hrevise, says_conclude hs ht, hheads, htext]

/-- The evidence of two values is the same in both orders. -/
theorem tells_revision_comm (k : Double) (v w : TruthValue Double) :
    Tells (TruthFunction.revision.apply k v w) ↔ Tells (TruthFunction.revision.apply k w v) := by
  have htotal := Double.agrees_add_comm (v.evidence k).total (w.evidence k).total
  have hconfidence :
      (TruthValue.confidenceOf k ((v.evidence k).total + (w.evidence k).total)).Agrees
        (TruthValue.confidenceOf k ((w.evidence k).total + (v.evidence k).total)) :=
    htotal.binary (· / ·) (htotal.binary (· + ·) (.refl k))
  exact not_congr (hconfidence.clampConfidence.le_iff _)

theorem says_revise_comm (hs : s.IsPremise v) (ht : t.IsPremise w)
    (h : (s.statement == t.statement) = true) :
    Says (revise p s t).toList rule text ↔ Says (revise p t s).toList rule text := by
  have htext := Term.beq_iff_text_eq.1 h
  have hheads : s.statement.headsSentence = t.statement.headsSentence := by
    have := congrArg Term.headsSentence ((Term.text_eq_iff hs.named ht.named).1 htext)
    rwa [Term.untagged, Term.untagged, Term.headsSentence_skeleton,
      Term.headsSentence_skeleton] at this
  rw [says_revise hs ht h, says_revise ht hs (by rwa [BEq.comm]), hheads, htext,
    tells_revision_comm]

/-- Premises with one statement go together in both orders. -/
theorem not_overlooked_of_text_eq (hs : s.statement.Named) (ht : t.statement.Named)
    (h : s.statement.text = t.statement.text) : ¬ Overlooked s t := by
  rintro ⟨a, b, ha, hb, _, hnot, htimed⟩
  have hskeleton := (Term.text_eq_iff hs ht).1 h
  rw [Term.eq_of_relation? ha, Term.eq_of_relation? hb, Term.untagged, Term.untagged,
    Term.skeleton, Term.skeleton] at hskeleton
  injection hskeleton with _ hcopula
  rw [hcopula, htimed] at hnot
  exact absurd hnot (by decide)

theorem keeps_revise (hs : s.IsPremise v) (ht : t.IsPremise w)
    (h : (s.statement == t.statement) = true) :
    Keeps (OneSided p s t v w) (revise p s t).toList (revise p t s).toList :=
  ((Exchanged.of_rule (fun _ => rule_revise) (by decide)).of_says_iff
    fun _ _ => says_revise_comm hs ht h).keeps_oneSided
      (not_overlooked_of_text_eq hs.named ht.named (Term.beq_iff_text_eq.1 h))

/-! ## What is derived -/

theorem infer_eq (hs : s.IsPremise v) (ht : t.IsPremise w) (interact : mayInteract s t = true) :
    p.infer s t = .ok (if (s.statement == t.statement) = true then (revise p s t).toList
      else p.inferByShape s t) := by
  rw [infer, interact, hs.isVacuous_eq, ht.isVacuous_eq, hs.isQuestion_eq, hs.isGoal_eq,
    hs.neverHeld_eq, ht.neverHeld_eq, hs.punctuation_eq, ht.punctuation_eq]
  by_cases hsame : (s.statement == t.statement) = true
  · rw [if_pos hsame, if_pos hsame]
    rfl
  · rw [if_neg hsame, if_neg hsame]
    rfl

/-- Whether a sentence about a statement with a text was derived by a rule. -/
def Derives (ds : List Sentence) (rule : Rule) (text : String) : Prop :=
  ∃ d ∈ ds, d.stamp.rule = some rule ∧ d.statement.text = text

theorem derives_numberAll {cs : List Conclusion} (ids : IdSupply) :
    Derives ((Conclusion.numberAll ids cs).1.filter fun d => !d.isVacuous) rule text ↔
      Says cs rule text := by
  induction cs generalizing ids with
  | nil => simp [Derives, Says, Conclusion.numberAll]
  | cons c cs ih =>
    have hsaid : Says (c :: cs) rule text ↔
        (c.isVacuous = false ∧ c.rule = rule ∧ c.statement.text = text) ∨ Says cs rule text := by
      simp [Says]
    rw [hsaid, ← ih ids.advance, Conclusion.numberAll, List.filter_cons,
      Conclusion.isVacuous_number]
    cases hvacuous : c.isVacuous with
    | true => simp
    | false =>
      simp [Derives, Conclusion.number]

theorem derive_eq (hs : s.IsPremise v) (ht : t.IsPremise w) (interact : mayInteract s t = true)
    (ids : IdSupply) : ∃ ds rest, p.derive ids s t = .ok (ds, rest) ∧
      ∀ rule text, Derives ds rule text ↔
        Says (if (s.statement == t.statement) = true then (revise p s t).toList
          else p.inferByShape s t) rule text :=
  ⟨_, _, derive_eq_ok.2 ⟨_, infer_eq hs ht interact, rfl⟩, fun _ _ => derives_numberAll ids⟩

theorem keeps_infer (hs : s.IsPremise v) (ht : t.IsPremise w) :
    Keeps (OneSided p s t v w)
      (if (s.statement == t.statement) = true then (revise p s t).toList else p.inferByShape s t)
      (if (t.statement == s.statement) = true then (revise p t s).toList
        else p.inferByShape t s) := by
  rw [BEq.comm (a := t.statement)]
  by_cases hsame : (s.statement == t.statement) = true
  · rw [if_pos hsame, if_pos hsame]
    exact keeps_revise hs ht hsame
  · rw [if_neg hsame, if_neg hsame]
    exact keeps_inferByShape hs ht

/-- **Main theorem.** Two timeless judgments are refused in both orders or in none. What a rule
derives in one order it derives in the other order as well, unless it is one-sided; so the same is
derived in both orders exactly when nothing that is derived is one-sided. -/
theorem derive_exchange (p : Standpoint) (hs : s.IsPremise v) (ht : t.IsPremise w)
    (ids ids' : IdSupply) :
    (mayInteract s t = false → p.derive ids s t = .error .noInteraction ∧
      p.derive ids' t s = .error .noInteraction) ∧
    (mayInteract s t = true → ∃ ds es rest rest',
      p.derive ids s t = .ok (ds, rest) ∧ p.derive ids' t s = .ok (es, rest') ∧
      (∀ rule text, Derives ds rule text →
        (Derives es rule text ↔ ¬ OneSided p s t v w rule)) ∧
      (∀ rule text, Derives es rule text →
        (Derives ds rule text ↔ ¬ OneSided p t s w v rule)) ∧
      ((∀ rule text, Derives ds rule text ↔ Derives es rule text) ↔
        (∀ rule text, Derives ds rule text → ¬ OneSided p s t v w rule) ∧
          ∀ rule text, Derives es rule text → ¬ OneSided p t s w v rule)) := by
  have hcomm := mayInteract_comm hs.isEvent_eq ht.isEvent_eq
  refine ⟨fun interact => ?_, fun interact => ?_⟩
  · have interact' := hcomm.symm.trans interact
    constructor
    · rw [derive, infer, interact]
      rfl
    · rw [derive, infer, interact']
      rfl
  · obtain ⟨ds, rest, hds, hsaid⟩ := derive_eq (p := p) hs ht interact ids
    obtain ⟨es, rest', hes, hsaid'⟩ := derive_eq (p := p) ht hs (hcomm.symm.trans interact) ids'
    -- Both directions are what the rules say, read for the sentences that they number.
    have hforth : ∀ rule text, Derives ds rule text →
        (Derives es rule text ↔ ¬ OneSided p s t v w rule) := by
      intro rule text hderives
      rw [hsaid']
      exact keeps_infer hs ht rule text ((hsaid rule text).1 hderives)
    have hback : ∀ rule text, Derives es rule text →
        (Derives ds rule text ↔ ¬ OneSided p t s w v rule) := by
      intro rule text hderives
      rw [hsaid]
      exact keeps_infer ht hs rule text ((hsaid' rule text).1 hderives)
    -- The same is derived exactly if nothing on either side is lost to the other.
    refine ⟨ds, es, rest, rest', hds, hes, hforth, hback, fun hsame => ⟨?_, ?_⟩, ?_⟩
    · intro rule text hderives
      exact (hforth rule text hderives).1 ((hsame rule text).1 hderives)
    · intro rule text hderives
      exact (hback rule text hderives).1 ((hsame rule text).2 hderives)
    · rintro ⟨hleft, hright⟩ rule text
      exact ⟨fun h => (hforth rule text h).2 (hleft rule text h),
        fun h => (hback rule text h).2 (hright rule text h)⟩

/-- A statement about two terms. -/
abbrev isA (subject predicate : String) : Term :=
  .statement (.atom subject) .inheritance (.atom predicate) 0

theorem isPremise_default {statement : Term} (id : SentenceId) (h : statement.Named) :
    (Sentence.fresh statement (.judgment .default) id none).IsPremise .default where
  kind_eq := rfl
  occurrence_eq := rfl
  held := by decide
  telling := by decide
  named := h

theorem named_isA {subject predicate : String}
    (hs : Term.ofName subject = .ok (.atom subject))
    (hp : Term.ofName predicate = .ok (.atom predicate)) : (isA subject predicate).Named :=
  .statement (Term.Built.ofName hs).named (Term.Built.ofName hp).named

/-- What leads to a condition after a while leads to what holds under it; but this is deduced only
if the implication that says nothing of time is the first premise. -/
theorem derive_exchange_timed :
    let s := Sentence.fresh (.statement (isA "c" "d") .implication (isA "e" "f") 0)
      (.judgment .default) ⟨0⟩ none
    let t := Sentence.fresh (.statement (isA "a" "b") .predictiveImplication (isA "c" "d") 0)
      (.judgment .default) ⟨1⟩ none
    s.IsPremise .default ∧ t.IsPremise .default ∧ mayInteract s t = true ∧
      ∃ ds es rest rest', derive ⟨{}, 0⟩ ⟨2⟩ s t = .ok (ds, rest) ∧
        derive ⟨{}, 0⟩ ⟨2⟩ t s = .ok (es, rest') ∧
        Derives ds .deduction "((a --> b) ==> (e --> f))" ∧
        ¬ Derives es .deduction "((a --> b) ==> (e --> f))" := by
  intro s t
  have hs : s.IsPremise .default :=
    isPremise_default _ (.statement (named_isA rfl rfl) (named_isA rfl rfl))
  have ht : t.IsPremise .default :=
    isPremise_default _ (.statement (named_isA rfl rfl) (named_isA rfl rfl))
  have interact : mayInteract s t = true := by decide +kernel
  obtain ⟨ds, es, rest, rest', hds, hes, hforth, _⟩ :=
    (derive_exchange ⟨{}, 0⟩ hs ht ⟨2⟩ ⟨2⟩).2 interact
  have hdeduced : ((derive ⟨{}, 0⟩ ⟨2⟩ s t).toOption.map fun derived => derived.1.any fun d =>
      d.stamp.rule == some .deduction && d.statement.text == "((a --> b) ==> (e --> f))") =
        some true := by decide +kernel
  rw [hds] at hdeduced
  have hderives : Derives ds .deduction "((a --> b) ==> (e --> f))" := by
    simpa [Derives, Except.toOption] using hdeduced
  exact ⟨hs, ht, interact, ds, es, rest, rest', hds, hes, hderives, fun hback =>
    (hforth _ _ hderives).1 hback (.inl ⟨_, _, rfl, rfl, rfl, rfl, rfl⟩)⟩

end Standpoint

end NonAxiomatic
