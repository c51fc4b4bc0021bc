import NonAxiomatic.Proofs.Reading
import NonAxiomatic.Proofs.Schema

/-!
# Well-formed terms

The shape of the terms that come into being (`Term.Formed`): names are made up of their characters,
no compound is empty and every set is a singleton, what may change places is sorted, and a compound
has the intervals that go with its operands.

Terms come into being by `Term.compose` and `Term.relate`, so that every term that is read and every
statement that a rule allows is well-formed.

* `Term.formed_parseChars`: what is read is well-formed.
* `Rule.Allows.formed`: what is concluded from well-formed premises is well-formed.
-/

namespace NonAxiomatic

namespace Term

/-- Built by the constructors, from parts that are. Nothing is said about variables. -/
inductive Formed : Term → Prop where
  | atom {name : String} (nonempty : name ≠ "")
      (characters : ∀ c ∈ name.toList, isNameChar c = true) : Formed (.atom name)
  | var {kind : VariableKind} {name : String} {dependencies : List Term} :
      Formed (.var kind name dependencies)
  | compound {connector : Connector} {operands : List Term} {intervals : List UInt32}
      (nonempty : operands ≠ []) (single : connector.isSet = true → operands.length = 1)
      (sorted : connector.isOrderInvariant = true → operands.Pairwise fun s t => precedes s t)
      (fitted : fitIntervals connector operands intervals = intervals)
      (all : ∀ t ∈ operands, Formed t) : Formed (.compound connector operands intervals)
  | statement {subject : Term} {copula : Copula} {predicate : Term} {interval : UInt32}
      (sorted : copula.isSymmetric = true → ¬predicate.text < subject.text)
      (left : Formed subject) (right : Formed predicate) :
      Formed (.statement subject copula predicate interval)

/-! ## Building -/

theorem precedes_trans (s t u : Term) (h : precedes s t) (h' : precedes t u) : precedes s u := by
  simp only [precedes, decide_eq_true_eq] at h h' ⊢
  exact String.le_trans h h'

theorem precedes_total (s t : Term) : precedes s t || precedes t s := by
  simp only [precedes, Bool.or_eq_true, decide_eq_true_eq]
  exact String.le_total s.text t.text

/-- What fits keeps fitting, also after the operands have changed places. -/
theorem fitIntervals_fitIntervals {connector : Connector} {operands operands' : List Term}
    (h : operands'.length = operands.length) (intervals : List UInt32) :
    fitIntervals connector operands' (fitIntervals connector operands intervals) =
      fitIntervals connector operands intervals := by
  cases connector <;> simp only [fitIntervals, h]
  rw [resize, length_resize, Nat.sub_self, List.replicate_zero, List.append_nil,
    List.take_of_length_le (Nat.le_of_eq (length_resize _ _ _))]

theorem formed_composeFlat {connector : Connector} {operands : List Term} (hne : operands ≠ [])
    (hset : connector.isSet = true → operands.length = 1) (hall : ∀ t ∈ operands, t.Formed)
    (intervals : List UInt32) : (composeFlat connector operands intervals).Formed := by
  unfold composeFlat
  split
  · refine .compound ?_ ?_ ?_ ?_ ?_
    · intro hnil
      have := congrArg List.length hnil
      rw [length_stableSort, List.length_nil] at this
      exact hne (List.eq_nil_of_length_eq_zero this)
    · intro hs
      rw [length_stableSort]
      exact hset hs
    · exact fun _ => pairwise_stableSort precedes_trans precedes_total operands
    · exact fitIntervals_fitIntervals (length_stableSort _ _) intervals
    · intro t ht
      exact hall t (mem_stableSort.1 ht)
  · rename_i hfixed
    refine .compound hne hset ?_ ?_ hall
    · exact fun h => absurd h hfixed
    · exact fitIntervals_fitIntervals rfl intervals

theorem formed_compose {connector : Connector} {operands : List Term} (hne : operands ≠ [])
    (hall : ∀ t ∈ operands, t.Formed) (intervals : List UInt32) :
    (compose connector operands intervals).Formed := by
  unfold compose
  split
  -- A set of several elements is spelled as an intersection or union of singletons, which are
  -- sorted in turn.
  · have hjoined : connector.joined.isSet = false := by
      cases connector <;> rfl
    refine formed_composeFlat ?_ ?_ ?_ _
    · simpa using hne
    · intro hs
      rw [hjoined] at hs
      exact absurd hs (by decide)
    · intro t ht
      obtain ⟨u, hu, rfl⟩ := List.mem_map.1 ht
      refine formed_composeFlat (List.cons_ne_nil _ _) (fun _ => rfl) ?_ _
      intro v hv
      obtain rfl := List.mem_singleton.1 hv
      exact hall v hu
  · rename_i hfew
    refine formed_composeFlat hne ?_ hall _
    intro hs
    have hpos := List.length_pos_iff.2 hne
    simp only [hs, Bool.true_and, decide_eq_true_eq] at hfew
    omega

theorem formed_relate {subject predicate : Term} (hs : subject.Formed) (hp : predicate.Formed)
    (copula : Copula) (interval : UInt32) : (relate subject copula predicate interval).Formed := by
  unfold relate
  split
  · rename_i hswap
    simp only [Bool.and_eq_true, decide_eq_true_eq] at hswap
    exact .statement (fun _ => String.lt_asymm hswap.2) hp hs
  · rename_i hkeep
    refine .statement (fun hsym hlt => hkeep ?_) hs hp
    simp only [hsym, hlt, decide_true, Bool.and_self]

theorem Formed.operands {connector : Connector} {operands : List Term} {intervals : List UInt32}
    (h : (Term.compound connector operands intervals).Formed) : ∀ t ∈ operands, t.Formed := by
  cases h with
  | compound _ _ _ _ all => exact all

theorem Formed.negated {t : Term} (h : t.Formed) : t.negated.Formed := by
  unfold Term.negated
  split
  · exact h.operands _ (by simp)
  · exact formed_compose (List.cons_ne_nil _ _) (by simpa using h) _

theorem Formed.relation? {t : Term} (h : t.Formed) {r : Relation} (hr : t.relation? = some r) :
    ∀ side, (r.on side).Formed := by
  obtain rfl := eq_of_relation? hr
  cases h with
  | statement _ left right =>
    intro side
    cases side with
    | subject => exact left
    | predicate => exact right

theorem Formed.denied? {t u : Term} (h : t.Formed) (hu : t.denied? = some u) : u.Formed := by
  unfold Term.denied? at hu
  split at hu
  · exact h.operands u (List.mem_of_mem_head? hu)
  · exact absurd hu (by simp)

theorem Formed.conjuncts {t u : Term} (h : t.Formed) (hu : u ∈ t.conjuncts) : u.Formed := by
  unfold Term.conjuncts at hu
  split at hu
  · split at hu
    · exact h.operands u hu
    · obtain rfl := List.mem_singleton.1 hu
      exact h
  · obtain rfl := List.mem_singleton.1 hu
    exact h

theorem Formed.without? {t removed u : Term} (h : t.Formed) (hu : t.without? removed = some u) :
    u.Formed := by
  cases t with
  | compound connector operands intervals =>
    simp only [Term.without?] at hu
    split at hu
    · exact absurd hu (by simp)
    · split at hu
      · exact absurd hu (by simp)
      · rename_i i _
        have hrest : ∀ v ∈ operands.eraseIdx i, v.Formed := fun v hv =>
          h.operands v (List.mem_of_mem_eraseIdx hv)
        split at hu
        · exact absurd hu (by simp)
        · rename_i last hlast
          obtain rfl := Option.some.inj hu
          exact hrest _ (by rw [hlast]; simp)
        · rename_i hne _
          obtain rfl := Option.some.inj hu
          exact formed_compose hne hrest _
  | _ => exact absurd hu (by simp [Term.without?])

theorem Formed.join? {connector : Connector} {t u w : Term} (ht : t.Formed) (hu : u.Formed)
    (hw : Term.join? connector t u = some w) : w.Formed := by
  unfold Term.join? at hw
  split at hw
  · exact absurd hw (by simp)
  · obtain rfl := Option.some.inj hw
    refine formed_compose (List.cons_ne_nil _ _) ?_ _
    intro v hv
    rcases List.mem_cons.1 hv with rfl | hv
    · exact ht
    · obtain rfl := List.mem_singleton.1 hv
      exact hu

theorem Formed.nonempty {connector : Connector} {operands : List Term} {intervals : List UInt32}
    (h : (Term.compound connector operands intervals).Formed) : operands ≠ [] := by
  cases h with
  | compound nonempty _ _ _ _ => exact nonempty

theorem Formed.extraConjuncts {t u w : Term} (h : t.Formed) (hw : w ∈ t.extraConjuncts u) :
    w.Formed :=
  h.conjuncts (List.mem_filter.1 hw).1

/-! ## Names -/

/-- Every name in a term, those of variables among them, is made up of the characters of names. -/
inductive Named : Term → Prop where
  | atom {name : String} (nonempty : name ≠ "")
      (characters : ∀ c ∈ name.toList, isNameChar c = true) : Named (.atom name)
  | var {kind : VariableKind} {name : String} {dependencies : List Term} (nonempty : name ≠ "")
      (characters : ∀ c ∈ name.toList, isNameChar c = true) (all : ∀ t ∈ dependencies, Named t) :
      Named (.var kind name dependencies)
  | compound {connector : Connector} {operands : List Term} {intervals : List UInt32}
      (all : ∀ t ∈ operands, Named t) : Named (.compound connector operands intervals)
  | statement {subject : Term} {copula : Copula} {predicate : Term} {interval : UInt32}
      (left : Named subject) (right : Named predicate) :
      Named (.statement subject copula predicate interval)

theorem named_composeFlat {connector : Connector} {operands : List Term}
    (h : ∀ t ∈ operands, t.Named) (intervals : List UInt32) :
    (composeFlat connector operands intervals).Named := by
  refine .compound fun t ht => ?_
  split at ht
  · exact h t (mem_stableSort.1 ht)
  · exact h t ht

theorem named_compose {connector : Connector} {operands : List Term}
    (h : ∀ t ∈ operands, t.Named) (intervals : List UInt32) :
    (compose connector operands intervals).Named := by
  unfold compose
  split
  · refine named_composeFlat (fun t ht => ?_) []
    obtain ⟨u, hu, rfl⟩ := List.mem_map.1 ht
    exact named_composeFlat (by simpa using h u hu) []
  · exact named_composeFlat h intervals

theorem named_relate {subject predicate : Term} (hs : subject.Named) (hp : predicate.Named)
    (copula : Copula) (interval : UInt32) : (relate subject copula predicate interval).Named := by
  unfold relate
  split
  · exact .statement hp hs
  · exact .statement hs hp

theorem ofVariable_eq_ok {kind : VariableKind} {name : String} {dependencies : List Term}
    {t : Term} : ofVariable kind name dependencies = .ok t ↔ t = var kind name dependencies ∧
      name ≠ "" ∧ ∀ c ∈ name.toList, isNameChar c = true := by
  simp only [ofVariable, Bool.or_eq_true, String.isEmpty_iff, Bool.not_eq_true',
    List.all_eq_false]
  by_cases h : name = "" ∨ ∃ c ∈ name.toList, ¬isNameChar c = true
  · simp only [h, if_true, reduceCtorEq, false_iff, not_and, not_forall]
    rintro _ hne
    obtain hempty | ⟨c, hc, hbad⟩ := h
    · exact absurd hempty hne
    · exact ⟨c, hc, hbad⟩
  · rw [if_neg h, Except.ok.injEq]
    push Not at h
    exact ⟨fun ht => ⟨ht.symm, h⟩, fun ht => ht.1.symm⟩

/-! ## Without variables -/

/-- Well-formed, and without variables. -/
structure Ground (t : Term) : Prop where
  formed : t.Formed
  plain : t.mentionsVariable = false

namespace Ground

theorem operand {connector : Connector} {operands : List Term} {intervals : List UInt32} {t : Term}
    (h : (Term.compound connector operands intervals).Ground) (ht : t ∈ operands) : t.Ground :=
  ⟨h.formed.operands t ht, mentionsVariable_operand h.plain ht⟩

theorem sides {subject predicate : Term} {copula : Copula} {interval : UInt32}
    (h : (Term.statement subject copula predicate interval).Ground) :
    subject.Ground ∧ predicate.Ground := by
  obtain ⟨hs, hp⟩ := mentionsVariable_statement.1 h.plain
  cases h.formed with
  | statement _ left right => exact ⟨⟨left, hs⟩, ⟨right, hp⟩⟩

/-- Induction over a term without variables. -/
@[elab_as_elim]
theorem induct {motive : ∀ t : Term, t.Ground → Prop}
    (atom : ∀ {name : String} (h : (Term.atom name).Ground), name ≠ "" →
      (∀ c ∈ name.toList, isNameChar c = true) → motive _ h)
    (compound : ∀ {connector : Connector} {operands : List Term} {intervals : List UInt32}
      (h : (Term.compound connector operands intervals).Ground),
      (∀ t (ht : t ∈ operands), motive t (h.operand ht)) → motive _ h)
    (statement : ∀ {subject : Term} {copula : Copula} {predicate : Term} {interval : UInt32}
      (h : (Term.statement subject copula predicate interval).Ground),
      motive subject h.sides.1 → motive predicate h.sides.2 → motive _ h)
    {t : Term} (h : t.Ground) : motive t h := by
  obtain ⟨hformed, hplain⟩ := h
  induction hformed with
  | atom nonempty characters => exact atom _ nonempty characters
  | var =>
    rw [mentionsVariable_var] at hplain
    exact absurd hplain (by decide)
  | compound nonempty single sorted fitted all ih =>
    refine compound ⟨.compound nonempty single sorted fitted all, hplain⟩ ?_
    intro t ht
    exact ih t ht (mentionsVariable_operand hplain ht)
  | statement sorted left right ihs ihp =>
    obtain ⟨hs, hp⟩ := mentionsVariable_statement.1 hplain
    exact statement ⟨.statement sorted left right, hplain⟩ (ihs hs) (ihp hp)

theorem named {t : Term} (h : t.Ground) : t.Named := by
  induction h using induct with
  | atom _ nonempty characters => exact .atom nonempty characters
  | compound _ ih => exact .compound ih
  | statement _ ihs ihp => exact .statement ihs ihp

end Ground

/-! ## Reading -/

theorem formed_readsOperands {read : List Char → Except SyntaxError Term} {whole : String}
    {connector : Connector} {body : List Char} {t : Term}
    (hread : ∀ text t, read text = .ok t → t.Formed)
    (h : ReadsOperands read whole connector body t) : t.Formed := by
  obtain ⟨tokens, operands, _, hall, hne, rfl⟩ := h
  refine formed_compose hne ?_ _
  intro u hu
  obtain ⟨x, hx, hterm⟩ := List.mem_filterMap.1 hu
  obtain ⟨token, _, hoperand⟩ := exists_of_mem_right hall hx
  obtain ⟨_, ⟨_, n, _, rfl⟩ | ⟨_, v, hv, rfl⟩⟩ := readOperand_eq_ok.1 hoperand
  · exact absurd hterm (by simp [Operand.term?])
  · obtain rfl := Option.some.inj hterm
    exact hread token v hv

theorem formed_readAt {depth : Nat} {text : List Char} {t : Term}
    (h : readAt depth text = .ok t) : t.Formed := by
  induction depth generalizing text t with
  | zero => exact absurd h (by simp [readAt])
  | succ depth ih =>
    cases readAs_of_readAt h with
    | statement _ _ _ hs hp heq =>
      subst heq
      exact formed_relate (ih hs) (ih hp) _ _
    | compound _ reads => exact formed_readsOperands (fun _ _ => ih) reads
    | var _ reads =>
      obtain ⟨_, _, _, ht, _⟩ := readVariable_eq_ok reads
      obtain ⟨rfl, _⟩ := ofVariable_eq_ok.1 ht
      exact .var
    | name reads =>
      obtain ⟨rfl, hne, hchars⟩ := ofName_eq_ok.1 reads
      exact .atom hne hchars

theorem formed_parseChars {text : List Char} {t : Term} (h : parseChars text = .ok t) :
    t.Formed := by
  simp only [parseChars] at h
  split at h
  · exact absurd h (by simp)
  · split at h
    · exact absurd h (by simp)
    · exact formed_readAt h

end Term

namespace Relation

theorem formed_across? {r : Relation} {t u : Term} (h : ∀ side, (r.on side).Formed)
    (hu : r.across? t = some u) : u.Formed := by
  unfold across? at hu
  split at hu
  · obtain rfl := Option.some.inj hu
    exact h .subject
  · split at hu
    · obtain rfl := Option.some.inj hu
      exact h .predicate
    · exact absurd hu (by simp)

theorem formed_substitute? {a b : Relation} {subject predicate : Term}
    (ha : ∀ side, (a.on side).Formed) (hb : ∀ side, (b.on side).Formed)
    (h : a.substitute? b = some (subject, predicate)) : subject.Formed ∧ predicate.Formed := by
  rw [substitute?, Option.orElse_eq_orElse, Option.orElse_eq_or] at h
  rcases Option.or_eq_some_iff.1 h with h | ⟨_, h⟩
  · obtain ⟨u, hu, heq⟩ := Option.map_eq_some_iff.1 h
    obtain ⟨rfl, rfl⟩ := Prod.mk.inj heq
    exact ⟨formed_across? hb hu, ha .predicate⟩
  · obtain ⟨u, hu, heq⟩ := Option.map_eq_some_iff.1 h
    obtain ⟨rfl, rfl⟩ := Prod.mk.inj heq
    exact ⟨ha .subject, formed_across? hb hu⟩

end Relation

/-! ## Conclusions -/

open Term

/-- What is concluded from well-formed premises is well-formed. -/
theorem Rule.Allows.formed {r : Rule} {t u w : Term} (h : r.Allows t u w) (ht : t.Formed)
    (hu : u.Formed) : w.Formed := by
  -- The sides of the two premises are formed; what a rule puts together of them is, too.
  have parts : ∀ {a b : Relation}, Relation.asymmetricPair? t u = some (a, b) →
      (∀ side, (a.on side).Formed) ∧ ∀ side, (b.on side).Formed := by
    intro a b hab
    obtain ⟨ha, hb, _⟩ := Relation.asymmetricPair?_eq_some.1 hab
    exact ⟨ht.relation? ha, hu.relation? hb⟩
  cases h with
  | restatement => exact ht
  | blend gaps' same => exact formed_compose ht.nonempty ht.operands gaps'
  | syllogism figure pair =>
    obtain ⟨ha, hb⟩ := parts pair
    exact formed_relate (hb _) (ha _) _ _
  | comparison pair =>
    obtain ⟨ha, hb⟩ := parts pair
    exact formed_relate (hb _) (ha _) _ _
  | substitution first second _ replaced =>
    obtain ⟨hs, hp⟩ :=
      Relation.formed_substitute? (ht.relation? first) (hu.relation? second) replaced
    exact formed_relate hs hp _ _
  | joinSubjects pair _ _ joined =>
    obtain ⟨ha, hb⟩ := parts pair
    exact formed_relate (Formed.join? (ha .subject) (hb .subject) joined) (ha .predicate) _ _
  | joinPredicates pair _ _ joined =>
    obtain ⟨ha, hb⟩ := parts pair
    exact formed_relate (ha .subject) (Formed.join? (ha .predicate) (hb .predicate) joined) _ _
  | subtractSubjects pair _ joined =>
    obtain ⟨ha, hb⟩ := parts (Relation.firstOrderPair?_eq_some.1 pair).1
    exact formed_relate (Formed.join? (ha .subject) (hb .subject) joined) (ha .predicate) _ _
  | subtractPredicates pair _ joined =>
    obtain ⟨ha, hb⟩ := parts (Relation.firstOrderPair?_eq_some.1 pair).1
    exact formed_relate (ha .subject) (Formed.join? (ha .predicate) (hb .predicate) joined) _ _
  | conditionalAnalogy second _ side =>
    have hb := hu.relation? second
    rcases side with ⟨_, rfl⟩ | ⟨_, rfl⟩
    · exact hb .predicate
    · exact hb .subject
  | conditionalDeduction first =>
    exact ht.relation? (Term.implication?_eq_some.1 first).1 .predicate
  | conditionalAbduction first =>
    exact ht.relation? (Term.implication?_eq_some.1 first).1 .subject
  | goalDeduction second => exact hu.relation? (Term.implication?_eq_some.1 second).1 .subject
  | goalInduction second => exact hu.relation? (Term.implication?_eq_some.1 second).1 .predicate
  | simplifyGoal rest => exact ht.without? rest
  | simplifyNegatedGoal denied rest =>
    have hw := (ht.denied? denied).without? rest
    exact formed_compose (List.cons_ne_nil _ _) (by simpa using hw) _
  | conjunctionalDeduction first rest =>
    have ha := ht.relation? (Term.implication?_eq_some.1 first).1
    exact formed_relate ((ha .subject).without? rest) (ha .predicate) _ _
  | conjunctionalAbduction first second _ extra =>
    have ha := ht.relation? (Term.implication?_eq_some.1 first).1
    exact Formed.extraConjuncts (ha .subject) (extra ▸ List.mem_singleton_self w)

theorem Standpoint.formed_inferEvents {p : Standpoint} {s t : Sentence} {c : Conclusion}
    (hs : s.statement.Formed) (ht : t.statement.Formed) (h : c ∈ p.inferEvents s t) :
    c.statement.Formed := by
  obtain ⟨_, e, he, h⟩ := inOrder?_of_inferEvents h
  obtain ⟨hfirst, hsecond⟩ : e.first.statement.Formed ∧ e.second.statement.Formed := by
    obtain ⟨_, _, order⟩ := Succession.inOrder?_cases he
    rcases order with ⟨hf, hg⟩ | ⟨hf, hg⟩
    · rw [hf, hg]
      exact ⟨hs, ht⟩
    · rw [hf, hg]
      exact ⟨ht, hs⟩
  have built : ∀ {w function rule}, e.conclude p w function rule = some c → w.Formed →
      c.statement.Formed := by
    intro w function rule hc hw
    obtain ⟨_, _, _, rfl⟩ := conclude_eq_some.1 hc
    exact hw
  have hboth : ∀ v ∈ [e.first.statement, e.second.statement], v.Formed := by
    simp [hfirst, hsecond]
  rcases h with h | h
  · apply built h
    split
    · exact formed_compose (List.cons_ne_nil _ _) hboth _
    · exact formed_compose (List.cons_ne_nil _ _) hboth _
  · unfold Succession.leadsTo at h
    split at h
    · exact absurd h (by simp)
    · exact built h (formed_relate hfirst hsecond _ _)

theorem contraposeConjunction_formed {s : Sentence} {c : Conclusion} (hs : s.statement.Formed)
    (h : contraposeConjunction s = some c) : c.statement.Formed := by
  simp only [contraposeConjunction, Option.bind_eq_bind, Option.bind_eq_some_iff,
    Option.ite_none_left_eq_some, Option.bind_none] at h
  obtain ⟨_, _, _, _, h⟩ := h
  simp only [contrapose, Option.bind_eq_bind, Option.bind_eq_some_iff, concludeAlone,
    Option.ite_none_left_eq_some, Option.some.injEq] at h
  obtain ⟨r, hr, v, _, _, rfl⟩ := h
  have hsides := hs.relation? (Term.implication?_eq_some.1 hr).1
  exact formed_relate (hsides .predicate).negated (hsides .subject).negated _ _

end NonAxiomatic
