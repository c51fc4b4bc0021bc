import NonAxiomatic.Proofs.Exchange

/-!
# What conclusions are made of

A conclusion says something about what its premises say something about: its names and variables
(`Term.leaves`) are found in them, and it is smaller than both of them together (`Term.Spans`). This
is shown for every form of a rule (`Rule.Allows.spans`). A rule that relates two terms leaves the
shared one out, one that joins two terms keeps the shared one just once, and all others take a
statement apart.

**Theorem (`derive_spans`).** What is derived from two premises is less complex than both together,
is made of their names and variables, and is a statement or a combination of statements.
-/

namespace NonAxiomatic

namespace Term

/-! ## Leaves -/

mutual

/-- The names and variables that occur in a term, and what these variables depend on. -/
def leaves : Term → List Term
  | atom name => [atom name]
  | var kind name dependencies => var kind name dependencies :: leavesOf dependencies
  | compound _ operands _ => leavesOf operands
  | statement subject _ predicate _ => subject.leaves ++ predicate.leaves

/-- The names and variables that occur in several terms. -/
def leavesOf : List Term → List Term
  | [] => []
  | t :: ts => t.leaves ++ leavesOf ts

end

variable {t u w x : Term} {ts us : List Term}

theorem mem_leavesOf : x ∈ leavesOf ts ↔ ∃ t ∈ ts, x ∈ t.leaves := by
  induction ts with
  | nil => simp [leavesOf]
  | cons t ts ih => simp [leavesOf, ih]

theorem leaves_subset_leavesOf (h : t ∈ ts) : t.leaves ⊆ leavesOf ts := fun _ hx =>
  mem_leavesOf.2 ⟨t, h, hx⟩

theorem leavesOf_subset (h : us ⊆ ts) : leavesOf us ⊆ leavesOf ts := by
  intro x hx
  obtain ⟨t, ht, hx⟩ := mem_leavesOf.1 hx
  exact mem_leavesOf.2 ⟨t, h ht, hx⟩

/-! ## Size -/

theorem complexity_pos (t : Term) : 0 < t.complexity := by
  cases t <;> simp only [complexity] <;> omega

theorem complexities_perm (h : ts.Perm us) : complexities ts = complexities us := by
  rw [complexities_eq_foldr, complexities_eq_foldr]
  exact h.foldr_eq' (fun _ _ _ _ _ => by omega) 0

theorem complexity_le_complexities (h : t ∈ ts) : t.complexity ≤ complexities ts := by
  induction ts with
  | nil => exact absurd h (by simp)
  | cons u ts ih =>
    rw [complexities]
    rcases List.mem_cons.1 h with rfl | h
    · omega
    · have := ih h
      omega

theorem complexity_relate (t : Term) (copula : Copula) (u : Term) (interval : UInt32) :
    (relate t copula u interval).complexity = 1 + t.complexity + u.complexity := by
  rw [relate]
  split <;> rw [complexity]
  omega

theorem leaves_relate {xs : List Term} (ht : t.leaves ⊆ xs) (hu : u.leaves ⊆ xs) (copula : Copula)
    (interval : UInt32) : (relate t copula u interval).leaves ⊆ xs := by
  rw [relate]
  split <;> rw [leaves, List.append_subset]
  · exact ⟨hu, ht⟩
  · exact ⟨ht, hu⟩

theorem complexity_compose {connector : Connector} (h : connector.isSet = false)
    (operands : List Term) (gaps : List UInt32) :
    (compose connector operands gaps).complexity = 1 + complexities operands := by
  rw [compose_of_not_isSet h, composeFlat, complexity]
  split
  · rw [complexities_perm (stableSort_perm _ _)]
  · rfl

theorem leaves_compose {connector : Connector} {operands xs : List Term}
    (hset : connector.isSet = false) (h : leavesOf operands ⊆ xs) (gaps : List UInt32) :
    (compose connector operands gaps).leaves ⊆ xs := by
  rw [compose_of_not_isSet hset, composeFlat, leaves]
  split
  · exact List.Subset.trans (leavesOf_subset (stableSort_perm _ _).subset) h
  · exact h

/-- The terms that a sentence can be about are statements and combinations of statements. -/
theorem headsSentence_eq_true : t.headsSentence = true ↔
    t.isStatement = true ∨ t.isCompound = true ∧ t.isFirstOrder = false := by
  cases t <;> simp [headsSentence, isStatement, isCompound, isFirstOrder]

/-! ## Parts -/

/-- A term that is smaller than another one and made of its names and variables. -/
structure Below (w t : Term) : Prop where
  complexity_lt : w.complexity < t.complexity
  leaves_subset : w.leaves ⊆ t.leaves

theorem Below.trans (h : w.Below u) (h' : u.Below t) : w.Below t :=
  ⟨Nat.lt_trans h.complexity_lt h'.complexity_lt,
    List.Subset.trans h.leaves_subset h'.leaves_subset⟩

theorem below_operand {connector : Connector} {operands : List Term} {gaps : List UInt32}
    (h : w ∈ operands) : w.Below (compound connector operands gaps) := by
  refine ⟨?_, leaves_subset_leavesOf h⟩
  have := complexity_le_complexities h
  rw [complexity]
  omega

theorem below_denied (h : t.denied? = some w) : w.Below t := by
  cases t with
  | compound connector operands gaps =>
    cases connector with
    | negation => exact below_operand (List.mem_of_mem_head? h)
    | _ => exact absurd h (by simp [denied?])
  | _ => exact absurd h (by simp [denied?])

theorem eq_or_below_of_mem_conjuncts (h : w ∈ t.conjuncts) : w = t ∨ w.Below t := by
  cases t with
  | compound connector operands gaps =>
    rw [conjuncts] at h
    split at h
    · exact .inr (below_operand h)
    · exact .inl (List.mem_singleton.1 h)
  | _ => exact .inl (List.mem_singleton.1 h)

theorem complexities_eraseIdx_lt {i : Nat} (h : i < ts.length) :
    complexities (ts.eraseIdx i) < complexities ts := by
  induction ts generalizing i with
  | nil => exact absurd h (by simp)
  | cons t ts ih =>
    cases i with
    | zero =>
      have := complexity_pos t
      simp only [List.eraseIdx_cons_zero, complexities]
      omega
    | succ i =>
      simp only [List.eraseIdx_cons_succ, complexities]
      have := ih (Nat.lt_of_succ_lt_succ h)
      omega

/-- A conjunction without one of its conjuncts. -/
theorem below_without (h : t.without? u = some w) : w.Below t := by
  cases t with
  | compound connector operands gaps =>
    simp only [without?] at h
    split at h
    · exact absurd h (by simp)
    rename_i hconjunction
    split at h
    · exact absurd h (by simp)
    rename_i i hfind
    have hi : i < operands.length := (List.findIdx?_eq_some_iff_getElem.1 hfind).1
    have hless := complexities_eraseIdx_lt hi
    have hleaves : leavesOf (operands.eraseIdx i) ⊆ leavesOf operands :=
      leavesOf_subset (List.eraseIdx_subset)
    have hset : connector.isSet = false := by
      cases connector <;> first | rfl | exact absurd rfl hconjunction
    split at h
    · exact absurd h (by simp)
    · rename_i last hrest
      obtain rfl := Option.some.inj h
      exact below_operand (List.eraseIdx_subset (hrest ▸ List.mem_singleton_self _))
    · obtain rfl := Option.some.inj h
      refine ⟨?_, leaves_compose hset hleaves _⟩
      rw [complexity_compose hset, complexity]
      omega
  | _ => exact absurd h (by simp [without?])

/-- A term that is smaller than two others together and made of their names and variables. -/
structure Spans (w t u : Term) : Prop where
  complexity_lt : w.complexity < t.complexity + u.complexity
  leaves_subset : w.leaves ⊆ t.leaves ++ u.leaves

theorem Spans.swap (h : w.Spans t u) : w.Spans u t :=
  ⟨Nat.add_comm _ _ ▸ h.complexity_lt,
    List.Subset.trans h.leaves_subset List.perm_append_comm.subset⟩

theorem Below.spans (h : w.Below t) (u : Term) : w.Spans t u :=
  ⟨Nat.lt_add_right _ h.complexity_lt,
    List.subset_append_of_subset_left _ h.leaves_subset⟩

end Term

/-! ## Statements taken apart -/

namespace Relation

variable {t u : Term} {a b : Relation}

theorem complexity_eq (h : t.relation? = some a) (i : Side) :
    t.complexity = 1 + (a.on i).complexity + (a.on i.opposite).complexity := by
  rw [Term.eq_of_relation? h, Term.complexity]
  cases i <;> simp only [on, Side.opposite]
  omega

theorem leaves_on_subset (h : t.relation? = some a) (i : Side) : (a.on i).leaves ⊆ t.leaves := by
  rw [Term.eq_of_relation? h, Term.leaves]
  cases i
  · exact List.subset_append_left _ _
  · exact List.subset_append_right _ _

theorem below_on (h : t.relation? = some a) (i : Side) : (a.on i).Below t :=
  ⟨by rw [complexity_eq h i]; omega, leaves_on_subset h i⟩

/-- Relating a side of one statement with a side of another one. -/
theorem spans_relate (first : t.relation? = some a) (second : u.relation? = some b) (i j : Side)
    (copula : Copula) (gap : UInt32) : (Term.relate (a.on i) copula (b.on j) gap).Spans t u := by
  refine ⟨?_, Term.leaves_relate ?_ ?_ _ _⟩
  · have := (a.on i.opposite).complexity_pos
    rw [Term.complexity_relate, complexity_eq first i, complexity_eq second j]
    omega
  · exact List.subset_append_of_subset_left _ (leaves_on_subset first i)
  · exact List.subset_append_of_subset_right _ (leaves_on_subset second j)

/-- Joining a side of one statement with the same side of another one keeps the other side of the
first one. -/
theorem spans_join {x : Term} {connector : Connector} (first : t.relation? = some a)
    (second : u.relation? = some b) (i : Side) (hset : connector.isSet = false)
    (joined : Term.join? connector (a.on i) (b.on i) = some x) (copula : Copula) :
    (Term.relate x copula (a.on i.opposite) 0).Spans t u ∧
      (Term.relate (a.on i.opposite) copula x 0).Spans t u := by
  rw [Term.join?, Option.ite_none_left_eq_some] at joined
  obtain rfl := Option.some.inj joined.2
  have hsize := Term.complexity_compose hset [a.on i, b.on i] []
  have hleaves : (Term.compose connector [a.on i, b.on i] []).leaves ⊆ t.leaves ++ u.leaves := by
    refine Term.leaves_compose hset (List.append_subset.2 ⟨?_, ?_⟩) _
    · exact List.subset_append_of_subset_left _ (leaves_on_subset first i)
    · rw [Term.leavesOf, Term.leavesOf, List.append_nil]
      exact List.subset_append_of_subset_right _ (leaves_on_subset second i)
  have hkept : (a.on i.opposite).leaves ⊆ t.leaves ++ u.leaves :=
    List.subset_append_of_subset_left _ (leaves_on_subset first _)
  -- The term that both premises share is counted in each of them and once in the conclusion.
  have hless : 1 + (Term.compose connector [a.on i, b.on i] []).complexity +
      (a.on i.opposite).complexity < t.complexity + u.complexity := by
    have := (b.on i.opposite).complexity_pos
    rw [hsize, complexity_eq first i, complexity_eq second i]
    simp only [Term.complexities]
    omega
  refine ⟨⟨?_, Term.leaves_relate hleaves hkept _ _⟩, ⟨?_, Term.leaves_relate hkept hleaves _ _⟩⟩
  · rw [Term.complexity_relate]
    exact hless
  · rw [Term.complexity_relate]
    omega

end Relation

/-! ## Rules -/

namespace Rule

variable {r : Rule} {t u w : Term}

theorem isSet_of_joining {aboutTerms : Bool} {connector : Connector} {copula : Copula}
    (h : r.joining? aboutTerms = some (connector, copula)) : connector.isSet = false := by
  cases r <;> simp only [joining?, reduceCtorEq, Option.some.injEq] at h <;>
    split at h <;> cases h <;> rfl

/-- What a rule concludes is smaller than its premises together and made of their names and
variables. -/
theorem Allows.spans (h : r.Allows t u w) : w.Spans t u := by
  -- One case for each figure: what it concludes is put together from parts of the premises.
  cases h with
  | restatement same =>
    exact ⟨Nat.lt_add_of_pos_right u.complexity_pos, List.subset_append_left _ _⟩
  | blend gaps' same =>
    refine ⟨?_, Term.leaves_compose rfl (List.subset_append_left _ _) _⟩
    rw [Term.complexity_compose rfl, Term.complexity]
    exact Nat.lt_add_of_pos_right u.complexity_pos
  | syllogism figure pair shared different =>
    obtain ⟨first, second, _⟩ := Relation.asymmetricPair?_eq_some.1 pair
    exact (Relation.spans_relate second first _ _ _ _).swap
  | comparison pair shared different =>
    obtain ⟨first, second, _⟩ := Relation.asymmetricPair?_eq_some.1 pair
    exact (Relation.spans_relate second first _ _ _ _).swap
  | substitution first second symmetric replaced different =>
    rw [Standpoint.substitute?_eq] at replaced
    split_ifs at replaced <;> obtain ⟨rfl, rfl⟩ := Prod.mk.inj (Option.some.inj replaced)
    · exact (Relation.spans_relate second first .subject .predicate _ _).swap
    · exact (Relation.spans_relate second first .predicate .predicate _ _).swap
    · exact Relation.spans_relate first second .subject .subject _ _
    · exact Relation.spans_relate first second .subject .predicate _ _
  | joinSubjects pair joining shared joined =>
    obtain ⟨first, second, _⟩ := Relation.asymmetricPair?_eq_some.1 pair
    exact (Relation.spans_join first second .subject (isSet_of_joining joining) joined _).1
  | joinPredicates pair joining shared joined =>
    obtain ⟨first, second, _⟩ := Relation.asymmetricPair?_eq_some.1 pair
    exact (Relation.spans_join first second .predicate (isSet_of_joining joining) joined _).2
  | subtractSubjects pair shared joined =>
    obtain ⟨pair, _⟩ := Relation.firstOrderPair?_eq_some.1 pair
    obtain ⟨first, second, _⟩ := Relation.asymmetricPair?_eq_some.1 pair
    exact (Relation.spans_join first second .subject rfl joined _).1
  | subtractPredicates pair shared joined =>
    obtain ⟨pair, _⟩ := Relation.firstOrderPair?_eq_some.1 pair
    obtain ⟨first, second, _⟩ := Relation.asymmetricPair?_eq_some.1 pair
    exact (Relation.spans_join first second .predicate rfl joined _).2
  | conditionalAnalogy second equivalence side =>
    rcases side with ⟨_, rfl⟩ | ⟨_, rfl⟩
    · exact ((Relation.below_on second .predicate).spans t).swap
    · exact ((Relation.below_on second .subject).spans t).swap
  | conditionalDeduction first known =>
    exact (Relation.below_on (Term.implication?_eq_some.1 first).1 .predicate).spans u
  | conditionalAbduction first known =>
    exact (Relation.below_on (Term.implication?_eq_some.1 first).1 .subject).spans u
  | goalDeduction second wanted =>
    exact ((Relation.below_on (Term.implication?_eq_some.1 second).1 .subject).spans t).swap
  | goalInduction second wanted =>
    exact ((Relation.below_on (Term.implication?_eq_some.1 second).1 .predicate).spans t).swap
  | simplifyGoal rest => exact (Term.below_without rest).spans u
  | simplifyNegatedGoal denied rest =>
    have hdenied := Term.below_denied denied
    have hrest := Term.below_without rest
    refine Term.Below.spans ⟨?_, ?_⟩ u
    · have hless := hrest.complexity_lt
      have hless' := hdenied.complexity_lt
      rw [Term.complexity_compose rfl, Term.complexities, Term.complexities]
      omega
    · refine Term.leaves_compose rfl ?_ _
      rw [Term.leavesOf, Term.leavesOf, List.append_nil]
      exact (hrest.trans hdenied).leaves_subset
  | conjunctionalDeduction first rest =>
    have hpart := (Term.implication?_eq_some.1 first).1
    have hrest := Term.below_without rest
    refine Term.Below.spans ⟨?_, Term.leaves_relate ?_ ?_ _ _⟩ u
    · have hless := hrest.complexity_lt
      rw [Term.complexity_relate, Relation.complexity_eq hpart .subject]
      simp only [Relation.on, Side.opposite]
      omega
    · exact (hrest.trans (Relation.below_on hpart .subject)).leaves_subset
    · exact (Relation.below_on hpart .predicate).leaves_subset
  | conjunctionalAbduction first second shared extra =>
    have hpart := Relation.below_on (Term.implication?_eq_some.1 first).1 .subject
    have hconjunct : w ∈ _ := (List.mem_filter.1 (extra ▸ List.mem_singleton_self w)).1
    rcases Term.eq_or_below_of_mem_conjuncts hconjunct with rfl | hbelow
    · exact hpart.spans u
    · exact (hbelow.trans hpart).spans u

end Rule

/-! ## Derivations -/

variable {p : Standpoint} {s t r : Sentence} {ids ids' : IdSupply} {rs : List Sentence}

/-- **Main theorem.** What is derived from two premises is less complex than both together, is made
of the names and variables of them, and is a statement or a combination of statements. -/
theorem derive_spans (h : p.derive ids s t = .ok (rs, ids')) (hr : r ∈ rs) :
    r.statement.complexity < s.statement.complexity + t.statement.complexity ∧
    (∀ x ∈ r.statement.leaves, x ∈ s.statement.leaves ∨ x ∈ t.statement.leaves) ∧
    (r.statement.isStatement = true ∨
      r.statement.isCompound = true ∧ r.statement.isFirstOrder = false) := by
  obtain ⟨cs, hcs, hcollect⟩ := derive_eq_ok.1 h
  obtain rfl : (Conclusion.collect ids cs).1 = rs := by rw [hcollect]
  obtain ⟨c, hc, ids'', _, _, rfl⟩ := mem_collect hr
  have hconcludes := Standpoint.infer_concludes hcs hc
  have hspans : c.statement.Spans s.statement t.statement := by
    rcases hconcludes with hconcludes | hconcludes
    · exact hconcludes.allowed.spans
    · exact hconcludes.allowed.spans.swap
  have hheads : c.statement.headsSentence = true := by
    rcases hconcludes with hconcludes | hconcludes <;>
    · obtain ⟨_, hdrawn⟩ := hconcludes.drawn
      exact (Standpoint.conclude_eq_some.1 hdrawn).1
  refine ⟨hspans.complexity_lt, fun x hx => List.mem_append.1 (hspans.leaves_subset hx), ?_⟩
  exact Term.headsSentence_eq_true.1 hheads

/-- The name that two premises share is kept just once. -/
theorem intersection_spans :
    let s := Sentence.fresh (.statement (.atom "a") .inheritance (.atom "b") 0)
      (.judgment .default) ⟨0⟩ none
    let t := Sentence.fresh (.statement (.atom "c") .inheritance (.atom "b") 0)
      (.judgment .default) ⟨1⟩ none
    ∃ rs ids' r, Standpoint.derive ⟨{}, 0⟩ ⟨2⟩ s t = .ok (rs, ids') ∧ r ∈ rs ∧
      r.statement.text = "((&,a,c) --> b)" ∧ r.statement.complexity < 3 + 3 := by
  intro s t
  have hfound : ((Standpoint.derive ⟨{}, 0⟩ ⟨2⟩ s t).toOption.any fun derived =>
      derived.1.any fun r => r.statement.text == "((&,a,c) --> b)") = true := by decide +kernel
  obtain ⟨⟨rs, ids'⟩, hderived, hany⟩ := (Option.any_eq_true _ _).1 hfound
  obtain ⟨r, hr, htext⟩ := List.any_eq_true.1 hany
  have hderive := toOption_eq_some.1 hderived
  exact ⟨rs, ids', r, hderive, hr, beq_iff_eq.1 htext, (derive_spans hderive hr).1⟩

end NonAxiomatic
