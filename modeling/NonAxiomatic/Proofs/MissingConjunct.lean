import NonAxiomatic.Proofs.Exchange
import NonAxiomatic.Proofs.Network

/-!
# The missing conjunct

Two implications with the same predicate, of which the condition of the first has one conjunct more
than that of the second (`Term.Exceeds`). Then the second one says that the predicate may hold
because of the other conjuncts alone, and what is left to explain it is the missing one.

**Theorem (`Standpoint.derivedBy_of_exceeds`).** Let two such timeless judgments have held and say
something. The missing conjunct and nothing else is recovered in both orders of the premises, if it
stands once in the longer condition.

Conjuncts are counted as often as they stand in a condition. So a conjunct that is repeated is more
than one conjunct, and is not recovered at all: `Standpoint.repeated_conjunct_not_recovered`.
-/

namespace NonAxiomatic

/-! ## Conditions that differ by a conjunct -/

namespace Term

/-- Whether `x` is the only conjunct of the first term that the second one has not, and the second
one has no others. -/
structure Exceeds (a b x : Term) : Prop where
  mem : x ∈ a.conjuncts
  missing : b.conjuncts.contains x = false
  only : ∀ c ∈ a.conjuncts, b.conjuncts.contains c = false → c == x
  shared : ∀ c ∈ b.conjuncts, a.conjuncts.contains c = true

theorem conjuncts_skeleton (tag : VariableKind → VariableKind) (t : Term) :
    (t.skeleton tag).conjuncts = t.conjuncts.map fun c => c.skeleton tag := by
  cases t with
  | atom | var | statement => rfl
  | compound connector operands intervals =>
    rw [skeleton, conjuncts, conjuncts]
    split
    · exact skeletons_eq_map tag operands
    · rfl

namespace Exceeds

variable {a b x : Term}

theorem extraConjuncts_eq (h : a.Exceeds b x) :
    a.extraConjuncts b = a.conjuncts.filter (· == x) := by
  refine List.filter_congr fun c hc => ?_
  rw [Bool.eq_iff_iff, Bool.not_eq_true']
  constructor
  · exact h.only c hc
  · intro heq
    rw [← h.missing]
    exact List.contains_congr heq

theorem extraConjuncts_swap_eq_nil (h : a.Exceeds b x) : b.extraConjuncts a = [] := by
  refine List.filter_eq_nil_iff.2 fun c hc => ?_
  rw [h.shared c hc]
  decide

theorem length_extraConjuncts (h : a.Exceeds b x) :
    (a.extraConjuncts b).length = a.conjuncts.count x := by
  rw [h.extraConjuncts_eq, List.count, List.countP_eq_length_filter]

theorem extraConjuncts_eq_singleton (h : a.Exceeds b x) (once : a.conjuncts.count x = 1) :
    a.extraConjuncts b = [x] := by
  obtain ⟨y, hy⟩ := List.length_eq_one_iff.1 (h.length_extraConjuncts.trans once)
  have hx : x ∈ a.extraConjuncts b := by
    rw [h.extraConjuncts_eq]
    exact List.mem_filter.2 ⟨h.mem, BEq.rfl⟩
  rw [hy, List.mem_singleton] at hx
  rw [hy, hx]

theorem text_ne (h : a.Exceeds b x) (ha : a.Named) (hb : b.Named) : a.text ≠ b.text := by
  intro htext
  have htexts : a.conjuncts.map text = b.conjuncts.map text := by
    refine map_eq_of_text_eq (f := fun t => t.conjuncts.map text) (fun t => ?_) ha hb htext
    rw [conjuncts_skeleton, List.map_map]
    exact List.map_congr_left fun c _ => text_skeleton symbol_untag c
  have hx : x.text ∈ b.conjuncts.map text := htexts ▸ List.mem_map_of_mem h.mem
  obtain ⟨c, hc, hcx⟩ := List.mem_map.1 hx
  have hcontains : b.conjuncts.contains x = true :=
    List.contains_iff_exists_mem_beq.2 ⟨c, hc, beq_iff_text_eq.2 hcx.symm⟩
  rw [h.missing] at hcontains
  exact absurd hcontains (by decide)

end Exceeds

end Term

namespace Standpoint

variable {p : Standpoint} {s t : Sentence} {v w : TruthValue Double} {a b : Relation} {x : Term}

/-! ## What one rule derives -/

/-- The statements that a rule concludes, of the conclusions that say something. -/
def saidBy (rule : Rule) (cs : List Conclusion) : List Term :=
  (cs.filter fun c => c.rule == rule && !c.isVacuous).map Conclusion.statement

/-- The statements that a rule derives from two premises. -/
def derivedBy (p : Standpoint) (rule : Rule) (ids : IdSupply) (s t : Sentence) :
    Except Refusal (List Term) :=
  (fun derived => (derived.1.filter fun d => d.stamp.rule == some rule).map Sentence.statement) <$>
    p.derive ids s t

theorem saidBy_append (rule : Rule) (cs ds : List Conclusion) :
    saidBy rule (cs ++ ds) = saidBy rule cs ++ saidBy rule ds := by
  rw [saidBy, List.filter_append, List.map_append]
  rfl

theorem saidBy_eq_nil {rule r : Rule} {o : Option Conclusion} (h : ∀ c, o = some c → c.rule = r)
    (hne : r ≠ rule) : saidBy rule o.toList = [] := by
  cases o with
  | none => rfl
  | some c =>
    rw [← h c rfl] at hne
    simp [saidBy, hne]

/-- Numbering leaves the statement and the rule of a conclusion as they are. -/
theorem statements_numberAll (rule : Rule) (ids : IdSupply) (cs : List Conclusion) :
    ((Conclusion.numberAll ids cs).1.filter fun d => d.stamp.rule == some rule && !d.isVacuous).map
      Sentence.statement = saidBy rule cs := by
  induction cs generalizing ids with
  | nil => rfl
  | cons c cs ih =>
    have hkept : ((c.number ids.peek).stamp.rule == some rule && !(c.number ids.peek).isVacuous) =
        (c.rule == rule && !c.isVacuous) := rfl
    have ih := ih ids.advance
    rw [saidBy] at ih ⊢
    rw [Conclusion.numberAll, List.filter_cons, List.filter_cons, hkept]
    split
    · rw [List.map_cons, List.map_cons, ih]
      rfl
    · exact ih

theorem derivedBy_eq {rule : Rule} {cs : List Conclusion} (h : p.infer s t = .ok cs)
    (ids : IdSupply) : p.derivedBy rule ids s t = .ok (saidBy rule cs) := by
  rw [derivedBy, derive_eq_ok.2 ⟨cs, h, rfl⟩]
  refine congrArg Except.ok ?_
  rw [← statements_numberAll rule ids cs, ← List.filter_filter]

/-! ## The way to the rule -/

/-- Two implications of the same predicate, by a condition that is not the predicate itself. -/
structure ImplySame (s t : Sentence) (a b : Relation) : Prop where
  first : s.statement.relation? = some a
  second : t.statement.relation? = some b
  copula_first : a.copula = .implication
  copula_second : b.copula = .implication
  predicates : a.predicate == b.predicate
  condition_first : (a.subject == a.predicate) = false
  condition_second : (b.subject == b.predicate) = false

namespace ImplySame

theorem symm (h : ImplySame s t a b) : ImplySame t s b a :=
  ⟨h.second, h.first, h.copula_second, h.copula_first, BEq.symm h.predicates, h.condition_second,
    h.condition_first⟩

theorem subject_beq_predicate (h : ImplySame s t a b) :
    (a.subject == b.predicate) = false := by
  rw [← Bool.not_eq_true]
  intro heq
  have heq := PartialEquivBEq.trans heq (BEq.symm h.predicates)
  rw [h.condition_first] at heq
  exact absurd heq (by decide)

theorem predicate_beq_subject (h : ImplySame s t a b) :
    (a.predicate == b.subject) = false := by
  rw [BEq.comm]
  exact h.symm.subject_beq_predicate

theorem implication?_eq (h : ImplySame s t a b) : s.statement.implication? = some a := by
  rw [Term.implication?, h.first, Option.filter, h.copula_first]
  rfl

theorem named_condition (h : ImplySame s t a b) (hs : s.statement.Named) : a.subject.Named := by
  rw [Term.eq_of_relation? h.first] at hs
  cases hs with
  | statement left _ => exact left

/-- Statements with the same text have conditions with the same text. -/
theorem statement_beq (h : ImplySame s t a b) (hs : s.statement.Named) (ht : t.statement.Named)
    (hsubjects : (a.subject == b.subject) = false) : (s.statement == t.statement) = false := by
  rw [← Bool.not_eq_true] at hsubjects ⊢
  intro heq
  have hskeleton := (Term.text_eq_iff hs ht).1 (Term.beq_iff_text_eq.1 heq)
  rw [Term.eq_of_relation? h.first, Term.eq_of_relation? h.second, Term.untagged, Term.untagged,
    Term.skeleton, Term.skeleton] at hskeleton
  injection hskeleton with hsubject
  refine hsubjects (Term.beq_iff_text_eq.2 ?_)
  rw [← Term.text_untagged a.subject, ← Term.text_untagged b.subject]
  exact congrArg Term.text hsubject

theorem inferByShape_eq (h : ImplySame s t a b) (hs : s.IsPremise v) (ht : t.IsPremise w) :
    p.inferByShape s t = p.inferAsymmetric s t a b := by
  have horder : a.isFirstOrder = false ∧ b.isFirstOrder = false := by
    rw [Relation.isFirstOrder, Relation.isFirstOrder, h.copula_first, h.copula_second]
    exact ⟨rfl, rfl⟩
  have hsymmetric : a.isSymmetric = false ∧ b.isSymmetric = false := by
    rw [Relation.isSymmetric, Relation.isSymmetric, h.copula_first, h.copula_second]
    exact ⟨rfl, rfl⟩
  have htemporal : a.copula.isTemporal = false := by
    rw [h.copula_first]
    rfl
  have hrestates : a.restates b = false := by
    rw [Relation.restates, h.subject_beq_predicate, hsymmetric.1, hsymmetric.2]
    simp
  simp only [inferByShape, Term.shape, h.first, h.second, horder, inferSameOrder, hrestates,
    htemporal, hs.isEvent_eq, ht.isEvent_eq, hsymmetric, Bool.false_eq_true, if_false,
    Bool.and_false, Bool.or_false]

/-- Of all that follows, only the missing conjunct is concluded by the rule for it. -/
theorem saidBy_inferAsymmetric (h : ImplySame s t a b)
    (hsubjects : (a.subject == b.subject) = false) :
    saidBy .conditionalConjunctionalAbduction (p.inferAsymmetric s t a b) =
      saidBy .conditionalConjunctionalAbduction (p.inferConjunct s t a b) := by
  have habduction : ∀ u u' : Sentence,
      saidBy .conditionalConjunctionalAbduction (p.abduction u u').toList = [] :=
    fun _ _ => saidBy_eq_nil (fun _ => rule_syllogism) (by decide)
  have hunite : saidBy .conditionalConjunctionalAbduction (p.unite s t).toList = [] :=
    saidBy_eq_nil (fun _ => rule_join) (by decide)
  have hintersect : saidBy .conditionalConjunctionalAbduction (p.intersect s t).toList = [] :=
    saidBy_eq_nil (fun _ => rule_join) (by decide)
  have hsubtract : ∀ u u' : Sentence,
      saidBy .conditionalConjunctionalAbduction (p.subtractSubjects u u').toList = [] :=
    fun _ _ => saidBy_eq_nil (fun _ => rule_subtractSubjects) (by decide)
  have horder : a.isFirstOrder = false := by
    rw [Relation.isFirstOrder, h.copula_first]
    rfl
  simp only [inferAsymmetric, h.subject_beq_predicate, h.predicate_beq_subject, hsubjects,
    h.predicates, horder, Bool.false_eq_true, if_false, if_true, saidBy_append]
  rw [habduction, habduction, hunite, hintersect, hsubtract, hsubtract,
    saidBy_eq_nil (fun _ => rule_comparison) (by decide)]
  simp only [List.nil_append, List.append_nil]

/-- What the rule for the missing conjunct derives. -/
theorem derivedBy_eq (h : ImplySame s t a b) (hs : s.IsPremise v) (ht : t.IsPremise w)
    (interact : mayInteract s t = true) (hsubjects : (a.subject == b.subject) = false)
    (ids : IdSupply) :
    p.derivedBy .conditionalConjunctionalAbduction ids s t =
      .ok (saidBy .conditionalConjunctionalAbduction (p.inferConjunct s t a b)) := by
  rw [Standpoint.derivedBy_eq (infer_eq hs ht interact),
    h.statement_beq hs.named ht.named hsubjects, if_neg (by decide), h.inferByShape_eq hs ht,
    h.saidBy_inferAsymmetric hsubjects]

end ImplySame

/-- The missing conjunct is what the rule for it concludes. -/
theorem conjunctionalAbduction_eq (himply : ImplySame s t a b)
    (h : a.subject.Exceeds b.subject x) (once : a.subject.conjuncts.count x = 1) :
    p.conjunctionalAbduction s t =
      p.conclude s t x .abduction .conditionalConjunctionalAbduction := by
  have hpredicates : (a.predicate != b.predicate) = false := by
    rw [bne, himply.predicates]
    rfl
  simp only [conjunctionalAbduction, himply.implication?_eq, himply.symm.implication?_eq,
    Option.bind_eq_bind, Option.bind_some, hpredicates, Bool.false_eq_true, if_false,
    h.extraConjuncts_eq_singleton once]

/-- The missing conjunct is said as far as abduction says something. -/
theorem saidBy_conclude (hs : s.IsPremise v) (ht : t.IsPremise w) {statement : Term}
    {function : TruthFunction} {rule : Rule} (heads : statement.headsSentence = true)
    (tells : Tells (function.apply p.settings.horizon v w)) :
    saidBy rule (p.conclude s t statement function rule).toList = [statement] := by
  obtain ⟨c, hc, hvacuous, hrule, _⟩ :=
    says_toList.1 ((says_conclude (r := rule) hs ht).2 ⟨heads, tells, rfl, rfl⟩)
  have hstatement : c.statement = statement := by
    obtain ⟨_, _, _, rfl⟩ := conclude_eq_some.1 hc
    rfl
  simp [saidBy, hc, hvacuous, hrule, hstatement]

/-- The rule is applied to the longer condition first, in both orders of the premises. -/
theorem inferConjunct_eq (h : a.subject.Exceeds b.subject x)
    (conjunction : a.subject.isConjunction = true ∨ b.subject.isConjunction = true)
    (once : a.subject.conjuncts.count x = 1)
    (longer : b.subject.conjuncts.length < a.subject.conjuncts.length) :
    p.inferConjunct s t a b = (p.conjunctionalAbduction s t).toList ∧
      p.inferConjunct t s b a = (p.conjunctionalAbduction s t).toList := by
  have hone : (a.subject.extraConjuncts b.subject).length = 1 := h.length_extraConjuncts.trans once
  have hcompound : (!a.subject.isConjunction && !b.subject.isConjunction) = false := by
    rcases conjunction with h | h <;> simp [h]
  constructor
  · simp [inferConjunct, hcompound, hone, h.extraConjuncts_swap_eq_nil, longer]
  · rw [Bool.and_comm] at hcompound
    simp [inferConjunct, hcompound, hone, h.extraConjuncts_swap_eq_nil, longer.not_gt]

/-- A conjunct that is repeated counts as more than one. -/
theorem inferConjunct_eq_nil (h : a.subject.Exceeds b.subject x)
    (repeated : a.subject.conjuncts.count x ≠ 1) :
    p.inferConjunct s t a b = [] ∧ p.inferConjunct t s b a = [] := by
  have hmany : (a.subject.extraConjuncts b.subject).length ≠ 1 :=
    fun hone => repeated (h.length_extraConjuncts.symm.trans hone)
  constructor <;> simp [inferConjunct, h.extraConjuncts_swap_eq_nil, hmany]

/-! ## What is recovered -/

/-- **Main theorem.** Let the conditions of two timeless implications of the same predicate differ
by the conjunct `x` alone. If `x` stands once in its condition, and this is the longer one, then `x`
is the one statement that is recovered, in both orders of the premises. If `x` is repeated, nothing
is recovered. -/
theorem derivedBy_of_exceeds (p : Standpoint) (hs : s.IsPremise v) (ht : t.IsPremise w)
    (interact : mayInteract s t = true) (himply : ImplySame s t a b)
    (conjunction : a.subject.isConjunction = true ∨ b.subject.isConjunction = true)
    (h : a.subject.Exceeds b.subject x) (heads : x.headsSentence = true)
    (tells : Tells (TruthFunction.abduction.apply p.settings.horizon v w)) (ids ids' : IdSupply) :
    (a.subject.conjuncts.count x = 1 → b.subject.conjuncts.length < a.subject.conjuncts.length →
      p.derivedBy .conditionalConjunctionalAbduction ids s t = .ok [x] ∧
        p.derivedBy .conditionalConjunctionalAbduction ids' t s = .ok [x]) ∧
    (a.subject.conjuncts.count x ≠ 1 →
      p.derivedBy .conditionalConjunctionalAbduction ids s t = .ok [] ∧
        p.derivedBy .conditionalConjunctionalAbduction ids' t s = .ok []) := by
  -- Not the same condition, so that the rule for a shared condition does not apply.
  have hsubjects : (a.subject == b.subject) = false := by
    rw [← Bool.not_eq_true, Term.beq_iff_text_eq]
    exact h.text_ne (himply.named_condition hs.named) (himply.symm.named_condition ht.named)
  have interact' := (mayInteract_comm hs.isEvent_eq ht.isEvent_eq).symm.trans interact
  rw [himply.derivedBy_eq hs ht interact hsubjects,
    himply.symm.derivedBy_eq ht hs interact' (by rwa [BEq.comm])]
  -- Whether the conjunct is missing once or several times decides what `conjunctionalAbduction`
  -- finds.
  constructor
  · intro once longer
    obtain ⟨hforth, hback⟩ := inferConjunct_eq (p := p) (s := s) (t := t) h conjunction once longer
    rw [hforth, hback, conjunctionalAbduction_eq himply h once, saidBy_conclude hs ht heads tells]
    exact ⟨rfl, rfl⟩
  · intro repeated
    obtain ⟨hforth, hback⟩ := inferConjunct_eq_nil (p := p) (s := s) (t := t) h repeated
    rw [hforth, hback]
    exact ⟨rfl, rfl⟩

/-! ## Two conditions of one statement -/

/-- The judgment that `e --> f` holds under a condition. -/
abbrev onCondition (condition : Term) (id : SentenceId) : Sentence :=
  .fresh (.statement condition .implication (isA "e" "f") 0) (.judgment .default) id none

theorem isPremise_onCondition {condition : Term} (h : condition.Named) (id : SentenceId) :
    (onCondition condition id).IsPremise .default :=
  isPremise_default id (.statement h (named_isA rfl rfl))

theorem tells_abduction_default :
    Tells (TruthFunction.abduction.apply ({} : Settings).horizon .default .default) := by
  rw [Tells]
  decide +kernel

/-- From `((a --> b) && (c --> d)) ==> (e --> f)` and `(a --> b) ==> (e --> f)` to `c --> d`. -/
theorem derivedBy_of_exceeds_pair :
    let s := onCondition (.compound .conjunction [isA "a" "b", isA "c" "d"] []) ⟨0⟩
    let t := onCondition (isA "a" "b") ⟨1⟩
    derivedBy ⟨{}, 0⟩ .conditionalConjunctionalAbduction ⟨2⟩ s t = .ok [isA "c" "d"] ∧
      derivedBy ⟨{}, 0⟩ .conditionalConjunctionalAbduction ⟨2⟩ t s = .ok [isA "c" "d"] := by
  intro s t
  have hs : s.IsPremise .default := isPremise_onCondition (.compound fun u hu => by
    rcases List.mem_pair.1 hu with rfl | rfl <;> exact named_isA rfl rfl) _
  have ht : t.IsPremise .default := isPremise_onCondition (named_isA rfl rfl) _
  have himply : ImplySame s t _ _ := ⟨rfl, rfl, rfl, rfl, by decide, by decide, by decide⟩
  have hexceeds : Term.Exceeds (.compound .conjunction [isA "a" "b", isA "c" "d"] [])
      (isA "a" "b") (isA "c" "d") := ⟨.tail _ (.head _), by decide, by decide, by decide⟩
  exact (derivedBy_of_exceeds ⟨{}, 0⟩ hs ht (by decide +kernel) himply (.inl rfl) hexceeds rfl
    tells_abduction_default ⟨2⟩ ⟨2⟩).1 (by decide) (by decide)

/-- From `((a --> b) && (c --> d) && (c --> d)) ==> (e --> f)` and `(a --> b) ==> (e --> f)` the
conjunct that is missing from the second condition is not recovered. -/
theorem repeated_conjunct_not_recovered :
    let big := Term.compound .conjunction [isA "a" "b", isA "c" "d", isA "c" "d"] []
    let small := isA "a" "b"
    let s := onCondition big ⟨0⟩
    let t := onCondition small ⟨1⟩
    s.IsPremise .default ∧ t.IsPremise .default ∧ mayInteract s t = true ∧
      (∃ a b, ImplySame s t a b ∧ a.subject = big ∧ b.subject = small) ∧
      big.isConjunction = true ∧ big.Exceeds small (isA "c" "d") ∧
      (isA "c" "d").headsSentence = true ∧
      Tells (TruthFunction.abduction.apply ({} : Settings).horizon .default .default) ∧
      derivedBy ⟨{}, 0⟩ .conditionalConjunctionalAbduction ⟨2⟩ s t = .ok [] ∧
      derivedBy ⟨{}, 0⟩ .conditionalConjunctionalAbduction ⟨2⟩ t s = .ok [] := by
  intro big small s t
  have hs : s.IsPremise .default := isPremise_onCondition (.compound fun u hu => by
    simp only [List.mem_cons, List.not_mem_nil, or_false, or_self] at hu
    rcases hu with rfl | rfl <;> exact named_isA rfl rfl) _
  have ht : t.IsPremise .default := isPremise_onCondition (named_isA rfl rfl) _
  have interact : mayInteract s t = true := by decide +kernel
  have interact' : mayInteract t s = true := by decide +kernel
  have himply : ImplySame s t _ _ := ⟨rfl, rfl, rfl, rfl, by decide, by decide, by decide⟩
  have hexceeds : big.Exceeds small (isA "c" "d") :=
    ⟨.tail _ (.head _), by decide, by decide, by decide⟩
  refine ⟨hs, ht, interact, ⟨_, _, himply, rfl, rfl⟩, rfl, hexceeds, rfl, tells_abduction_default,
    ?_, ?_⟩
  · rw [himply.derivedBy_eq hs ht interact (by decide),
      (inferConjunct_eq_nil hexceeds (by decide)).1]
    rfl
  · rw [himply.symm.derivedBy_eq ht hs interact' (by decide),
      (inferConjunct_eq_nil hexceeds (by decide)).2]
    rfl

end Standpoint

end NonAxiomatic
