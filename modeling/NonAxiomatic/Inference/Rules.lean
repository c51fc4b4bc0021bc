import NonAxiomatic.Inference.Conclusion

/-!
# Rules of inference

The rules, by the form of the premises that they fit, and what all of them conclude from two
premises (`Standpoint.infer`) or from one (`Standpoint.inferAlone`).
-/

namespace NonAxiomatic

/-! ## Revision

Two sentences about one statement are merged into one that rests on the evidence of both. Where
the statement is a sequence, each time gap becomes the mean of the two gaps, weighted by the
confidences.
-/

/-- The mean of two time gaps, weighted by confidences. -/
def blendGap (c₁ c₂ : Double) (g₁ g₂ : UInt32) : UInt32 :=
  ((Double.ofNat g₁.toNat * c₁ + Double.ofNat g₂.toNat * c₂) / (c₁ + c₂)).toUInt32

def revisedStatement? (s t : Sentence) : Option Term :=
  match s.statement, t.statement with
  | .compound .sequentialConjunction operands gaps, .compound _ _ gaps' => do
    let c₁ := (← s.value?).confidence
    let c₂ := (← t.value?).confidence
    return Term.compose .sequentialConjunction operands (List.zipWith (blendGap c₁ c₂) gaps gaps')
  | .compound .sequentialConjunction .., _ => none
  | statement, _ => some statement

/-- Merge two sentences about one statement. -/
def revise (p : Standpoint) (s t : Sentence) : Option Conclusion := do
  if s.statement != t.statement || s.isQuestion || t.isQuestion then none
  let statement ← revisedStatement? s t
  p.conclude s t statement .revision .revision

/-! ## Succession

Two events, one after the other or at once: that both happen (`both`), that the earlier leads to
the later (`leadsTo`), and that they come together (`accompany`). The gap between them is kept
in the conclusion.
-/

/-- Two events about different statements, in the order in which they happen. -/
structure Succession where
  /-- The event that does not happen later. -/
  first : Sentence
  /-- The event that does not happen earlier. -/
  second : Sentence
  gap : UInt64

namespace Succession

/-- Two events in the order in which they happen. An event does not follow on its like. -/
def inOrder? (s t : Sentence) : Option Succession :=
  match s.occurrence, t.occurrence with
  | some i, some j =>
    if s.statement == t.statement then none
    else if i ≤ j then some ⟨s, t, j - i⟩
    else some ⟨t, s, i - j⟩
  | _, _ => none

/-- The gap as an interval; a gap too great for one becomes the greatest. -/
def interval (e : Succession) : UInt32 :=
  if UInt32.size ≤ e.gap.toNat then 0 - 1 else e.gap.toUInt32

/-- Conclude about the statements of the two events. -/
def conclude (e : Succession) (p : Standpoint) (statement : Term) (function : TruthFunction)
    (rule : Rule) : Option Conclusion :=
  p.conclude e.first e.second statement function rule

/-- From `A` and `B` to `(&/,A,gap,B)`, or to `(&|,A,B)` when they happen at once. -/
def both (e : Succession) (p : Standpoint) : Option Conclusion :=
  let operands := [e.first.statement, e.second.statement]
  let statement :=
    if e.gap = 0 then Term.compose .parallelConjunction operands []
    else Term.compose .sequentialConjunction operands [e.interval]
  e.conclude p statement .intersection .temporalIntersection

/-- From `A` and `B` to `A =/> B`, or to `A =|> B` when they happen at once. What the reasoner does
itself is not brought about by anything. -/
def leadsTo (e : Succession) (p : Standpoint) : Option Conclusion :=
  if e.second.statement.isOperation then none
  else
    let copula := if e.gap = 0 then Copula.concurrentImplication else .predictiveImplication
    e.conclude p (Term.relate e.first.statement copula e.second.statement e.interval)
      .induction .temporalInduction

/-- From `A` and `B` to `A </> B`, or to `A <|> B` when they happen at once. -/
def accompany (e : Succession) (p : Standpoint) : Option Conclusion :=
  let copula := if e.gap = 0 then Copula.concurrentEquivalence else .predictiveEquivalence
  e.conclude p (Term.relate e.first.statement copula e.second.statement e.interval)
    .comparison .temporalComparison

end Succession

/-! ## Implications

An implication or an equivalence together with a sentence about one of its sides, or about one
conjunct of its condition; and conjunctions that are wanted while one of their conjuncts is
believed. Only implications that lead forward, from subject to predicate, are followed.
-/

/-- The parts of a statement that implies its predicate. -/
def Term.implication? (t : Term) : Option Relation :=
  t.relation?.filter fun r => r.copula.isForwardImplication

namespace Standpoint

variable (p : Standpoint) (s t : Sentence)

/-! ### One side is known -/

/-- From `S` and `S <=> P` to `P`, or from `P` to `S`. -/
def conditionalAnalogy : Option Conclusion := do
  let r ← t.statement.relation?
  if !r.copula.isEquivalence then none
  let statement ←
    if s.statement == r.subject then some r.predicate
    else if s.statement == r.predicate then some r.subject
    else none
  p.conclude s t statement .analogy .conditionalAnalogy

/-- From `S ==> P` and `S` to `P`. -/
def conditionalDeduction : Option Conclusion := do
  let r ← s.statement.implication?
  if t.statement != r.subject then none
  p.conclude s t r.predicate .deduction .conditionalJudgmentDeduction

/-- From `S ==> P` and `P` to `S`. -/
def conditionalAbduction : Option Conclusion := do
  let r ← s.statement.implication?
  if t.statement != r.predicate then none
  p.conclude s t r.subject .abduction .conditionalJudgmentAbduction

/-- From `P!` and `S ==> P` to `S!`. -/
def goalDeduction : Option Conclusion := do
  let r ← t.statement.implication?
  if !s.isGoal || s.statement != r.predicate then none
  p.conclude s t r.subject .deduction .conditionalGoalDeduction

/-- From `S!` and `S ==> P` to `P!`. -/
def goalInduction : Option Conclusion := do
  let r ← t.statement.implication?
  if !s.isGoal || s.statement != r.subject then none
  p.conclude s t r.predicate .induction .conditionalGoalInduction

/-! ### One conjunct is known -/

/-- From `(C &/ S)!` and `C` to `S!`. -/
def simplifyGoal : Option Conclusion := do
  if !s.isGoal then none
  let statement ← s.statement.without? t.statement
  p.conclude s t statement .deduction .simplifyConjunctiveGoal

/-- From `(--,(A &/ B))!` and `A` to `(--,B)!`. -/
def simplifyNegatedGoal : Option Conclusion := do
  if !s.isGoal then none
  let conjunction ← s.statement.denied?
  let rest ← conjunction.without? t.statement
  p.conclude s t (Term.compose .negation [rest] []) .induction .simplifyNegatedConjunctiveGoal

/-- From `(C && S) ==> P` and `S` to `C ==> P`. -/
def conjunctionalDeduction : Option Conclusion := do
  let r ← s.statement.implication?
  let subject ← r.subject.without? t.statement
  p.conclude s t (Term.relate subject r.copula r.predicate r.interval) .deduction
    .conditionalConjunctionalDeduction

/-- From `(C && S) ==> P` and `C ==> P` to `S`. -/
def conjunctionalAbduction : Option Conclusion := do
  let a ← s.statement.implication?
  let b ← t.statement.implication?
  if a.predicate != b.predicate then none
  match a.subject.extraConjuncts b.subject with
  | [statement] => p.conclude s t statement .abduction .conditionalConjunctionalAbduction
  | _ => none

end Standpoint

/-! ## Statements with a shared term

Two statements that share a term. The syllogistic rules relate the other two terms and leave the
shared one out:

| Rule | first | second | conclusion |
|---|---|---|---|
| Deduction | M→P | S→M | S→P |
| Abduction | P→M | S→M | S→P |
| Induction | M→P | M→S | S→P |
| Exemplification | P→M | M→S | S→P |
| Comparison | M→P, P→M | M→S, S→M | S↔P |
| Analogy | M→P, P→M | S↔M | S→P, P→S |
| Resemblance | M↔P | S↔M | S↔P |

The compositional rules keep the shared term on its side and join the other two into a compound;
terms that are compounds already are not joined.
-/

namespace Relation

def asymmetricPair? (t u : Term) : Option (Relation × Relation) := do
  let a ← t.relation?
  let b ← u.relation?
  if a.isSymmetric || b.isSymmetric then none else some (a, b)

def firstOrderPair? (t u : Term) : Option (Relation × Relation) := do
  let (a, b) ← asymmetricPair? t u
  if !a.isFirstOrder || !b.isFirstOrder then none else some (a, b)

/-- The sides of a statement after one of them has been replaced by the term that another
statement relates it to. -/
def substitute? (a b : Relation) : Option (Term × Term) :=
  ((b.across? a.subject).map fun subject => (subject, a.predicate)) <|>
    ((b.across? a.predicate).map fun predicate => (a.subject, predicate))

end Relation

def Term.join? (connector : Connector) (t u : Term) : Option Term :=
  if t.isCompound || u.isCompound then none else some (Term.compose connector [t, u] [])

namespace Standpoint

variable (p : Standpoint) (s t : Sentence)

/-! ### Leaving the shared term out -/

def concludeRelation (subject : Term) (copula : Copula) (predicate : Term)
    (function : TruthFunction) (rule : Rule) : Option Conclusion :=
  if subject == predicate then none
  else p.conclude s t (Term.relate subject copula predicate 0) function rule

/-- Relate the term that the second premise does not share with the one that the first does not
share. -/
def syllogism (inFirst inSecond : Side) (function : TruthFunction) (rule : Rule) :
    Option Conclusion := do
  let (a, b) ← Relation.asymmetricPair? s.statement t.statement
  if a.on inFirst != b.on inSecond then none
  p.concludeRelation s t (b.on inSecond.opposite) a.copula (a.on inFirst.opposite) function rule

/-- From `M→P` and `S→M` to `S→P`. -/
def deduction : Option Conclusion := p.syllogism s t .subject .predicate .deduction .deduction

/-- From `P→M` and `S→M` to `S→P`. -/
def abduction : Option Conclusion := p.syllogism s t .predicate .predicate .abduction .abduction

/-- From `M→P` and `M→S` to `S→P`. -/
def induction : Option Conclusion := p.syllogism s t .subject .subject .induction .induction

/-- From `P→M` and `M→S` to `S→P`. -/
def exemplification : Option Conclusion :=
  p.syllogism s t .predicate .subject .exemplification .exemplification

/-- From `M→P` and `M→S`, or from `P→M` and `S→M`, to `S↔P`. -/
def comparison : Option Conclusion := do
  let (a, b) ← Relation.asymmetricPair? s.statement t.statement
  let side ←
    if a.subject == b.subject then some Side.subject
    else if a.predicate == b.predicate then some Side.predicate
    else none
  let copula := if a.isFirstOrder then Copula.similarity else .equivalence
  p.concludeRelation s t (b.on side.opposite) copula (a.on side.opposite) .comparison .comparison

/-- From `M→P` and `S↔M` to `S→P`, wherever M stands. -/
def analogy : Option Conclusion := do
  let a ← s.statement.relation?
  let b ← t.statement.relation?
  if a.isSymmetric || !b.isSymmetric then none
  let (subject, predicate) ← a.substitute? b
  p.concludeRelation s t subject a.copula predicate .analogy .analogy

/-- From `M↔P` and `S↔M` to `S↔P`, wherever M stands. -/
def resemblance : Option Conclusion := do
  let a ← s.statement.relation?
  let b ← t.statement.relation?
  if !a.isSymmetric || !b.isSymmetric then none
  let (subject, predicate) ← a.substitute? b
  p.concludeRelation s t subject a.copula predicate .resemblance .resemblance

/-! ### Keeping the shared term -/

/-- Join the sides that are not shared: by one connector when both statements are about terms,
by another one otherwise. -/
def join (first higher : Connector) (ofSubjects ofPredicates : TruthFunction) (rule : Rule) :
    Option Conclusion := do
  let (a, b) ← Relation.asymmetricPair? s.statement t.statement
  let (connector, copula) :=
    if a.isFirstOrder && b.isFirstOrder then (first, Copula.inheritance)
    else (higher, Copula.implication)
  if a.predicate == b.predicate then
    let subject ← Term.join? connector a.subject b.subject
    p.conclude s t (Term.relate subject copula a.predicate 0) ofSubjects rule
  else if a.subject == b.subject then
    let predicate ← Term.join? connector a.predicate b.predicate
    p.conclude s t (Term.relate a.subject copula predicate 0) ofPredicates rule
  else none

/-- From `T₁→M` and `T₂→M` to `(T₁ | T₂)→M`, or from `M→T₁` and `M→T₂` to `M→(T₁ | T₂)`; a
disjunction for statements. -/
def unite : Option Conclusion :=
  p.join s t .intensionalIntersection .disjunction .intersection .union
    .disjunctionOrIntensionalIntersection

/-- From `T₁→M` and `T₂→M` to `(T₁ & T₂)→M`, or from `M→T₁` and `M→T₂` to `M→(T₁ & T₂)`; a
conjunction for statements. -/
def intersect : Option Conclusion :=
  p.join s t .extensionalIntersection .conjunction .union .intersection
    .conjunctionOrExtensionalIntersection

/-- From `T₁→M` and `T₂→M` to `(T₁ ~ T₂)→M`. -/
def subtractSubjects : Option Conclusion := do
  let (a, b) ← Relation.firstOrderPair? s.statement t.statement
  if a.predicate != b.predicate then none
  let subject ← Term.join? .intensionalDifference a.subject b.subject
  p.conclude s t (Term.relate subject .inheritance a.predicate 0) .difference
    .intensionalDifference

/-- From `M→T₁` and `M→T₂` to `M→(T₁ - T₂)`. -/
def subtractPredicates : Option Conclusion := do
  let (a, b) ← Relation.firstOrderPair? s.statement t.statement
  if a.subject != b.subject then none
  let predicate ← Term.join? .extensionalDifference a.predicate b.predicate
  p.conclude s t (Term.relate a.subject .inheritance predicate 0) .difference
    .extensionalDifference

end Standpoint

/-! ## Images

A relation over a product, seen from each of the things that it relates: from
`((*,a,b) --> r)` to `(a --> (/,r,_,b))` and `(b --> (/,r,a,_))`, and likewise from
`(r --> (*,a,b))` with the product on the other side.
-/

def imagePlace : Term := .atom "_"

def factors? : Term → Option (List Term)
  | .compound .product operands _ => if 1 < operands.length then some operands else none
  | _ => none

/-- Each factor, with the image of a relation seen from it. -/
def images (connector : Connector) (relation : Term) (factors : List Term) :
    List (Term × Term) :=
  factors.mapIdx fun i factor =>
    (factor, Term.compose connector (relation :: factors.set i imagePlace) [])

def inherits? (s : Sentence) : Option (Term × Term) :=
  match s.statement with
  | .statement subject .inheritance predicate _ => some (subject, predicate)
  | _ => none

/-- From `((*,a,b) --> r)` to `(a --> (/,r,_,b))`, …. -/
def extensionalImages (s : Sentence) : List Conclusion :=
  match inherits? s with
  | none => []
  | some (subject, predicate) =>
    (images .extensionalImage predicate ((factors? subject).getD [])).filterMap
      fun (factor, image) =>
        concludeAlone s (Term.relate factor .inheritance image 0) none .extensionalImage

/-- From `(r --> (*,a,b))` to `((\,r,_,b) --> a)`, …. -/
def intensionalImages (s : Sentence) : List Conclusion :=
  match inherits? s with
  | none => []
  | some (subject, predicate) =>
    (images .intensionalImage subject ((factors? predicate).getD [])).filterMap
      fun (factor, image) =>
        concludeAlone s (Term.relate image .inheritance factor 0) none .intensionalImage

/-! ## Reversals

One judgment, denied (`deny`), with its sides exchanged (`convert`), or both (`contrapose`).
-/

/-- From `S` to `(--,S)`. -/
def deny (s : Sentence) : Option Conclusion := do
  let v ← s.value?
  concludeAlone s (Term.compose .negation [s.statement] []) (some v.negation) .negation

/-- From `S→P` to `P→S`, unless `S→P` has never held. -/
def convert (p : Standpoint) (s : Sentence) : Option Conclusion := do
  let r ← s.statement.relation?
  let v ← s.value?
  if r.isSymmetric || v.frequency ≤ 0.0 then none
  concludeAlone s (Term.relate r.predicate r.copula r.subject r.interval)
    (some (v.conversion p.settings.horizon)) .conversion

/-- From `S ==> P` to `(--,P) ==> (--,S)`. -/
def contrapose (s : Sentence) : Option Conclusion := do
  let r ← s.statement.implication?
  let v ← s.value?
  concludeAlone s (Term.relate r.predicate.negated r.copula r.subject.negated 0)
    (some v.contraposition) .contraposition

/-! ## Inference from two premises

`Standpoint.infer` collects what all rules that fit a pair of premises conclude. The first premise
is the sentence that is processed, the second what is already believed or wanted.

* Premises that must not interact, or one of which says next to nothing, are refused.
* Two sentences about one statement are only revised.
* A goal and a belief go through the rules for goals.
* All other premises must have held at least once, and go together by the orders of their
  statements.

Two events are paired by `Standpoint.inferEvents`.
-/

inductive Refusal where
  /-- The premises share evidence, or one was derived from the other. -/
  | noInteraction
  /-- A premise has no evidence that could be used. -/
  | vacuousPremise
deriving DecidableEq, Repr

namespace Refusal

def message : Refusal → String
  | noInteraction => "Premises may not interact"
  | vacuousPremise => "Vacuous premise"

end Refusal

/-- The structure of a statement, as far as it decides which rules fit. -/
inductive Shape where
  | firstOrder
  | higherOrder
  | combined
deriving DecidableEq, Repr

def Term.shape (t : Term) : Shape :=
  match t.relation? with
  | some r => if r.isFirstOrder then .firstOrder else .higherOrder
  | none => .combined

namespace Standpoint

variable (p : Standpoint)

/-! ### Goals -/

def inferGoal (goal belief : Sentence) : List Conclusion :=
  match belief.statement.relation? with
  | none => []
  | some r =>
    if !r.isFirstOrder then
      if !r.copula.isForwardImplication then []
      else if r.predicate == goal.statement then (p.goalDeduction goal belief).toList
      else if r.subject == goal.statement then (p.goalInduction goal belief).toList
      else []
    else if goal.statement.isConjunction then (p.simplifyGoal goal belief).toList
    else if goal.statement.denied?.any Term.isConjunction then
      (p.simplifyNegatedGoal goal belief).toList
    else []

/-! ### Two statements of one order -/

/-- Of two implications of one statement whose conditions differ by just one conjunct, the one
with more conjuncts gives this conjunct. -/
def inferConjunct (s t : Sentence) (a b : Relation) : List Conclusion :=
  if !a.subject.isConjunction && !b.subject.isConjunction then []
  else if (a.subject.extraConjuncts b.subject).length +
      (b.subject.extraConjuncts a.subject).length != 1 then []
  else if b.subject.conjuncts.length < a.subject.conjuncts.length then
    (p.conjunctionalAbduction s t).toList
  else (p.conjunctionalAbduction t s).toList

/-- What follows from two statements whose sides must not change places. -/
def inferAsymmetric (s t : Sentence) (a b : Relation) : List Conclusion :=
  if a.subject == b.predicate then
    (p.deduction s t).toList ++ (p.exemplification t s).toList
  else if a.predicate == b.subject then
    (p.deduction t s).toList ++ (p.exemplification s t).toList
  else if a.subject == b.subject then
    (p.induction s t).toList ++ (p.induction t s).toList ++ (p.comparison s t).toList ++
      (p.unite s t).toList ++ (p.intersect s t).toList ++
      (p.subtractPredicates s t).toList ++ (p.subtractPredicates t s).toList
  else if a.predicate == b.predicate then
    (p.abduction s t).toList ++ (p.abduction t s).toList ++
      (if a.isFirstOrder then [] else p.inferConjunct s t a b) ++
      (p.unite s t).toList ++ (p.intersect s t).toList ++
      (p.subtractSubjects s t).toList ++ (p.subtractSubjects t s).toList ++
      (p.comparison s t).toList
  else []

/-- What follows from two statements of one order. Events that were observed are left to the
temporal rules. -/
def inferSameOrder (s t : Sentence) : List Conclusion :=
  match s.statement.relation?, t.statement.relation? with
  | some a, some b =>
    if a.restates b then []
    else if a.copula.isTemporal || (s.isJudgment && s.isEvent) || (t.isJudgment && t.isEvent) then
      []
    else match a.isSymmetric, b.isSymmetric with
      | false, false => p.inferAsymmetric s t a b
      | false, true => (p.analogy s t).toList
      | true, false => (p.analogy t s).toList
      | true, true => (p.resemblance s t).toList
  | _, _ => []

/-! ### A statement about statements and one about terms -/

def inferMixedOrder (higher first : Sentence) : List Conclusion :=
  match higher.statement.relation? with
  | none => []
  | some r =>
    let f := first.statement
    if r.copula.isEquivalence then
      if f == r.subject || f == r.predicate then (p.conditionalAnalogy first higher).toList else []
    else if r.copula.isForwardImplication then
      if f == r.subject then (p.conditionalDeduction higher first).toList
      else if f == r.predicate then (p.conditionalAbduction higher first).toList
      else if r.subject.conjuncts.contains f then (p.conjunctionalDeduction higher first).toList
      else []
    else []

/-! ### All pairs -/

def inferByShape (s t : Sentence) : List Conclusion :=
  match s.statement.shape, t.statement.shape with
  | .combined, .higherOrder => (p.conditionalDeduction t s).toList
  | .higherOrder, .combined => (p.conditionalDeduction s t).toList
  | .combined, _ | _, .combined => []
  | .firstOrder, .firstOrder | .higherOrder, .higherOrder => p.inferSameOrder s t
  | .higherOrder, .firstOrder => p.inferMixedOrder s t
  | .firstOrder, .higherOrder => p.inferMixedOrder t s

/-- Everything that follows from two premises. -/
def infer (s t : Sentence) : Except Refusal (List Conclusion) :=
  if !mayInteract s t then .error .noInteraction
  else if s.isVacuous || t.isVacuous then .error .vacuousPremise
  else if s.statement == t.statement then
    .ok (if !s.isQuestion && s.punctuation == t.punctuation then (revise p s t).toList else [])
  else if s.isGoal && t.isJudgment then .ok (p.inferGoal s t)
  else if s.neverHeld || t.neverHeld then .error .vacuousPremise
  else .ok (p.inferByShape s t)

/-- What follows from two different events: that both happen, and that one leads to the other. -/
def inferEvents (s t : Sentence) : List Conclusion :=
  if s.id == t.id then []
  else match Succession.inOrder? s t with
    | none => []
    | some e => (e.both p).toList ++ (e.leadsTo p).toList

end Standpoint

namespace Conclusion

/-- Number conclusions, and leave those out that say next to nothing; these use up an identity
all the same. -/
def collect (ids : IdSupply) (cs : List Conclusion) : List Sentence × IdSupply :=
  let (ss, ids) := numberAll ids cs
  (ss.filter fun s => !s.isVacuous, ids)

end Conclusion

def Standpoint.derive (p : Standpoint) (ids : IdSupply) (s t : Sentence) :
    Except Refusal (List Sentence × IdSupply) :=
  (Conclusion.collect ids) <$> p.infer s t

/-- The sentences derived from two events. -/
def Standpoint.deriveEvents (p : Standpoint) (ids : IdSupply) (s t : Sentence) :
    List Sentence × IdSupply :=
  Conclusion.collect ids (p.inferEvents s t)

/-! ## Inference from one premise

What follows from one judgment by itself. Only statements have such conclusions, and conclusions
of this kind have none in turn.
-/

/-- Contrapose a timeless judgment whose condition is a conjunction. -/
def contraposeConjunction (s : Sentence) : Option Conclusion := do
  if !s.isJudgment || s.isEvent || s.stamp.onePremise then none
  let r ← s.statement.implication?
  if !r.subject.isConjunction then none
  contrapose s

def Standpoint.inferAlone (p : Standpoint) (s : Sentence) : List Conclusion :=
  if !s.isJudgment || !s.statement.isStatement || s.stamp.onePremise then []
  else
    (deny s).toList ++ (convert p s).toList ++ (contraposeConjunction s).toList ++
      extensionalImages s ++ intensionalImages s

def Standpoint.deriveAlone (p : Standpoint) (ids : IdSupply) (s : Sentence) :
    List Sentence × IdSupply :=
  Conclusion.collect ids (p.inferAlone s)

end NonAxiomatic
