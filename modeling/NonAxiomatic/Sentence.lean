import NonAxiomatic.Term
import NonAxiomatic.Truth

/-!
# Sentences

A sentence believes, asks or wants a statement. Beside the statement it carries the value that
goes with that (`Sentence.Kind`) and a stamp that says who it is, when it holds and what it rests
on (`Stamp`).

`mayInteract` decides whether two sentences may be premises of one inference: not when one of
them rests on the other, and not when both rest on the same evidence. An event in first place is
not held to the latter.

* `IdSupply.next_lt`: before the end, every identity is greater than those given out before.
* `IdSupply.toNat_next_advanceBy`: how far a supply has come.
* `EvidenceBase.length_merge_le`: a merged base is never longer than that.
* `EvidenceBase.mem_of_mem_merge`: merging brings in no identity of its own.
* `EvidenceBase.overlaps_comm`: sharing evidence is mutual.
* `Rule.ofName?_name`: a name names its rule.
-/

namespace NonAxiomatic

/-! ## Identities of sentences

Every sentence of a reasoner has an identity of its own, drawn from one rising supply. The supply
ends at the greatest word: from there on the last identity is given out again.
-/

structure SentenceId where
  number : UInt64
deriving DecidableEq, Repr, Inhabited

/-- The identities that are still to be given out. -/
structure IdSupply where
  next : UInt64 := 0
deriving DecidableEq, Repr, Inhabited

namespace IdSupply

def peek (ids : IdSupply) : SentenceId := ⟨ids.next⟩

def advance (ids : IdSupply) : IdSupply := ⟨if ids.next = 0 - 1 then ids.next else ids.next + 1⟩

/-- The supply after `n` identities have been given out. -/
def advanceBy (ids : IdSupply) (n : Nat) : IdSupply := n.repeat advance ids

theorem next_lt (ids : IdSupply) (h : ids.next ≠ 0 - 1) : ids.next < ids.advance.next := by
  have hne : ids.next.toNat ≠ 2 ^ 64 - 1 := fun heq =>
    h (UInt64.toNat_inj.1 (by rw [heq]; rfl))
  have hlt := ids.next.toNat_lt
  rw [UInt64.lt_iff_toNat_lt]
  simp only [advance, h, if_false, UInt64.toNat_add]
  have : UInt64.toNat 1 = 1 := rfl
  omega

theorem advanceBy_succ (ids : IdSupply) (n : Nat) :
    ids.advanceBy (n + 1) = ids.advance.advanceBy n := by
  induction n with
  | zero => rfl
  | succ n ih =>
    show (ids.advanceBy (n + 1)).advance = (ids.advance.advanceBy n).advance
    rw [ih]

/-- The supply stops at the greatest word. -/
theorem toNat_next_advance (ids : IdSupply) :
    ids.advance.next.toNat = min (ids.next.toNat + 1) (UInt64.size - 1) := by
  have hlt := ids.next.toNat_lt
  have hlast : UInt64.toNat (0 - 1) = UInt64.size - 1 := by decide
  have hsize : UInt64.size = 2 ^ 64 := rfl
  rw [advance]
  split
  · rename_i h
    rw [h, hlast]
    omega
  · rename_i h
    have hne : ids.next.toNat ≠ UInt64.size - 1 := fun heq =>
      h (UInt64.toNat_inj.1 (heq.trans hlast.symm))
    rw [UInt64.toNat_add, show UInt64.toNat 1 = 1 from rfl, Nat.mod_eq_of_lt (by omega)]
    omega

theorem toNat_next_advanceBy (ids : IdSupply) (n : Nat) :
    (ids.advanceBy n).next.toNat = min (ids.next.toNat + n) (UInt64.size - 1) := by
  induction n with
  | zero =>
    have hlt := ids.next.toNat_lt
    have hsize : UInt64.size = 2 ^ 64 := rfl
    show ids.next.toNat = _
    omega
  | succ n ih =>
    show (ids.advanceBy n).advance.next.toNat = _
    rw [toNat_next_advance, ih]
    omega

end IdSupply

/-! ## Evidential bases

The identities of the sentences that a value rests on. A base starts with the identity of its own
sentence; merging another base appends it and then leaves out the oldest identities, those in
front, until `EvidenceBase.maxLength` are left.
-/

/-- The identities of the sentences that a value rests on, oldest first. -/
structure EvidenceBase where
  ids : List SentenceId
deriving DecidableEq, Repr, Inhabited

namespace EvidenceBase

def maxLength : Nat := 30

def own (id : SentenceId) : EvidenceBase := ⟨[id]⟩

/-- The last `n` elements of a list. -/
def lastOf (n : Nat) (ids : List SentenceId) : List SentenceId := ids.drop (ids.length - n)

/-- The base that rests on what either base rests on, as far as there is room. -/
def merge (b other : EvidenceBase) : EvidenceBase := ⟨lastOf maxLength (b.ids ++ other.ids)⟩

def contains (b : EvidenceBase) (id : SentenceId) : Bool := b.ids.contains id

def overlaps (b other : EvidenceBase) : Bool := b.ids.any other.contains

theorem length_merge_le (b other : EvidenceBase) : (b.merge other).ids.length ≤ maxLength := by
  simp only [merge, lastOf, List.length_drop]
  omega

theorem mem_of_mem_merge {b other : EvidenceBase} {id : SentenceId}
    (h : id ∈ (b.merge other).ids) : id ∈ b.ids ∨ id ∈ other.ids :=
  List.mem_append.1 (List.mem_of_mem_drop h)

theorem overlaps_iff {b other : EvidenceBase} :
    b.overlaps other = true ↔ ∃ id, id ∈ b.ids ∧ id ∈ other.ids := by
  simp [overlaps, contains]

theorem overlaps_comm (b other : EvidenceBase) : b.overlaps other = other.overlaps b := by
  rw [Bool.eq_iff_iff, overlaps_iff, overlaps_iff]
  exact ⟨fun ⟨id, h, k⟩ => ⟨id, k, h⟩, fun ⟨id, h, k⟩ => ⟨id, k, h⟩⟩

end EvidenceBase

/-! ## Rules

The rules by which sentences are derived, and their names.
-/

inductive Rule where
  | revision
  | eternalization
  | projection
  | deduction
  | induction
  | abduction
  | exemplification
  | comparison
  | analogy
  | resemblance
  | disjunctionOrIntensionalIntersection
  | conjunctionOrExtensionalIntersection
  | intensionalDifference
  | extensionalDifference
  | conditionalAnalogy
  | conditionalJudgmentDeduction
  | conditionalJudgmentAbduction
  | conditionalGoalDeduction
  | conditionalGoalInduction
  | simplifyConjunctiveGoal
  | simplifyNegatedConjunctiveGoal
  | conditionalConjunctionalDeduction
  | conditionalConjunctionalAbduction
  | negation
  | conversion
  | contraposition
  | extensionalImage
  | intensionalImage
  | temporalIntersection
  | temporalInduction
  | temporalComparison
deriving DecidableEq, Repr, Inhabited

namespace Rule

def all : List Rule :=
  [revision, eternalization, projection, deduction, induction, abduction, exemplification,
    comparison, analogy, resemblance, disjunctionOrIntensionalIntersection,
    conjunctionOrExtensionalIntersection, intensionalDifference, extensionalDifference,
    conditionalAnalogy, conditionalJudgmentDeduction, conditionalJudgmentAbduction,
    conditionalGoalDeduction, conditionalGoalInduction, simplifyConjunctiveGoal,
    simplifyNegatedConjunctiveGoal, conditionalConjunctionalDeduction,
    conditionalConjunctionalAbduction, negation, conversion, contraposition, extensionalImage,
    intensionalImage, temporalIntersection, temporalInduction, temporalComparison]

def name : Rule → String
  | revision => "Revision"
  | eternalization => "Eternalization"
  | projection => "Projection"
  | deduction => "Deduction"
  | induction => "Induction"
  | abduction => "Abduction"
  | exemplification => "Exemplification"
  | comparison => "Comparison"
  | analogy => "Analogy"
  | resemblance => "Resemblance"
  | disjunctionOrIntensionalIntersection => "DisjunctionOrIntensionalIntersection"
  | conjunctionOrExtensionalIntersection => "ConjunctionOrExtensionalIntersection"
  | intensionalDifference => "IntensionalDifference"
  | extensionalDifference => "ExtensionalDifference"
  | conditionalAnalogy => "ConditionalAnalogy"
  | conditionalJudgmentDeduction => "ConditionalJudgmentDeduction"
  | conditionalJudgmentAbduction => "ConditionalJudgmentAbduction"
  | conditionalGoalDeduction => "ConditionalGoalDeduction"
  | conditionalGoalInduction => "ConditionalGoalInduction"
  | simplifyConjunctiveGoal => "SimplifyConjunctiveGoal"
  | simplifyNegatedConjunctiveGoal => "SimplifyNegatedConjunctiveGoal"
  | conditionalConjunctionalDeduction => "ConditionalConjunctionalDeduction"
  | conditionalConjunctionalAbduction => "ConditionalConjunctionalAbduction"
  | negation => "Negation"
  | conversion => "Conversion"
  | contraposition => "Contraposition"
  | extensionalImage => "ExtensionalImage"
  | intensionalImage => "IntensionalImage"
  | temporalIntersection => "TemporalIntersection"
  | temporalInduction => "TemporalInduction"
  | temporalComparison => "TemporalComparison"

def ofName? (name : String) : Option Rule := all.find? fun r => r.name == name

theorem mem_all (r : Rule) : r ∈ all := by cases r <;> decide

@[simp] theorem ofName?_name (r : Rule) : ofName? r.name = some r := by cases r <;> decide

end Rule

/-! ## Sentences -/

/-- A point of time, counted in cycles. -/
abbrev Cycle := UInt64

/-- Who a sentence is, when it holds and where it comes from. -/
structure Stamp where
  id : SentenceId
  /-- When its statement happens; `none` when it holds timelessly. -/
  occurrence : Option Cycle
  base : EvidenceBase
  rule : Option Rule
  parents : List SentenceId
  onePremise : Bool
deriving DecidableEq, Repr, Inhabited

def Stamp.fresh (id : SentenceId) (occurrence : Option Cycle) : Stamp :=
  { id, occurrence, base := .own id, rule := none, parents := [], onePremise := false }

/-- What a sentence does with its statement, and the value that goes with it. -/
inductive SentenceKind where
  | judgment (truth : TruthValue Double)
  | question
  | goal (desire : TruthValue Double)
deriving BEq, Repr, Inhabited

namespace SentenceKind

def punctuation : SentenceKind → Punctuation
  | judgment _ => .judgment
  | question => .question
  | goal _ => .goal

def value? : SentenceKind → Option (TruthValue Double)
  | judgment v | goal v => some v
  | question => none

theorem exists_value? {kind : SentenceKind} (h : kind.punctuation ≠ .question) :
    ∃ v, kind.value? = some v := by
  cases kind with
  | judgment v => exact ⟨v, rfl⟩
  | question => exact absurd rfl h
  | goal v => exact ⟨v, rfl⟩

def withValue (v : TruthValue Double) : SentenceKind → SentenceKind
  | judgment _ => judgment v
  | question => question
  | goal _ => goal v

end SentenceKind

/-- A statement that is believed, asked or wanted. -/
structure Sentence where
  statement : Term
  kind : SentenceKind
  stamp : Stamp
  fromInput : Bool := false
  /-- Whether it is a question that has not been answered. -/
  needsAnswer : Bool := false
deriving BEq, Inhabited

namespace Sentence

def fresh (statement : Term) (kind : SentenceKind) (id : SentenceId)
    (occurrence : Option Cycle) : Sentence :=
  { statement, kind, stamp := .fresh id occurrence
    needsAnswer := kind.punctuation == .question }

def id (s : Sentence) : SentenceId := s.stamp.id

def occurrence (s : Sentence) : Option Cycle := s.stamp.occurrence

def base (s : Sentence) : EvidenceBase := s.stamp.base

def punctuation (s : Sentence) : Punctuation := s.kind.punctuation

def value? (s : Sentence) : Option (TruthValue Double) := s.kind.value?

def isEvent (s : Sentence) : Bool := s.occurrence.isSome

def isJudgment (s : Sentence) : Bool := s.punctuation == .judgment

def isQuestion (s : Sentence) : Bool := s.punctuation == .question

def isGoal (s : Sentence) : Bool := s.punctuation == .goal

end Sentence

/-- Whether two sentences may be the premises of one inference. -/
def mayInteract (s t : Sentence) : Bool :=
  s.id != t.id && !(t.base.contains s.id || s.base.contains t.id) &&
    (s.isEvent || !s.base.overlaps t.base)

/-! ## The text of sentences

A sentence is written as its statement with its mark, the mark of its tense unless it is
timeless, and its value if it has one: `(bird --> animal). :|: %1.00;0.90%`.
-/

namespace Sentence

def tenseAt (s : Sentence) (cycle : Cycle) : Tense :=
  match s.occurrence with
  | none => .eternal
  | some t => if t < cycle then .past else if cycle < t then .future else .present

def render (s : Sentence) (tense : Tense) : String :=
  s.statement.text ++ s.punctuation.symbol.toString ++
    (if tense == .eternal then "" else " " ++ tense.symbol) ++
    (match s.value? with
      | some v => " " ++ v.text
      | none => "")

def renderAt (s : Sentence) (cycle : Cycle) : String := s.render (s.tenseAt cycle)

/-- The text of a sentence that says of an event only that it is one. -/
def text (s : Sentence) : String := s.render (if s.isEvent then .present else .eternal)

end Sentence

end NonAxiomatic
