import NonAxiomatic.Sentence
import NonAxiomatic.Settings

/-!
# Conclusions

What a rule derives from its premises, before it gets an identity (`Conclusion`). The premises
decide what kind of sentence is concluded, when it happens and what it rests on (`conclude`,
`concludeAlone`); the rule adds the statement and the way in which it is valued.

`Conclusion.numberAll` gives conclusions their identities, in their order.
-/

namespace NonAxiomatic

/-! ## Standpoints

From where sentences are judged: the settings of the reasoner and the current cycle. The value of
an event fades with its distance from the current cycle (`Standpoint.value?`); a timeless value
does not. What is expected, what is preferred and what is pursued follows from values seen from
here.
-/

/-- From where sentences are judged. -/
structure Standpoint where
  settings : Settings
  now : Cycle
deriving Inhabited

namespace Standpoint

/-- How much the confidence in an event is worth one cycle away. -/
def decay (p : Standpoint) (s : Sentence) : Double :=
  if s.isGoal then p.settings.desireDecay else p.settings.eventDecay

/-- The value of a sentence, seen from now. -/
def value? (p : Standpoint) (s : Sentence) : Option (TruthValue Double) :=
  s.value?.map fun v => match s.occurrence with
    | some t => v.projection t p.now (p.decay s)
    | none => v

/-- The confidence in a sentence, seen from now; none in a question. -/
def confidence (p : Standpoint) (s : Sentence) : Double :=
  match p.value? s with
  | some v => v.confidence
  | none => 0.0

/-- How much the statement of a sentence is expected to hold; a question leaves it undecided. -/
def expectation (p : Standpoint) (s : Sentence) : Double :=
  match p.value? s with
  | some v => v.expectation
  | none => 0.5

def isPositive (p : Standpoint) (s : Sentence) : Bool :=
  p.settings.positiveThreshold ≤ p.expectation s

def isNegative (p : Standpoint) (s : Sentence) : Bool :=
  p.expectation s < p.settings.negativeThreshold

def pursues (p : Standpoint) (goal : Sentence) : Bool :=
  goal.isGoal && p.settings.decisionThreshold < p.expectation goal

/-- Whether the first of two sentences is at least as good as the second: by confidence when they
are about the same, by expectation otherwise. A sentence without a value is not compared. -/
def prefers (p : Standpoint) (s t : Sentence) (onlyConfidence : Bool) : Bool :=
  match p.value? s, p.value? t with
  | some v, some w =>
    if onlyConfidence || s.statement == t.statement then w.confidence ≤ v.confidence
    else w.expectation ≤ v.expectation
  | _, _ => true

/-- The better one of two sentences; the first when they are equally good. -/
def choose (p : Standpoint) (s t : Sentence) (onlyConfidence : Bool) : Sentence :=
  if p.prefers s t onlyConfidence then s else t

end Standpoint

/-! ## Conclusions -/

/-- What a rule derives from its premises. -/
structure Conclusion where
  statement : Term
  kind : SentenceKind
  occurrence : Option Cycle
  /-- What it rests on beside itself. -/
  grounds : List EvidenceBase
  rule : Rule
  parents : List SentenceId
  /-- Whether it counts as derived from one premise alone. -/
  onePremise : Bool := false
deriving Inhabited

namespace Conclusion

def number (c : Conclusion) (id : SentenceId) : Sentence :=
  { statement := c.statement, kind := c.kind
    stamp :=
      { id, occurrence := c.occurrence
        base := c.grounds.foldl EvidenceBase.merge (.own id)
        rule := some c.rule, parents := c.parents, onePremise := c.onePremise }
    needsAnswer := c.kind.punctuation == .question }

def numberAll (ids : IdSupply) : List Conclusion → List Sentence × IdSupply
  | [] => ([], ids)
  | c :: cs =>
    let (ss, ids') := numberAll ids.advance cs
    (c.number ids.peek :: ss, ids')

def isVacuous (c : Conclusion) : Bool :=
  c.kind.value?.any fun v => v.confidence ≤ Scale.minConfidence

end Conclusion

/-- Whether a sentence says next to nothing. -/
def Sentence.isVacuous (s : Sentence) : Bool :=
  s.value?.any fun v => v.confidence ≤ Scale.minConfidence

/-- Whether the statement of a sentence has never held. -/
def Sentence.neverHeld (s : Sentence) : Bool := s.value?.any fun v => v.frequency ≤ 0.0

def Term.isHigherOrder (t : Term) : Bool := t.isStatement && !t.isFirstOrder

namespace Standpoint

/-- The value that a premise brings into a conclusion about a statement. A statement about
statements is not tied to the current cycle and takes values as they are. -/
def premiseValue? (p : Standpoint) (statement : Term) (s : Sentence) :
    Option (TruthValue Double) :=
  if statement.isHigherOrder then s.value? else p.value? s

/-- The kind of a conclusion from two premises: a question when the first premise asks, or when
it believes and the second asks; a goal when either of them wants; otherwise a judgment. What
is wanted has no value when the other premise asks, and is not concluded. -/
def kindOf? (p : Standpoint) (s t : Sentence) (statement : Term) (function : TruthFunction) :
    Option SentenceKind :=
  let value := do
    let v ← p.premiseValue? statement s
    let w ← p.premiseValue? statement t
    return function.apply p.settings.horizon v w
  match s.punctuation, t.punctuation with
  | .question, _ | .judgment, .question => some .question
  | .goal, _ | .judgment, .goal => value.map .goal
  | .judgment, .judgment => value.map .judgment

/-- Conclude a statement from two premises. It happens now if a premise happens at all, except
that statements about statements hold timelessly. Only what holds timelessly rests on the grounds
of its premises. -/
def conclude (p : Standpoint) (s t : Sentence) (statement : Term)
    (function : TruthFunction) (rule : Rule) : Option Conclusion :=
  if !statement.headsSentence then none
  else (p.kindOf? s t statement function).map fun kind =>
    let happens := (s.isEvent || t.isEvent) && !statement.isHigherOrder
    { statement, kind, rule
      occurrence := if happens then some p.now else none
      grounds := if happens then [] else [s.base, t.base]
      parents := [s.id, t.id] }

end Standpoint

/-- Conclude a statement from one premise, at its time; with a value of its own if one is
given. -/
def concludeAlone (s : Sentence) (statement : Term) (value : Option (TruthValue Double))
    (rule : Rule) : Option Conclusion :=
  if !statement.headsSentence then none
  else some
    { statement, rule, occurrence := s.occurrence, grounds := [s.base], parents := [s.id]
      kind := match value with
        | some v => s.kind.withValue v
        | none => s.kind
      onePremise := true }

theorem Conclusion.isVacuous_number (c : Conclusion) (id : SentenceId) :
    (c.number id).isVacuous = c.isVacuous := rfl

@[simp] theorem Conclusion.length_numberAll (ids : IdSupply) (cs : List Conclusion) :
    (numberAll ids cs).1.length = cs.length := by
  induction cs generalizing ids with
  | nil => rfl
  | cons c cs ih => simp [numberAll, ih]

/-! ## Retiming

One sentence at another time: without any (`eternalize`), or moved to a given cycle (`project`).
-/

def retime (s : Sentence) (value : TruthValue Double) (occurrence : Option Cycle) (rule : Rule) :
    Conclusion :=
  { statement := s.statement, kind := s.kind.withValue value, occurrence, grounds := [s.base]
    rule, parents := [s.id] }

/-- What an event says about its statement at all times. -/
def eternalize (p : Standpoint) (s : Sentence) : Option Conclusion :=
  s.value?.map fun v => retime s (v.eternalization p.settings.horizon) none .eternalization

/-- What an event says about its statement at another cycle. -/
def project (p : Standpoint) (s : Sentence) (target : Cycle) : Option Conclusion := do
  let source ← s.occurrence
  let v ← s.value?
  return retime s (v.projection source target (p.decay s)) (some target) .projection

end NonAxiomatic
