import NonAxiomatic.Engine.Basic

/-!
# Cycles

One cycle of a reasoner (`Engine.step`): as many sentences are processed as waited when it began,
concepts drawn by their priorities are considered, and the operations that are due are carried
out. Sentences derived on the way wait among the others, by their priorities.

An operation that is carried out is taken to have happened: it comes in as an event.
-/

namespace NonAxiomatic

/-! ## Processing judgments and questions

A judgment goes into the beliefs of its concept, and what is then the best belief there is held
against a related concept. Events that come in are paired with the events before them, if the
settings say so. A question is answered by the best belief about it, if there is one.
-/

namespace Engine

variable {σ : Type}

/-- The sentences derived from an event and each of the events before it. -/
def pairEvent (p : Standpoint) (ids : IdSupply) (event : Sentence) :
    List Sentence → List Sentence × IdSupply
  | [] => ([], ids)
  | earlier :: rest =>
    let (derived, ids) := p.deriveEvents ids earlier event
    let (more, ids) := pairEvent p ids event rest
    (derived ++ more, ids)

/-- Remember an event that came in, after pairing it with the events before it. -/
def observe (e : Engine σ) (event : Sentence) : List Sentence × Engine σ :=
  let (derived, ids) :=
    if e.settings.temporalChaining then pairEvent e.standpoint e.ids event e.events.events
    else ([], e.ids)
  (derived, { e with ids, events := (e.events.push event).2 })

/-- Put a judgment into the beliefs of its concept. -/
def believe (e : Engine σ) (s : Sentence) : Engine σ :=
  match e.memory.concept? s.statement with
  | none => e
  | some c =>
    let (_, beliefs, ids) := c.beliefs.put e.standpoint s e.ids
    { e with ids, memory := e.memory.modify s.statement fun c => { c with beliefs } }

variable [DrawSource σ]

/-- Process a judgment. -/
def processJudgment (e : Engine σ) (s : Sentence) : Engine σ :=
  let (fromEvents, e) := if s.isEvent && s.fromInput then e.observe s else ([], e)
  let e := e.conceptualize s.statement
  if !e.memory.holds s.statement then e
  else
    let memory := (e.memory.activate e.settings s.statement).strengthenQuality s.statement
    let (contraposed, ids) :=
      if s.fromInput then Conclusion.numberAll e.ids (contraposeConjunction s).toList
      else ([], e.ids)
    let e := { e with memory, ids }.believe s
    let (fromBest, e) := match e.bestBelief? s.statement with
      | some best => e.deriveSemantically best
      | none => ([], e)
    e.enqueueDerived (fromEvents ++ contraposed ++ fromBest)

/-- Process a question. -/
def processQuestion (e : Engine σ) (s : Sentence) : Engine σ :=
  let e := e.conceptualize s.statement
  if !e.memory.holds s.statement then e
  else
    let e := { e with memory := e.memory.strengthenQuality s.statement }
    let (subject, e) := match e.bestBelief? s.statement with
      | none => (s, e)
      | some answer =>
        if s.fromInput && s.needsAnswer then
          (answer, e.emit (.answer (s.renderAt e.cycle) (answer.renderAt e.cycle)))
        else (answer, e)
    let (derived, e) := e.deriveSemantically subject
    e.enqueueDerived derived

end Engine

/-! ## Processing goals

A goal goes into the desires of its concept, and what is then most wanted there is pursued: an
operation is carried out, unless it has been; what already holds is left; otherwise means are
looked for, from a conjunct that holds or from an implication of the goal.

Only one goal at a time has operations pending. Another one takes its place if it is better.
-/

namespace Engine

variable {σ : Type}

def goalQuality : Double := 0.999

/-- Put a goal into the desires of its concept. It is settled if what it comes from is, and so is
its revision. -/
def want (e : Engine σ) (s : Sentence) : Engine σ :=
  match e.memory.concept? s.statement with
  | none => e
  | some c =>
    let acted := e.acted.settle s
    let (revised, desires, ids) := c.desires.put e.standpoint s e.ids
    { e with
      ids
      acted := match revised with
        | some revised => acted.settle revised
        | none => acted
      memory := e.memory.modify s.statement fun c => { c with desires } }

/-- Have the operations of a goal wait to be carried out, unless the current goal is better. A
goal for what is being done already counts as acted on. -/
def queueOperations (e : Engine σ) (goal : Sentence) : Engine σ :=
  let replaced : Engine σ :=
    { e with operations := PendingOperation.ofGoal goal.statement, acted := e.acted.record goal
             currentGoal := some goal }
  match e.currentGoal with
  | none => replaced
  | some current =>
    if current.statement == goal.statement then { e with acted := e.acted.record goal }
    else if (e.standpoint.choose current goal false).id == current.id then e
    else replaced

/-- Act on a goal that can be carried out and has not been acted on. -/
def act (e : Engine σ) (goal : Sentence) : Engine σ :=
  if goal.statement.isOperation && !goal.statement.isNegation then
    if e.acted.settles goal then { e with acted := e.acted.settle goal }
    else e.queueOperations goal
  else e

def firstConjunct? (t : Term) : Option Term :=
  if t.isConjunction then t.conjuncts.head?
  else t.denied?.bind fun inner => if inner.isConjunction then inner.conjuncts.head? else none

def holding? (e : Engine σ) (t : Term) : Option Sentence :=
  (e.bestBelief? t).filter e.standpoint.isPositive

variable [DrawSource σ]

/-- The best belief about something that leads to a statement. -/
def means (e : Engine σ) (t : Term) : Option Sentence × Engine σ :=
  match e.memory.concept? t with
  | none => (none, e)
  | some c =>
    let (found, draws) := e.memory.follow c .explanation e.draws
    (found.bind fun c => c.beliefs.best?, { e with draws })

/-- Pursue a goal, if it is wanted enough. Gives what is derived on the way. -/
def pursue (e : Engine σ) (goal : Sentence) : List Sentence × Engine σ :=
  if !e.standpoint.pursues goal then ([], e)
  else
    let e := e.act goal
    if (e.holding? goal.statement).isSome then ([], e)
    else match (firstConjunct? goal.statement).bind e.holding? with
      | some belief => e.derive goal belief
      | none => match e.means goal.statement with
        | (some belief, e) => e.derive goal belief
        | (none, e) => ([], e)

def processGoal (e : Engine σ) (s : Sentence) : Engine σ :=
  let e := e.conceptualize s.statement
  if !e.memory.holds s.statement then e
  else
    let memory := (e.memory.activate e.settings s.statement).setQuality s.statement goalQuality
    let e := { e with memory }.want s
    match (e.memory.concept? s.statement).bind fun c => c.desires.best? with
    | none => e
    | some best =>
      let (derived, e) := e.pursue best
      e.enqueueDerived derived

end Engine

/-! ## Cycles -/

namespace Engine

variable {σ : Type} [DrawSource σ]

/-! ### Sentences -/

/-- Process a sentence. Sentences with variables are passed over. -/
def process (e : Engine σ) (s : Sentence) : Engine σ :=
  if s.statement.mentionsVariable then e
  else match s.punctuation with
    | .judgment => e.processJudgment s
    | .question => e.processQuestion s
    | .goal => e.processGoal s

def processWaiting : (count : Nat) → Engine σ → Engine σ
  | 0, e => e
  | count + 1, e =>
    match e.input.take? with
    | none => e
    | some (s, input) => processWaiting count ({ e with input }.process s)

/-! ### Attention -/

/-- How many links may be followed to a concept that there are sentences about. -/
def maxHops : Nat := 2

/-- Follow links from a concept to one that there can be sentences about. -/
def toSentential (m : Memory) : (hops : Nat) → Concept → σ → Option Concept × σ
  | 0, c, draws => (if c.isSentential then some c else none, draws)
  | hops + 1, c, draws =>
    if c.isSentential then (some c, draws)
    else match m.follow c .term draws with
      | (none, draws) => (none, draws)
      | (some next, draws) => toSentential m hops next draws

def drawSentential (e : Engine σ) : Option Concept × Engine σ :=
  match e.memory.draw e.draws with
  | (none, draws) => (none, { e with draws })
  | (some c, draws) =>
    let (found, draws) := toSentential e.memory maxHops c draws
    (found, { e with draws })

/-- Consider a concept: derive from its best belief, pursue its best desire, and turn some
attention away from it. -/
def consider (e : Engine σ) : Engine σ :=
  match e.drawSentential with
  | (none, e) => e
  | (some c, e) =>
    let (fromBelief, e) := match c.beliefs.best? with
      | some belief => e.deriveSemantically belief
      | none => ([], e)
    let (fromDesire, e) := match c.desires.best? with
      | some desire => e.pursue desire
      | none => ([], e)
    let memory := e.memory.decay c.term e.settings.considerDecay
    { e with memory }.enqueueDerived (fromBelief ++ fromDesire)

def considerSome : (count : Nat) → Engine σ → Engine σ
  | 0, e => e
  | count + 1, e => considerSome count e.consider

/-! ### Operations -/

/-- Carry out an operation, and see it happen. -/
def execute (e : Engine σ) (desirability : Double) (operation : Term) : Engine σ :=
  let event := Sentence.fresh operation (.judgment .default) e.ids.peek (some e.cycle)
  { e with
    commands := e.commands.push operation
    outputs := e.outputs.push (.executed operation.text desirability e.cycle)
    ids := e.ids.advance }.processJudgment { event with fromInput := true }

/-- Carry out the operations that are due. The current goal is done with when none is left. -/
def executeDue (e : Engine σ) : Engine σ :=
  let due := PendingOperation.due e.operations
  let operations := PendingOperation.tick e.operations
  let desirability := match e.currentGoal with
    | some goal => e.standpoint.expectation goal
    | none => 0.0
  let currentGoal := if operations.isEmpty then none else e.currentGoal
  due.foldl (fun e operation => e.execute desirability operation)
    { e with operations, currentGoal }

/-! ### Cycles -/

/-- Run one cycle. -/
def step (e : Engine σ) : Engine σ :=
  let e := { e with cycle := e.cycle + 1 }
  (considerSome e.settings.considerPerCycle (processWaiting e.input.size e)).executeDue

/-- Run one cycle, if there is a number for it. -/
def tick (e : Engine σ) : Except Text.Fault (Engine σ) := do
  let _ ← Text.sum64 e.cycle 1
  return e.step

/-- Run a number of cycles, up to one that there is no number for. -/
def run : (cycles : Nat) → Engine σ → Except Text.Fault Unit × Engine σ
  | 0, e => (.ok (), e)
  | cycles + 1, e =>
    match e.tick with
    | .error cause => (.error cause, e)
    | .ok e => run cycles e

end Engine

end NonAxiomatic
