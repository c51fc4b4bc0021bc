import NonAxiomatic.Engine.Parts
import NonAxiomatic.Memory
import NonAxiomatic.Snapshot

/-!
# Engines

All state of one reasoner (`Engine`). From outside, sentences are put in with `Engine.submit` and
outputs taken out with `Engine.drain`; between the two, `Engine.step` runs one cycle.

An engine draws from any source; `Engine.ofSettings` starts one with the keystream of its seed.
-/

namespace NonAxiomatic

/-- All state of one reasoner. -/
structure Engine (σ : Type) where
  settings : Settings
  draws : σ
  ids : IdSupply := {}
  cycle : Cycle := 0
  input : PriorityQueue Sentence
  memory : Memory
  events : EventWindow
  operations : List PendingOperation := []
  /-- The goal that the operations are carried out for. -/
  currentGoal : Option Sentence := none
  acted : Acted := {}
  outputs : Array Output := #[]
  commands : Array Term := #[]
deriving Inhabited

namespace Engine

variable {σ : Type}

def start (settings : Settings) (draws : σ) : Engine σ :=
  { settings, draws, input := .empty settings.inputCapacity, memory := .empty settings
    events := .empty settings.eventCapacity }

/-- An engine with the draws of its seed; without one, with those of zero. Settings out of range
are refused. -/
def ofSettings (settings : Settings) : Except SettingsError (Engine Keystream) := do
  settings.validate
  return start settings (.ofSeed (settings.seed.getD 0))

def standpoint (e : Engine σ) : Standpoint := ⟨e.settings, e.cycle⟩

def bestBelief? (e : Engine σ) (t : Term) : Option Sentence := do
  (← e.memory.concept? t).beliefs.best?

/-! ## Input -/

def inputPriority : Double := 0.99

def enqueue (e : Engine σ) (s : Sentence) (priority : Double) : Engine σ :=
  { e with input := (e.input.put s priority).2 }

/-- Read a sentence and have it wait for the next cycle. A text that is refused leaves the engine
as it was. -/
def submit (e : Engine σ) (text : String) : Except SentenceError (SentenceId × Engine σ) := do
  let (s, ids) ← Sentence.parse text e.ids e.cycle
  return (s.id, { e with ids }.enqueue { s with fromInput := true } inputPriority)

/-- The priority of a sentence that was derived: more confident ones come first. -/
def derivedPriority (s : Sentence) : Double :=
  inputPriority * (match s.value? with
    | some v => v.confidence
    | none => 0.5)

def enqueueDerived (e : Engine σ) (derived : List Sentence) : Engine σ :=
  derived.foldl (fun e s => e.enqueue s (derivedPriority s)) e

/-! ## Output -/

def emit (e : Engine σ) (output : Output) : Engine σ :=
  { e with outputs := e.outputs.push output }

def drain (e : Engine σ) : List Output × Engine σ :=
  (e.outputs.toList, { e with outputs := #[] })

/-! ## Inference -/

/-- The sentences derived from two premises; none where the premises are refused. -/
def derive (e : Engine σ) (s t : Sentence) : List Sentence × Engine σ :=
  match e.standpoint.derive e.ids s t with
  | .ok (derived, ids) => (derived, { e with ids })
  | .error _ => ([], e)

variable [DrawSource σ]

def conceptualize (e : Engine σ) (t : Term) : Engine σ :=
  let (memory, draws) := Memory.conceptualize e.settings t (e.memory, e.draws)
  { e with memory, draws }

/-- A concept that a sentence is held against: for a combination of statements, at a prediction
link; for a statement about statements, none; for an event, at an explanation link or else at a
link to what its statement is a part of; otherwise a related one. -/
def counterpart (e : Engine σ) (s : Sentence) : Option Concept × Engine σ :=
  let t := s.statement
  let (found, draws) := match e.memory.concept? t with
    | none => (none, e.draws)
    | some c =>
      if t.isCompound then e.memory.follow c .prediction e.draws
      else if !t.isFirstOrder then (none, e.draws)
      else if s.isEvent then
        match e.memory.follow c .explanation e.draws with
        | (some found, draws) => (some found, draws)
        | (none, draws) => e.memory.follow c .superterm draws
      else e.memory.related e.settings t e.draws
  (found, { e with draws })

def deriveEach (e : Engine σ) (s : Sentence) : List Sentence → List Sentence × Engine σ
  | [] => ([], e)
  | t :: ts =>
    let (derived, e) := e.derive s t
    let (more, e) := e.deriveEach s ts
    (derived ++ more, e)

/-- The sentences derived from a sentence and its counterpart: from the best belief and from any
desire about it. -/
def deriveSemantically (e : Engine σ) (s : Sentence) : List Sentence × Engine σ :=
  match e.counterpart s with
  | (none, e) => ([], e)
  | (some c, e) =>
    let (desire, draws) := c.desires.draw e.draws
    { e with draws }.deriveEach s (c.beliefs.best?.toList ++ desire.toList)

end Engine

/-! ## Keeping and restoring engines

`Engine.snapshot` is what is kept of an engine, in the order of its statements; `Engine.restore`
puts the entries of a snapshot into the tables of an engine as they are. All entries are read
before the first is put in, so that an engine that refuses a snapshot is left as it was.
-/

def SnapshotEntry.ofSentence (s : Sentence) : SnapshotEntry :=
  { statement := s.statement.text, kind := s.kind, occurrence := s.occurrence
    intervals := s.statement.layout }

/-- The statement of an entry, with its intervals. -/
def SnapshotEntry.readStatement (e : SnapshotEntry) : Except RestoreError Term := do
  let t ← (Term.parse e.statement).mapError .unreadable
  let t ←
    if e.intervals.isEmpty then pure t
    else match t.withLayout? e.intervals with
      | some t => pure t
      | none => throw (.misfit e.intervals t.text)
  if t.headsSentence then return t else throw (.notSentential t.text)

namespace Engine

variable {σ : Type}

/-- What is kept of an engine. -/
def snapshot (e : Engine σ) : Snapshot :=
  let concepts := e.memory.toList
  { cycle := e.cycle
    beliefs := concepts.flatMap fun c => c.beliefs.entries.map SnapshotEntry.ofSentence
    desires := concepts.flatMap fun c => c.desires.entries.map SnapshotEntry.ofSentence }

/-- Put a sentence into the table of its kind as it is. -/
def store (e : Engine σ) (s : Sentence) : Engine σ :=
  { e with memory := e.memory.modify s.statement fun c =>
      if s.isGoal then { c with desires := c.desires.insert e.standpoint s }
      else { c with beliefs := c.beliefs.insert e.standpoint s } }

variable [DrawSource σ]

/-- Put the sentence of an entry in, if its statement gets a concept. -/
def restoreEntry (e : Engine σ) (entry : Term × SnapshotEntry) : Engine σ :=
  let (statement, entry) := entry
  let e := e.conceptualize statement
  if !e.memory.holds statement then e
  else
    { e with ids := e.ids.advance }.store
      (.fresh statement entry.kind e.ids.peek entry.occurrence)

/-- Put the entries of a snapshot in, and move on to its cycle if that is later. Gives the number
of entries. -/
def restore (e : Engine σ) (s : Snapshot) : Except RestoreError (Nat × Engine σ) := do
  let entries ← s.entries.mapM fun entry => return (← entry.readStatement, entry)
  let e := { e with cycle := if e.cycle < s.cycle then s.cycle else e.cycle }
  return (entries.length, entries.foldl restoreEntry e)

end Engine

/-! ## Failures

Everything that keeps an instruction to a reasoner from being carried out (`Failure`), with the
wording that goes with it. A statement in a snapshot that cannot be read is reported as the fault
of a text, every other fault of a snapshot as one of its bytes.
-/

/-- What is wrong with a place where a file is looked for. -/
inductive PathFault where
  | missing
  | notDirectory
  | isDirectory
  | tooLong
  /-- The path holds the character that ends a text in memory. -/
  | holdsNul
deriving DecidableEq, Repr

def PathFault.message : PathFault → String
  | missing => "No such file or directory (os error 2)"
  | notDirectory => "Not a directory (os error 20)"
  | isDirectory => "Is a directory (os error 21)"
  | tooLong => "File name too long (os error 36)"
  | holdsNul => "file name contained an unexpected NUL byte"

inductive FileError where
  | badPath (path : String) (fault : PathFault)
  | notRegular (path : String)
  | tooLarge (bytes limit : Nat)
  | unwritable (fault : PathFault)
  | irreplaceable (fault : PathFault)
deriving DecidableEq, Repr

def FileError.message : FileError → String
  | badPath path fault => "Invalid file path '" ++ path ++ "': " ++ fault.message
  | notRegular path => "Path '" ++ path ++ "' is not a regular file"
  | tooLarge bytes limit =>
    "File size " ++ toString bytes ++ " bytes exceeds maximum allowed " ++ toString limit ++
      " bytes"
  | unwritable fault => "Write state: " ++ fault.message
  | irreplaceable fault => "Replace state: " ++ fault.message

/-- What keeps an instruction from being carried out. -/
inductive Failure where
  | text (cause : SyntaxError)
  | settings (cause : SettingsError)
  | snapshot (cause : SnapshotError)
  | restore (cause : RestoreError)
  | file (cause : FileError)
  | fault (cause : Text.Fault)

def Failure.message : Failure → String
  | text cause | restore (.unreadable cause) => "Syntax error: " ++ cause.message
  | settings cause => "Invalid configuration: " ++ cause.message
  | snapshot cause => "Deserialization error: " ++ cause.message
  | restore cause => "Deserialization error: " ++ cause.message
  | file cause => "I/O error: " ++ cause.message
  | fault cause => cause.message

def Failure.ofSentence : SentenceError → Failure
  | .text cause => text cause
  | .fault cause => fault cause

end NonAxiomatic
