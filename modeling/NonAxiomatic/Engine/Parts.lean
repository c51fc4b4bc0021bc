import NonAxiomatic.Bag
import NonAxiomatic.Json
import NonAxiomatic.Sentence

/-!
# Parts of an engine

What an engine keeps beside its memory: the sentences that wait, the last events, the operations
that a goal asks for, the goals that have been acted on and what there is to show.

* `insertByRank_perm`: putting a value in loses none.
* `length_put_le`: there is never more than the queue has room for.
* `Recent.length_insert_le`: only the last identities are remembered.
-/

namespace NonAxiomatic

/-! ## Priority queues

A queue of limited size that gives out the value of the highest priority first and, among values
of one priority, the one that came first. When there is one value too many, the last in this
order is dropped.

Priorities are compared by their bits (`PriorityQueue.rank`), which order doubles without a sign
as numbers.
-/

/-- Values in the order in which they are given out. -/
structure PriorityQueue (α : Type) where
  capacity : Nat
  /-- The values with the ranks of their priorities, the next one first. -/
  entries : List (UInt64 × α)
deriving Repr, Inhabited

namespace PriorityQueue

variable {α : Type}

/-- A queue without values. It has room for one at least. -/
def empty (capacity : Nat) : PriorityQueue α := ⟨max capacity 1, []⟩

def size (q : PriorityQueue α) : Nat := q.entries.length

def toList (q : PriorityQueue α) : List α := q.entries.map (·.2)

/-- The rank of a priority, which is moved into its range first. -/
def rank (priority : Double) : UInt64 :=
  let p := if priority.isNaN then 0.0
    else if priority < 0.0 then 0.0
    else if Budget.ceiling < priority then Budget.ceiling
    else priority
  p.bits

/-- Insert behind all entries of at least the same rank. -/
def insertByRank (e : UInt64 × α) : List (UInt64 × α) → List (UInt64 × α)
  | [] => [e]
  | d :: ds => if e.1 ≤ d.1 then d :: insertByRank e ds else e :: d :: ds

/-- Put a value in, and give what has to be dropped for it. -/
def put (q : PriorityQueue α) (value : α) (priority : Double) : Option α × PriorityQueue α :=
  let entries := insertByRank (rank priority, value) q.entries
  if q.capacity < entries.length then
    ((entries.getLast?).map (·.2), { q with entries := entries.dropLast })
  else (none, { q with entries })

def peek? (q : PriorityQueue α) : Option α := q.entries.head?.map (·.2)

def take? (q : PriorityQueue α) : Option (α × PriorityQueue α) :=
  match q.entries with
  | [] => none
  | e :: entries => some (e.2, { q with entries })

theorem insertByRank_perm (e : UInt64 × α) (es : List (UInt64 × α)) :
    (insertByRank e es).Perm (e :: es) := by
  induction es with
  | nil => exact .refl _
  | cons d ds ih =>
    simp only [insertByRank]
    split
    · exact (ih.cons d).trans (.swap e d ds)
    · exact .refl _

theorem length_put_le (q : PriorityQueue α) (value : α) (priority : Double)
    (h : q.size ≤ q.capacity) : (q.put value priority).2.size ≤ q.capacity := by
  have hlen := (insertByRank_perm (rank priority, value) q.entries).length_eq
  simp only [List.length_cons] at hlen
  simp only [size] at h
  simp only [put, size]
  split
  · simp only [List.length_dropLast]
    omega
  · simp only
    omega

end PriorityQueue

/-! ## Event windows

The last events that came in, with which the next one is paired. When there is one too many, the
oldest falls out.
-/

/-- The last events, oldest first. -/
structure EventWindow where
  capacity : Nat
  /-- The events, oldest first. -/
  events : List Sentence
deriving Inhabited

namespace EventWindow

/-- A window without events. It has room for one at least. -/
def empty (capacity : Nat) : EventWindow := ⟨max capacity 1, []⟩

/-- Put an event at the end, and give the one that falls out. What is no event is passed over. -/
def push (w : EventWindow) (event : Sentence) : Option Sentence × EventWindow :=
  if !event.isEvent then (none, w)
  else
    let events := w.events ++ [event]
    if w.capacity < events.length then (events.head?, { w with events := events.tail })
    else (none, { w with events })

/-- The window without its events. -/
def clear (w : EventWindow) : EventWindow := { w with events := [] }

theorem length_push_le (w : EventWindow) (event : Sentence) (h : w.events.length ≤ w.capacity) :
    (w.push event).2.events.length ≤ w.capacity := by
  simp only [push]
  split
  · exact h
  · split <;> simp_all

end EventWindow

/-! ## Pending operations

The operations that a goal asks for, each with the number of cycles still to wait. A conjunction
asks for its operands one after the other, with the gaps between them; any other goal asks for
itself at once.
-/

/-- An operation to be carried out. -/
structure PendingOperation where
  operation : Term
  /-- The number of cycles still to wait. -/
  delay : UInt32
deriving Inhabited

namespace PendingOperation

def addDelay (d gap : UInt32) : UInt32 := if d + gap < d then 0 - 1 else d + gap

/-- Operations with the gaps before all but the first, from a first delay on; gaps that are missing
are none. -/
def spaced (delay : UInt32) : List Term → List UInt32 → List PendingOperation
  | [], _ => []
  | t :: ts, gaps => ⟨t, delay⟩ :: spaced (addDelay delay (gaps.head?.getD 0)) ts gaps.tail

def ofGoal (statement : Term) : List PendingOperation :=
  match statement with
  | .compound connector operands intervals =>
    if connector.isConjunction then spaced 0 operands intervals else [⟨statement, 0⟩]
  | _ => [⟨statement, 0⟩]

def due (pending : List PendingOperation) : List Term :=
  (pending.filter fun p => p.delay == 0).map operation

def tick (pending : List PendingOperation) : List PendingOperation :=
  (pending.filter fun p => p.delay != 0).map fun p => { p with delay := p.delay - 1 }

end PendingOperation

/-! ## Goals that have been acted on

A reasoner does not act twice on one goal. It remembers the identities of the goals that it has
acted on, and those of the sentences that they rested on. A goal is settled (`Acted.settles`) when

* it was acted on itself, or
* everything that it rests on beside itself was behind goals that were acted on, or
* it was derived from a settled goal; a revision only if all of its premises are settled.
-/

/-- The last identities that came in, each once, oldest first. -/
structure Recent where
  ids : List SentenceId := []
deriving DecidableEq, Repr, Inhabited

namespace Recent

def capacity : Nat := 1000

def contains (r : Recent) (id : SentenceId) : Bool := r.ids.contains id

/-- Remember an identity. When there is one too many, the oldest is forgotten. -/
def insert (r : Recent) (id : SentenceId) : Recent :=
  if r.contains id then r
  else if capacity ≤ r.ids.length then ⟨r.ids.tail ++ [id]⟩
  else ⟨r.ids ++ [id]⟩

theorem length_insert_le {r : Recent} (h : r.ids.length ≤ capacity) (id : SentenceId) :
    (r.insert id).ids.length ≤ capacity := by
  have hpos : 0 < capacity := by decide
  simp only [insert]
  split
  · exact h
  · split <;> simp <;> omega

end Recent

/-- The goals that have been acted on. -/
structure Acted where
  goals : Recent := {}
  /-- What the goals that were acted on rested on. -/
  evidence : Recent := {}
deriving DecidableEq, Repr, Inhabited

namespace Acted

def record (a : Acted) (goal : Sentence) : Acted :=
  { goals := a.goals.insert goal.id, evidence := goal.base.ids.foldl Recent.insert a.evidence }

/-- Whether everything that a goal rests on beside itself was behind goals that were acted on. -/
def restsOnActed (a : Acted) (goal : Sentence) : Bool :=
  let others := goal.base.ids.filter (· != goal.id)
  !others.isEmpty && others.all a.evidence.contains

/-- Whether a goal was derived from settled goals. -/
def followsActed (a : Acted) (goal : Sentence) : Bool :=
  let parents := goal.stamp.parents
  match goal.stamp.rule with
  | none => false
  | some .revision => !parents.isEmpty && parents.all a.goals.contains
  | some _ => parents.any a.goals.contains

/-- Whether there is no need to act on a goal. -/
def settles (a : Acted) (goal : Sentence) : Bool :=
  a.goals.contains goal.id || a.restsOnActed goal || a.followsActed goal

def settle (a : Acted) (goal : Sentence) : Acted :=
  if a.settles goal then { a with goals := a.goals.insert goal.id } else a

end Acted

/-! ## Outputs

What a reasoner shows of its work: the answer to a question that was put to it, and every
operation that it has carried out.
-/

/-- Something that a reasoner shows. -/
inductive Output where
  /-- The best belief about a question, when it was first found. -/
  | answer (question belief : String)
  | executed (operation : String) (desirability : Double) (cycle : UInt64)
deriving Repr, Inhabited

namespace Output

def text : Output → String
  | answer question belief => "OUT: " ++ belief ++ " (for " ++ question ++ ")"
  | executed operation desirability cycle =>
    "EXE: " ++ operation ++ " (desirability " ++ Double.fixed 3 desirability ++ ", cycle " ++
      toString cycle.toNat ++ ")"

def toJson (double : Double → Json) : Output → Json
  | answer question belief =>
    .object [("type", .string "answer"), ("question", .string question),
      ("answer", .string belief)]
  | executed operation desirability cycle =>
    .object [("type", .string "executed"), ("operation", .string operation),
      ("desirability", double desirability), ("cycle", .nat cycle.toNat)]

end Output

end NonAxiomatic
