import NonAxiomatic.Proofs.EngineSound

/-!
# What an engine is about to do

The operations that are pending, the goal that they are carried out for, and the operations carried
out so far are the agenda of an engine. It changes at two places only: where a goal is taken up, and
where a cycle ends and the operations that are due are carried out.

* `Agenda.Enters`: what an entry of a journal does to an agenda, and when there is one.
* `Engine.agenda_act`: a goal is taken up when it is acted on.
-/

namespace NonAxiomatic

/-- What an engine is about to do, and what it has done. -/
structure Agenda where
  /-- The operations still to be carried out. -/
  operations : List PendingOperation := []
  /-- The goal that they are carried out for. -/
  currentGoal : Option Sentence := none
  /-- The operations carried out so far. -/
  commands : List Term := []

/-- An entry of a journal. -/
inductive Entry where
  /-- A goal was taken up, seen from a standpoint. -/
  | takenUp (p : Standpoint) (goal : Sentence)
  /-- A cycle ended, and operations were carried out. -/
  | carriedOut (operations : List Term)

/-- Whether a goal was taken up. -/
def Entry.isTakenUp : Entry → Bool
  | takenUp .. => true
  | carriedOut _ => false

/-- The operations that were carried out. -/
def Entry.operations : Entry → List Term
  | takenUp .. => []
  | carriedOut operations => operations

namespace Agenda

/-- Whether what is pending makes way for a goal: it is carried out for a goal about something else,
which is worse. -/
def Yields (a : Agenda) (p : Standpoint) (goal : Sentence) : Prop :=
  ∀ current, a.currentGoal = some current →
    (current.statement == goal.statement) = false ∧ p.prefers current goal false = false

/-- The operations of a goal take the place of those that are pending. -/
def takeUp (a : Agenda) (goal : Sentence) : Agenda :=
  { a with operations := PendingOperation.ofGoal goal.statement, currentGoal := some goal }

/-- The operations that are due are carried out. -/
def carryOut (a : Agenda) : Agenda where
  operations := PendingOperation.tick a.operations
  currentGoal := if (PendingOperation.tick a.operations).isEmpty then none else a.currentGoal
  commands := a.commands ++ PendingOperation.due a.operations

/-- What an entry does to an agenda. -/
inductive Enters : Agenda → Entry → Agenda → Prop where
  | takenUp {a : Agenda} {p : Standpoint} {goal : Sentence} (pursued : p.pursues goal = true)
      (isOperation : goal.statement.isOperation = true)
      (isNegation : goal.statement.isNegation = false) (yields : a.Yields p goal) :
      Enters a (.takenUp p goal) (a.takeUp goal)
  | carriedOut {a : Agenda} : Enters a (.carriedOut (PendingOperation.due a.operations)) a.carryOut

/-- The entries of a journal lead from one agenda to another. -/
inductive Path : Agenda → List Entry → Agenda → Prop where
  | nil {a : Agenda} : Path a [] a
  | cons {a b c : Agenda} {entry : Entry} {log : List Entry} : a.Enters entry b → Path b log c →
      Path a (entry :: log) c

namespace Path

variable {a b c : Agenda} {log log' : List Entry} {entry : Entry}

theorem single (h : a.Enters entry b) : Path a [entry] b := .cons h .nil

theorem append (h : Path a log b) (h' : Path b log' c) : Path a (log ++ log') c := by
  induction h with
  | nil => exact h'
  | cons enters _ ih => exact .cons enters (ih h')

theorem of_append (h : Path a (log ++ log') c) : ∃ b, Path a log b ∧ Path b log' c := by
  induction log generalizing a with
  | nil => exact ⟨a, .nil, h⟩
  | cons entry log ih =>
    cases h with
    | cons enters h =>
      obtain ⟨b, hb, hc⟩ := ih h
      exact ⟨b, .cons enters hb, hc⟩

end Path

end Agenda

/-! ## Where a goal is taken up -/

namespace Engine

variable {σ : Type}

/-- What an engine is about to do, and what it has done. -/
def agenda (e : Engine σ) : Agenda := ⟨e.operations, e.currentGoal, e.commands.toList⟩

/-- Whether what is pending makes way for a goal. -/
def yieldsTo (e : Engine σ) (goal : Sentence) : Bool :=
  match e.currentGoal with
  | none => true
  | some current =>
    !(current.statement == goal.statement) &&
      !((e.standpoint.choose current goal false).id == current.id)

/-- Whether a goal is taken up when it is acted on. -/
def takesUp (e : Engine σ) (goal : Sentence) : Bool :=
  goal.statement.isOperation && !goal.statement.isNegation && !e.acted.settles goal &&
    e.yieldsTo goal

theorem prefers_eq_false_of_choose {p : Standpoint} {s t : Sentence} {onlyConfidence : Bool}
    (h : ((p.choose s t onlyConfidence).id == s.id) = false) :
    p.prefers s t onlyConfidence = false := by
  unfold Standpoint.choose at h
  by_contra hp
  rw [if_pos (by simpa using hp)] at h
  exact absurd h (by simp)

theorem agenda_yields {e : Engine σ} {goal : Sentence} (h : e.yieldsTo goal = true) :
    e.agenda.Yields e.standpoint goal := by
  intro current hcurrent
  have hcurrent : e.currentGoal = some current := hcurrent
  simp only [yieldsTo, hcurrent, Bool.and_eq_true, Bool.not_eq_true'] at h
  exact ⟨h.1, prefers_eq_false_of_choose h.2⟩

theorem agenda_queueOperations (e : Engine σ) (goal : Sentence) :
    (e.queueOperations goal).agenda =
      if e.yieldsTo goal then e.agenda.takeUp goal else e.agenda := by
  cases hc : e.currentGoal with
  | none => simp only [queueOperations, yieldsTo, hc, if_true, agenda, Agenda.takeUp]
  | some current =>
    simp only [queueOperations, yieldsTo, hc, agenda, Agenda.takeUp]
    cases current.statement == goal.statement
    · cases (e.standpoint.choose current goal false).id == current.id <;> simp [hc]
    · simp

theorem agenda_act (e : Engine σ) (goal : Sentence) :
    (e.act goal).agenda = if e.takesUp goal then e.agenda.takeUp goal else e.agenda := by
  unfold act takesUp
  split
  · split
    · simp [*]
      rfl
    · simp [*, agenda_queueOperations]
  · simp [*]

end Engine

end NonAxiomatic
