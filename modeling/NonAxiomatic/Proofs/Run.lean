import NonAxiomatic.Engine.Step
import NonAxiomatic.Proofs.Utterances

/-!
# Runs

What can be done to an engine from outside, one instruction after the other. A text that is refused
leaves the engine as it was.

* `Engine.invariant_after`: what holds of a new engine and is kept by every instruction holds after
  every run.
-/

namespace NonAxiomatic

/-- What is done to an engine from outside. -/
inductive Instruction where
  /-- Put a text in. -/
  | submit (text : String)
  /-- Run one cycle. -/
  | step
  /-- Take the outputs out. -/
  | drain
deriving Repr

namespace Engine

variable {σ : Type}

/-- Follow an instruction. -/
def perform [DrawSource σ] (e : Engine σ) : Instruction → Engine σ
  | .submit text => match e.submit text with
    | .ok (_, e') => e'
    | .error _ => e
  | .step => e.step
  | .drain => e.drain.2

/-- A new engine after a number of instructions. -/
def after [DrawSource σ] (settings : Settings) (draws : σ) (instructions : List Instruction) :
    Engine σ :=
  instructions.foldl perform (start settings draws)

theorem submit_eq_ok {e e' : Engine σ} {text : String} {id : SentenceId} :
    e.submit text = .ok (id, e') ↔
      ∃ s ids, Sentence.parse text e.ids e.cycle = .ok (s, ids) ∧ id = s.id ∧
        e' = { e with ids }.enqueue { s with fromInput := true } inputPriority := by
  cases h : Sentence.parse text e.ids e.cycle with
  | error error => simp [submit, h, bind, Except.bind]
  | ok x =>
    obtain ⟨s, ids⟩ := x
    simp only [submit, h, bind, Except.bind, pure, Except.pure, Except.ok.injEq, Prod.mk.injEq]
    constructor
    · rintro ⟨rfl, rfl⟩
      exact ⟨s, ids, ⟨rfl, rfl⟩, rfl, rfl⟩
    · rintro ⟨_, _, ⟨rfl, rfl⟩, rfl, rfl⟩
      exact ⟨rfl, rfl⟩

theorem submit_eq_fault_iff {e : Engine σ} {text : String} {fault : Text.Fault} :
    e.submit text = .error (.fault fault) ↔
      fault = .overflow ∧ Utterance.Overshoots text e.cycle := by
  rw [← Sentence.parse_eq_fault_iff e.ids, submit]
  cases Sentence.parse text e.ids e.cycle <;> simp [bind, Except.bind, pure, Except.pure]

theorem cycle_submit {e e' : Engine σ} {text : String} {id : SentenceId}
    (h : e.submit text = .ok (id, e')) : e'.cycle = e.cycle := by
  obtain ⟨_, _, _, _, rfl⟩ := submit_eq_ok.1 h
  rfl

theorem invariant_after [DrawSource σ] {settings : Settings} {draws : σ} {holds : Engine σ → Prop}
    (initial : holds (start settings draws))
    (kept : ∀ e instruction, holds e → holds (e.perform instruction))
    (instructions : List Instruction) : holds (after settings draws instructions) := by
  unfold after
  generalize start settings draws = e at initial
  induction instructions generalizing e with
  | nil => exact initial
  | cons instruction instructions ih => exact ih _ (kept e instruction initial)

end Engine

end NonAxiomatic
