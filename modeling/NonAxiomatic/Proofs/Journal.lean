import NonAxiomatic.Proofs.Conduct

/-!
# Journals

The journal of a run (`Journal.after`) has an entry for each time that the agenda of the engine
changes: where a goal is taken up, and where a cycle ends.

**Theorem (`Journal.path_after`).** The journal of a run leads from the empty agenda to that of the
engine after the run.
-/

namespace NonAxiomatic

/-! ## Journals -/

namespace Journal

variable {σ : Type} [DrawSource σ]

/-- The entries when a goal is pursued. -/
def pursue (e : Engine σ) (goal : Sentence) : List Entry :=
  if e.standpoint.pursues goal && e.takesUp goal then [.takenUp e.standpoint goal] else []

/-- The entries when a sentence is processed. -/
def process (e : Engine σ) (s : Sentence) : List Entry :=
  if s.statement.mentionsVariable || s.punctuation != .goal then []
  else match e.wanted s with
    | (none, _) => []
    | (some best, e) => pursue e best

/-- The entries when a number of the sentences that wait are processed. -/
def processWaiting : (count : Nat) → Engine σ → List Entry
  | 0, _ => []
  | count + 1, e =>
    match e.input.take? with
    | none => []
    | some (s, input) =>
      process { e with input } s ++ processWaiting count ({ e with input }.process s)

/-- The entries when a concept is considered. -/
def consider (e : Engine σ) : List Entry :=
  match e.attended with
  | (none, _) => []
  | (some (c, _), e) =>
    match c.desires.best? with
    | some desire => pursue e desire
    | none => []

/-- The entries when a number of concepts are considered. -/
def considerSome : (count : Nat) → Engine σ → List Entry
  | 0, _ => []
  | count + 1, e => consider e ++ considerSome count e.consider

/-- The entries of one cycle. -/
def step (e : Engine σ) : List Entry :=
  let e := { e with cycle := e.cycle + 1 }
  let processed := Engine.processWaiting e.input.size e
  let considered := Engine.considerSome e.settings.considerPerCycle processed
  processWaiting e.input.size e ++ considerSome e.settings.considerPerCycle processed ++
    [.carriedOut (PendingOperation.due considered.operations)]

/-- The entries when an instruction is followed. -/
def perform (e : Engine σ) : Instruction → List Entry
  | .step => step e
  | .submit _ | .drain => []

/-- The entries when instructions are followed. -/
def follow : Engine σ → List Instruction → List Entry
  | _, [] => []
  | e, instruction :: instructions =>
    perform e instruction ++ follow (e.perform instruction) instructions

/-- The journal of a run. -/
def after (settings : Settings) (draws : σ) (instructions : List Instruction) : List Entry :=
  follow (.start settings draws) instructions

end Journal

/-! ## The journal leads from agenda to agenda -/

namespace Journal

variable {σ : Type} [DrawSource σ]

open Agenda (Path)

theorem path_pursue (e : Engine σ) (goal : Sentence) :
    Path e.agenda (pursue e goal) (e.pursue goal).2.agenda := by
  rw [e.agenda_pursue]
  unfold pursue
  split
  · rename_i h
    simp only [Engine.takesUp, Bool.and_eq_true, Bool.not_eq_true'] at h
    obtain ⟨hp, ⟨⟨hop, hneg⟩, _⟩, hy⟩ := h
    exact .single (.takenUp hp hop hneg (Engine.agenda_yields hy))
  · exact .nil

theorem path_process (e : Engine σ) (s : Sentence) :
    Path e.agenda (process e s) (e.process s).agenda := by
  unfold process Engine.process
  cases s.statement.mentionsVariable with
  | true => exact .nil
  | false =>
    cases s.punctuation with
    | judgment => simp [(e.works_processJudgment s).agenda_eq, Path.nil]
    | question => simp [(e.works_processQuestion s).agenda_eq, Path.nil]
    | goal =>
      have hwanted := e.agenda_wanted s
      simp only [Bool.false_or, Engine.processGoal_eq]
      rcases hw : e.wanted s with ⟨_ | best, e₁⟩ <;> rw [hw] at hwanted
      · simp [← hwanted, Path.nil]
      · simpa [← hwanted, Engine.agenda_enqueueDerived] using path_pursue e₁ best

theorem path_processWaiting (e : Engine σ) (count : Nat) :
    Path e.agenda (processWaiting count e) (Engine.processWaiting count e).agenda := by
  induction count generalizing e with
  | zero => exact .nil
  | succ count ih =>
    unfold processWaiting Engine.processWaiting
    rcases e.input.take? with _ | ⟨s, input⟩
    · exact .nil
    · exact (path_process { e with input } s).append (ih _)

theorem path_consider (e : Engine σ) : Path e.agenda (consider e) e.consider.agenda := by
  have hattended : e.attended.2.agenda = e.agenda :=
    congrArg Conduct.agenda e.infers_attended.conduct_eq
  rw [e.consider_eq]
  unfold consider
  rcases ha : e.attended with ⟨_ | ⟨c, derived⟩, e₁⟩ <;> rw [ha] at hattended
  · rw [← hattended]
    exact .nil
  · rw [← hattended, Engine.agenda_enqueueDerived]
    dsimp only
    cases c.desires.best? with
    | some desire => exact path_pursue e₁ desire
    | none => exact .nil

theorem path_considerSome (e : Engine σ) (count : Nat) :
    Path e.agenda (considerSome count e) (Engine.considerSome count e).agenda := by
  induction count generalizing e with
  | zero => exact .nil
  | succ count ih => exact (path_consider e).append (ih _)

theorem path_step (e : Engine σ) : Path e.agenda (step e) e.step.agenda := by
  have waiting := path_processWaiting { e with cycle := e.cycle + 1 } e.input.size
  have hdue : ∀ e : Engine σ, e.executeDue.agenda = e.agenda.carryOut := by
    intro e
    obtain ⟨_, _, h⟩ := e.conduct_executeDue
    exact congrArg Conduct.agenda h
  unfold step Engine.step
  dsimp only
  rw [hdue]
  exact (waiting.append (path_considerSome _ _)).append (.single .carriedOut)

theorem path_perform (e : Engine σ) (instruction : Instruction) :
    Path e.agenda (perform e instruction) (e.perform instruction).agenda := by
  cases instruction with
  | step => exact path_step e
  | drain => exact .nil
  | submit text =>
    cases hs : e.submit text with
    | error _ =>
      simp only [perform, Engine.perform, hs]
      exact .nil
    | ok x =>
      obtain ⟨_, _, _, _, hx⟩ := Engine.submit_eq_ok.1 (hs : _ = Except.ok (x.1, x.2))
      simp only [perform, Engine.perform, hs, hx]
      exact .nil

theorem path_follow (e : Engine σ) (instructions : List Instruction) :
    Path e.agenda (follow e instructions) (instructions.foldl Engine.perform e).agenda := by
  induction instructions generalizing e with
  | nil => exact .nil
  | cons instruction instructions ih => exact (path_perform e instruction).append (ih _)

/-- **Main theorem.** The journal of a run leads from the empty agenda to that of the engine. -/
theorem path_after (settings : Settings) (draws : σ) (instructions : List Instruction) :
    Path {} (after settings draws instructions)
      (Engine.after settings draws instructions).agenda :=
  path_follow (.start settings draws) instructions

end Journal

end NonAxiomatic
