import NonAxiomatic.Proofs.Undertaking

/-!
# Operations are carried out for goals that are wanted enough

A journal counts cycles: one more has begun with every entry that ends one. From this follow where
the reasoner stood when a goal was taken up (`Journal.Dated`), and in which cycle an operation was
carried out (`Journal.events`).

* `Journal.Stems`: an operation that was carried out in one cycle for a goal that was taken up in
  another.

**Theorem (`Journal.executed_of_decided`).** Every operation that is shown was carried out for a
goal that was taken up in that cycle or an earlier one, whose expectation, seen from there, was
above the threshold of decisions, and it is one of its conjuncts. For a goal whose expectation is
above the threshold in no cycle of the run, nothing is carried out.
-/

namespace NonAxiomatic

namespace Journal

/-! ## The cycles of a journal -/

/-- The number of cycles that end in a journal. -/
def cycles (log : List Entry) : Nat := log.countP fun entry => !entry.isTakenUp

/-- Whether goals were taken up from where a reasoner stood that had begun a cycle before. -/
def Dated (settings : Settings) : (cycle : Nat) → List Entry → Prop
  | _, [] => True
  | cycle, .takenUp p _ :: log => p = ⟨settings, .ofNat cycle⟩ ∧ Dated settings cycle log
  | cycle, .carriedOut _ :: log => Dated settings (cycle + 1) log

/-- The operations that were carried out, with their cycles, from a cycle on that had begun
before. -/
def events : (cycle : Nat) → List Entry → List (String × Cycle)
  | _, [] => []
  | cycle, .takenUp _ _ :: log => events cycle log
  | cycle, .carriedOut operations :: log =>
    operations.map (fun t => (t.text, .ofNat cycle)) ++ events (cycle + 1) log

section Logs

variable {settings : Settings} {cycle : Nat} {log log' : List Entry} {p : Standpoint}
  {goal : Sentence} {operations : List Term}

@[simp] theorem cycles_nil : cycles [] = 0 := rfl

@[simp] theorem cycles_takenUp : cycles (.takenUp p goal :: log) = cycles log := by
  simp [cycles, Entry.isTakenUp]

@[simp] theorem cycles_carriedOut :
    cycles (.carriedOut operations :: log) = cycles log + 1 := by
  simp [cycles, Entry.isTakenUp]

@[simp] theorem cycles_append : cycles (log ++ log') = cycles log + cycles log' :=
  List.countP_append

theorem dated_append : Dated settings cycle (log ++ log') ↔
    Dated settings cycle log ∧ Dated settings (cycle + cycles log) log' := by
  induction log generalizing cycle with
  | nil => simp [Dated]
  | cons entry log ih =>
    cases entry with
    | takenUp => simp [Dated, ih, and_assoc]
    | carriedOut =>
      have hadd : cycle + (cycles log + 1) = cycle + 1 + cycles log := by omega
      simp [Dated, ih, hadd]

theorem events_append :
    events cycle (log ++ log') = events cycle log ++ events (cycle + cycles log) log' := by
  induction log generalizing cycle with
  | nil => simp [events]
  | cons entry log ih =>
    cases entry with
    | takenUp => simp [events, ih]
    | carriedOut =>
      have hadd : cycle + (cycles log + 1) = cycle + 1 + cycles log := by omega
      simp [events, ih, hadd]

/-- What was carried out, was carried out by some entry. -/
theorem exists_of_mem_events {text : String} {c : Cycle} (h : (text, c) ∈ events cycle log) :
    ∃ before operations later, log = before ++ .carriedOut operations :: later ∧
      c = .ofNat (cycle + cycles before) ∧ ∃ t ∈ operations, text = t.text := by
  induction log generalizing cycle with
  | nil => exact absurd h (by simp [events])
  | cons entry log ih =>
    cases entry with
    | takenUp p goal =>
      obtain ⟨before, operations, later, rfl, hc, ht⟩ := ih h
      exact ⟨.takenUp p goal :: before, operations, later, rfl, by simpa using hc, ht⟩
    | carriedOut operations =>
      rcases List.mem_append.1 h with h | h
      · obtain ⟨t, ht, heq⟩ := List.mem_map.1 h
        simp only [Prod.mk.injEq] at heq
        exact ⟨[], operations, log, rfl, heq.2.symm, t, ht, heq.1.symm⟩
      · obtain ⟨before, operations', later, rfl, hc, ht⟩ := ih h
        refine ⟨.carriedOut operations :: before, operations', later, rfl, ?_, ht⟩
        rw [hc, cycles_carriedOut, Nat.add_right_comm, Nat.add_assoc]

/-- Goals that are taken up in one cycle. -/
theorem dated_of_takenUp
    (h : ∀ entry ∈ log, ∃ goal, entry = .takenUp ⟨settings, .ofNat cycle⟩ goal) :
    Dated settings cycle log ∧ cycles log = 0 ∧ events cycle log = [] := by
  induction log with
  | nil => exact ⟨trivial, rfl, rfl⟩
  | cons entry log ih =>
    obtain ⟨goal, rfl⟩ := h entry (by simp)
    obtain ⟨hdated, hcycles, hevents⟩ := ih fun entry hentry => h entry (by simp [hentry])
    exact ⟨⟨rfl, hdated⟩, by simpa using hcycles, hevents⟩

end Logs

/-! ## Goals are taken up from where the engine stands -/

section Engines

variable {σ : Type}

theorem takenUp_of_pursue {e : Engine σ} {goal : Sentence} {entry : Entry}
    (h : entry ∈ pursue e goal) : ∃ goal, entry = .takenUp e.standpoint goal := by
  unfold pursue at h
  split at h
  · exact ⟨goal, List.mem_singleton.1 h⟩
  · exact absurd h (by simp)

variable [DrawSource σ] {e : Engine σ} {entry : Entry}

theorem takenUp_of_process {s : Sentence} (h : entry ∈ process e s) :
    ∃ goal, entry = .takenUp e.standpoint goal := by
  have hwanted : (e.wanted s).2.standpoint = e.standpoint :=
    congrArg Conduct.standpoint (e.conduct_wanted s)
  unfold process at h
  split at h
  · exact absurd h (by simp)
  · rcases hw : e.wanted s with ⟨_ | best, e₁⟩ <;> rw [hw] at h hwanted
    · exact absurd h (by simp)
    · rw [← hwanted]
      exact takenUp_of_pursue h

theorem takenUp_of_consider (h : entry ∈ consider e) :
    ∃ goal, entry = .takenUp e.standpoint goal := by
  have hattended : e.attended.2.standpoint = e.standpoint :=
    congrArg Conduct.standpoint e.infers_attended.conduct_eq
  unfold consider at h
  rcases ha : e.attended with ⟨_ | ⟨c, derived⟩, e₁⟩ <;> rw [ha] at h hattended
  · exact absurd h (by simp)
  · dsimp only at h
    split at h
    · rw [← hattended]
      exact takenUp_of_pursue h
    · exact absurd h (by simp)

omit [DrawSource σ] in
/-- Whether goals were taken up, all from where an engine stands, while it stayed there and showed
no operation. -/
structure Stays (e : Engine σ) (log : List Entry) (e' : Engine σ) : Prop where
  standpoint_eq : e'.standpoint = e.standpoint
  shown_eq : e'.conduct.shown = e.conduct.shown
  takenUp : ∀ entry ∈ log, ∃ goal, entry = .takenUp e.standpoint goal

namespace Stays

variable {e' e'' : Engine σ} {log log' : List Entry}

omit [DrawSource σ] in
theorem nil (e : Engine σ) : Stays e [] e := ⟨rfl, rfl, by simp⟩

omit [DrawSource σ] in
theorem append (h : Stays e log e') (h' : Stays e' log' e'') : Stays e (log ++ log') e'' := by
  refine ⟨h'.standpoint_eq.trans h.standpoint_eq, h'.shown_eq.trans h.shown_eq, ?_⟩
  intro entry hentry
  rcases List.mem_append.1 hentry with hentry | hentry
  · exact h.takenUp entry hentry
  · rw [← h.standpoint_eq]
    exact h'.takenUp entry hentry

end Stays

theorem stays_processWaiting (e : Engine σ) (count : Nat) :
    Stays e (processWaiting count e) (Engine.processWaiting count e) := by
  induction count generalizing e with
  | zero => exact .nil e
  | succ count ih =>
    unfold processWaiting Engine.processWaiting
    rcases e.input.take? with _ | ⟨s, input⟩
    · exact .nil e
    · have hprocess := Engine.pursues_process { e with input } s
      have hstays : Stays { e with input } (process { e with input } s) _ :=
        ⟨hprocess.standpoint_eq, hprocess.shown_eq, fun _ => takenUp_of_process⟩
      obtain ⟨hstand, hshown, htaken⟩ := hstays.append (ih _)
      exact ⟨hstand, hshown, htaken⟩

theorem stays_considerSome (e : Engine σ) (count : Nat) :
    Stays e (considerSome count e) (Engine.considerSome count e) := by
  induction count generalizing e with
  | zero => exact .nil e
  | succ count ih =>
    have hconsider := e.pursues_consider
    have hstays : Stays e (consider e) e.consider :=
      ⟨hconsider.standpoint_eq, hconsider.shown_eq, fun _ => takenUp_of_consider⟩
    exact hstays.append (ih _)

/-! ## What an engine shows -/

omit [DrawSource σ] in
/-- Whether a journal tells what has become of an engine that had run a number of cycles: where it
stood when goals were taken up, and which operations it has shown since. -/
structure Tells (settings : Settings) (n : Nat) (e : Engine σ) (log : List Entry)
    (e' : Engine σ) : Prop where
  standpoint_eq : e'.standpoint = ⟨settings, .ofNat (n + cycles log)⟩
  dated : Dated settings (n + 1) log
  /-- Outputs may have been taken out. -/
  shown : e'.conduct.shown <:+ e.conduct.shown ++ events (n + 1) log

variable {settings : Settings} {n : Nat} {e' e'' : Engine σ} {log log' : List Entry}

omit [DrawSource σ] in
theorem Tells.append (h : Tells settings n e log e')
    (h' : Tells settings (n + cycles log) e' log' e'') : Tells settings n e (log ++ log') e'' := by
  have hadd : n + 1 + cycles log = n + cycles log + 1 := by omega
  refine ⟨?_, dated_append.2 ⟨h.dated, by rw [hadd]; exact h'.dated⟩, ?_⟩
  · rw [h'.standpoint_eq, cycles_append, Nat.add_assoc]
  · rw [events_append, ← List.append_assoc, hadd]
    refine h'.shown.trans ?_
    obtain ⟨drained, hdrained⟩ := h.shown
    exact ⟨drained, by rw [← List.append_assoc, hdrained]⟩

/-- One cycle: goals are taken up, all from where the engine stands, and then the operations that
are due are carried out. -/
theorem step_cases (e : Engine σ) : ∃ log e',
    step e = log ++ [.carriedOut (PendingOperation.due e'.operations)] ∧
      e.step = Engine.executeDue e' ∧
      (∀ entry ∈ log, ∃ goal, entry = .takenUp ⟨e.settings, e.cycle + 1⟩ goal) ∧
      e'.standpoint = ⟨e.settings, e.cycle + 1⟩ ∧ e'.conduct.shown = e.conduct.shown := by
  obtain ⟨hstand, hshown, htaken⟩ :=
    (stays_processWaiting { e with cycle := e.cycle + 1 } e.input.size).append
      (stays_considerSome _ e.settings.considerPerCycle)
  exact ⟨_, _, rfl, rfl, htaken, hstand, hshown⟩

theorem tells_step (h : e.standpoint = ⟨settings, .ofNat n⟩) :
    Tells settings n e (step e) e.step := by
  -- A cycle takes up goals first and carries out operations last.
  obtain ⟨log, e', hlog, hstep, htaken, hstand, hshown⟩ := step_cases e
  have hnow : (⟨e.settings, e.cycle + 1⟩ : Standpoint) = ⟨settings, .ofNat (n + 1)⟩ := by
    have hsettings : e.settings = settings := congrArg Standpoint.settings h
    have hcycle : e.cycle = .ofNat n := congrArg Standpoint.now h
    rw [hsettings, hcycle, UInt64.ofNat_add]
    rfl
  rw [hnow] at htaken hstand
  obtain ⟨hdated, hcycles, hevents⟩ := dated_of_takenUp htaken
  obtain ⟨derived, _, hdue⟩ := e'.conduct_executeDue
  rw [hlog, hstep]
  refine ⟨?_, ?_, ?_⟩
  · have hkept : e'.executeDue.standpoint = e'.standpoint := congrArg Conduct.standpoint hdue
    rw [hkept, hstand, cycles_append, hcycles]
    rfl
  · exact dated_append.2 ⟨hdated, trivial⟩
  · have hcarried : e'.executeDue.conduct.shown = e'.conduct.shown ++
        (PendingOperation.due e'.operations).map fun t => (t.text, e'.conduct.standpoint.now) := by
      rw [hdue]
      rfl
    have hcycle : e'.conduct.standpoint.now = .ofNat (n + 1) := congrArg Standpoint.now hstand
    rw [hcarried, hshown, hcycle, events_append, hevents, hcycles]
    simp [events]

theorem tells_perform (h : e.standpoint = ⟨settings, .ofNat n⟩) (instruction : Instruction) :
    Tells settings n e (perform e instruction) (e.perform instruction) := by
  cases instruction with
  | step => exact tells_step h
  | drain =>
    refine ⟨h, trivial, e.conduct.shown, ?_⟩
    simp [perform, Engine.perform, Engine.drain, Engine.conduct, events]
  | submit text =>
    cases hs : e.submit text with
    | error _ =>
      simp only [perform, Engine.perform, hs]
      exact ⟨h, trivial, by simp [events]⟩
    | ok x =>
      obtain ⟨_, _, _, _, hx⟩ := Engine.submit_eq_ok.1 (hs : _ = Except.ok (x.1, x.2))
      simp only [perform, Engine.perform, hs, hx]
      exact ⟨h, trivial, by simp [events, Engine.conduct, Engine.enqueue]⟩

theorem tells_follow (h : e.standpoint = ⟨settings, .ofNat n⟩) (instructions : List Instruction) :
    Tells settings n e (follow e instructions) (instructions.foldl Engine.perform e) := by
  induction instructions generalizing e n with
  | nil => exact ⟨h, trivial, by simp [follow, events]⟩
  | cons instruction instructions ih =>
    have hfirst := tells_perform h instruction
    exact hfirst.append (ih hfirst.standpoint_eq)

theorem tells_after (settings : Settings) (draws : σ) (instructions : List Instruction) :
    Tells settings 0 (.start settings draws) (after settings draws instructions)
      (Engine.after settings draws instructions) :=
  tells_follow rfl instructions

end Engines

/-! ## What an operation was carried out for -/

/-- Whether an operation was carried out in cycle `n` for a goal that was taken up in cycle `m`, the
last one before. -/
def Stems (log : List Entry) (t : Term) (n : Nat) (goal : Sentence) (m : Nat) : Prop :=
  ∃ before p mid operations later,
    log = before ++ .takenUp p goal :: (mid ++ .carriedOut operations :: later) ∧
      (∀ entry ∈ mid, entry.isTakenUp = false) ∧ t ∈ operations ∧
      m = cycles before + 1 ∧ n = m + cycles mid

section Stemming

open Agenda (Path)

variable {settings : Settings} {log : List Entry} {t : Term} {goal : Sentence} {m n : Nat}
  {b : Agenda}

/-- What is carried out stems from a goal. -/
theorem exists_stems {before later : List Entry} {operations : List Term}
    (h : Path {} (before ++ .carriedOut operations :: later) b) (ht : t ∈ operations) :
    ∃ goal m, Stems (before ++ .carriedOut operations :: later) t (cycles before + 1) goal m := by
  obtain ⟨a, hbefore, hrest⟩ := h.of_append
  obtain _ | ⟨enters, _⟩ := hrest
  cases enters with
  | carriedOut =>
    have hpending : t ∈ a.operations.map PendingOperation.operation :=
      (PendingOperation.perm_due_tick _).mem_iff.2 (List.mem_append_left _ ht)
    rcases origin_of_pending hbefore hpending with ⟨hnone, _⟩ |
      ⟨first, p, goal, mid, rfl, quiet, _, _⟩
    · exact absurd hnone (by simp)
    · refine ⟨goal, _, first, p, mid, _, later, by simp, quiet, ht, rfl, ?_⟩
      rw [cycles_append, cycles_takenUp, Nat.add_right_comm]

/-- What was carried out for a goal is one of its conjuncts, and the goal was wanted enough when it
was taken up. -/
theorem Stems.decided (h : Stems log t n goal m) (path : Path {} log b)
    (dated : Dated settings 1 log) :
    m ≤ n ∧ n ≤ cycles log ∧ goal.isGoal = true ∧
      settings.decisionThreshold < (⟨settings, .ofNat m⟩ : Standpoint).expectation goal ∧
      t ∈ goal.statement.conjuncts := by
  obtain ⟨before, p, mid, operations, later, rfl, quiet, ht, rfl, rfl⟩ := h
  obtain ⟨a, _, hrest⟩ := path.of_append
  obtain _ | ⟨enters, hmid⟩ := hrest
  cases enters with
  | takenUp pursued _ _ _ =>
    obtain rfl : p = ⟨settings, .ofNat (cycles before + 1)⟩ := by
      rw [Nat.add_comm]
      exact (dated_append.1 dated).2.1
    simp only [Standpoint.pursues, Bool.and_eq_true, decide_eq_true_eq] at pursued
    refine ⟨Nat.le_add_right _ _, ?_, pursued.1, pursued.2, ?_⟩
    · simp only [cycles_append, cycles_takenUp, cycles_carriedOut]
      omega
    -- Since nothing was taken up in between, what was carried out had been asked for by this goal.
    · obtain ⟨c, hquiet, hdue⟩ := hmid.of_append
      obtain _ | ⟨enters, _⟩ := hdue
      cases enters with
      | carriedOut =>
        have hasked := (hquiet.undisturbed quiet).1
        rw [← PendingOperation.map_operation_ofGoal]
        refine hasked.mem_iff.2 (List.mem_append_right _ ?_)
        exact (PendingOperation.perm_due_tick _).mem_iff.2 (List.mem_append_left _ ht)

end Stemming

section Runs

variable {σ : Type} [DrawSource σ]

/-- **Main theorem.** Every operation that is shown is one of the conjuncts of a goal that it was
carried out for, and the expectation of that goal, seen from the cycle in which it was taken up, was
above the threshold of decisions. Nothing is carried out for a goal whose expectation is above the
threshold in no cycle of the run. -/
theorem executed_of_decided (settings : Settings) (draws : σ) (instructions : List Instruction) :
    (∀ text desirability c, .executed text desirability c ∈
        (Engine.after settings draws instructions).outputs →
      ∃ t n goal m, Stems (after settings draws instructions) t n goal m ∧
        text = t.text ∧ c = .ofNat n ∧ m ≤ n ∧ goal.isGoal = true ∧
        settings.decisionThreshold < (⟨settings, .ofNat m⟩ : Standpoint).expectation goal ∧
        t ∈ goal.statement.conjuncts) ∧
    (∀ goal, (∀ m ≤ cycles (after settings draws instructions),
        ¬ settings.decisionThreshold < (⟨settings, .ofNat m⟩ : Standpoint).expectation goal) →
      ∀ t n m, ¬ Stems (after settings draws instructions) t n goal m) := by
  have path := path_after settings draws instructions
  have tells := tells_after settings draws instructions
  refine ⟨?_, ?_⟩
  · intro text desirability c hout
    have hshown : (text, c) ∈ (Engine.after settings draws instructions).conduct.shown :=
      List.mem_filterMap.2 ⟨_, Array.mem_toList_iff.2 hout, rfl⟩
    obtain ⟨before, operations, later, hlog, hc, t, ht, htext⟩ :=
      exists_of_mem_events (tells.shown.subset hshown)
    rw [hlog] at path
    obtain ⟨goal, m, hstems⟩ := exists_stems path ht
    rw [← hlog] at hstems path
    obtain ⟨hle, _, hgoal, hwanted, hconjunct⟩ := hstems.decided path tells.dated
    refine ⟨t, _, goal, m, hstems, htext, ?_, hle, hgoal, hwanted, hconjunct⟩
    rw [hc, Nat.add_comm]
  · intro goal hnever t n m hstems
    obtain ⟨hle, hcycles, _, hwanted, _⟩ := hstems.decided path tells.dated
    exact hnever m (Nat.le_trans hle hcycles) hwanted

/-- In this run, an operation is shown, and so there is a goal that it was carried out for. -/
theorem executed_of_decided_single : ∃ t n goal m,
    Stems (after { considerPerCycle := 0 } (Keystream.ofSeed 7)
      [.submit "((*,\x7bSELF\x7d) --> ^a)! %1.0;0.9%", .step]) t n goal m ∧
    (0.6 : Double) < (⟨{ considerPerCycle := 0 }, .ofNat m⟩ : Standpoint).expectation goal ∧
    t ∈ goal.statement.conjuncts := by
  have hshown : ((Engine.after { considerPerCycle := 0 } (Keystream.ofSeed 7)
      [.submit "((*,\x7bSELF\x7d) --> ^a)! %1.0;0.9%", .step]).outputs.toList.any
        fun output => output.shown?.isSome) = true := by
    decide +kernel
  obtain ⟨output, hout, hsome⟩ := List.any_eq_true.1 hshown
  cases output with
  | answer => exact absurd hsome (by simp [Output.shown?])
  | executed text desirability c =>
    obtain ⟨t, n, goal, m, hstems, _, _, _, _, hwanted, hconjunct⟩ :=
      (executed_of_decided _ _ _).1 text desirability c (Array.mem_toList_iff.1 hout)
    exact ⟨t, n, goal, m, hstems, hwanted, hconjunct⟩

end Runs

end Journal

end NonAxiomatic
