import NonAxiomatic.Proofs.Admission
import NonAxiomatic.Proofs.Decision
import NonAxiomatic.Proofs.Encoding
import NonAxiomatic.Proofs.Restoring
import NonAxiomatic.Proofs.Utterances

/-!
# The clock

An engine counts its cycles with a word of 64 bits. A cycle adds one to it, and restoring a snapshot
moves it on to any cycle that the bytes of the snapshot say. A sentence in the future tense happens
some cycles later. If one of the two sums has no word, the run is over.

What the clock should show is a number without bound (`Clock.shown`). A run gets through as long as
every sum fits (`Clock.exists_history_iff`), and the clock then shows this number
(`Clock.toNat_cycle_of_history`).

* `Engine.cycle_step`, `Engine.cycle_load`: what a cycle and a snapshot do to the clock.
* `Clock.Fits`: whether the sum that an action leads to has a word.

**Theorem (`Clock.advances_iff`).** A cycle brings the clock forward exactly if the clock does not
show the last word, and a sentence in the future tense is put in, to happen later than now, exactly
if the sum has a word; otherwise there is a fault. A snapshot is enough to end any run with the next
cycle.
-/

namespace NonAxiomatic

/-- What is done to an engine from outside, with snapshots among it. -/
inductive Action where
  /-- An instruction is followed. -/
  | follow (instruction : Instruction)
  /-- The bytes of a snapshot are restored. -/
  | load (bytes : ByteArray)

/-- The cycle of the snapshot that some bytes write, if an engine takes it. -/
def Snapshot.cycle? (bytes : ByteArray) : Option Cycle :=
  match ofBytes bytes with
  | .error _ => none
  | .ok kept =>
    if kept.entries.all fun entry => entry.readStatement.isOk then some kept.cycle else none

namespace Engine

variable {σ : Type} [DrawSource σ]

/-- Restore the snapshot that some bytes write. An engine that refuses it is left as it was. -/
def load (e : Engine σ) (bytes : ByteArray) : Engine σ :=
  match Snapshot.ofBytes bytes with
  | .error _ => e
  | .ok kept => match e.restore kept with
    | .error _ => e
    | .ok (_, e') => e'

/-- Do to an engine what is to be done. -/
def undergo (e : Engine σ) : Action → Engine σ
  | .follow instruction => e.perform instruction
  | .load bytes => e.load bytes

/-- Do to an engine what is to be done, up to a number that has no word. A text that is no sentence
leaves the engine as it was. -/
def attempt (e : Engine σ) : Action → Except Text.Fault (Engine σ)
  | .follow .step => e.tick
  | .follow (.submit text) =>
    match e.submit text with
    | .error (.fault cause) => .error cause
    | .error (.text _) => .ok e
    | .ok (_, e') => .ok e'
  | .follow .drain => .ok (e.perform .drain)
  | .load bytes => .ok (e.load bytes)

/-- A new engine after a number of actions, if it gets through them. -/
def history (settings : Settings) (draws : σ) (actions : List Action) :
    Except Text.Fault (Engine σ) :=
  actions.foldlM attempt (start settings draws)

/-! ## What moves the clock -/

theorem cycle_step (e : Engine σ) : e.step.cycle = e.cycle + 1 := by
  obtain ⟨_, e', _, hstep, _, hstand, _⟩ := Journal.step_cases e
  obtain ⟨_, _, hdue⟩ := e'.conduct_executeDue
  have hkept : e'.executeDue.standpoint = e'.standpoint := congrArg Conduct.standpoint hdue
  rw [hstep]
  exact congrArg Standpoint.now (hkept.trans hstand)

theorem tick_eq (e : Engine σ) :
    e.tick = if e.cycle.toNat + 1 < 2 ^ 64 then .ok e.step else .error .overflow := by
  have hsize : UInt64.size = 2 ^ 64 := rfl
  have hone : (1 : UInt64).toNat = 1 := rfl
  rw [tick, Text.sum64, hone, hsize]
  split_ifs <;> rfl

theorem cycle_restoreEntries (entries : List (Term × SnapshotEntry)) (e : Engine σ) :
    (entries.foldl restoreEntry e).cycle = e.cycle := by
  induction entries generalizing e with
  | nil => rfl
  | cons x entries ih =>
    rw [List.foldl_cons, ih]
    unfold restoreEntry
    dsimp only
    split <;> rfl

/-- A snapshot that is taken moves the clock on to its cycle. -/
theorem cycle_load (e : Engine σ) (bytes : ByteArray) :
    (e.load bytes).cycle.toNat =
      max e.cycle.toNat (((Snapshot.cycle? bytes).map UInt64.toNat).getD 0) := by
  unfold load Snapshot.cycle?
  cases Snapshot.ofBytes bytes with
  | error _ => exact (Nat.max_zero _).symm
  | ok kept =>
    dsimp only
    -- A snapshot of which one statement cannot be read changes nothing, not even the clock.
    split_ifs with hread
    · have hrestored : ∃ x, e.restore kept = .ok x := by
        refine restore_eq_ok.2 fun entry hentry => ?_
        have hok := List.all_eq_true.1 hread entry hentry
        cases hstatement : entry.readStatement with
        | error _ => simp [hstatement, Except.isOk, Except.toBool] at hok
        | ok t => exact ⟨t, rfl⟩
      obtain ⟨⟨count, e'⟩, hrestored⟩ := hrestored
      obtain ⟨entries, _, _, _, rfl⟩ := restore_eq_ok_iff.1 hrestored
      rw [hrestored]
      dsimp only [Option.map_some, Option.getD_some]
      rw [cycle_restoreEntries]
      dsimp only
      -- The engine's own clock is kept if it is ahead.
      split <;> rename_i hlt <;> rw [UInt64.lt_iff_toNat_lt] at hlt <;> omega
    · cases hrestored : e.restore kept with
      | error _ => exact (Nat.max_zero _).symm
      | ok x =>
        refine absurd (List.all_eq_true.2 fun entry hentry => ?_) hread
        obtain ⟨t, ht⟩ := restore_eq_ok.1 ⟨x, hrestored⟩ entry hentry
        rw [ht]
        rfl

end Engine

namespace Clock

/-! ## What the clock should show -/

/-- What a clock without bound shows after an action. -/
def move (now : Nat) : Action → Nat
  | .follow .step => now + 1
  | .follow _ => now
  | .load bytes => max now (((Snapshot.cycle? bytes).map UInt64.toNat).getD 0)

/-- What a clock without bound shows after some actions. -/
def shown (actions : List Action) : Nat := actions.foldl move 0

/-- Whether the sum that an action leads to has a word, if there is one. -/
def Fits (now : Nat) : Action → Prop
  | .follow .step => now + 1 < 2 ^ 64
  | .follow (.submit text) =>
    ∀ u, Utterance.parse text = .ok u → u.tense = .future → now + 5 < 2 ^ 64
  | .follow .drain => True
  | .load _ => True

variable {σ : Type} [DrawSource σ] {settings : Settings} {draws : σ} {actions : List Action}
  {e e' : Engine σ}

omit [DrawSource σ] in
theorem fits_submit_iff {text : String} :
    Fits e.cycle.toNat (.follow (.submit text)) ↔ ¬Utterance.Overshoots text e.cycle := by
  have hdistance : Utterance.tenseDistance.toNat = 5 := rfl
  simp only [Fits, Utterance.Overshoots, hdistance, not_exists, not_and, Nat.not_le]
  rfl

/-- An action that fits does what it does, any other one is a fault. -/
theorem attempt_eq (e : Engine σ) (action : Action) [Decidable (Fits e.cycle.toNat action)] :
    e.attempt action =
      if Fits e.cycle.toNat action then .ok (e.undergo action) else .error .overflow := by
  cases action with
  | load bytes => exact (if_pos trivial).symm
  | follow instruction =>
    cases instruction with
    | drain => exact (if_pos trivial).symm
    | step =>
      have htick := e.tick_eq
      split_ifs with hfits
      · exact htick.trans (if_pos hfits)
      · exact htick.trans (if_neg hfits)
    | submit text =>
      -- A submission fails for its text or for the cycle that it would happen in; only the latter
      -- ends the run.
      rw [Engine.attempt, Engine.undergo, Engine.perform]
      split_ifs with hfits
      · cases hsubmit : e.submit text with
        | ok x => rfl
        | error error =>
          cases error with
          | text cause => rfl
          | fault cause =>
            exact absurd (Engine.submit_eq_fault_iff.1 hsubmit).2 (fits_submit_iff.1 hfits)
      · have hlate := Classical.not_not.1 fun h => hfits (fits_submit_iff.2 h)
        rw [Engine.submit_eq_fault_iff.2 ⟨rfl, hlate⟩]

theorem attempt_eq_ok {action : Action} :
    e.attempt action = .ok e' ↔ Fits e.cycle.toNat action ∧ e.undergo action = e' := by
  classical
  rw [attempt_eq]
  split_ifs with hfits <;> simp [hfits]

theorem shown_append_singleton (actions : List Action) (action : Action) :
    shown (actions ++ [action]) = move (shown actions) action := by
  rw [shown, List.foldl_append, List.foldl_cons, List.foldl_nil, ← shown]

theorem history_append_singleton (action : Action) :
    Engine.history settings draws (actions ++ [action]) =
      Engine.history settings draws actions >>= (·.attempt action) := by
  rw [Engine.history, List.foldlM_append, ← Engine.history]
  exact bind_congr fun e => List.foldlM_cons.trans (bind_pure _)

theorem history_append_singleton_eq_ok {action : Action} :
    Engine.history settings draws (actions ++ [action]) = .ok e' ↔
      ∃ e, Engine.history settings draws actions = .ok e ∧ e.attempt action = .ok e' := by
  rw [history_append_singleton]
  cases Engine.history settings draws actions <;> simp [bind, Except.bind]

/-- What fits is what the clock shows after an action. -/
theorem toNat_cycle_undergo {action : Action} (h : Fits e.cycle.toNat action) :
    (e.undergo action).cycle.toNat = move e.cycle.toNat action := by
  cases action with
  | load bytes => exact e.cycle_load bytes
  | follow instruction =>
    cases instruction with
    | step =>
      have hstep : (e.undergo (.follow .step)).cycle = e.cycle + 1 := e.cycle_step
      rw [hstep, UInt64.toNat_add]
      exact Nat.mod_eq_of_lt h
    | drain => rfl
    | submit text =>
      cases hs : e.submit text with
      | error _ => simp only [Engine.undergo, Engine.perform, hs, move]
      | ok x =>
        have hkept := Engine.cycle_submit (hs : _ = Except.ok (x.1, x.2))
        simp only [Engine.undergo, Engine.perform, hs, move, hkept]

/-- The clock of a run that gets through shows what it should. -/
theorem toNat_cycle_of_history (h : Engine.history settings draws actions = .ok e) :
    e.cycle.toNat = shown actions := by
  induction actions using List.reverseRecOn generalizing e with
  | nil =>
    obtain rfl := Except.ok.inj h
    rfl
  | append_singleton actions action ih =>
    obtain ⟨before, hbefore, hattempt⟩ := history_append_singleton_eq_ok.1 h
    obtain ⟨hfits, rfl⟩ := attempt_eq_ok.1 hattempt
    rw [toNat_cycle_undergo hfits, ih hbefore, shown_append_singleton]

/-- A run gets through exactly if everything in it fits. -/
theorem exists_history_iff (settings : Settings) (draws : σ) (actions : List Action) :
    (∃ e, Engine.history settings draws actions = .ok e) ↔
      ∀ earlier action, earlier ++ [action] <+: actions → Fits (shown earlier) action := by
  induction actions using List.reverseRecOn with
  | nil => exact iff_of_true ⟨_, rfl⟩ fun earlier action h => by simp at h
  | append_singleton actions action ih =>
    simp only [List.prefix_concat_iff, List.append_singleton_inj]
    constructor
    · rintro ⟨e', h⟩
      obtain ⟨e, he, hattempt⟩ := history_append_singleton_eq_ok.1 h
      rintro earlier last (⟨rfl, rfl⟩ | hearlier)
      · rw [← toNat_cycle_of_history he]
        exact (attempt_eq_ok.1 hattempt).1
      · exact ih.1 ⟨e, he⟩ earlier last hearlier
    · intro h
      obtain ⟨e, he⟩ := ih.2 fun earlier last hearlier => h earlier last (.inr hearlier)
      have hfits : Fits e.cycle.toNat action := by
        rw [toNat_cycle_of_history he]
        exact h actions action (.inl ⟨rfl, rfl⟩)
      exact ⟨_, history_append_singleton_eq_ok.2 ⟨e, he, attempt_eq_ok.2 ⟨hfits, rfl⟩⟩⟩

/-- The bytes of a snapshot that tells the last cycle, and nothing else. -/
def lastCycle : ByteArray := ({ cycle := 0xFFFFFFFFFFFFFFFF } : Snapshot).toBytes

theorem cycle?_lastCycle : Snapshot.cycle? lastCycle = some 0xFFFFFFFFFFFFFFFF := by
  decide +kernel

/-- There is no cycle after the last one. -/
theorem tick_load_lastCycle (e : Engine σ) :
    (e.load lastCycle).tick = .error .overflow := by
  have hlast : (e.load lastCycle).cycle.toNat = max e.cycle.toNat (2 ^ 64 - 1) := by
    rw [Engine.cycle_load, cycle?_lastCycle]
    rfl
  rw [Engine.tick_eq, if_neg (by omega)]

omit [DrawSource σ] in
/-- A sentence in the future tense is put in, to happen later than now, if the sum has a word. -/
theorem submit_future (e : Engine σ) {text : String} {u : Utterance}
    (hparse : Utterance.parse text = .ok u) (htense : u.tense = .future)
    (hfits : e.cycle.toNat + 5 < 2 ^ 64) :
    ∃ s ids later, e.submit text = .ok (s.id, { e with ids }.enqueue s Engine.inputPriority) ∧
      s.occurrence = some later ∧ e.cycle < later := by
  have hat : Utterance.occurrenceAt e.cycle u.tense =
      .ok (some (e.cycle + Utterance.tenseDistance)) := by
    rw [htense]
    exact Utterance.occurrenceAt_future hfits
  refine ⟨{ Sentence.fresh u.statement u.kind e.ids.peek
    (some (e.cycle + Utterance.tenseDistance)) with fromInput := true }, e.ids.advance, _,
    Engine.submit_eq_ok.2 ⟨_, _, Sentence.parse_eq_ok.2 ⟨u, _, hparse, hat, rfl, rfl⟩, rfl, rfl⟩,
    rfl, ?_⟩
  have hdistance : Utterance.tenseDistance.toNat = 5 := rfl
  rw [UInt64.lt_iff_toNat_lt, UInt64.toNat_add, hdistance]
  omega

/-- **Main theorem.** A run gets through exactly if every sum in it has a word, and its clock shows
the number it should. From there a cycle brings the clock forward exactly if the next number has a
word, and a sentence in the future tense is put in, to happen later than now, exactly if the sum of
the cycle and the distance has a word. What does not fit is a fault. However a run went, the last
cycle may be restored, and then there is no other one. -/
theorem advances_iff (settings : Settings) (draws : σ) (actions : List Action) :
    ((∃ e, Engine.history settings draws actions = .ok e) ↔
      ∀ earlier action, earlier ++ [action] <+: actions → Fits (shown earlier) action) ∧
    ∀ e, Engine.history settings draws actions = .ok e →
      e.cycle.toNat = shown actions ∧
      (e.cycle.toNat + 1 < 2 ^ 64 → ∃ e', e.tick = .ok e' ∧ e.cycle < e'.cycle) ∧
      (2 ^ 64 ≤ e.cycle.toNat + 1 → e.tick = .error .overflow) ∧
      (∀ text u, Utterance.parse text = .ok u → u.tense = .future →
        (e.cycle.toNat + 5 < 2 ^ 64 → ∃ s ids later,
          e.submit text = .ok (s.id, { e with ids }.enqueue s Engine.inputPriority) ∧
            s.occurrence = some later ∧ e.cycle < later) ∧
        (2 ^ 64 ≤ e.cycle.toNat + 5 → e.submit text = .error (.fault .overflow))) ∧
      Engine.history settings draws (actions ++ [.load lastCycle] ++ [.follow .step]) =
        .error .overflow := by
  refine ⟨exists_history_iff settings draws actions, fun e he =>
    ⟨toNat_cycle_of_history he, fun hfits => ⟨e.step, ?_, ?_⟩, fun hlate => ?_,
      fun text u hparse htense => ⟨submit_future e hparse htense, fun hlate =>
        Engine.submit_eq_fault_iff.2 ⟨rfl, u, hparse, htense, hlate⟩⟩, ?_⟩⟩
  · rw [Engine.tick_eq, if_pos hfits]
  · have hone : (1 : UInt64).toNat = 1 := rfl
    rw [Engine.cycle_step, UInt64.lt_iff_toNat_lt, UInt64.toNat_add, hone]
    omega
  · rw [Engine.tick_eq, if_neg (Nat.not_lt.2 hlate)]
  · rw [history_append_singleton, history_append_singleton, he]
    exact tick_load_lastCycle e

end Clock

end NonAxiomatic
