import NonAxiomatic.Proofs.Clock

/-!
# When operations are sent

A goal for a conjunction asks for its operands one after the other. An operand waits for all gaps
before it, at most for the greatest number of cycles that can be counted
(`PendingOperation.dueTime`), beginning with the cycle in which the goal is taken up. So the
operands are due in the order that they have in the goal.

* `Journal.record`: the journal of what is done to an engine from outside, with snapshots among it.
* `Journal.sentIn`: what is sent in each of the cycles. This can be told from the journal
  (`Journal.sentIn_eq`).

**Theorem (`Journal.sent_when_due`).** Until another goal is taken up, each cycle sends the operands
that are due in it, in the order that they have in the goal, so that each operand is sent once if
all are due before.
-/

namespace NonAxiomatic

/-! ## When operands are due -/

namespace PendingOperation

/-- The number of cycles that the operand at a position is to wait. -/
def dueTime (gaps : List UInt32) (k : Nat) : Nat :=
  min (2 ^ 32 - 1) ((gaps.take k).map UInt32.toNat).sum

/-- The operands that are to wait a number of cycles, in their order. -/
def dueAfter (operands : List Term) (gaps : List UInt32) (cycles : Nat) : List Term :=
  (operands.zipIdx.filter fun x => dueTime gaps x.2 == cycles).map Prod.fst

/-- An operation and the number of cycles that it waits. -/
def timed (o : PendingOperation) : Term × Nat := (o.operation, o.delay.toNat)

/-- A sum that cannot be counted is the greatest number that can. -/
theorem toNat_addDelay (d gap : UInt32) :
    (addDelay d gap).toNat = min (2 ^ 32 - 1) (d.toNat + gap.toNat) := by
  have hlast : (0 - 1 : UInt32).toNat = 2 ^ 32 - 1 := rfl
  have hd := d.toNat_lt
  have hgap := gap.toNat_lt
  unfold addDelay
  split
  · rename_i hover
    rw [UInt32.lt_iff_toNat_lt, UInt32.toNat_add] at hover
    rw [hlast]
    omega
  · rename_i hfits
    rw [UInt32.lt_iff_toNat_lt, UInt32.toNat_add] at hfits
    rw [UInt32.toNat_add]
    omega

/-- Each operand waits as long as those before it and the gap between, on top of the delay of the
first. -/
theorem map_timed_spaced (delay : UInt32) (ts : List Term) (gaps : List UInt32) :
    (spaced delay ts gaps).map timed = ts.zipIdx.map fun x =>
      (x.1, min (2 ^ 32 - 1) (delay.toNat + ((gaps.take x.2).map UInt32.toNat).sum)) := by
  induction ts generalizing delay gaps with
  | nil => rfl
  | cons t ts ih =>
    have hdelay := delay.toNat_lt
    rw [spaced, List.map_cons, ih, List.zipIdx_cons, List.map_cons, Nat.zero_add,
      List.zipIdx_succ, List.map_map]
    congr 1
    · simp only [timed, List.take_zero, List.map_nil, List.sum_nil, Prod.mk.injEq, true_and]
      omega
    · refine List.map_congr_left fun x _ => ?_
      simp only [Function.comp_apply, toNat_addDelay, Prod.mk.injEq, true_and]
      cases gaps with
      | nil =>
        simp
      | cons gap gaps =>
        simp only [List.head?_cons, Option.getD_some, List.tail_cons, List.take_succ_cons,
          List.map_cons, List.sum_cons]
        omega

theorem dueIn_eq (pending : List PendingOperation) (cycles : Nat) :
    dueIn pending cycles = ((pending.map timed).filter fun x => x.2 == cycles).map Prod.fst := by
  simp [dueIn, timed, List.filter_map, Function.comp_def]

/-- A goal for a conjunction asks for its operands when they are due. -/
theorem dueIn_ofGoal {connector : Connector} (h : connector.isConjunction = true)
    (operands : List Term) (intervals : List UInt32) (cycles : Nat) :
    dueIn (ofGoal (.compound connector operands intervals)) cycles =
      dueAfter operands intervals cycles := by
  have hspaced : ofGoal (.compound connector operands intervals) = spaced 0 operands intervals :=
    if_pos h
  rw [hspaced, dueIn_eq, map_timed_spaced, dueAfter, List.filter_map, List.map_map]
  simp [Function.comp_def, dueTime]

/-- An operand is not due before those that stand before it. -/
theorem dueTime_mono (gaps : List UInt32) {k l : Nat} (h : k ≤ l) :
    dueTime gaps k ≤ dueTime gaps l := by
  have hprefix : (gaps.take k).map UInt32.toNat <+: (gaps.take l).map UInt32.toNat :=
    (List.take_prefix_take_left h).map _
  obtain ⟨rest, hrest⟩ := hprefix
  have hsum : ((gaps.take l).map UInt32.toNat).sum =
      ((gaps.take k).map UInt32.toNat).sum + rest.sum := by
    rw [← hrest, List.sum_append]
  unfold dueTime
  omega

/-- What is sorted by its times has what comes at a time behind what comes before. -/
theorem filter_lt_append_filter_eq {α : Type} (time : α → Nat) {xs : List α}
    (sorted : xs.Pairwise fun x y => time x ≤ time y) (n : Nat) :
    (xs.filter fun x => time x < n) ++ (xs.filter fun x => time x == n) =
      xs.filter fun x => time x < n + 1 := by
  induction xs with
  | nil => rfl
  | cons x xs ih =>
    obtain ⟨hfirst, hrest⟩ := List.pairwise_cons.1 sorted
    have ih := ih hrest
    rcases Nat.lt_trichotomy (time x) n with hlt | heq | hgt
    · have hne : time x ≠ n := Nat.ne_of_lt hlt
      have hlt' : time x < n + 1 := Nat.lt_succ_of_lt hlt
      rw [List.filter_cons_of_pos (by simpa using hlt),
        List.filter_cons_of_neg (by simpa using hne),
        List.filter_cons_of_pos (by simpa using hlt'), List.cons_append, ih]
    · -- What stands behind does not come before it.
      have hnone : (xs.filter fun y => time y < n) = [] := by
        refine List.filter_eq_nil_iff.2 fun y hy => ?_
        have hle := hfirst y hy
        simp only [decide_eq_true_eq]
        omega
      rw [hnone, List.nil_append] at ih
      simp [heq, hnone, ih]
    · have hne : time x ≠ n := Nat.ne_of_gt hgt
      have hnot : ¬time x < n := Nat.lt_asymm hgt
      have hnot' : ¬time x < n + 1 := by omega
      rw [List.filter_cons_of_neg (by simpa using hnot),
        List.filter_cons_of_neg (by simpa using hne),
        List.filter_cons_of_neg (by simpa using hnot'), ih]

/-- What is sorted by its times comes in its order, time after time. -/
theorem flatMap_filter_range {α : Type} (time : α → Nat) {xs : List α}
    (sorted : xs.Pairwise fun x y => time x ≤ time y) (n : Nat) :
    ((List.range n).flatMap fun i => xs.filter fun x => time x == i) =
      xs.filter fun x => time x < n := by
  induction n with
  | zero => simp
  | succ n ih =>
    rw [List.range_succ, List.flatMap_append, ih, List.flatMap_singleton]
    exact filter_lt_append_filter_eq time sorted n

/-- All operands come in their order, if time is left for the last one. -/
theorem flatMap_dueAfter {operands : List Term} {gaps : List UInt32} {n : Nat}
    (h : ∀ k < operands.length, dueTime gaps k < n) :
    (List.range n).flatMap (dueAfter operands gaps) = operands := by
  have sorted : operands.zipIdx.Pairwise fun x y => dueTime gaps x.2 ≤ dueTime gaps y.2 := by
    have hlt := List.pairwise_lt_range' (s := 0) (n := operands.length)
    rw [← List.zipIdx_map_snd 0 operands, List.pairwise_map] at hlt
    exact hlt.imp fun hxy => dueTime_mono gaps (Nat.le_of_lt hxy)
  have hall : (operands.zipIdx.filter fun x => dueTime gaps x.2 < n) = operands.zipIdx := by
    refine List.filter_eq_self.2 fun x hx => ?_
    obtain ⟨_, hlt, _⟩ := List.mem_zipIdx hx
    exact decide_eq_true (h x.2 (by omega))
  have hsplit := congrArg (List.map Prod.fst)
    (flatMap_filter_range (fun x : Term × Nat => dueTime gaps x.2) sorted n)
  rw [List.map_flatMap, hall, List.zipIdx_map_fst] at hsplit
  exact hsplit

/-- Without gaps, everything is due at once. -/
theorem dueTime_of_fitted {connector : Connector} {operands : List Term} {intervals : List UInt32}
    (fitted : Term.fitIntervals connector operands intervals = intervals)
    (hconnector : connector.isConjunction = true) (hne : connector ≠ .sequentialConjunction)
    (k : Nat) : dueTime intervals k = 0 := by
  have hzeros : ∃ n, intervals = List.replicate n 0 := by
    rw [← fitted]
    cases connector with
    | conjunction => exact ⟨0, rfl⟩
    | parallelConjunction => exact ⟨_, rfl⟩
    | sequentialConjunction => exact absurd rfl hne
    | _ => exact absurd hconnector (by decide)
  obtain ⟨n, rfl⟩ := hzeros
  simp [dueTime]

end PendingOperation

/-! ## What is sent -/

namespace Engine

variable {σ : Type} [DrawSource σ]

theorem agenda_restoreEntries (entries : List (Term × SnapshotEntry)) (e : Engine σ) :
    (entries.foldl restoreEntry e).agenda = e.agenda := by
  induction entries generalizing e with
  | nil => rfl
  | cons x entries ih =>
    rw [List.foldl_cons, ih]
    unfold restoreEntry
    dsimp only
    split <;> rfl

/-- Restoring a snapshot does not touch what an engine is about to do. -/
theorem agenda_load (e : Engine σ) (bytes : ByteArray) : (e.load bytes).agenda = e.agenda := by
  unfold load
  split
  · rfl
  · split
    · rfl
    · rename_i hrestored
      obtain ⟨entries, _, _, _, rfl⟩ := restore_eq_ok_iff.1 hrestored
      rw [agenda_restoreEntries]
      rfl

end Engine

namespace Entry

/-- The operations that were carried out, if a cycle ended. -/
def turn? : Entry → Option (List Term)
  | takenUp .. => none
  | carriedOut operations => some operations

end Entry

namespace Journal

open Agenda (Path)

variable {σ : Type} [DrawSource σ]

/-- The journal of what is done to an engine. -/
def record : Engine σ → List Action → List Entry
  | _, [] => []
  | e, .follow instruction :: actions =>
    perform e instruction ++ record (e.perform instruction) actions
  | e, .load bytes :: actions => record (e.load bytes) actions

/-- What is sent in each of the cycles while something is done to an engine. -/
def sentIn : Engine σ → List Action → List (List Term)
  | _, [] => []
  | e, .follow .step :: actions =>
    e.step.commands.toList.drop e.commands.size :: sentIn e.step actions
  | e, action :: actions => sentIn (e.undergo action) actions

/-- What is carried out at the end of each of the cycles of a journal. -/
def turns (log : List Entry) : List (List Term) := log.filterMap Entry.turn?

theorem path_record (e : Engine σ) (actions : List Action) :
    Path e.agenda (record e actions) (actions.foldl Engine.undergo e).agenda := by
  induction actions generalizing e with
  | nil => exact .nil
  | cons action actions ih =>
    cases action with
    | follow instruction => exact (path_perform e instruction).append (ih _)
    | load bytes =>
      have hrest := ih (e.load bytes)
      rwa [e.agenda_load] at hrest

@[simp] theorem turns_takenUp (p : Standpoint) (goal : Sentence) (log : List Entry) :
    turns (.takenUp p goal :: log) = turns log := rfl

@[simp] theorem turns_carriedOut (operations : List Term) (log : List Entry) :
    turns (.carriedOut operations :: log) = operations :: turns log := rfl

@[simp] theorem turns_append (log log' : List Entry) :
    turns (log ++ log') = turns log ++ turns log' := List.filterMap_append

theorem length_turns (log : List Entry) : (turns log).length = cycles log := by
  induction log with
  | nil => rfl
  | cons entry log ih => cases entry <;> simp [ih]

theorem flatten_turns (log : List Entry) : (turns log).flatten = sent log := by
  induction log with
  | nil => rfl
  | cons entry log ih => cases entry <;> simp [sent, Entry.operations, ih]

/-- In one cycle, that is sent which is due at its end. -/
theorem turns_step (e : Engine σ) :
    turns (step e) = [e.step.commands.toList.drop e.commands.size] := by
  obtain ⟨log, e', hlog, _, htaken, _⟩ := step_cases e
  have hnone : ∀ {log : List Entry}, (∀ entry ∈ log, ∃ goal, entry =
      .takenUp ⟨e.settings, e.cycle + 1⟩ goal) → turns log = [] := by
    intro log h
    refine List.filterMap_eq_nil_iff.2 fun entry hentry => ?_
    obtain ⟨goal, rfl⟩ := h entry hentry
    rfl
  have hturns : turns (step e) = [PendingOperation.due e'.operations] := by
    rw [hlog, turns_append, hnone htaken]
    rfl
  have hcommands : e.step.commands.toList = e.commands.toList ++ sent (step e) :=
    (path_step e).commands_eq
  have hsent : sent (step e) = PendingOperation.due e'.operations := by
    rw [← flatten_turns, hturns]
    exact List.append_nil _
  rw [hturns, hcommands, hsent, ← Array.length_toList, List.drop_left]

/-- What is sent in each of the cycles is what the journal tells of them. -/
theorem sentIn_eq (e : Engine σ) (actions : List Action) :
    sentIn e actions = turns (record e actions) := by
  induction actions generalizing e with
  | nil => rfl
  | cons action actions ih =>
    cases action with
    | load bytes => exact ih _
    | follow instruction =>
      cases instruction with
      | submit text => exact ih _
      | drain => exact ih _
      | step =>
        have hcons : sentIn e (.follow .step :: actions) =
          [e.step.commands.toList.drop e.commands.size] ++ sentIn e.step actions := rfl
        rw [hcons, ih, ← turns_step]
        exact (turns_append _ _).symm

/-- While no goal is taken up, each cycle carries out what is due in it. -/
theorem turns_of_quiet {a b : Agenda} {log : List Entry} (h : Path a log b)
    (quiet : ∀ entry ∈ log, entry.isTakenUp = false) :
    turns log = (List.range log.length).map (PendingOperation.dueIn a.operations) := by
  have hmap : ∀ ns : List Nat, turns (ns.map fun i =>
      Entry.carriedOut (PendingOperation.dueIn a.operations i)) =
        ns.map (PendingOperation.dueIn a.operations) := by
    intro ns
    induction ns with
    | nil => rfl
    | cons n ns ih => rw [List.map_cons, turns_carriedOut, ih, List.map_cons]
  have htimely := congrArg turns (h.timely quiet)
  rwa [hmap] at htimely

end Journal

/-! ## The goals that are taken up -/

namespace Journal

section Goals

variable {σ : Type} [DrawSource σ] {settings : Settings} {T : Trait} {e : Engine σ}
  {p : Standpoint} {goal s : Sentence}

omit [DrawSource σ] in
theorem eq_of_mem_pursue {best : Sentence} (h : .takenUp p goal ∈ pursue e best) : goal = best := by
  unfold pursue at h
  split at h
  · have heq := List.mem_singleton.1 h
    injection heq
  · exact absurd h (by simp)

theorem has_of_process (h : e.Sound settings T) (hs : T.has e.ids s)
    (hgoal : .takenUp p goal ∈ process e s) : ∃ ids, T.has ids goal := by
  unfold process at hgoal
  split at hgoal
  · exact absurd hgoal (by simp)
  · rename_i hprocessed
    simp only [Bool.or_eq_true, bne_iff_ne, not_or, Bool.not_eq_true, Decidable.not_not]
      at hprocessed
    obtain ⟨hplain, hkind⟩ := hprocessed
    split at hgoal
    · exact absurd hgoal (by simp)
    · rename_i best e' hwanted
      obtain rfl := eq_of_mem_pursue hgoal
      unfold Engine.wanted at hwanted
      have h₁ := h.conceptualize s.statement
      have hs₁ : T.has (e.conceptualize s.statement).ids s := hs
      generalize e.conceptualize s.statement = e₁ at h₁ hs₁ hwanted
      dsimp only at hwanted
      split at hwanted
      · exact absurd (congrArg Prod.fst hwanted) (by simp)
      · have h₂ : Engine.Sound settings T { e₁ with
            memory := (e₁.memory.activate e₁.settings s.statement).setQuality s.statement
              Engine.goalQuality } :=
          h₁.withMemory ((h₁.memory.rebudget _ _).rebudget _ _)
        obtain ⟨h₃, _⟩ := h₂.want hs₁ hkind hplain
        obtain ⟨c, hc, hbest⟩ := Option.bind_eq_some_iff.1 (congrArg Prod.fst hwanted)
        exact ⟨_, ((h₃.memory.concept? hc).1.desires.best? hbest).good⟩

theorem has_of_consider (h : e.Sound settings T) (hgoal : .takenUp p goal ∈ consider e) :
    ∃ ids, T.has ids goal := by
  obtain ⟨_, hc⟩ := e.drawSentential_cases
  have contains : ∀ c derived e', e.attended = (some (c, derived), e') → e.memory.Contains c := by
    intro c derived e' hattended
    unfold Engine.attended at hattended
    split at hattended
    · exact absurd (congrArg Prod.fst hattended) (by simp)
    · rename_i found _ hdrawn
      have hfound := hc found (by rw [hdrawn])
      split at hattended <;> cases hattended <;> exact hfound
  unfold consider at hgoal
  split at hgoal
  · exact absurd hgoal (by simp)
  · rename_i c derived e' hattended
    split at hgoal
    · rename_i desire hdesire
      obtain rfl := eq_of_mem_pursue hgoal
      exact ⟨_, ((h.memory.of_contains (contains c derived e' hattended)).desires.best?
        hdesire).good⟩
    · exact absurd hgoal (by simp)

theorem has_of_processWaiting (h : e.Sound settings T) {count : Nat}
    (hgoal : .takenUp p goal ∈ processWaiting count e) : ∃ ids, T.has ids goal := by
  induction count generalizing e with
  | zero => exact absurd hgoal (by simp [processWaiting])
  | succ count ih =>
    unfold processWaiting at hgoal
    split at hgoal
    · exact absurd hgoal (by simp)
    · rename_i s input htaken
      obtain ⟨hs, hinput⟩ := h.input.take? htaken
      have h₁ : Engine.Sound settings T { e with input } :=
        ⟨h.settings_eq, h.memory, hinput, h.events, h.goal, h.operations, h.pending⟩
      rcases List.mem_append.1 hgoal with hgoal | hgoal
      · exact has_of_process h₁ hs hgoal
      · exact ih (h₁.process hs) hgoal

theorem has_of_considerSome (h : e.Sound settings T) {count : Nat}
    (hgoal : .takenUp p goal ∈ considerSome count e) : ∃ ids, T.has ids goal := by
  induction count generalizing e with
  | zero => exact absurd hgoal (by simp [considerSome])
  | succ count ih =>
    rcases List.mem_append.1 hgoal with hgoal | hgoal
    · exact has_of_consider h hgoal
    · exact ih h.consider hgoal

theorem has_of_step (h : e.Sound settings T) (hgoal : .takenUp p goal ∈ step e) :
    ∃ ids, T.has ids goal := by
  have h₁ : Engine.Sound settings T { e with cycle := e.cycle + 1 } :=
    ⟨h.settings_eq, h.memory, h.input, h.events, h.goal, h.operations, h.pending⟩
  rcases List.mem_append.1 hgoal with hgoal | hgoal
  · rcases List.mem_append.1 hgoal with hgoal | hgoal
    · exact has_of_processWaiting h₁ hgoal
    · exact has_of_considerSome (h₁.processWaiting _) hgoal
  · exact absurd (List.mem_singleton.1 hgoal) (by simp)

/-- A goal that a sound engine takes up has the trait of its sentences. -/
theorem has_of_follow (h : e.Sound settings T) {instructions : List Instruction}
    (hgoal : .takenUp p goal ∈ follow e instructions) : ∃ ids, T.has ids goal := by
  induction instructions generalizing e with
  | nil => exact absurd hgoal (by simp [follow])
  | cons instruction instructions ih =>
    rcases List.mem_append.1 hgoal with hgoal | hgoal
    · cases instruction with
      | step => exact has_of_step h hgoal
      | submit _ => exact absurd hgoal (by simp [perform])
      | drain => exact absurd hgoal (by simp [perform])
    · exact ih (h.perform instruction) hgoal

theorem record_map_follow (e : Engine σ) (instructions : List Instruction) :
    record e (instructions.map .follow) = follow e instructions := by
  induction instructions generalizing e with
  | nil => rfl
  | cons instruction instructions ih =>
    rw [List.map_cons, record, ih]
    rfl

/-- Without snapshots, a new engine takes up well-formed goals only. -/
theorem formed_of_takenUp {draws : σ} {instructions : List Instruction}
    (hgoal : .takenUp p goal ∈ record (.start settings draws) (instructions.map .follow)) :
    goal.statement.Formed := by
  rw [record_map_follow] at hgoal
  obtain ⟨_, h⟩ := has_of_follow (Engine.sound_start settings .formed draws) hgoal
  exact h

end Goals

/-! ## The schedule of a goal -/

section Schedules

variable {σ : Type} [DrawSource σ] {e : Engine σ} {actions : List Action}
  {before later : List Entry} {p : Standpoint} {goal : Sentence} {connector : Connector}
  {operands : List Term} {intervals : List UInt32}

/-- What is sent from the cycle on in which a goal is taken up, until another goal is. -/
theorem sentIn_underway (taken : record e actions = before ++ .takenUp p goal :: later) :
    ((sentIn e actions).drop (cycles before)).take (underway later).length =
      (List.range (underway later).length).map
        (PendingOperation.dueIn (PendingOperation.ofGoal goal.statement)) := by
  have hpath := path_record e actions
  rw [taken] at hpath
  obtain ⟨a, _, htaken⟩ := hpath.of_append
  obtain _ | ⟨enters, hlater⟩ := htaken
  cases enters with
  | takenUp =>
    have hsplit : underway later ++ later.dropWhile (fun entry => !entry.isTakenUp) = later :=
      List.takeWhile_append_dropWhile
    rw [← hsplit] at hlater
    obtain ⟨_, hunderway, _⟩ := hlater.of_append
    have hturns := turns_of_quiet hunderway fun _ => mem_underway
    have hlength : (turns (underway later)).length = (underway later).length := by
      rw [hturns, List.length_map, List.length_range]
    rw [sentIn_eq, taken, turns_append, turns_takenUp, ← length_turns, List.drop_left]
    conv_lhs => rw [← hsplit, turns_append, hsplit, ← hlength, List.take_left]
    exact hturns

/-- **Main theorem.** Once a goal for a conjunction has been taken up, each cycle until another goal
is taken up sends the operands that are due in it, in the order that they have in the goal. If all
of them are due before another goal is taken up, each is sent once, and nothing else is. Only in a
sequence may they be due after the first cycle: the intervals of other conjunctions are zero in a
well-formed goal, as all are that a new engine takes up. -/
theorem sent_when_due (taken : record e actions = before ++ .takenUp p goal :: later)
    (hgoal : goal.statement = .compound connector operands intervals)
    (hconnector : connector.isConjunction = true) :
    (∀ i < (underway later).length, (sentIn e actions)[cycles before + i]? =
      some (PendingOperation.dueAfter operands intervals i)) ∧
    ((∀ k < operands.length, PendingOperation.dueTime intervals k < (underway later).length) →
      (((sentIn e actions).drop (cycles before)).take (underway later).length).flatten =
        operands) ∧
    (connector ≠ .sequentialConjunction → goal.statement.Formed →
      ∀ k, PendingOperation.dueTime intervals k = 0) ∧
    ∀ settings draws, ∀ instructions : List Instruction, e = .start settings draws →
      actions = instructions.map .follow → goal.statement.Formed := by
  have hunderway := sentIn_underway taken
  have hdue : PendingOperation.dueIn (PendingOperation.ofGoal goal.statement) =
      PendingOperation.dueAfter operands intervals := by
    funext cycles
    rw [hgoal, PendingOperation.dueIn_ofGoal hconnector]
  rw [hdue] at hunderway
  refine ⟨?_, ?_, ?_, ?_⟩
  · intro i hi
    have hat := congrArg (·[i]?) hunderway
    simp only [List.getElem?_take, hi, if_true, List.getElem?_drop, List.getElem?_map,
      List.getElem?_range hi, Option.map_some] at hat
    exact hat
  · intro hall
    rw [hunderway, ← List.flatMap_def]
    exact PendingOperation.flatMap_dueAfter hall
  · intro hne hformed k
    rw [hgoal] at hformed
    cases hformed with
    | compound _ _ _ fitted _ =>
      exact PendingOperation.dueTime_of_fitted fitted hconnector hne k
  · rintro settings draws instructions rfl rfl
    have hmem : .takenUp p goal ∈ record (.start settings draws)
        (instructions.map .follow) := by
      rw [taken]
      exact List.mem_append_right _ List.mem_cons_self
    exact formed_of_takenUp hmem

/-- Two operations are wanted, one two cycles after the other. -/
def delayed : List Action := [
  .follow (.submit "(&/,((*,\x7bSELF\x7d) --> ^a),2,((*,\x7bSELF\x7d) --> ^b))! %1.0;0.9%"),
  .follow .step, .follow .step, .follow .step]

/-- The operands and intervals of the sequence that is taken up first, if one is, and the number of
entries until another goal is taken up. -/
def firstSequence? (log : List Entry) : Option (List Term × List UInt32 × Nat) :=
  match log with
  | .takenUp _ goal :: later => match goal.statement with
    | .compound .sequentialConjunction operands intervals =>
      some (operands, intervals, (underway later).length)
    | _ => none
  | _ => none

theorem exists_of_firstSequence? {log : List Entry} {n : Nat}
    (h : firstSequence? log = some (operands, intervals, n)) : ∃ p goal later,
      log = [] ++ .takenUp p goal :: later ∧
      goal.statement = .compound .sequentialConjunction operands intervals ∧
      n = (underway later).length := by
  unfold firstSequence? at h
  split at h
  · split at h
    · cases h
      exact ⟨_, _, _, rfl, ‹_›, rfl⟩
    · exact absurd h (by simp)
  · exact absurd h (by simp)

/-- The second operation is sent two cycles after the first. -/
theorem sent_when_due_delayed :
    let e := Engine.start { considerPerCycle := 0 } (Keystream.ofSeed 7)
    ∃ a b, a.text = "((*,\x7bSELF\x7d) --> ^a)" ∧ b.text = "((*,\x7bSELF\x7d) --> ^b)" ∧
      (sentIn e delayed)[0]? = some [a] ∧ (sentIn e delayed)[1]? = some [] ∧
      (sentIn e delayed)[2]? = some [b] := by
  intro e
  have hfirst : ((firstSequence? (record e delayed)).map fun x =>
      (x.1.map Term.text, x.2)) = some (["((*,\x7bSELF\x7d) --> ^a)",
        "((*,\x7bSELF\x7d) --> ^b)"], [2], 3) := by
    decide +kernel
  obtain ⟨⟨operands, intervals, n⟩, hsequence, htexts⟩ := Option.map_eq_some_iff.1 hfirst
  simp only [Prod.mk.injEq, List.map_eq_cons_iff, List.map_eq_nil_iff] at htexts
  obtain ⟨⟨a, _, rfl, ha, b, _, rfl, hb, rfl⟩, rfl, rfl⟩ := htexts
  obtain ⟨p, goal, later, hrecord, hgoal, hlength⟩ := exists_of_firstSequence? hsequence
  obtain ⟨hsent, _⟩ := sent_when_due hrecord hgoal rfl
  rw [← hlength] at hsent
  exact ⟨a, b, ha, hb, hsent 0 (by decide), hsent 1 (by decide), hsent 2 (by decide)⟩

end Schedules

end Journal

end NonAxiomatic
