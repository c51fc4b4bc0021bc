import NonAxiomatic.Proofs.Journal

/-!
# What becomes of the operations of a goal

A goal that is taken up asks for its conjuncts, one after the other. Until another goal is taken up,
these and nothing else are carried out, each at the end of the cycle that it is due in
(`Agenda.Path.timely`). A conjunct is carried out as it is: if it is a compound of operations
itself, so is the command.

**Theorem (`Journal.kept_or_replaced`).** What has not been carried out for a goal is still pending,
unless another goal was taken up before that was due, which is about something else and at least as
good.

**Theorem (`Journal.commands_single_iff`).** Every command is an operation, and all are single
operations exactly if no goal comes to ask for anything else.
-/

namespace NonAxiomatic

/-! ## Operations of goals -/

namespace Term

/-- A statement about a product that starts with the reasoner itself. -/
def isSingleOperation : Term → Bool
  | statement (compound .product (first :: _) _) _ _ _ => first.isSelf
  | _ => false

/-- Of all operations, the single ones are the statements. -/
theorem isSingleOperation_eq (t : Term) :
    t.isSingleOperation = (t.isStatement && t.isOperation) := by
  cases t with
  | atom | var | compound => rfl
  | statement subject copula predicate interval =>
    cases subject with
    | atom | var | statement => simp [isSingleOperation, isOperation]
    | compound connector operands intervals =>
      cases connector <;> cases operands <;>
        simp [isSingleOperation, isOperation, isStatement]

theorem isOperation_of_allOperations {ts : List Term} (h : allOperations ts = true) {t : Term}
    (ht : t ∈ ts) : t.isOperation = true := by
  induction ts with
  | nil => exact absurd ht (by simp)
  | cons u us ih =>
    simp only [allOperations, Bool.and_eq_true] at h
    rcases List.mem_cons.1 ht with rfl | ht
    · exact h.1
    · exact ih h.2 ht

/-- The conjuncts of an operation are operations. -/
theorem isOperation_conjunct {t u : Term} (h : t.isOperation = true) (hu : u ∈ t.conjuncts) :
    u.isOperation = true := by
  unfold conjuncts at hu
  split at hu
  · split at hu
    · simp only [isOperation, Bool.and_eq_true] at h
      exact isOperation_of_allOperations h.2 hu
    · obtain rfl := List.mem_singleton.1 hu
      exact h
  · obtain rfl := List.mem_singleton.1 hu
    exact h

theorem notMem_of_all_ne {ts : List Term} {t : Term} (h : ts.all (fun u => !(u == t)) = true) :
    t ∉ ts := by
  intro ht
  have hne := List.all_eq_true.1 h t ht
  simp at hne

end Term

namespace PendingOperation

theorem map_operation_spaced (delay : UInt32) (ts : List Term) (gaps : List UInt32) :
    (spaced delay ts gaps).map operation = ts := by
  induction ts generalizing delay gaps with
  | nil => rfl
  | cons t ts ih => rw [spaced, List.map_cons, ih]

/-- A goal asks for its conjuncts. -/
theorem map_operation_ofGoal (t : Term) : (ofGoal t).map operation = t.conjuncts := by
  cases t with
  | atom | var | statement => rfl
  | compound connector operands intervals =>
    simp only [ofGoal, Term.conjuncts]
    split
    · exact map_operation_spaced _ _ _
    · rfl

/-- Operations are due or wait on. -/
theorem perm_due_tick (pending : List PendingOperation) :
    (pending.map operation).Perm (due pending ++ (tick pending).map operation) := by
  have hperm := (List.filter_append_perm (fun p : PendingOperation => p.delay == 0) pending).symm
  have hmap := hperm.map operation
  rw [List.map_append] at hmap
  simpa [due, tick, Function.comp_def, bne] using hmap

/-- The operations that are due in so many cycles. -/
def dueIn (pending : List PendingOperation) (cycles : Nat) : List Term :=
  (pending.filter fun p => p.delay.toNat == cycles).map operation

theorem dueIn_zero (pending : List PendingOperation) : dueIn pending 0 = due pending := by
  have hzero : (fun p : PendingOperation => p.delay.toNat == 0) = fun p => p.delay == 0 := by
    funext p
    rw [Bool.eq_iff_iff, beq_iff_eq, beq_iff_eq, ← UInt32.toNat_inj]
    rfl
  rw [dueIn, due, hzero]

/-- One cycle later, operations are due one cycle sooner. -/
theorem dueIn_tick (pending : List PendingOperation) (cycles : Nat) :
    dueIn (tick pending) cycles = dueIn pending (cycles + 1) := by
  induction pending with
  | nil => rfl
  | cons p ps ih =>
    simp only [dueIn, tick] at ih ⊢
    by_cases hzero : p.delay = 0
    · simp [hzero, ih]
    · have hnat : (p.delay - 1).toNat = cycles ↔ p.delay.toNat = cycles + 1 := by
        have hpos : p.delay.toNat ≠ 0 := fun h => hzero (UInt32.toNat_inj.1 h)
        have hle : (1 : UInt32) ≤ p.delay := UInt32.le_iff_toNat_le.2 (by simpa using by omega)
        rw [UInt32.toNat_sub_of_le _ _ hle]
        simp only [UInt32.toNat_one]
        omega
      by_cases hdue : p.delay.toNat = cycles + 1
      · simp [hzero, hdue, hnat.2 hdue, ih]
      · simp [hzero, hdue, mt hnat.1 hdue, ih]

end PendingOperation

/-! ## Until the next goal is taken up -/

namespace Journal

/-- The operations carried out, by the entries of a journal. -/
def sent (log : List Entry) : List Term := log.flatMap Entry.operations

/-- The entries until the next goal is taken up. -/
def underway (log : List Entry) : List Entry := log.takeWhile fun entry => !entry.isTakenUp

@[simp] theorem sent_append (log log' : List Entry) : sent (log ++ log') = sent log ++ sent log' :=
  List.flatMap_append

theorem mem_underway {log : List Entry} {entry : Entry} (h : entry ∈ underway log) :
    entry.isTakenUp = false := by
  have hall := List.all_takeWhile (p := fun entry : Entry => !entry.isTakenUp) (l := log)
  simpa using List.all_eq_true.1 hall entry h

/-- Another goal is taken up in the end, or not. -/
theorem underway_eq_or (log : List Entry) :
    underway log = log ∨ ∃ p goal rest, log = underway log ++ .takenUp p goal :: rest := by
  induction log with
  | nil => exact .inl rfl
  | cons entry log ih =>
    cases entry with
    | takenUp p goal => exact .inr ⟨p, goal, log, rfl⟩
    | carriedOut operations =>
      rcases ih with ih | ⟨p, goal, rest, ih⟩
      · exact .inl (congrArg _ ih)
      · exact .inr ⟨p, goal, rest, congrArg _ ih⟩

end Journal

namespace Agenda.Path

open Journal

variable {a b : Agenda} {log : List Entry}

theorem commands_eq (h : Path a log b) : b.commands = a.commands ++ sent log := by
  induction h with
  | nil => simp [sent]
  | cons enters _ ih =>
    rw [ih]
    cases enters <;> simp [sent, takeUp, carryOut, Entry.operations]

/-- While no goal is taken up, what was pending is carried out or is still pending, and if anything
is, then for the same goal. -/
theorem undisturbed (h : Path a log b) (quiet : ∀ entry ∈ log, entry.isTakenUp = false) :
    (a.operations.map PendingOperation.operation).Perm
        (sent log ++ b.operations.map PendingOperation.operation) ∧
      (b.operations = [] ∨ b.currentGoal = a.currentGoal) := by
  induction h with
  | nil => exact ⟨.refl _, .inr rfl⟩
  -- Only taking up a goal adds operations; carrying out moves the due ones to the log.
  | @cons a _ c entry log enters hpath ih =>
    cases enters with
    | takenUp =>
      have htaken := quiet _ List.mem_cons_self
      exact absurd htaken (by simp [Entry.isTakenUp])
    | carriedOut =>
      obtain ⟨hperm, hgoal⟩ := ih fun entry hentry => quiet entry (by simp [hentry])
      refine ⟨?_, ?_⟩
      · have hdue := PendingOperation.perm_due_tick a.operations
        have hsent : sent (.carriedOut (PendingOperation.due a.operations) :: log) =
          PendingOperation.due a.operations ++ sent log := rfl
        rw [hsent, List.append_assoc]
        exact hdue.trans (hperm.append_left _)
      · rcases hgoal with hgoal | hgoal
        · exact .inl hgoal
        · by_cases hempty : PendingOperation.tick a.operations = []
          · -- Nothing was left pending, and nothing can have come since.
            simp only [carryOut, hempty, List.map_nil, List.nil_perm, List.append_eq_nil_iff,
              List.map_eq_nil_iff] at hperm
            exact .inl hperm.2
          · rw [hgoal]
            simp [carryOut, hempty]

/-- While no goal is taken up, every operation is carried out at the end of the cycle that it is due
in. -/
theorem timely (h : Path a log b) (quiet : ∀ entry ∈ log, entry.isTakenUp = false) :
    log = (List.range log.length).map fun i =>
      .carriedOut (PendingOperation.dueIn a.operations i) := by
  induction h with
  | nil => rfl
  | @cons a _ c entry log enters hpath ih =>
    cases enters with
    | takenUp =>
      have htaken := quiet _ List.mem_cons_self
      exact absurd htaken (by simp [Entry.isTakenUp])
    | carriedOut =>
      have hlater := ih fun entry hentry => quiet entry (by simp [hentry])
      rw [List.length_cons, List.range_succ_eq_map, List.map_cons, List.map_map,
        PendingOperation.dueIn_zero]
      simp only [carryOut, PendingOperation.dueIn_tick] at hlater
      exact congrArg _ hlater

/-- While no goal is taken up, the operations that have been carried out are those that have been
due. -/
theorem mem_sent_iff (h : Path a log b) (quiet : ∀ entry ∈ log, entry.isTakenUp = false)
    {t : Term} : t ∈ sent log ↔ ∃ o ∈ a.operations, o.operation = t ∧
      o.delay.toNat < log.length := by
  rw [h.timely quiet]
  simp only [sent, PendingOperation.dueIn, List.flatMap_map, Entry.operations, List.mem_flatMap,
    List.mem_map, List.mem_filter, List.mem_range, List.length_map, List.length_range, beq_iff_eq]
  constructor
  · rintro ⟨i, hi, o, ⟨ho, rfl⟩, rfl⟩
    exact ⟨o, ho, rfl, hi⟩
  · rintro ⟨o, ho, rfl, hi⟩
    exact ⟨_, hi, o, ⟨ho, rfl⟩, rfl⟩

end Agenda.Path

/-! ## The goal that an operation stems from -/

namespace Journal

open Agenda (Path)

variable {a b : Agenda} {log later : List Entry} {goal : Sentence} {t : Term}

theorem underway_append {log' : List Entry} (quiet : ∀ entry ∈ log, entry.isTakenUp = false) :
    underway (log ++ log') = log ++ underway log' :=
  List.takeWhile_append_of_pos fun entry hentry => by simp [quiet entry hentry]

/-- What is pending was pending all along, or it was asked for by the last goal taken up. -/
theorem origin_of_pending (h : Path a log b)
    (ht : t ∈ b.operations.map PendingOperation.operation) :
    (t ∈ a.operations.map PendingOperation.operation ∧ ∀ entry ∈ log, entry.isTakenUp = false) ∨
    ∃ before p goal mid, log = before ++ .takenUp p goal :: mid ∧
      (∀ entry ∈ mid, entry.isTakenUp = false) ∧ goal.statement.isOperation = true ∧
      t ∈ goal.statement.conjuncts := by
  induction h with
  | nil => exact .inl ⟨ht, by simp⟩
  | @cons a a' b entry log enters _ ih =>
    rcases ih ht with ⟨hpending, quiet⟩ | ⟨before, p, goal, mid, rfl, hmid⟩
    · cases enters with
      | @takenUp p goal _ hop =>
        refine .inr ⟨[], p, goal, log, rfl, quiet, hop, ?_⟩
        rwa [← PendingOperation.map_operation_ofGoal]
      | carriedOut =>
        refine .inl ⟨?_, ?_⟩
        · exact (PendingOperation.perm_due_tick _).mem_iff.2 (List.mem_append_right _ hpending)
        · intro entry hentry
          rcases List.mem_cons.1 hentry with rfl | hentry
          · rfl
          · exact quiet entry hentry
    · exact .inr ⟨entry :: before, p, goal, mid, rfl, hmid⟩

/-- What is carried out was asked for by the goal that was taken up last. -/
theorem origin_of_sent (h : Path {} log b) (ht : t ∈ sent log) :
    ∃ before p goal later, log = before ++ .takenUp p goal :: later ∧
      goal.statement.isOperation = true ∧ t ∈ goal.statement.conjuncts ∧
      t ∈ sent (underway later) := by
  obtain ⟨entry, hentry, hdue⟩ := List.mem_flatMap.1 ht
  obtain ⟨pre, post, rfl⟩ := List.append_of_mem hentry
  obtain ⟨m, hpre, hpost⟩ := h.of_append
  obtain _ | ⟨enters, _⟩ := hpost
  cases enters with
  | takenUp => exact absurd hdue (by simp [Entry.operations])
  | carriedOut =>
    have hpending : t ∈ m.operations.map PendingOperation.operation :=
      (PendingOperation.perm_due_tick _).mem_iff.2 (List.mem_append_left _ hdue)
    rcases origin_of_pending hpre hpending with ⟨hnone, _⟩ |
      ⟨before, p, goal, mid, rfl, quiet, hop, hconjunct⟩
    · exact absurd hnone (by simp)
    · have hlater : ∀ entry, before ++ .takenUp p goal :: mid ++ entry :: post =
          before ++ .takenUp p goal :: (mid ++ entry :: post) := by simp
      refine ⟨before, p, goal, _, hlater _, hop, hconjunct, ?_⟩
      rw [underway_append quiet, sent_append]
      refine List.mem_append_right _ (List.mem_flatMap.2 ⟨_, ?_, hdue⟩)
      simp [underway, Entry.isTakenUp]

/-! ## What is left of a goal -/

/-- Whether the conjuncts of a goal have been carried out since it was taken up, and until another
goal was taken up nothing else has. What is left of them is pending, or another goal was taken up:
then nothing is left, or the other goal is about something else and this one is not preferred to
it. -/
def KeptOrReplaced (goal : Sentence) (later : List Entry) (pending : List Term) : Prop :=
  ∃ left, goal.statement.conjuncts.Perm (sent (underway later) ++ left) ∧
    (underway later = later ∧ left = pending ∨
      ∃ p' goal' rest, later = underway later ++ .takenUp p' goal' :: rest ∧
        (left = [] ∨ (goal.statement == goal'.statement) = false ∧
          p'.prefers goal goal' false = false))

theorem keptOrReplaced_of_takeUp (h : Path (a.takeUp goal) later b) :
    KeptOrReplaced goal later (b.operations.map PendingOperation.operation) := by
  have quiet : ∀ entry ∈ underway later, entry.isTakenUp = false := fun _ => mem_underway
  have asked : (a.takeUp goal).operations.map PendingOperation.operation =
    goal.statement.conjuncts := PendingOperation.map_operation_ofGoal _
  rcases underway_eq_or later with hall | ⟨p', goal', rest, hnext⟩
  · rw [← hall] at h
    have hperm := (h.undisturbed quiet).1
    rw [asked] at hperm
    exact ⟨_, hperm, .inl ⟨hall, rfl⟩⟩
  · rw [hnext] at h
    obtain ⟨m, hm, hrest⟩ := h.of_append
    obtain ⟨hperm, hgoal⟩ := hm.undisturbed quiet
    rw [asked] at hperm
    refine ⟨_, hperm, .inr ⟨p', goal', rest, hnext, ?_⟩⟩
    rcases hgoal with hempty | hgoal
    · exact .inl (by rw [hempty]; rfl)
    · obtain _ | ⟨enters, _⟩ := hrest
      cases enters with
      | takenUp _ _ _ yields => exact .inr (yields goal hgoal)

/-- After a goal has been taken up, its operations are carried out as they come due, until another
goal is taken up. -/
theorem mem_sent_underway_iff {before : List Entry} {p : Standpoint}
    (h : Path a (before ++ .takenUp p goal :: later) b) : t ∈ sent (underway later) ↔
      ∃ o ∈ PendingOperation.ofGoal goal.statement, o.operation = t ∧
        o.delay.toNat < (underway later).length := by
  obtain ⟨m, _, htaken⟩ := h.of_append
  obtain _ | ⟨enters, hlater⟩ := htaken
  cases enters with
  | takenUp =>
    rw [← List.takeWhile_append_dropWhile (p := fun entry => !entry.isTakenUp) (l := later)]
      at hlater
    obtain ⟨_, hunderway, _⟩ := hlater.of_append
    exact hunderway.mem_sent_iff fun _ => mem_underway

theorem sent_underway_subset {before : List Entry} {entry : Entry} :
    sent (underway later) ⊆ sent (before ++ entry :: later) := by
  intro t ht
  obtain ⟨e, he, ht⟩ := List.mem_flatMap.1 ht
  refine List.mem_flatMap.2 ⟨e, List.mem_append_right _ ?_, ht⟩
  exact List.mem_cons_of_mem _ (List.takeWhile_subset _ he)

section Runs

variable {σ : Type} [DrawSource σ] {settings : Settings} {draws : σ}
  {instructions : List Instruction}

/-- Whether a goal is taken up first in a journal and one of its operations is neither carried out
after that nor pending in the end. -/
def dropsFirst (log : List Entry) (pending : List Term) : Bool :=
  match log with
  | .takenUp _ goal :: later =>
    goal.statement.conjuncts.any fun t => (sent later ++ pending).all fun u => !(u == t)
  | _ => false

theorem exists_of_dropsFirst {log : List Entry} {pending : List Term}
    (h : dropsFirst log pending = true) : ∃ p goal later, log = .takenUp p goal :: later ∧
      ∃ t ∈ goal.statement.conjuncts, t ∉ sent later ∧ t ∉ pending := by
  unfold dropsFirst at h
  split at h
  · rename_i p goal later
    obtain ⟨t, ht, hnone⟩ := List.any_eq_true.1 h
    have habsent := Term.notMem_of_all_ne hnone
    rw [List.mem_append, not_or] at habsent
    exact ⟨p, goal, later, rfl, t, ht, habsent.1, habsent.2⟩
  · exact absurd h (by simp)

/-- Two operations are wanted one after the other, and before the second one is due, a third one is
wanted more. -/
def interruption : List Instruction := [
  .submit "(&/,((*,\x7bSELF\x7d) --> ^a),5,((*,\x7bSELF\x7d) --> ^b))! %1.0;0.9%", .step,
  .submit "((*,\x7bSELF\x7d) --> ^c)! %1.0;0.99%", .step]

theorem dropsFirst_interruption :
    dropsFirst (after { considerPerCycle := 0 } (Keystream.ofSeed 7) interruption)
      ((Engine.after { considerPerCycle := 0 } (Keystream.ofSeed 7)
        interruption).operations.map PendingOperation.operation) = true := by
  decide +kernel

theorem commands_eq_sent (settings : Settings) (draws : σ) (instructions : List Instruction) :
    (Engine.after settings draws instructions).commands.toList =
      sent (after settings draws instructions) :=
  (path_after settings draws instructions).commands_eq

/-- **Main theorem.** After every run, each operation of a goal that was taken up has been carried
out since or is pending, unless another goal was taken up before it was due, which is about
something else and to which the first one is not preferred. What has been carried out since are the
commands behind those that there were when the goal was taken up. -/
theorem kept_or_replaced {before later : List Entry} {p : Standpoint} {goal : Sentence}
    (h : after settings draws instructions = before ++ .takenUp p goal :: later) :
    (Engine.after settings draws instructions).commands.toList = sent before ++ sent later ∧
    KeptOrReplaced goal later
      ((Engine.after settings draws instructions).operations.map PendingOperation.operation) := by
  have hcommands := commands_eq_sent settings draws instructions
  have hpath := path_after settings draws instructions
  rw [h] at hpath hcommands
  refine ⟨by rw [hcommands, sent_append]; rfl, ?_⟩
  obtain ⟨m, _, htaken⟩ := hpath.of_append
  obtain _ | ⟨enters, hlater⟩ := htaken
  cases enters with
  | takenUp => exact keptOrReplaced_of_takeUp hlater

/-- In this run, goals are taken up. -/
theorem kept_or_replaced_interruption : ∃ before p goal later,
    after { considerPerCycle := 0 } (Keystream.ofSeed 7) interruption =
      before ++ .takenUp p goal :: later ∧
    (Engine.after { considerPerCycle := 0 } (Keystream.ofSeed 7)
      interruption).commands.toList = sent before ++ sent later ∧
    KeptOrReplaced goal later ((Engine.after { considerPerCycle := 0 } (Keystream.ofSeed 7)
      interruption).operations.map PendingOperation.operation) := by
  obtain ⟨p, goal, later, h, _⟩ := exists_of_dropsFirst dropsFirst_interruption
  exact ⟨[], p, goal, later, h, kept_or_replaced h⟩

/-- In this run, one of the operations of a goal that is taken up is never carried out, and is not
pending in the end. -/
theorem exists_operation_dropped : ∃ before p goal later,
    after { considerPerCycle := 0 } (Keystream.ofSeed 7) interruption =
      before ++ .takenUp p goal :: later ∧
    ∃ t ∈ goal.statement.conjuncts,
      t ∉ (Engine.after { considerPerCycle := 0 } (Keystream.ofSeed 7)
        interruption).commands.toList ∧
      t ∉ (Engine.after { considerPerCycle := 0 } (Keystream.ofSeed 7)
        interruption).operations.map PendingOperation.operation := by
  obtain ⟨p, goal, later, h, t, ht, hsent, hpending⟩ := exists_of_dropsFirst dropsFirst_interruption
  refine ⟨[], p, goal, later, h, t, ht, ?_, hpending⟩
  rw [commands_eq_sent, h]
  exact hsent

/-- **Main theorem.** The commands are what the journal says, and each is an operation. All of them
are single operations exactly if everything that a goal asks for and that comes due before another
goal is taken up is a statement. -/
theorem commands_single_iff (settings : Settings) (draws : σ) (instructions : List Instruction) :
    (Engine.after settings draws instructions).commands.toList =
        sent (after settings draws instructions) ∧
    (∀ t ∈ (Engine.after settings draws instructions).commands, t.isOperation = true) ∧
    ((∀ t ∈ (Engine.after settings draws instructions).commands, t.isSingleOperation = true) ↔
      ∀ before p goal later,
        after settings draws instructions = before ++ .takenUp p goal :: later →
        ∀ o ∈ PendingOperation.ofGoal goal.statement,
          o.delay.toNat < (underway later).length → o.operation.isStatement = true) := by
  have hpath := path_after settings draws instructions
  have hcommands := commands_eq_sent settings draws instructions
  have hmem : ∀ t, t ∈ (Engine.after settings draws instructions).commands ↔
      t ∈ sent (after settings draws instructions) := by
    intro t
    rw [← hcommands, Array.mem_toList_iff]
  have hoperation : ∀ t ∈ sent (after settings draws instructions), t.isOperation = true := by
    intro t ht
    obtain ⟨_, _, _, _, _, hop, hconjunct, _⟩ := origin_of_sent hpath ht
    exact Term.isOperation_conjunct hop hconjunct
  simp only [hmem]
  refine ⟨hcommands, hoperation, ?_, ?_⟩
  · intro hsingle before p goal later heq o ho hdue
    rw [heq] at hpath
    have hunderway := (mem_sent_underway_iff hpath).2 ⟨o, ho, rfl, hdue⟩
    have hs := hsingle o.operation (heq ▸ sent_underway_subset hunderway)
    rw [Term.isSingleOperation_eq, Bool.and_eq_true] at hs
    exact hs.1
  · intro hstatements t ht
    obtain ⟨before, p, goal, later, heq, hop, hconjunct, hunderway⟩ := origin_of_sent hpath ht
    rw [heq] at hpath
    obtain ⟨o, ho, rfl, hdue⟩ := (mem_sent_underway_iff hpath).1 hunderway
    rw [Term.isSingleOperation_eq, hstatements before p goal later heq o ho hdue,
      Term.isOperation_conjunct hop hconjunct]
    rfl

/-- A conjunction within a conjunction is sent as it is. -/
example : (Engine.after { considerPerCycle := 0 } (Keystream.ofSeed 7)
    [.submit ("(&&,(&&,((*,\x7bSELF\x7d) --> ^a),((*,\x7bSELF\x7d) --> ^b))," ++
      "((*,\x7bSELF\x7d) --> ^c))! %1.0;0.9%"), .step]).commands.map Term.text =
    #["(&&,((*,\x7bSELF\x7d) --> ^a),((*,\x7bSELF\x7d) --> ^b))",
      "((*,\x7bSELF\x7d) --> ^c)"] := by
  decide +kernel

end Runs

end Journal

end NonAxiomatic
