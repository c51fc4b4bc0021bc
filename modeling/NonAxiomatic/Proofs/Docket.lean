import Mathlib.Data.Finset.Card
import Mathlib.Data.List.Induction
import NonAxiomatic.Proofs.Journal
import NonAxiomatic.Proofs.Pooling

/-!
# No goal is acted on twice

What goes into the record of goals that have been acted on (`Acted`) is noted: a goal that is
settled, a goal for what is being done already, or a goal whose operations are taken up. The docket
of a run (`Docket.after`) has these notes in their order.

Nothing is forgotten as long as a record has room for every identity that ever comes into it
(`Recent.Keeps.insert`). No goal is then taken up a second time, and none that rests on nothing but
what the goals before it rested on.

**Theorem (`Docket.acts_once`).** In every run in which at most so many different identities come
into each of the two records as they have room for, no goal starts its operations twice, and none
starts them if it rests on something beside itself and all of that is evidence of goals that started
theirs before.
-/

namespace NonAxiomatic

/-! ## Records with room for all -/

namespace Recent

/-- Whether the identities that came in are remembered, and no others. -/
structure Keeps (r : Recent) (ids : List SentenceId) : Prop where
  nodup : r.ids.Nodup
  mem_iff : ∀ id, id ∈ r.ids ↔ id ∈ ids

theorem keeps_empty : Keeps {} [] := ⟨List.nodup_nil, fun _ => Iff.rfl⟩

theorem card_le_of_append {ids new : List SentenceId} {n : Nat}
    (h : (ids ++ new).toFinset.card ≤ n) : ids.toFinset.card ≤ n := by
  refine (Finset.card_le_card ?_).trans h
  rw [List.toFinset_append]
  exact Finset.subset_union_left

namespace Keeps

variable {r : Recent} {ids new : List SentenceId} {id : SentenceId}

theorem length_eq (h : r.Keeps ids) : r.ids.length = ids.toFinset.card := by
  rw [← List.toFinset_card_of_nodup h.nodup]
  congr 1
  ext id
  simp [h.mem_iff]

/-- An identity is remembered beside the others if there is room for all. -/
theorem insert (h : r.Keeps ids) (room : (ids ++ [id]).toFinset.card ≤ capacity) :
    (r.insert id).Keeps (ids ++ [id]) := by
  by_cases hid : id ∈ r.ids
  · rw [insert_of_mem hid]
    refine ⟨h.nodup, fun x => ?_⟩
    rw [List.mem_append, List.mem_singleton, h.mem_iff]
    refine ⟨.inl, ?_⟩
    rintro (hx | rfl)
    · exact hx
    · exact (h.mem_iff _).1 hid
  · have hlength : r.ids.length < capacity := by
      -- A new one finds room, as otherwise there were more than the capacity.
      have hfresh : id ∉ ids.toFinset := by simpa [← h.mem_iff] using hid
      have hcard : (ids ++ [id]).toFinset.card = ids.toFinset.card + 1 := by
        rw [List.toFinset_append, Finset.union_comm, ← Finset.card_insert_of_notMem hfresh]
        rfl
      rw [h.length_eq]
      omega
    have hinsert : r.insert id = ⟨r.ids ++ [id]⟩ := by
      rw [Recent.insert, if_neg (by rwa [contains_iff]), if_neg (by omega)]
    rw [hinsert]
    refine ⟨?_, fun x => by simp [h.mem_iff]⟩
    exact List.nodup_append.2 ⟨h.nodup, List.nodup_singleton _, by
      rintro x hx _ hid' rfl
      exact hid (List.mem_singleton.1 hid' ▸ hx)⟩

theorem insertAll (h : r.Keeps ids) (room : (ids ++ new).toFinset.card ≤ capacity) :
    (new.foldl Recent.insert r).Keeps (ids ++ new) := by
  induction new generalizing r ids with
  | nil => simpa using h
  | cons id new ih =>
    rw [List.append_cons] at room ⊢
    exact ih (h.insert (card_le_of_append room)) room

end Keeps

end Recent

/-! ## Notes -/

/-- What goes into the record of goals. -/
inductive Note where
  /-- A goal is settled. -/
  | settled (goal : Sentence)
  /-- A goal is for what is being done already. -/
  | underway (goal : Sentence)
  /-- The operations of a goal are taken up. -/
  | takenUp (goal : Sentence)

namespace Note

/-- The identity that is remembered among those of the goals. -/
def goalId : Note → SentenceId
  | settled goal | underway goal | takenUp goal => goal.id

/-- The identities that are remembered as evidence. -/
def evidence : Note → List SentenceId
  | settled _ => []
  | underway goal | takenUp goal => goal.base.ids

/-- The goal whose operations are taken up. -/
def begun? : Note → Option Sentence
  | takenUp goal => some goal
  | settled _ | underway _ => none

end Note

namespace Acted

/-- Take a note of a goal. -/
def note (a : Acted) (n : Note) : Acted where
  goals := a.goals.insert n.goalId
  evidence := n.evidence.foldl Recent.insert a.evidence

/-- Whether there is reason for a note: only a settled goal is noted as settled, and only one that
is not is acted on. -/
def Admits (a : Acted) : Note → Prop
  | .settled goal => a.settles goal = true
  | .underway goal | .takenUp goal => a.settles goal = false

/-- Notes lead from one record to another. -/
inductive Path : Acted → List Note → Acted → Prop where
  | nil {a : Acted} : Path a [] a
  | cons {a b : Acted} {n : Note} {notes : List Note} : a.Admits n → Path (a.note n) notes b →
      Path a (n :: notes) b

namespace Path

variable {a b c : Acted} {n : Note} {notes notes' : List Note}

theorem single (h : a.Admits n) : Path a [n] (a.note n) := .cons h .nil

theorem append (h : Path a notes b) (h' : Path b notes' c) : Path a (notes ++ notes') c := by
  induction h with
  | nil => exact h'
  | cons admits _ ih => exact .cons admits (ih h')

theorem of_append (h : Path a (notes ++ notes') c) : ∃ b, Path a notes b ∧ Path b notes' c := by
  induction notes generalizing a with
  | nil => exact ⟨a, .nil, h⟩
  | cons n notes ih =>
    cases h with
    | cons admits h =>
      obtain ⟨b, hb, hc⟩ := ih h
      exact ⟨b, .cons admits hb, hc⟩

/-- Nothing is forgotten as long as there is room for all. -/
theorem keeps (h : Path a notes b) {goals evidence : List SentenceId}
    (hgoals : a.goals.Keeps goals) (hevidence : a.evidence.Keeps evidence)
    (room : (goals ++ notes.map Note.goalId).toFinset.card ≤ Recent.capacity)
    (room' : (evidence ++ notes.flatMap Note.evidence).toFinset.card ≤ Recent.capacity) :
    b.goals.Keeps (goals ++ notes.map Note.goalId) ∧
      b.evidence.Keeps (evidence ++ notes.flatMap Note.evidence) := by
  induction h generalizing goals evidence with
  | nil => simpa using ⟨hgoals, hevidence⟩
  | @cons a b n notes _ _ ih =>
    rw [List.map_cons, List.append_cons] at room ⊢
    rw [List.flatMap_cons, ← List.append_assoc] at room' ⊢
    exact ih (hgoals.insert (Recent.card_le_of_append room))
      (hevidence.insertAll (Recent.card_le_of_append room')) room room'

end Path

end Acted

/-! ## Dockets -/

namespace Docket

variable {σ : Type}

/-- The notes when a goal is put into the desires of its concept. -/
def want (e : Engine σ) (s : Sentence) : List Note :=
  match e.memory.concept? s.statement with
  | none => []
  | some c =>
    (if e.acted.settles s then [.settled s] else []) ++
      match (c.desires.put e.standpoint s e.ids).1 with
      | some revised => if (e.acted.settle s).settles revised then [.settled revised] else []
      | none => []

/-- The notes when a goal is acted on. -/
def act (e : Engine σ) (goal : Sentence) : List Note :=
  if goal.statement.isOperation && !goal.statement.isNegation then
    if e.acted.settles goal then [.settled goal]
    else if e.yieldsTo goal then [.takenUp goal]
    else if e.currentGoal.any fun current => current.statement == goal.statement then
      [.underway goal]
    else []
  else []

/-- The notes when a goal is pursued. -/
def pursue (e : Engine σ) (goal : Sentence) : List Note :=
  if e.standpoint.pursues goal then act e goal else []

variable [DrawSource σ]

/-- The notes when it is found out what is wanted most about the statement of a goal. -/
def wanted (e : Engine σ) (s : Sentence) : List Note :=
  let e := e.conceptualize s.statement
  if !e.memory.holds s.statement then []
  else
    let memory := (e.memory.activate e.settings s.statement).setQuality s.statement
      Engine.goalQuality
    want { e with memory } s

/-- The notes when a sentence is processed. -/
def process (e : Engine σ) (s : Sentence) : List Note :=
  if s.statement.mentionsVariable || s.punctuation != .goal then []
  else wanted e s ++ match e.wanted s with
    | (none, _) => []
    | (some best, e) => pursue e best

/-- The notes when a number of the sentences that wait are processed. -/
def processWaiting : (count : Nat) → Engine σ → List Note
  | 0, _ => []
  | count + 1, e =>
    match e.input.take? with
    | none => []
    | some (s, input) =>
      process { e with input } s ++ processWaiting count ({ e with input }.process s)

/-- The notes when a concept is considered. -/
def consider (e : Engine σ) : List Note :=
  match e.attended with
  | (none, _) => []
  | (some (c, _), e) =>
    match c.desires.best? with
    | some desire => pursue e desire
    | none => []

/-- The notes when a number of concepts are considered. -/
def considerSome : (count : Nat) → Engine σ → List Note
  | 0, _ => []
  | count + 1, e => consider e ++ considerSome count e.consider

/-- The notes of one cycle. -/
def step (e : Engine σ) : List Note :=
  let e := { e with cycle := e.cycle + 1 }
  processWaiting e.input.size e ++
    considerSome e.settings.considerPerCycle (Engine.processWaiting e.input.size e)

/-- The notes when an instruction is followed. -/
def perform (e : Engine σ) : Instruction → List Note
  | .step => step e
  | .submit _ | .drain => []

/-- The notes when instructions are followed. -/
def follow : Engine σ → List Instruction → List Note
  | _, [] => []
  | e, instruction :: instructions =>
    perform e instruction ++ follow (e.perform instruction) instructions

/-- The docket of a run. -/
def after (settings : Settings) (draws : σ) (instructions : List Instruction) : List Note :=
  follow (.start settings draws) instructions

end Docket

/-! ## The docket and the journal -/

/-- The goal that was taken up. -/
def Entry.goal? : Entry → Option Sentence
  | takenUp _ goal => some goal
  | carriedOut _ => none

/-- The goals that were taken up, by the entries of a journal. -/
def Journal.begun (log : List Entry) : List Sentence := log.filterMap Entry.goal?

theorem Journal.begun_append (log log' : List Entry) :
    begun (log ++ log') = begun log ++ begun log' := List.filterMap_append

namespace Docket

/-- The goals that were taken up, by the notes of a docket. -/
def begun (notes : List Note) : List Sentence := notes.filterMap Note.begun?

theorem begun_append (notes notes' : List Note) :
    begun (notes ++ notes') = begun notes ++ begun notes' := List.filterMap_append

/-- Whether notes lead from one record of goals to another, and by them the same goals were taken up
as by the entries of a journal. -/
structure Tracks (a : Acted) (notes : List Note) (log : List Entry) (b : Acted) : Prop where
  path : Acted.Path a notes b
  begun_eq : begun notes = Journal.begun log

namespace Tracks

variable {a b c : Acted} {notes notes' : List Note} {log log' : List Entry} {goal : Sentence}

theorem nil : Tracks a [] [] a := ⟨.nil, rfl⟩

theorem append (h : Tracks a notes log b) (h' : Tracks b notes' log' c) :
    Tracks a (notes ++ notes') (log ++ log') c :=
  ⟨h.path.append h'.path, by rw [begun_append, Journal.begun_append, h.begun_eq, h'.begun_eq]⟩

theorem settle (a : Acted) (goal : Sentence) :
    Tracks a (if a.settles goal then [.settled goal] else []) [] (a.settle goal) := by
  unfold Acted.settle
  split
  · rename_i hsettled
    exact ⟨.single (n := .settled goal) hsettled, rfl⟩
  · exact .nil

theorem takenUp (p : Standpoint) (hopen : a.settles goal = false) :
    Tracks a [.takenUp goal] [.takenUp p goal] (a.record goal) :=
  ⟨.single (n := .takenUp goal) hopen, rfl⟩

theorem underway (hopen : a.settles goal = false) :
    Tracks a [.underway goal] [] (a.record goal) :=
  ⟨.single (n := .underway goal) hopen, rfl⟩

end Tracks

section Engines

variable {σ : Type}

theorem tracks_want (e : Engine σ) (s : Sentence) :
    Tracks e.acted (want e s) [] (e.want s).acted := by
  unfold want Engine.want
  cases e.memory.concept? s.statement with
  | none => exact .nil
  | some c =>
    dsimp only
    cases (c.desires.put e.standpoint s e.ids).1 with
    | none => exact (Tracks.settle e.acted s).append .nil
    | some revised => exact (Tracks.settle e.acted s).append (.settle _ revised)

theorem tracks_act (e : Engine σ) (goal : Sentence) :
    Tracks e.acted (act e goal) (if e.takesUp goal then [.takenUp e.standpoint goal] else [])
      (e.act goal).acted := by
  -- Settled goals and goals underway leave the journal alone; only taking up is noted there.
  unfold act Engine.act Engine.takesUp
  cases goal.statement.isOperation && !goal.statement.isNegation with
  | false => exact .nil
  | true =>
    cases hsettled : e.acted.settles goal with
    | true =>
      have htracks := Tracks.settle e.acted goal
      rwa [hsettled] at htracks
    | false =>
      unfold Engine.yieldsTo Engine.queueOperations
      cases e.currentGoal with
      | none => exact .takenUp e.standpoint hsettled
      | some current =>
        cases hsame : current.statement == goal.statement with
        | true => simpa [hsame] using Tracks.underway hsettled
        | false =>
          cases hchosen : (e.standpoint.choose current goal false).id == current.id with
          | true => simpa [hsame, hchosen] using Tracks.nil
          | false => simpa [hsame, hchosen] using Tracks.takenUp e.standpoint hsettled

variable [DrawSource σ]

theorem tracks_pursue (e : Engine σ) (goal : Sentence) :
    Tracks e.acted (pursue e goal) (Journal.pursue e goal) (e.pursue goal).2.acted := by
  have hacted : (e.pursue goal).2.acted = _ :=
    congrArg Conduct.acted (e.infers_pursue goal).conduct_eq
  rw [hacted]
  unfold pursue Journal.pursue
  cases e.standpoint.pursues goal with
  | false => exact .nil
  | true => exact tracks_act e goal

theorem tracks_wanted (e : Engine σ) (s : Sentence) :
    Tracks e.acted (wanted e s) [] (e.wanted s).2.acted := by
  unfold wanted Engine.wanted
  dsimp only
  split
  · exact .nil
  · have hwant : ∀ x : Engine σ, x.acted = e.acted →
        Tracks e.acted (want x s) [] (x.want s).acted := fun x hx => hx ▸ tracks_want x s
    exact hwant _ rfl

theorem tracks_process (e : Engine σ) (s : Sentence) :
    Tracks e.acted (process e s) (Journal.process e s) (e.process s).acted := by
  have hwanted := tracks_wanted e s
  unfold process Journal.process Engine.process
  cases s.statement.mentionsVariable with
  | true => exact .nil
  | false =>
    cases s.punctuation with
    | judgment => simpa [(e.works_processJudgment s).acted_eq] using Tracks.nil
    | question => simpa [(e.works_processQuestion s).acted_eq] using Tracks.nil
    | goal =>
      simp only [Bool.false_or, Engine.processGoal_eq]
      rcases hw : e.wanted s with ⟨_ | best, e₁⟩ <;> rw [hw] at hwanted
      · simpa using hwanted
      · simpa [Engine.acted_enqueueDerived] using hwanted.append (tracks_pursue e₁ best)

theorem tracks_processWaiting (e : Engine σ) (count : Nat) :
    Tracks e.acted (processWaiting count e) (Journal.processWaiting count e)
      (Engine.processWaiting count e).acted := by
  induction count generalizing e with
  | zero => exact .nil
  | succ count ih =>
    unfold processWaiting Journal.processWaiting Engine.processWaiting
    rcases e.input.take? with _ | ⟨s, input⟩
    · exact .nil
    · exact (tracks_process { e with input } s).append (ih _)

theorem tracks_consider (e : Engine σ) :
    Tracks e.acted (consider e) (Journal.consider e) e.consider.acted := by
  have hattended : e.attended.2.acted = e.acted :=
    congrArg Conduct.acted e.infers_attended.conduct_eq
  rw [e.consider_eq]
  unfold consider Journal.consider
  rcases ha : e.attended with ⟨_ | ⟨c, derived⟩, e₁⟩ <;> rw [ha] at hattended
  · rw [← hattended]
    exact .nil
  · rw [← hattended, Engine.acted_enqueueDerived]
    dsimp only
    cases c.desires.best? with
    | some desire => exact tracks_pursue e₁ desire
    | none => exact .nil

theorem tracks_considerSome (e : Engine σ) (count : Nat) :
    Tracks e.acted (considerSome count e) (Journal.considerSome count e)
      (Engine.considerSome count e).acted := by
  induction count generalizing e with
  | zero => exact .nil
  | succ count ih => exact (tracks_consider e).append (ih _)

theorem tracks_step (e : Engine σ) :
    Tracks e.acted (step e) (Journal.step e) e.step.acted := by
  have waiting := tracks_processWaiting { e with cycle := e.cycle + 1 } e.input.size
  have ended : ∀ e : Engine σ,
      Tracks e.acted [] [.carriedOut (PendingOperation.due e.operations)] e.executeDue.acted := by
    intro e
    obtain ⟨_, _, h⟩ := e.conduct_executeDue
    have hacted : e.executeDue.acted = e.acted := congrArg Conduct.acted h
    rw [hacted]
    exact ⟨.nil, rfl⟩
  have all := (waiting.append (tracks_considerSome _ e.settings.considerPerCycle)).append (ended _)
  rwa [List.append_nil] at all

theorem tracks_perform (e : Engine σ) (instruction : Instruction) :
    Tracks e.acted (perform e instruction) (Journal.perform e instruction)
      (e.perform instruction).acted := by
  cases instruction with
  | step => exact tracks_step e
  | drain => exact .nil
  | submit text =>
    cases hs : e.submit text with
    | error _ =>
      simp only [perform, Journal.perform, Engine.perform, hs]
      exact .nil
    | ok x =>
      obtain ⟨_, _, _, _, hx⟩ := Engine.submit_eq_ok.1 (hs : _ = Except.ok (x.1, x.2))
      simp only [perform, Journal.perform, Engine.perform, hs, hx]
      exact .nil

theorem tracks_follow (e : Engine σ) (instructions : List Instruction) :
    Tracks e.acted (follow e instructions) (Journal.follow e instructions)
      (instructions.foldl Engine.perform e).acted := by
  induction instructions generalizing e with
  | nil => exact .nil
  | cons instruction instructions ih => exact (tracks_perform e instruction).append (ih _)

/-- The docket of a run leads from the empty record to that of the engine, and by it the same goals
are taken up as by the journal. -/
theorem tracks_after (settings : Settings) (draws : σ) (instructions : List Instruction) :
    Tracks {} (after settings draws instructions) (Journal.after settings draws instructions)
      (Engine.after settings draws instructions).acted :=
  tracks_follow (.start settings draws) instructions

end Engines

/-! ## At most once -/

variable {b : Acted} {notes before later : List Note} {goal : Sentence}

/-- As long as nothing is forgotten, a goal is only taken up if no note of it has been taken, and if
not everything that it rests on beside itself has been noted as evidence. -/
theorem fresh_of_takenUp (h : Acted.Path {} (before ++ .takenUp goal :: later) b)
    (room : (before.map Note.goalId).toFinset.card ≤ Recent.capacity)
    (room' : (before.flatMap Note.evidence).toFinset.card ≤ Recent.capacity) :
    goal.id ∉ before.map Note.goalId ∧ ((∃ id ∈ goal.base.ids, id ≠ goal.id) →
      ∃ id ∈ goal.base.ids, id ≠ goal.id ∧ id ∉ before.flatMap Note.evidence) := by
  obtain ⟨a, hbefore, hrest⟩ := h.of_append
  obtain ⟨hgoals, hevidence⟩ := hbefore.keeps Recent.keeps_empty Recent.keeps_empty room room'
  obtain _ | ⟨hopen, _⟩ := hrest
  have hopen : a.settles goal = false := hopen
  simp only [Acted.settles, Bool.or_eq_false_iff] at hopen
  obtain ⟨⟨hid, hrests⟩, _⟩ := hopen
  refine ⟨?_, fun hother => ?_⟩
  · rw [← List.nil_append (before.map _), ← hgoals.mem_iff, ← Recent.contains_iff, hid]
    decide
  · by_contra hall
    push Not at hall
    have hsettled : a.restsOnActed goal = true :=
      Acted.restsOnActed_iff.2
        ⟨hother, fun id hid hne => (hevidence.mem_iff id).2 (hall id hid hne)⟩
    rw [hsettled] at hrests
    exact absurd hrests (by decide)

theorem mem_of_begun (h : goal ∈ begun notes) : .takenUp goal ∈ notes := by
  obtain ⟨n, hn, hgoal⟩ := List.mem_filterMap.1 h
  cases n with
  | settled | underway => exact absurd hgoal (by simp [Note.begun?])
  | takenUp goal' =>
    obtain rfl := Option.some.inj hgoal
    exact hn

theorem id_mem_of_begun {id : SentenceId} (h : id ∈ (begun notes).map Sentence.id) :
    id ∈ notes.map Note.goalId := by
  obtain ⟨goal, hgoal, rfl⟩ := List.mem_map.1 h
  exact List.mem_map.2 ⟨_, mem_of_begun hgoal, rfl⟩

theorem evidence_of_begun {id : SentenceId} (h : goal ∈ begun notes)
    (hid : id ∈ goal.base.ids) : id ∈ notes.flatMap Note.evidence :=
  List.mem_flatMap.2 ⟨_, mem_of_begun h, hid⟩

/-- Where a goal is taken up by the journal, there is a note of it. -/
theorem exists_takenUp_of_begun {goals goals' : List Sentence}
    (h : begun notes = goals ++ goal :: goals') : ∃ before later,
      notes = before ++ .takenUp goal :: later ∧ begun before = goals := by
  obtain ⟨before, rest, rfl, hbefore, hrest⟩ := List.filterMap_eq_append_iff.1 h
  obtain ⟨skipped, n, later, rfl, hskipped, hn, _⟩ := List.filterMap_eq_cons_iff.1 hrest
  cases n with
  | settled | underway => exact absurd hn (by simp [Note.begun?])
  | takenUp goal' =>
    obtain rfl := Option.some.inj hn
    refine ⟨before ++ skipped, later, by simp, ?_⟩
    have hnone : begun skipped = [] := List.filterMap_eq_nil_iff.2 hskipped
    rw [begun_append, hnone, List.append_nil]
    exact hbefore

/-- As long as nothing is forgotten, no goal is taken up twice. -/
theorem nodup_begun (h : Acted.Path {} notes b)
    (room : (notes.map Note.goalId).toFinset.card ≤ Recent.capacity)
    (room' : (notes.flatMap Note.evidence).toFinset.card ≤ Recent.capacity) :
    ((begun notes).map Sentence.id).Nodup := by
  induction notes using List.reverseRecOn generalizing b with
  | nil => exact List.nodup_nil
  | append_singleton notes n ih =>
    obtain ⟨a, hinit, _⟩ := h.of_append
    rw [List.map_append] at room
    rw [List.flatMap_append] at room'
    have roomInit := Recent.card_le_of_append room
    have roomInit' := Recent.card_le_of_append room'
    have hnodup := ih hinit roomInit roomInit'
    rw [begun_append, List.map_append]
    cases n with
    | settled | underway => exact (List.append_nil ((begun notes).map Sentence.id)).symm ▸ hnodup
    | takenUp goal =>
      refine List.nodup_append.2 ⟨hnodup, List.nodup_singleton _, ?_⟩
      rintro id hid _ hgoal rfl
      obtain rfl : id = goal.id := List.mem_singleton.1 hgoal
      exact (fresh_of_takenUp h roomInit roomInit').1 (id_mem_of_begun hid)

section Runs

variable {σ : Type} [DrawSource σ] {settings : Settings} {draws : σ}
  {instructions : List Instruction}

/-- **Main theorem.** In every run in which the records have room for all identities that come into
them, no goal is taken up twice, and none is that rests on something beside itself and on nothing
but what the goals that were taken up before rested on. That a goal is taken up means that its
operations take the place of those of the engine, and it that of the current goal: so the journal
leads to what the engine is about to do, and the docket to its records. -/
theorem acts_once
    (goals : ((after settings draws instructions).map Note.goalId).toFinset.card ≤
      Recent.capacity)
    (evidence : ((after settings draws instructions).flatMap Note.evidence).toFinset.card ≤
      Recent.capacity) :
    Agenda.Path {} (Journal.after settings draws instructions)
        (Engine.after settings draws instructions).agenda ∧
      Tracks {} (after settings draws instructions) (Journal.after settings draws instructions)
        (Engine.after settings draws instructions).acted ∧
      ((Journal.begun (Journal.after settings draws instructions)).map Sentence.id).Nodup ∧
      ∀ before p goal later,
        Journal.after settings draws instructions = before ++ .takenUp p goal :: later →
        (∃ id ∈ goal.base.ids, id ≠ goal.id) →
        ∃ id ∈ goal.base.ids, id ≠ goal.id ∧
          id ∉ (Journal.begun before).flatMap fun earlier => earlier.base.ids := by
  have htracks := tracks_after settings draws instructions
  have hpath := htracks.path
  have hbegun := htracks.begun_eq
  refine ⟨Journal.path_after settings draws instructions, htracks,
    hbegun ▸ nodup_begun hpath goals evidence, ?_⟩
  intro before p goal later hjournal hother
  rw [hjournal, Journal.begun_append] at hbegun
  -- The goal stands in the docket where it stands in the journal; the notes before it are those of
  -- the goals before it.
  obtain ⟨notes, notes', hnotes, hbefore⟩ := exists_takenUp_of_begun hbegun
  rw [hnotes] at hpath goals evidence
  rw [List.map_append] at goals
  rw [List.flatMap_append] at evidence
  obtain ⟨id, hid, hne, hnew⟩ := (fresh_of_takenUp hpath (Recent.card_le_of_append goals)
    (Recent.card_le_of_append evidence)).2 hother
  -- An identity that an earlier goal rested on was noted as evidence then.
  refine ⟨id, hid, hne, fun hold => hnew ?_⟩
  obtain ⟨earlier, hearlier, hmem⟩ := List.mem_flatMap.1 hold
  rw [← hbefore] at hearlier
  exact evidence_of_begun hearlier hmem

/-- One goal is put in twice, and the second time it is pooled with the first. -/
def poolingRun : List Instruction := [
  .submit "((*,\x7bSELF\x7d) --> ^a)! %1.0;0.9%", .step,
  .submit "((*,\x7bSELF\x7d) --> ^a)! %1.0;0.9%", .step]

/-- In this run, a goal is taken up, and then one that rests on it and on something new. -/
theorem acts_once_poolingRun :
    (Journal.begun (Journal.after { considerPerCycle := 0 } (Keystream.ofSeed 7)
      poolingRun)).map (fun goal => goal.base.ids.length) = [1, 3] ∧
    ((Journal.begun (Journal.after { considerPerCycle := 0 } (Keystream.ofSeed 7)
      poolingRun)).map Sentence.id).Nodup ∧
      ∀ before p goal later,
        Journal.after { considerPerCycle := 0 } (Keystream.ofSeed 7) poolingRun =
          before ++ .takenUp p goal :: later →
        (∃ id ∈ goal.base.ids, id ≠ goal.id) →
        ∃ id ∈ goal.base.ids, id ≠ goal.id ∧
          id ∉ (Journal.begun before).flatMap fun earlier => earlier.base.ids :=
  ⟨by decide +kernel, (acts_once (by decide +kernel) (by decide +kernel)).2.2⟩

end Runs

end Docket

end NonAxiomatic
