import NonAxiomatic.Proofs.Agenda
import NonAxiomatic.Proofs.Ledger

/-!
# What the parts of an engine leave alone

Most of what an engine does goes on in its memory. The rest of it (`Engine.conduct`) changes at few
places: sentences that were derived are put into the queue (`Conduct.await`), goals that are wanted
or acted on go into the record of such goals, and operations are taken up and carried out.

What is derived is modest (`Sentence.IsModest`): it does not come from outside, and its confidence
has been moved into its range.

* `pursues_process`, `pursues_consider`, `conduct_executeDue`: what becomes of the rest when a
  sentence is processed, a concept considered, or operations carried out.
-/

namespace NonAxiomatic

/-! ## Modest sentences -/

/-- Whether the confidence of a kind, if it has any, was moved into its range. -/
def SentenceKind.IsModest (kind : SentenceKind) : Prop :=
  ∀ v, kind.value? = some v → ∃ c, v.confidence = Scale.clampConfidence c

/-- Whether a sentence does not come from outside, and has a confidence that was moved into its
range if it has any. -/
structure Sentence.IsModest (s : Sentence) : Prop where
  fromInput_eq : s.fromInput = false
  kind : s.kind.IsModest

namespace TruthFunction

/-- The value of a conclusion has a confidence in range. -/
theorem exists_confidence_apply (function : TruthFunction) (k : Double)
    (v w : TruthValue Double) :
    ∃ c, (function.apply k v w).confidence = Scale.clampConfidence c := by
  cases function <;> exact ⟨_, rfl⟩

end TruthFunction

namespace Standpoint

variable {p : Standpoint} {s t : Sentence} {c : Conclusion}

theorem isModest_kindOf? {w : Term} {function : TruthFunction} {kind : SentenceKind}
    (h : p.kindOf? s t w function = some kind) : kind.IsModest := by
  have valued : ∀ {make : TruthValue Double → SentenceKind},
      (∀ v, (make v).value? = some v) →
      (do
        let v ← p.premiseValue? w s
        let u ← p.premiseValue? w t
        return function.apply p.settings.horizon v u).map make = some kind →
      kind.IsModest := by
    intro make hmake hkind v hv
    obtain ⟨u, hu, rfl⟩ := Option.map_eq_some_iff.1 hkind
    simp only [Option.bind_eq_bind, Option.bind_eq_some_iff, Option.pure_def,
      Option.some.injEq] at hu
    obtain ⟨_, _, _, _, rfl⟩ := hu
    obtain rfl := Option.some.inj ((hmake _).symm.trans hv)
    exact function.exists_confidence_apply _ _ _
  simp only [kindOf?] at h
  split at h
  · obtain rfl := Option.some.inj h
    intro v hv
    exact absurd hv (by simp [SentenceKind.value?])
  · obtain rfl := Option.some.inj h
    intro v hv
    exact absurd hv (by simp [SentenceKind.value?])
  · exact valued (fun _ => rfl) h
  · exact valued (fun _ => rfl) h
  · exact valued (fun _ => rfl) h

theorem isModest_conclude {w : Term} {function : TruthFunction} {rule : Rule}
    (h : p.conclude s t w function rule = some c) : c.kind.IsModest := by
  obtain ⟨_, kind, hkind, rfl⟩ := conclude_eq_some.1 h
  exact isModest_kindOf? hkind

theorem isModest_infer {cs : List Conclusion} (h : p.infer s t = .ok cs) (hc : c ∈ cs) :
    c.kind.IsModest := by
  rcases infer_concludes h hc with hc | hc
  · obtain ⟨_, hdrawn⟩ := hc.drawn
    exact isModest_conclude hdrawn
  · obtain ⟨_, hdrawn⟩ := hc.drawn
    exact isModest_conclude hdrawn

theorem isModest_inferEvents (h : c ∈ p.inferEvents s t) : c.kind.IsModest := by
  obtain ⟨_, _, _, _, _, _, hdrawn | hdrawn⟩ := conclude_of_inferEvents h
  · exact isModest_conclude hdrawn
  · exact isModest_conclude hdrawn

end Standpoint

theorem isModest_contraposeConjunction {s : Sentence} {c : Conclusion}
    (h : contraposeConjunction s = some c) : c.kind.IsModest := by
  simp only [contraposeConjunction, Option.bind_eq_bind, Option.bind_eq_some_iff,
    Option.ite_none_left_eq_some, Option.bind_none] at h
  obtain ⟨_, _, _, _, h⟩ := h
  simp only [contrapose, Option.bind_eq_bind, Option.bind_eq_some_iff, concludeAlone,
    Option.ite_none_left_eq_some, Option.some.injEq] at h
  obtain ⟨_, _, v, _, _, rfl⟩ := h
  intro w hw
  cases hkind : s.kind <;> simp only [hkind, SentenceKind.withValue, SentenceKind.value?] at hw
  · obtain rfl := Option.some.inj hw
    exact ⟨_, rfl⟩
  · exact absurd hw (by simp)
  · obtain rfl := Option.some.inj hw
    exact ⟨_, rfl⟩

namespace Conclusion

variable {ids : IdSupply} {cs : List Conclusion}

theorem isModest_numberAll (h : ∀ c ∈ cs, c.kind.IsModest) :
    ∀ r ∈ (numberAll ids cs).1, r.IsModest := by
  intro r hr
  obtain ⟨c, hc, _, _, _, rfl⟩ := mem_numberAll hr
  exact ⟨rfl, h c hc⟩

theorem isModest_collect (h : ∀ c ∈ cs, c.kind.IsModest) :
    ∀ r ∈ (collect ids cs).1, r.IsModest := by
  intro r hr
  obtain ⟨c, hc, _, _, _, rfl⟩ := mem_collect hr
  exact ⟨rfl, h c hc⟩

end Conclusion

/-! ## Conduct -/

/-- An operation among the outputs, with the cycle in which it was carried out. -/
def Output.shown? : Output → Option (String × Cycle)
  | executed operation _ cycle => some (operation, cycle)
  | answer .. => none

/-- What there is of an engine apart from what it knows. -/
structure Conduct where
  /-- From where sentences are judged. -/
  standpoint : Standpoint
  /-- The sentences that wait. -/
  input : PriorityQueue Sentence
  /-- The goals that have been acted on. -/
  acted : Acted
  /-- What the engine is about to do. -/
  agenda : Agenda
  /-- The operations among the outputs. -/
  shown : List (String × Cycle)

/-- Sentences that were derived wait behind the others. -/
def Conduct.await (c : Conduct) (derived : List Sentence) : Conduct :=
  { c with input :=
      derived.foldl (fun q s => (q.put s (Engine.derivedPriority s)).2) c.input }

/-- Operations become commands in the current cycle, and are shown. -/
def Conduct.command (c : Conduct) (operations : List Term) : Conduct :=
  { c with
    agenda.commands := c.agenda.commands ++ operations
    shown := c.shown ++ operations.map fun t => (t.text, c.standpoint.now) }

/-- The operations that are due are carried out. -/
def Conduct.carryOut (c : Conduct) : Conduct :=
  { c.command (PendingOperation.due c.agenda.operations) with agenda := c.agenda.carryOut }

namespace Engine

variable {σ : Type}

/-- What there is of an engine apart from what it knows. -/
def conduct (e : Engine σ) : Conduct where
  standpoint := e.standpoint
  input := e.input
  acted := e.acted
  agenda := e.agenda
  shown := e.outputs.toList.filterMap Output.shown?

/-- Sentences that were derived, with what has become of the engine: only its memory and what it
draws on, and the sentences are modest. -/
structure Infers (e : Engine σ) (x : List Sentence × Engine σ) : Prop where
  conduct_eq : x.2.conduct = e.conduct
  modest : ∀ r ∈ x.1, r.IsModest

variable {e e' : Engine σ} {s t : Sentence}

theorem DiffersByChance.conduct_eq (h : e.DiffersByChance e') : e'.conduct = e.conduct := by
  rw [h.2]
  rfl

@[simp] theorem conduct_enqueueDerived (e : Engine σ) (derived : List Sentence) :
    (e.enqueueDerived derived).conduct = e.conduct.await derived := by
  unfold enqueueDerived Conduct.await
  induction derived generalizing e with
  | nil => rfl
  | cons s derived ih => exact ih _

theorem acted_enqueueDerived (e : Engine σ) (derived : List Sentence) :
    (e.enqueueDerived derived).acted = e.acted :=
  congrArg Conduct.acted (e.conduct_enqueueDerived derived)

theorem agenda_enqueueDerived (e : Engine σ) (derived : List Sentence) :
    (e.enqueueDerived derived).agenda = e.agenda :=
  congrArg Conduct.agenda (e.conduct_enqueueDerived derived)

namespace Infers

theorem nil (h : e'.conduct = e.conduct) : Infers e ([], e') := ⟨h, by simp⟩

theorem after {x : List Sentence × Engine σ} (h : e'.conduct = e.conduct) (hx : Infers e' x) :
    Infers e x := ⟨hx.conduct_eq.trans h, hx.modest⟩

theorem append {x y : List Sentence × Engine σ} (hx : Infers e x) (hy : Infers x.2 y) :
    Infers e (x.1 ++ y.1, y.2) := by
  refine ⟨hy.conduct_eq.trans hx.conduct_eq, ?_⟩
  intro r hr
  rcases List.mem_append.1 hr with hr | hr
  · exact hx.modest r hr
  · exact hy.modest r hr

end Infers

theorem infers_derive (e : Engine σ) (s t : Sentence) : Infers e (e.derive s t) := by
  unfold derive
  cases hd : e.standpoint.derive e.ids s t with
  | error refusal => exact .nil rfl
  | ok x =>
    obtain ⟨cs, hcs, hcol⟩ := derive_eq_ok.1 (hd : _ = Except.ok (x.1, x.2))
    have hx : x = Conclusion.collect e.ids cs := hcol.symm
    subst hx
    exact ⟨rfl, Conclusion.isModest_collect fun c hc => Standpoint.isModest_infer hcs hc⟩

theorem infers_deriveEach (e : Engine σ) (s : Sentence) (others : List Sentence) :
    Infers e (e.deriveEach s others) := by
  induction others generalizing e with
  | nil => exact .nil rfl
  | cons t ts ih => exact (e.infers_derive s t).append (ih _)

theorem isModest_pairEvent (p : Standpoint) (ids : IdSupply) (event : Sentence)
    (earlier : List Sentence) : ∀ r ∈ (pairEvent p ids event earlier).1, r.IsModest := by
  induction earlier generalizing ids with
  | nil => simp [pairEvent]
  | cons t ts ih =>
    intro r hr
    rcases List.mem_append.1 hr with hr | hr
    · exact Conclusion.isModest_collect (fun c hc => Standpoint.isModest_inferEvents hc) r hr
    · exact ih _ r hr

theorem infers_observe (e : Engine σ) (event : Sentence) : Infers e (e.observe event) := by
  refine ⟨rfl, ?_⟩
  unfold observe
  dsimp only
  split
  · exact isModest_pairEvent _ _ _ _
  · simp

@[simp] theorem conduct_believe (e : Engine σ) (s : Sentence) :
    (e.believe s).conduct = e.conduct := by
  unfold believe
  split <;> rfl

theorem conduct_want (e : Engine σ) (s : Sentence) :
    (e.want s).conduct = { e.conduct with acted := (e.want s).acted } := by
  unfold want
  split <;> rfl

theorem conduct_queueOperations (e : Engine σ) (goal : Sentence) :
    (e.queueOperations goal).conduct = { e.conduct with
      acted := (e.queueOperations goal).acted
      agenda := (e.queueOperations goal).agenda } := by
  unfold queueOperations
  split
  · rfl
  · split
    · rfl
    · split <;> rfl

theorem conduct_act (e : Engine σ) (goal : Sentence) :
    (e.act goal).conduct = { e.conduct with
      acted := (e.act goal).acted
      agenda := (e.act goal).agenda } := by
  unfold act
  split
  · split
    · rfl
    · exact e.conduct_queueOperations goal
  · rfl

variable [DrawSource σ]

theorem infers_deriveSemantically (e : Engine σ) (s : Sentence) :
    Infers e (e.deriveSemantically s) := by
  have hcounterpart := (e.counterpart_cases s).1.conduct_eq
  unfold deriveSemantically
  split
  · rename_i e₁ hc
    rw [hc] at hcounterpart
    exact .nil hcounterpart
  · rename_i c e₁ hc
    have hdrawn : Engine.conduct { e₁ with draws := (c.desires.draw e₁.draws).2 } =
        e.conduct := by
      rw [hc] at hcounterpart
      exact hcounterpart
    exact (infers_deriveEach _ s _).after hdrawn

@[simp] theorem conduct_means (e : Engine σ) (t : Term) : (e.means t).2.conduct = e.conduct := by
  unfold means
  split <;> rfl

theorem infers_pursue (e : Engine σ) (goal : Sentence) :
    Infers (if e.standpoint.pursues goal then e.act goal else e) (e.pursue goal) := by
  unfold pursue
  cases e.standpoint.pursues goal with
  | false => exact .nil rfl
  | true =>
    simp only [Bool.not_true, Bool.false_eq_true, if_false, if_true]
    split
    · exact .nil rfl
    · split
      · exact infers_derive _ _ _
      · have hmeans := (e.act goal).conduct_means goal.statement
        split <;> rename_i hc <;> rw [hc] at hmeans
        · exact (infers_derive _ _ _).after hmeans
        · exact .nil hmeans

theorem conduct_pursue (e : Engine σ) (goal : Sentence) :
    (e.pursue goal).2.conduct = { e.conduct with
      acted := (e.pursue goal).2.acted
      agenda := (e.pursue goal).2.agenda } := by
  have h := (e.infers_pursue goal).conduct_eq
  have hacted : (e.pursue goal).2.acted = _ := congrArg Conduct.acted h
  have hagenda : (e.pursue goal).2.agenda = _ := congrArg Conduct.agenda h
  rw [h, hacted, hagenda]
  split
  · exact e.conduct_act goal
  · rfl

/-- A goal is taken up when it is pursued and acted on. -/
theorem agenda_pursue (e : Engine σ) (goal : Sentence) :
    (e.pursue goal).2.agenda =
      if e.standpoint.pursues goal && e.takesUp goal then e.agenda.takeUp goal else e.agenda := by
  have h : (e.pursue goal).2.agenda = _ :=
    congrArg Conduct.agenda (e.infers_pursue goal).conduct_eq
  rw [h]
  cases e.standpoint.pursues goal with
  | false => rfl
  | true =>
    rw [if_pos rfl, Bool.true_and]
    exact e.agenda_act goal

/-- What is wanted most about the statement of a goal that is processed, before it is pursued. -/
def wanted (e : Engine σ) (s : Sentence) : Option Sentence × Engine σ :=
  let e := e.conceptualize s.statement
  if !e.memory.holds s.statement then (none, e)
  else
    let memory := (e.memory.activate e.settings s.statement).setQuality s.statement goalQuality
    let e := { e with memory }.want s
    ((e.memory.concept? s.statement).bind fun c => c.desires.best?, e)

theorem processGoal_eq (e : Engine σ) (s : Sentence) :
    e.processGoal s = match e.wanted s with
      | (none, e) => e
      | (some best, e) => (e.pursue best).2.enqueueDerived (e.pursue best).1 := by
  unfold processGoal wanted
  dsimp only
  split
  · rfl
  · generalize want _ s = e'
    cases (e'.memory.concept? s.statement).bind fun c => c.desires.best? <;> rfl

theorem conduct_wanted (e : Engine σ) (s : Sentence) :
    (e.wanted s).2.conduct = { e.conduct with acted := (e.wanted s).2.acted } := by
  unfold wanted
  dsimp only
  split
  · rfl
  · exact conduct_want _ s

theorem agenda_wanted (e : Engine σ) (s : Sentence) : (e.wanted s).2.agenda = e.agenda :=
  congrArg Conduct.agenda (e.conduct_wanted s)

/-- What is wanted most about a concept that is considered, before it is pursued, with what was
derived from the best belief about it and the concept itself. -/
def attended (e : Engine σ) : Option (Concept × List Sentence) × Engine σ :=
  match e.drawSentential with
  | (none, e) => (none, e)
  | (some c, e) =>
    match c.beliefs.best? with
    | some belief => (some (c, (e.deriveSemantically belief).1), (e.deriveSemantically belief).2)
    | none => (some (c, []), e)

theorem consider_eq (e : Engine σ) :
    e.consider = match e.attended with
      | (none, e) => e
      | (some (c, derived), e) =>
        let (more, e) := match c.desires.best? with
          | some desire => e.pursue desire
          | none => ([], e)
        let memory := e.memory.decay c.term e.settings.considerDecay
        { e with memory }.enqueueDerived (derived ++ more) := by
  unfold consider attended
  rcases e.drawSentential with ⟨_ | c, e'⟩
  · rfl
  · dsimp only
    cases c.beliefs.best? <;> rfl

theorem infers_attended (e : Engine σ) :
    Infers e ((e.attended.1.map (·.2)).getD [], e.attended.2) := by
  have hdrawn := e.drawSentential_cases.1.conduct_eq
  unfold attended
  split <;> rename_i hc <;> rw [hc] at hdrawn
  · exact .nil hdrawn
  · split
    · exact (infers_deriveSemantically _ _).after hdrawn
    · exact .nil hdrawn

/-! ## What changes the conduct -/

/-- Whether an engine comes from another one by work on its memory and by deriving modest sentences,
which wait now. -/
def Works (e e' : Engine σ) : Prop := ∃ x, Infers e x ∧ e' = x.2.enqueueDerived x.1

omit [DrawSource σ] in
theorem works_of_conduct_eq (h : e'.conduct = e.conduct) : e.Works e' := ⟨_, .nil h, rfl⟩

theorem works_processJudgment (e : Engine σ) (s : Sentence) : e.Works (e.processJudgment s) := by
  obtain ⟨⟨fromEvents, e₁⟩, hx, hobserved⟩ : ∃ x,
      (if s.isEvent && s.fromInput then e.observe s else ([], e)) = x ∧ Infers e x := by
    split
    · exact ⟨_, rfl, e.infers_observe s⟩
    · exact ⟨_, rfl, .nil rfl⟩
  unfold processJudgment
  simp only [hx]
  split
  · exact works_of_conduct_eq hobserved.conduct_eq
  · -- Everything that is put into the queue was observed, contraposed or derived from the best
    -- belief.
    obtain ⟨contraposed, ids, hcontra, hmodest⟩ : ∃ contraposed ids,
        (if s.fromInput then Conclusion.numberAll (e₁.conceptualize s.statement).ids
            (contraposeConjunction s).toList
          else ([], (e₁.conceptualize s.statement).ids)) = (contraposed, ids) ∧
          ∀ r ∈ contraposed, Sentence.IsModest r := by
      split
      · refine ⟨_, _, rfl, Conclusion.isModest_numberAll fun c hc => ?_⟩
        exact isModest_contraposeConjunction (Option.mem_toList.1 hc)
      · exact ⟨_, _, rfl, by simp⟩
    simp only [hcontra]
    generalize hbelieved : believe _ s = e₂
    have hconduct : e₂.conduct = e₁.conduct := by
      rw [← hbelieved, conduct_believe]
      rfl
    have hfirst : Infers e (fromEvents ++ contraposed, e₂) :=
      hobserved.append (y := (contraposed, e₂)) ⟨hconduct, hmodest⟩
    split
    · exact ⟨_, hfirst.append (infers_deriveSemantically _ _), rfl⟩
    · exact ⟨_, hfirst.append (.nil rfl), rfl⟩

theorem works_processQuestion (e : Engine σ) (s : Sentence) : e.Works (e.processQuestion s) := by
  unfold processQuestion
  dsimp only
  split
  · exact works_of_conduct_eq rfl
  · have done : ∀ x : Sentence × Engine σ, x.2.conduct = e.conduct →
        e.Works ((x.2.deriveSemantically x.1).2.enqueueDerived
          (x.2.deriveSemantically x.1).1) := fun x hx =>
      ⟨_, (x.2.infers_deriveSemantically x.1).after hx, rfl⟩
    apply done
    split
    · rfl
    · split
      · simp [conduct, agenda, emit, conceptualize, standpoint, Output.shown?]
      · rfl

omit [DrawSource σ] in
theorem Works.conduct_eq (h : e.Works e') :
    ∃ derived, (∀ r ∈ derived, Sentence.IsModest r) ∧
      e'.conduct = e.conduct.await derived := by
  obtain ⟨x, hx, rfl⟩ := h
  exact ⟨x.1, hx.modest, by rw [conduct_enqueueDerived, hx.conduct_eq]⟩

omit [DrawSource σ] in
theorem Works.acted_eq (h : e.Works e') : e'.acted = e.acted := by
  obtain ⟨_, _, hconduct⟩ := h.conduct_eq
  exact congrArg Conduct.acted hconduct

omit [DrawSource σ] in
theorem Works.agenda_eq (h : e.Works e') : e'.agenda = e.agenda := by
  obtain ⟨_, _, hconduct⟩ := h.conduct_eq
  exact congrArg Conduct.agenda hconduct

/-- Whether an engine comes from another one by work on its memory, by deriving modest sentences,
which wait now, and by acting on goals. -/
def Pursues (e e' : Engine σ) : Prop := ∃ derived, (∀ r ∈ derived, Sentence.IsModest r) ∧
  e'.conduct = { e.conduct with acted := e'.acted, agenda := e'.agenda }.await derived

omit [DrawSource σ] in
theorem Works.pursues (h : e.Works e') : e.Pursues e' := by
  obtain ⟨derived, hmodest, hconduct⟩ := h.conduct_eq
  exact ⟨derived, hmodest, by rw [hconduct, h.acted_eq, h.agenda_eq]; rfl⟩

omit [DrawSource σ] in
theorem pursues_enqueueDerived
    (h : e'.conduct = { e.conduct with acted := e'.acted, agenda := e'.agenda })
    {derived : List Sentence} (hd : ∀ r ∈ derived, r.IsModest) :
    e.Pursues (e'.enqueueDerived derived) :=
  ⟨derived, hd, by
    rw [conduct_enqueueDerived, acted_enqueueDerived, agenda_enqueueDerived, h]⟩

omit [DrawSource σ] in
theorem Pursues.standpoint_eq (h : e.Pursues e') : e'.standpoint = e.standpoint := by
  obtain ⟨_, _, hconduct⟩ := h
  exact congrArg Conduct.standpoint hconduct

omit [DrawSource σ] in
theorem Pursues.shown_eq (h : e.Pursues e') : e'.conduct.shown = e.conduct.shown := by
  obtain ⟨_, _, hconduct⟩ := h
  rw [hconduct]
  rfl

/-- What becomes of an engine that processes a goal, apart from its memory. -/
theorem pursues_processGoal (e : Engine σ) (s : Sentence) : e.Pursues (e.processGoal s) := by
  have hwanted : (e.wanted s).2.conduct = { e.conduct with
      acted := (e.wanted s).2.acted
      agenda := (e.wanted s).2.agenda } := by
    rw [e.agenda_wanted s]
    exact e.conduct_wanted s
  rw [processGoal_eq]
  split <;> rename_i hw <;> rw [hw] at hwanted
  · exact ⟨[], by simp, hwanted⟩
  · rename_i best e₁
    have hpursued := e₁.conduct_pursue best
    rw [hwanted] at hpursued
    exact pursues_enqueueDerived hpursued (e₁.infers_pursue best).modest

theorem pursues_process (e : Engine σ) (s : Sentence) : e.Pursues (e.process s) := by
  unfold process
  split
  · exact (works_of_conduct_eq rfl).pursues
  · split
    · exact (e.works_processJudgment s).pursues
    · exact (e.works_processQuestion s).pursues
    · exact e.pursues_processGoal s

theorem pursues_consider (e : Engine σ) : e.Pursues e.consider := by
  have hattended := e.infers_attended
  rw [consider_eq]
  split <;> rename_i ha <;> rw [ha] at hattended
  · exact (works_of_conduct_eq hattended.conduct_eq).pursues
  · rename_i c derived e₁
    have hconduct : e₁.conduct = { e.conduct with acted := e₁.acted, agenda := e₁.agenda } := by
      rw [← hattended.conduct_eq]
      rfl
    -- Whatever was derived from the belief and whatever is pursued go to the queue together.
    have done : ∀ x : List Sentence × Engine σ,
        x.2.conduct = { e.conduct with acted := x.2.acted, agenda := x.2.agenda } →
        (∀ r ∈ x.1, Sentence.IsModest r) → e.Pursues (Engine.enqueueDerived { x.2 with
          memory := x.2.memory.decay c.term x.2.settings.considerDecay }
          (derived ++ x.1)) := by
      intro x hx hmodest
      have hx' : Engine.conduct { x.2 with
        memory := x.2.memory.decay c.term x.2.settings.considerDecay } = _ := hx
      refine pursues_enqueueDerived hx' fun r hr => ?_
      rcases List.mem_append.1 hr with hr | hr
      · exact hattended.modest r hr
      · exact hmodest r hr
    cases c.desires.best? with
    | none => exact done ([], e₁) hconduct (by simp)
    | some desire =>
      have hpursued := e₁.conduct_pursue desire
      rw [hconduct] at hpursued
      exact done (e₁.pursue desire) hpursued (e₁.infers_pursue desire).modest

/-! ## What is shown -/

theorem conduct_execute (e : Engine σ) (desirability : Double) (operation : Term) :
    ∃ derived, (∀ r ∈ derived, Sentence.IsModest r) ∧
      (e.execute desirability operation).conduct =
        (e.conduct.command [operation]).await derived := by
  obtain ⟨derived, hmodest, h⟩ := (works_processJudgment { e with
    commands := e.commands.push operation
    outputs := e.outputs.push (.executed operation.text desirability e.cycle)
    ids := e.ids.advance } { Sentence.fresh operation (.judgment .default) e.ids.peek
      (some e.cycle) with fromInput := true }).conduct_eq
  refine ⟨derived, hmodest, h.trans ?_⟩
  simp [conduct, agenda, Conduct.command, standpoint, Output.shown?]

theorem conduct_executeDue (e : Engine σ) :
    ∃ derived, (∀ r ∈ derived, Sentence.IsModest r) ∧
      e.executeDue.conduct = e.conduct.carryOut.await derived := by
  have all : ∀ (due : List Term) (desirability : Double) (e : Engine σ), ∃ derived,
      (∀ r ∈ derived, Sentence.IsModest r) ∧
      (due.foldl (fun e operation => e.execute desirability operation) e).conduct =
        (e.conduct.command due).await derived := by
    intro due desirability
    induction due with
    | nil => exact fun e => ⟨[], by simp, by simp [Conduct.await, Conduct.command]⟩
    | cons operation due ih =>
      intro e
      obtain ⟨derived, hmodest, h⟩ := e.conduct_execute desirability operation
      obtain ⟨more, hmore, hrest⟩ := ih (e.execute desirability operation)
      refine ⟨derived ++ more, ?_, ?_⟩
      · intro r hr
        rcases List.mem_append.1 hr with hr | hr
        · exact hmodest r hr
        · exact hmore r hr
      · rw [List.foldl_cons, hrest, h]
        simp [Conduct.await, Conduct.command]
  exact all _ _ _

end Engine

end NonAxiomatic
