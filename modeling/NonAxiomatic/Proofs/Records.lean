import Mathlib.Data.List.Induction
import NonAxiomatic.Proofs.EngineSound
import NonAxiomatic.Proofs.Ledger

/-!
# Recorded evidence

What everything in an engine rests on, after every run. The engine is followed by a ledger
(`Engine.Records`): what is in its input waits there, and what is in its memory, among its events or
wanted at present is done. All that the engine does with sentences is a sequence of steps of the
ledger.

**Theorem (`evidence_after`).** For every run there is one ledger with all sentences that the engine
held after any number of its instructions. Every sentence in it rests as it should. As long as the
supply is not exhausted, no two sentences in it have the same identity, so that a premise is known
by its identity also when the engine has forgotten it.

**Theorem (`evidence_repeated`).** An exhausted supply hands out its last identity again. A judgment
that is revised then can rest on it twice.

While a sentence is processed, it is done but not yet in memory; so `Records` tells what is stored
from what is done. Sentences that have been derived and are still to be put into the input are in
hand.
-/

namespace NonAxiomatic

/-! ## Waiting -/

/-- What a queue drops when a value is put in. -/
theorem PriorityQueue.put_perm {α : Type} (q : PriorityQueue α) (value : α) (priority : Double) :
    ∃ dropped, (value :: q.toList).Perm (dropped ++ (q.put value priority).2.toList) := by
  have perm : (value :: q.toList).Perm
      ((insertByRank (rank priority, value) q.entries).map Prod.snd) :=
    ((insertByRank_perm (rank priority, value) q.entries).map Prod.snd).symm
  simp only [put]
  generalize insertByRank (rank priority, value) q.entries = entries at perm ⊢
  split
  · have hne : entries ≠ [] := by
      rintro rfl
      exact absurd perm.length_eq (by simp)
    have cut : entries.map Prod.snd =
        entries.dropLast.map Prod.snd ++ [(entries.getLast hne).2] := by
      rw [← List.map_singleton, ← List.map_append, List.dropLast_append_getLast]
    refine ⟨[(entries.getLast hne).2], perm.trans ?_⟩
    rw [cut]
    exact List.perm_append_comm
  · exact ⟨[], perm⟩

/-! ## Keeping a ledger -/

namespace Engine

variable {σ : Type}

/-- A ledger of what is in an engine has come of a first one. -/
structure Records (settings : Settings) (first : Ledger) (stored done hand : List Sentence)
    (e : Engine σ) : Prop where
  settings_eq : e.settings = settings
  leads : first.Leads ⟨e.ids, done, hand ++ e.input.toList⟩
  memory : e.memory.Sound settings (· ∈ stored)
  stored : stored ⊆ done
  events : ∀ s ∈ e.events.events, s ∈ done
  goal : ∀ s, e.currentGoal = some s → s ∈ done

/-- A ledger is kept in which everything that is done may be stored. -/
def Kept (settings : Settings) (first : Ledger) (hand : List Sentence) (e : Engine σ) : Prop :=
  ∃ done, e.Records settings first done done hand

variable {settings : Settings} {first : Ledger} {stored done done' hand hand' : List Sentence}
  {e : Engine σ} {s t : Sentence}

namespace Records

/-- Sentences enter, are taken or are given up, and nothing else changes. -/
theorem move (h : e.Records settings first stored done hand) (subset : done ⊆ done')
    {ids : IdSupply} {input : PriorityQueue Sentence}
    (leads : first.Leads ⟨ids, done', hand' ++ input.toList⟩) :
    Records settings first stored done' hand' { e with ids, input } :=
  ⟨h.settings_eq, leads, h.memory, fun _ hs => subset (h.stored hs),
    fun s hs => subset (h.events s hs), fun s hs => subset (h.goal s hs)⟩

theorem reorder (h : e.Records settings first stored done hand) (same : hand.Perm hand') :
    e.Records settings first stored done hand' :=
  h.move (List.Subset.refl _) (h.leads.reorder (same.append_right _))

theorem withDraws (h : e.Records settings first stored done hand) (draws : σ) :
    Records settings first stored done hand { e with draws } :=
  ⟨h.settings_eq, h.leads, h.memory, h.stored, h.events, h.goal⟩

theorem withMemory (h : e.Records settings first stored done hand) {memory : Memory}
    (hm : memory.Sound settings (· ∈ stored)) :
    Records settings first stored done hand { e with memory } :=
  ⟨h.settings_eq, h.leads, hm, h.stored, h.events, h.goal⟩

theorem kept (h : e.Records settings first stored done hand) : e.Kept settings first hand :=
  ⟨done, h.settings_eq, h.leads, h.memory.mono fun _ hs => h.stored hs, List.Subset.refl _,
    h.events, h.goal⟩

end Records

/-- What is in hand may be forgotten. -/
theorem Kept.forget (h : e.Kept settings first (hand ++ hand')) : e.Kept settings first hand' := by
  obtain ⟨done, h⟩ := h
  have leads := h.leads
  rw [List.append_assoc] at leads
  obtain ⟨done', subset, leads⟩ := leads.giveUp
  exact (h.move subset leads).kept

theorem Kept.enqueue (h : e.Kept settings first (s :: hand)) (priority : Double) :
    (e.enqueue s priority).Kept settings first hand := by
  obtain ⟨done, h⟩ := h
  obtain ⟨dropped, perm⟩ := e.input.put_perm s priority
  have same : (s :: hand ++ e.input.toList).Perm
      (dropped ++ (hand ++ (e.input.put s priority).2.toList)) := calc
    (s :: (hand ++ e.input.toList)).Perm (hand ++ s :: e.input.toList) := List.perm_middle.symm
    _ |>.Perm (hand ++ (dropped ++ (e.input.put s priority).2.toList)) := perm.append_left hand
    _ |>.Perm (dropped ++ (hand ++ (e.input.put s priority).2.toList)) :=
      List.perm_append_comm_assoc _ _ _
  obtain ⟨done', subset, leads⟩ := (h.leads.reorder same).giveUp
  exact (h.move subset leads).kept

theorem Kept.enqueueDerived {derived : List Sentence}
    (h : e.Kept settings first (derived ++ hand)) :
    (e.enqueueDerived derived).Kept settings first hand := by
  unfold Engine.enqueueDerived
  induction derived generalizing e with
  | nil => exact h
  | cons s derived ih => exact ih (h.enqueue _)

/-! ## Deriving -/

namespace Records

theorem derive (h : e.Records settings first stored done hand) (hs : s ∈ done) (ht : t ∈ done) :
    (e.derive s t).2.Records settings first stored done ((e.derive s t).1 ++ hand) := by
  unfold Engine.derive
  cases hd : e.standpoint.derive e.ids s t with
  | error refusal => exact h
  | ok x =>
    obtain ⟨cs, hcs, hcol⟩ := derive_eq_ok.1 (hd : _ = Except.ok (x.1, x.2))
    obtain rfl : Conclusion.collect e.ids cs = x := hcol
    apply h.move (List.Subset.refl _)
    rw [List.append_assoc]
    exact h.leads.collect fun c hc ids => Ledger.arises_of_infer hs ht hcs hc ids

theorem deriveEach {others : List Sentence} (h : e.Records settings first stored done hand)
    (hs : s ∈ done) (ho : ∀ t ∈ others, t ∈ done) :
    (e.deriveEach s others).2.Records settings first stored done
      ((e.deriveEach s others).1 ++ hand) := by
  induction others generalizing e hand with
  | nil => exact h
  | cons t ts ih =>
    have h₁ := h.derive hs (ho t (by simp))
    have h₂ := ih h₁ fun u hu => ho u (by simp [hu])
    refine h₂.reorder ?_
    simp only [Engine.deriveEach]
    rw [List.append_assoc]
    exact List.perm_append_comm_assoc _ _ _

theorem bestBelief? (h : e.Records settings first stored done hand) {u : Term}
    (hs : e.bestBelief? u = some s) : s ∈ done := by
  simp only [Engine.bestBelief?, Option.bind_eq_bind, Option.bind_eq_some_iff] at hs
  obtain ⟨c, hc, hbest⟩ := hs
  exact h.stored ((h.memory.concept? hc).1.beliefs.best? hbest).good

variable [DrawSource σ]

theorem conceptualize (h : e.Records settings first stored done hand) (u : Term) :
    (e.conceptualize u).Records settings first stored done hand := by
  have hm : (Memory.conceptualize e.settings u (e.memory, e.draws)).1.Sound settings
      (· ∈ stored) := by
    rw [h.settings_eq]
    exact Memory.Sound.conceptualize u h.memory
  exact (h.withMemory hm).withDraws _

theorem deriveSemantically (h : e.Records settings first stored done hand) (hs : s ∈ done) :
    (e.deriveSemantically s).2.Records settings first stored done
      ((e.deriveSemantically s).1 ++ hand) := by
  obtain ⟨_, hc⟩ := e.counterpart_cases s
  have h₁ : (e.counterpart s).2.Records settings first stored done hand := h.withDraws _
  unfold Engine.deriveSemantically
  split
  · rename_i e₁ hx
    rw [hx] at h₁
    exact h₁
  · rename_i c e₁ hx
    rw [hx] at h₁ hc
    have hsound := h.memory.of_contains (hc c rfl)
    refine (h₁.withDraws _).deriveEach hs ?_
    intro t ht
    rcases List.mem_append.1 ht with ht | ht
    · exact h.stored (hsound.beliefs.best? (Option.mem_toList.1 ht)).good
    · exact h.stored (hsound.desires.draw (Option.mem_toList.1 ht)).good

end Records

/-! ## Judgments and questions -/

/-- An event is paired with those before it. -/
theorem leads_pairEvent {p : Standpoint} {ids : IdSupply} {waiting others : List Sentence}
    (h : first.Leads ⟨ids, done, waiting⟩) (hs : s ∈ done) (ho : ∀ t ∈ others, t ∈ done) :
    first.Leads ⟨(pairEvent p ids s others).2, done, (pairEvent p ids s others).1 ++ waiting⟩ := by
  induction others generalizing ids waiting with
  | nil => exact h
  | cons t ts ih =>
    have h₁ : first.Leads ⟨(p.deriveEvents ids t s).2, done,
        (p.deriveEvents ids t s).1 ++ waiting⟩ :=
      h.collect fun c hc ids => Ledger.arises_of_inferEvents (ho t (by simp)) hs hc ids
    refine (ih h₁ fun u hu => ho u (by simp [hu])).reorder ?_
    simp only [pairEvent]
    rw [List.append_assoc]
    exact List.perm_append_comm_assoc _ _ _

theorem Records.observe (h : e.Records settings first stored done hand) (hs : s ∈ done) :
    (e.observe s).2.Records settings first stored done ((e.observe s).1 ++ hand) := by
  obtain ⟨derived, ids, hpair, leads⟩ : ∃ derived ids,
      (if e.settings.temporalChaining then pairEvent e.standpoint e.ids s e.events.events
        else ([], e.ids)) = (derived, ids) ∧
      first.Leads ⟨ids, done, derived ++ (hand ++ e.input.toList)⟩ := by
    split
    · exact ⟨_, _, rfl, leads_pairEvent h.leads hs h.events⟩
    · exact ⟨_, _, rfl, h.leads⟩
  simp only [Engine.observe, hpair]
  rw [← List.append_assoc] at leads
  refine ⟨h.settings_eq, leads, h.memory, h.stored, ?_, h.goal⟩
  intro t ht
  rcases EventWindow.mem_push ht with ht | ⟨rfl, _⟩
  · exact h.events t ht
  · exact hs

/-- A sentence that was taken up is put in a table, or a revision of it that is taken up at once. -/
theorem leads_put {kind : Punctuation} {table : Table} {capacity : Nat} {p : Standpoint}
    {ids : IdSupply} {term : Term} {waiting : List Sentence}
    (h : table.Holds capacity (Sentence.Fits (· ∈ done) kind term))
    (hs : s.Fits (· ∈ s :: done) kind term) (leads : first.Leads ⟨ids, s :: done, waiting⟩) :
    ∃ done', s :: done ⊆ done' ∧ first.Leads ⟨(table.put p s ids).2.2, done', waiting⟩ ∧
      (table.put p s ids).2.1.Holds capacity (Sentence.Fits (· ∈ done') kind term) := by
  have grow : ∀ {done' : List Sentence}, s :: done ⊆ done' → ∀ x : Sentence,
      x.Fits (· ∈ done) kind term → x.Fits (· ∈ done') kind term := fun subset x hx =>
    ⟨hx.punctuation_eq, hx.about, hx.plain, subset (List.mem_cons_of_mem _ hx.good)⟩
  -- Either the sentence is put in as it is, or revised with an entry that it may interact with.
  rcases table.put_cases p s ids with hput | ⟨partner, hmem, i, revision, interact, hr, hput⟩
  · rw [hput]
    exact ⟨s :: done, List.Subset.refl _, leads, (h.mono (grow (List.Subset.refl _))).insert hs⟩
  · rw [hput]
    have fits := h.all partner hmem
    -- An event is revised with the entry whatever the two rest on.
    have paired : Ledger.Paired (s :: done) s partner := by
      rcases interact with event | interact
      · exact .filed event fits.good
      · exact .held (by simp) (by simp [fits.good]) (.inl interact)
    have subset : s :: done ⊆ revision.number ids.peek :: s :: done := List.subset_cons_self _ _
    refine ⟨_, subset, (leads.enter (Ledger.arises_of_revise paired hr ids)).take, ?_⟩
    exact ((h.mono (grow subset)).eraseIdx i).insert
      (fits_revise hs (grow (List.Subset.refl _) partner fits) hr (by simp))

/-- A table of one concept has changed, and everything done may be stored from then on. -/
theorem Records.store (h : e.Records settings first done (s :: done) hand)
    (subset : s :: done ⊆ done') {ids : IdSupply} {acted : Acted} {term : Term}
    {f : Concept → Concept} (leads : first.Leads ⟨ids, done', hand ++ e.input.toList⟩)
    (hf : ∀ c, e.memory.concept? term = some c → c.Sound settings (· ∈ done') →
      (f c).term.text = term.text ∧ (f c).Sound settings (· ∈ done')) :
    Kept settings first hand { e with ids, acted, memory := e.memory.modify term f } := by
  have memory := h.memory.mono fun x hx => subset (List.mem_cons_of_mem s hx)
  refine ⟨done', h.settings_eq, leads, memory.modify fun c hc => hf c hc (memory.concept? hc).1,
    List.Subset.refl _, ?_, ?_⟩
  · exact fun x hx => subset (h.events x hx)
  · exact fun x hx => subset (h.goal x hx)

theorem Records.believe (h : e.Records settings first done (s :: done) hand)
    (hkind : s.punctuation = .judgment) (hplain : s.statement.mentionsVariable = false) :
    (e.believe s).Kept settings first hand := by
  unfold Engine.believe
  cases hc : e.memory.concept? s.statement with
  | none => exact h.kept
  | some c =>
    obtain ⟨hsound, hterm⟩ := h.memory.concept? hc
    obtain ⟨done', subset, leads, hput⟩ := leads_put (p := e.standpoint) hsound.beliefs
      (fits_of_concept? hterm hkind hplain (by simp)) h.leads
    apply h.store subset leads
    intro c' hc' hsound'
    obtain rfl := Option.some.inj (hc.symm.trans hc')
    exact ⟨hterm, hput, hsound'.desires, hsound'.links⟩

theorem Records.want (h : e.Records settings first done (s :: done) hand)
    (hkind : s.punctuation = .goal) (hplain : s.statement.mentionsVariable = false) :
    (e.want s).Kept settings first hand := by
  unfold Engine.want
  cases hc : e.memory.concept? s.statement with
  | none => exact h.kept
  | some c =>
    obtain ⟨hsound, hterm⟩ := h.memory.concept? hc
    obtain ⟨done', subset, leads, hput⟩ := leads_put (p := e.standpoint) hsound.desires
      (fits_of_concept? hterm hkind hplain (by simp)) h.leads
    apply h.store subset leads
    intro c' hc' hsound'
    obtain rfl := Option.some.inj (hc.symm.trans hc')
    exact ⟨hterm, hsound'.beliefs, hput, hsound'.links⟩

theorem leads_contraposed {ids : IdSupply} {waiting : List Sentence}
    (h : first.Leads ⟨ids, done, waiting⟩) (hs : s ∈ done) (input : Bool) :
    ∃ derived ids', (if input then Conclusion.numberAll ids (contraposeConjunction s).toList
      else ([], ids)) = (derived, ids') ∧ first.Leads ⟨ids', done, derived ++ waiting⟩ := by
  cases input with
  | false => exact ⟨_, _, rfl, h⟩
  | true =>
    refine ⟨_, _, rfl, ?_⟩
    have arises : ∀ c ∈ (contraposeConjunction s).toList, ∀ ids,
        Ledger.Arises ids done (c.number ids.peek) :=
      fun c hc ids => .contraposed hs (Option.mem_toList.1 hc)
    have := h.numberAll arises fun _ => true
    rwa [List.filter_true] at this

section Processing

variable [DrawSource σ]

/-- A judgment that was taken up but not stored is processed. -/
theorem Records.processJudgment (h : e.Records settings first done (s :: done) [])
    (hkind : s.punctuation = .judgment) (hplain : s.statement.mentionsVariable = false) :
    (e.processJudgment s).Kept settings first [] := by
  unfold Engine.processJudgment
  obtain ⟨fromEvents, e₁, hobs, h₁⟩ : ∃ fromEvents e₁,
      (if (s.isEvent && s.fromInput) = true then e.observe s else ([], e)) = (fromEvents, e₁) ∧
        e₁.Records settings first done (s :: done) (fromEvents ++ []) := by
    split
    · exact ⟨_, _, rfl, h.observe (by simp)⟩
    · exact ⟨_, _, rfl, h⟩
  have h₂ := h₁.conceptualize s.statement
  simp only [hobs]
  generalize e₁.conceptualize s.statement = e₂ at h₂ ⊢
  split
  · exact h₂.kept.forget
  · obtain ⟨contraposed, ids, hcon, leads⟩ :=
      leads_contraposed h₂.leads (List.mem_cons_self (a := s)) s.fromInput
    simp only [hcon]
    have hm : ((e₂.memory.activate e₂.settings s.statement).strengthenQuality
        s.statement).Sound settings (· ∈ done) := (h₂.memory.rebudget _ _).rebudget _ _
    rw [← List.append_assoc] at leads
    have h₃ : Records settings first done (s :: done) (contraposed ++ (fromEvents ++ [])) { e₂ with
        memory := (e₂.memory.activate e₂.settings s.statement).strengthenQuality s.statement
        ids } := (h₂.withMemory hm).move (List.Subset.refl _) leads
    obtain ⟨done', h₄⟩ := h₃.believe hkind hplain
    generalize Engine.believe _ s = e₄ at h₄ ⊢
    have finish : ∀ x : List Sentence × Engine σ,
        x.2.Records settings first done' done' (x.1 ++ (contraposed ++ (fromEvents ++ []))) →
        (x.2.enqueueDerived (fromEvents ++ contraposed ++ x.1)).Kept settings first [] := by
      -- The engine puts the three lists in the order of the program; the ledger holds them in the
      -- order in which they arose.
      intro x hx
      have same : (x.1 ++ (contraposed ++ (fromEvents ++ []))).Perm
          (fromEvents ++ contraposed ++ x.1 ++ []) := by
        simp only [List.append_nil]
        exact List.perm_append_comm.trans (List.perm_append_comm.append_right _)
      exact (hx.reorder same).kept.enqueueDerived
    apply finish
    split
    · exact h₄.deriveSemantically (h₄.bestBelief? ‹_›)
    · exact h₄

theorem Records.processQuestion (h : e.Records settings first done done []) (hs : s ∈ done) :
    (e.processQuestion s).Kept settings first [] := by
  unfold Engine.processQuestion
  have h₁ := h.conceptualize s.statement
  generalize e.conceptualize s.statement = e₁ at h₁ ⊢
  simp only
  split
  · exact h₁.kept
  · have h₂ : Records settings first done done []
        { e₁ with memory := e₁.memory.strengthenQuality s.statement } :=
      h₁.withMemory (h₁.memory.rebudget _ _)
    generalize ({ e₁ with memory := e₁.memory.strengthenQuality s.statement } : Engine σ) = e₂
      at h₂ ⊢
    have finish : ∀ x : Sentence × Engine σ, x.2.Records settings first done done [] →
        x.1 ∈ done → ((x.2.deriveSemantically x.1).2.enqueueDerived
          (x.2.deriveSemantically x.1).1).Kept settings first [] := by
      intro x hx hmem
      exact (hx.deriveSemantically hmem).kept.enqueueDerived
    refine finish _ ?_ ?_ <;> split
    · exact h₂
    · split
      · exact ⟨h₂.settings_eq, h₂.leads, h₂.memory, h₂.stored, h₂.events, h₂.goal⟩
      · exact h₂
    · exact hs
    · split
      · exact h₂.bestBelief? ‹_›
      · exact h₂.bestBelief? ‹_›

end Processing

/-! ## Goals -/

theorem Records.act (h : e.Records settings first stored done hand) (hs : s ∈ done) :
    (e.act s).Records settings first stored done hand := by
  have withActed : ∀ acted, Records settings first stored done hand { e with acted } :=
    fun acted => ⟨h.settings_eq, h.leads, h.memory, h.stored, h.events, h.goal⟩
  -- Only the goal is new to the ledger, and it is in the hand of the engine.
  have replaced : Records settings first stored done hand
      { e with operations := PendingOperation.ofGoal s.statement, acted := e.acted.record s
               currentGoal := some s } := by
    refine ⟨h.settings_eq, h.leads, h.memory, h.stored, h.events, ?_⟩
    intro t ht
    obtain rfl := Option.some.inj ht
    exact hs
  unfold Engine.act
  split
  · split
    · exact withActed _
    · unfold Engine.queueOperations
      split
      · exact replaced
      · split
        · exact withActed _
        · split
          · exact h
          · exact replaced
  · exact h

theorem Records.holding? (h : e.Records settings first stored done hand) {u : Term}
    (hs : e.holding? u = some s) : s ∈ done := by
  simp only [Engine.holding?, Option.filter_eq_some_iff] at hs
  exact h.bestBelief? hs.1

section Processing

variable [DrawSource σ]

theorem Records.means (h : e.Records settings first stored done hand) (u : Term) :
    (e.means u).2.Records settings first stored done hand ∧
      ∀ s, (e.means u).1 = some s → s ∈ done := by
  unfold Engine.means
  split
  · exact ⟨h, fun s hs => absurd hs (by simp)⟩
  · refine ⟨h.withDraws _, ?_⟩
    intro s hs
    obtain ⟨found, hfound, hbest⟩ := Option.bind_eq_some_iff.1 hs
    have hsound := h.memory.of_contains (Memory.contains_of_follow hfound)
    exact h.stored (hsound.beliefs.best? hbest).good

theorem Records.pursue (h : e.Records settings first stored done hand) (hs : s ∈ done) :
    (e.pursue s).2.Records settings first stored done ((e.pursue s).1 ++ hand) := by
  unfold Engine.pursue
  split
  · exact h
  · have h₁ := h.act hs
    generalize e.act s = e₁ at h₁ ⊢
    simp only
    split
    · exact h₁
    · split
      -- A conjunct that holds is a belief that was stored.
      · rename_i belief hbelief
        obtain ⟨u, _, hu⟩ := Option.bind_eq_some_iff.1 hbelief
        exact h₁.derive hs (h₁.holding? hu)
      · obtain ⟨h₂, hm⟩ := h₁.means s.statement
        split
        · rename_i belief e₂ hx
          rw [hx] at h₂ hm
          exact h₂.derive hs (hm belief rfl)
        · rename_i e₂ hx
          rw [hx] at h₂
          exact h₂

theorem Records.processGoal (h : e.Records settings first done (s :: done) [])
    (hkind : s.punctuation = .goal) (hplain : s.statement.mentionsVariable = false) :
    (e.processGoal s).Kept settings first [] := by
  unfold Engine.processGoal
  have h₁ := h.conceptualize s.statement
  generalize e.conceptualize s.statement = e₁ at h₁ ⊢
  simp only
  split
  · exact h₁.kept
  · have h₂ : Records settings first done (s :: done) [] { e₁ with
        memory := (e₁.memory.activate e₁.settings s.statement).setQuality s.statement
          goalQuality } := h₁.withMemory ((h₁.memory.rebudget _ _).rebudget _ _)
    obtain ⟨done', h₃⟩ := h₂.want hkind hplain
    generalize Engine.want _ s = e₃ at h₃ ⊢
    split
    · exact h₃.kept
    · rename_i best hbest
      obtain ⟨c, hc, hb⟩ := Option.bind_eq_some_iff.1 hbest
      have fits := (h₃.memory.concept? hc).1.desires.best? hb
      exact (h₃.pursue fits.good).kept.enqueueDerived

/-- A sentence that was taken up is processed. -/
theorem Records.process (h : e.Records settings first done (s :: done) []) :
    (e.process s).Kept settings first [] := by
  unfold Engine.process
  split
  · exact h.kept
  · rename_i hplain
    have hplain : s.statement.mentionsVariable = false := by simpa using hplain
    split
    · exact h.processJudgment ‹_› hplain
    · exact Records.processQuestion ⟨h.settings_eq, h.leads,
        h.memory.mono fun _ hx => List.mem_cons_of_mem _ hx, List.Subset.refl _, h.events, h.goal⟩
        (by simp)
    · exact h.processGoal ‹_› hplain

/-! ## Cycles -/

theorem Kept.processWaiting (h : e.Kept settings first []) (count : Nat) :
    (Engine.processWaiting count e).Kept settings first [] := by
  induction count generalizing e with
  | zero => exact h
  | succ count ih =>
    unfold Engine.processWaiting
    split
    · exact h
    · rename_i s input ht
      obtain ⟨done, h⟩ := h
      have leads : first.Leads ⟨e.ids, s :: done, input.toList⟩ := by
        have := h.leads
        rw [List.nil_append, (PriorityQueue.take?_eq_some ht).1] at this
        exact this.take
      exact ih (h.move (List.subset_cons_self _ _) leads).process

theorem Kept.consider (h : e.Kept settings first []) : e.consider.Kept settings first [] := by
  obtain ⟨done, h⟩ := h
  obtain ⟨_, hc⟩ := e.drawSentential_cases
  have h₁ : e.drawSentential.2.Records settings first done done [] := by
    unfold drawSentential
    split
    · exact h.withDraws _
    · exact h.withDraws _
  unfold Engine.consider
  split
  · rename_i e₁ hx
    rw [hx] at h₁
    exact h₁.kept
  · rename_i c e₁ hx
    rw [hx] at h₁ hc
    have hsound := h.memory.of_contains (hc c rfl)
    -- The belief is used first; what it gives stands in front when the desire is pursued.
    have believed : ∀ x, x = c.beliefs.best?.elim ([], e₁) e₁.deriveSemantically →
        x.2.Records settings first done done (x.1 ++ []) := by
      rintro x rfl
      cases hbelief : c.beliefs.best? with
      | none => exact h₁
      | some belief => exact h₁.deriveSemantically (hsound.beliefs.best? hbelief).good
    have desired : ∀ x y : List Sentence × Engine σ,
        x.2.Records settings first done done (x.1 ++ []) →
        y = c.desires.best?.elim ([], x.2) x.2.pursue →
        y.2.Records settings first done done (y.1 ++ (x.1 ++ [])) := by
      rintro x y hx rfl
      cases hdesire : c.desires.best? with
      | none => exact hx
      | some desire => exact hx.pursue (hsound.desires.best? hdesire).good
    have finish : ∀ x y : List Sentence × Engine σ,
        y.2.Records settings first done done (y.1 ++ (x.1 ++ [])) →
        (Engine.enqueueDerived
          { y.2 with memory := y.2.memory.decay c.term y.2.settings.considerDecay }
          (x.1 ++ y.1)).Kept settings first [] := by
      intro x y hy
      have same : (y.1 ++ (x.1 ++ [])).Perm (x.1 ++ y.1 ++ []) := by
        simp only [List.append_nil]
        exact List.perm_append_comm
      exact ((hy.reorder same).withMemory (hy.memory.rebudget _ _)).kept.enqueueDerived
    -- The program asks for both in one match; all four cases are this one.
    have result := finish _ _ (desired _ _ (believed _ rfl) rfl)
    cases hbelief : c.beliefs.best? <;> cases hdesire : c.desires.best? <;>
      rw [hbelief, hdesire] at result <;> exact result

theorem Kept.considerSome (h : e.Kept settings first []) (count : Nat) :
    (Engine.considerSome count e).Kept settings first [] := by
  induction count generalizing e with
  | zero => exact h
  | succ count ih => exact ih h.consider

/-- What is seen of an operation is taken up at once. -/
theorem Kept.execute (h : e.Kept settings first []) {operation : Term}
    (hplain : operation.mentionsVariable = false) (desirability : Double) :
    (e.execute desirability operation).Kept settings first [] := by
  obtain ⟨done, h⟩ := h
  have leads := (h.leads.enter (.executed operation e.cycle)).take
  have h₁ := h.move (List.subset_cons_self _ _) leads
  have h₂ : Records settings first done _ [] { e with
      commands := e.commands.push operation
      outputs := e.outputs.push (.executed operation.text desirability e.cycle)
      ids := e.ids.advance } :=
    ⟨h₁.settings_eq, h₁.leads, h₁.memory, h₁.stored, h₁.events, h₁.goal⟩
  exact h₂.processJudgment rfl hplain

theorem Kept.executeAll (h : e.Kept settings first []) {due : List Term} (desirability : Double)
    (hdue : ∀ t ∈ due, t.mentionsVariable = false) :
    (due.foldl (fun e operation => e.execute desirability operation) e).Kept settings first [] := by
  induction due generalizing e with
  | nil => exact h
  | cons t due ih =>
    exact ih (h.execute (hdue t (by simp)) desirability) fun u hu => hdue u (by simp [hu])

theorem Kept.executeDue (h : e.Kept settings first [])
    (plain : ∀ o ∈ e.operations, o.operation.mentionsVariable = false) :
    e.executeDue.Kept settings first [] := by
  obtain ⟨done, h⟩ := h
  have hdue : ∀ t ∈ PendingOperation.due e.operations, t.mentionsVariable = false := by
    intro t ht
    obtain ⟨o, ho, rfl⟩ := List.mem_map.1 ht
    exact plain o (List.mem_filter.1 ho).1
  have hgoal : ∀ s, (if (PendingOperation.tick e.operations).isEmpty then none
      else e.currentGoal) = some s → s ∈ done := by
    intro s hs
    split at hs
    · exact absurd hs (by simp)
    · exact h.goal s hs
  have h₁ : Records settings first done done [] { e with
      operations := PendingOperation.tick e.operations
      currentGoal := if (PendingOperation.tick e.operations).isEmpty then none
        else e.currentGoal } :=
    ⟨h.settings_eq, h.leads, h.memory, h.stored, h.events, hgoal⟩
  exact h₁.kept.executeAll _ hdue

/-- Operations that wait are without variables, which is known of sound engines. -/
theorem Kept.step (h : e.Kept settings first []) (sound : e.Sound settings .any) :
    e.step.Kept settings first [] := by
  have h₁ : Kept settings first [] { e with cycle := e.cycle + 1 } := by
    obtain ⟨done, h⟩ := h
    exact ⟨done, h.settings_eq, h.leads, h.memory, h.stored, h.events, h.goal⟩
  have sound₁ : Sound settings .any { e with cycle := e.cycle + 1 } :=
    ⟨sound.settings_eq, sound.memory, sound.input, sound.events, sound.goal, sound.operations,
      sound.pending⟩
  have sound₂ := (sound₁.processWaiting e.input.size).considerSome e.settings.considerPerCycle
  exact ((h₁.processWaiting _).considerSome _).executeDue fun o ho => (sound₂.operations o ho).2

theorem Kept.perform (h : e.Kept settings first []) (sound : e.Sound settings .any)
    (instruction : Instruction) : (e.perform instruction).Kept settings first [] := by
  cases instruction with
  | submit text =>
    unfold Engine.perform
    simp only
    split
    · rename_i id e' hs
      obtain ⟨s, ids, hparse, _, rfl⟩ := submit_eq_ok.1 hs
      obtain ⟨done, h⟩ := h
      have leads := h.leads.enter (.read hparse)
      obtain ⟨_, _, _, _, rfl, _⟩ := Sentence.parse_eq_ok.1 hparse
      have h₁ : Records settings first done done [{ s with fromInput := true }]
          { e with ids := e.ids.advance } := h.move (List.Subset.refl _) leads
      exact h₁.kept.enqueue _
    · exact h
  | step => exact h.step sound
  | drain =>
    obtain ⟨done, h⟩ := h
    exact ⟨done, h.settings_eq, h.leads, h.memory, h.stored, h.events, h.goal⟩

end Processing

/-! ## Runs -/

/-- Whether a sentence is anywhere in an engine. -/
inductive Contains (e : Engine σ) (s : Sentence) : Prop where
  | waiting (mem : s ∈ e.input.toList)
  | believed {c : Concept} (concept : e.memory.Contains c) (mem : s ∈ c.beliefs.entries)
  | wanted {c : Concept} (concept : e.memory.Contains c) (mem : s ∈ c.desires.entries)
  | observed (mem : s ∈ e.events.events)
  | pursued (current : e.currentGoal = some s)

theorem Records.mem_known (h : e.Records settings first stored done hand) (hs : e.Contains s) :
    s ∈ Ledger.known ⟨e.ids, done, hand ++ e.input.toList⟩ := by
  cases hs with
  | waiting mem => exact List.mem_append_right _ (List.mem_append_right _ mem)
  | believed concept mem =>
    have fits := (h.memory.of_contains concept).beliefs.all s mem
    exact List.mem_append_left _ (h.stored fits.good)
  | wanted concept mem =>
    have fits := (h.memory.of_contains concept).desires.all s mem
    exact List.mem_append_left _ (h.stored fits.good)
  | observed mem => exact List.mem_append_left _ (h.events s mem)
  | pursued current => exact List.mem_append_left _ (h.goal s current)

theorem records_start (settings : Settings) (draws : σ) :
    (start settings draws).Records settings {} [] [] [] :=
  ⟨rfl, .refl, .empty settings _, List.Subset.refl _,
    fun s hs => absurd hs (by simp [start, EventWindow.empty]),
    fun s hs => absurd hs (by simp [start])⟩

section Runs

variable [DrawSource σ]

/-- One ledger is kept during a whole run. -/
theorem records_after (settings : Settings) (draws : σ) (instructions : List Instruction) :
    ∃ done, (after settings draws instructions).Records settings {} done done [] ∧
      ∀ n s, (after settings draws (instructions.take n)).Contains s →
        s ∈ done ++ (after settings draws instructions).input.toList := by
  induction instructions using List.reverseRecOn with
  | nil =>
    have h := records_start settings draws
    refine ⟨[], h, fun n s hs => ?_⟩
    rw [List.take_nil] at hs
    exact h.mem_known hs
  | append_singleton instructions instruction ih =>
    obtain ⟨done, h, before⟩ := ih
    have last : after settings draws (instructions ++ [instruction]) =
        (after settings draws instructions).perform instruction := List.foldl_concat ..
    have sound := sound_after settings .any draws instructions
    generalize after settings draws instructions = e at h before last sound
    -- The last instruction starts with the ledger of those before.
    have restart : e.Records settings ⟨e.ids, done, [] ++ e.input.toList⟩ done done [] :=
      ⟨h.settings_eq, .refl, h.memory, h.stored, h.events, h.goal⟩
    obtain ⟨done', h'⟩ := restart.kept.perform sound instruction
    rw [last]
    refine ⟨done', ⟨h'.settings_eq, h.leads.trans h'.leads, h'.memory, h'.stored, h'.events,
      h'.goal⟩, ?_⟩
    intro n s hs
    -- A state before the last instruction is known by induction, and the last one by its own
    -- ledger.
    by_cases hn : n ≤ instructions.length
    · rw [List.take_append_of_le_length hn] at hs
      exact Ledger.Leads.subset h'.leads (before n s hs)
    · rw [List.take_of_length_le (by simp; omega), last] at hs
      exact h'.mem_known hs

/-- **Main theorem.** All sentences that an engine holds after any number of the instructions of a
run are in one ledger, where every sentence rests as it should. -/
theorem evidence_after (settings : Settings) (draws : σ) (instructions : List Instruction) :
    ∃ l : Ledger, Ledger.Leads {} l ∧ l.ids = (after settings draws instructions).ids ∧
      (¬l.ids.IsExhausted → (l.known.map Sentence.id).Nodup) ∧ (∀ s ∈ l.known, l.Rests s) ∧
      ∀ n s, (after settings draws (instructions.take n)).Contains s → s ∈ l.known := by
  obtain ⟨done, h, held⟩ := records_after settings draws instructions
  have sound := (Ledger.sound_empty {}).of_leads h.leads
  exact ⟨_, h.leads, rfl, fun hx => (sound.distinct hx).ids, sound.rests, held⟩

end Runs

/-! ## Runs that use up all identities -/

/-- Settings of an engine in which one sentence may wait, and no concept is considered. -/
def narrow : Settings := { inputCapacity := 1, considerPerCycle := 0 }

/-- A new engine in which a judgment waits that came first, with some identities left. -/
def crowded (ids : IdSupply) : Engine Script :=
  let judgment := Sentence.fresh (.statement (.atom "a") .inheritance (.atom "b") 0)
    (.judgment .default) ⟨0⟩ none
  { start narrow ⟨[]⟩ with
    ids
    input := ((PriorityQueue.empty 1).put { judgment with fromInput := true } inputPriority).2 }

/-- Where there is no room, a sentence uses up its identity and is dropped. -/
theorem perform_crowded (ids : IdSupply) :
    (crowded ids).perform (.submit "(a --> b).") = crowded ids.advance := by
  rfl

theorem after_replicate_submit (n : Nat) :
    after narrow (⟨[]⟩ : Script) (List.replicate (n + 1) (.submit "(a --> b).")) =
      crowded (IdSupply.advanceBy {} (n + 1)) := by
  induction n with
  | zero => rfl
  | succ n ih =>
    rw [List.replicate_succ', after, List.foldl_concat, ← after, ih, perform_crowded]
    rfl

/-- The engine after the judgment that waited has been processed, and the same judgment again. -/
def repeated : Engine Script :=
  (((crowded ⟨0 - 1⟩).perform .step).perform (.submit "(a --> b).")).perform .step

theorem after_exhausted {n : Nat} (h : UInt64.size ≤ n) :
    after narrow (⟨[]⟩ : Script) (List.replicate n (.submit "(a --> b).") ++
      [.step, .submit "(a --> b).", .step]) = repeated := by
  obtain ⟨m, rfl⟩ := Nat.exists_eq_add_of_lt (Nat.lt_of_lt_of_le (by decide : 0 < UInt64.size) h)
  have hlast : IdSupply.advanceBy {} (0 + m + 1) = ⟨0 - 1⟩ := by
    have hnext := IdSupply.toNat_next_advanceBy {} (0 + m + 1)
    have hzero : UInt64.toNat 0 = 0 := rfl
    rw [hzero, Nat.min_eq_right (by omega)] at hnext
    exact congrArg IdSupply.mk (UInt64.toNat_inj.1 hnext)
  rw [after, List.foldl_append, ← after, after_replicate_submit, hlast, List.foldl_cons,
    List.foldl_cons, List.foldl_cons, List.foldl_nil, repeated]

/-- In a run that uses up all identities, the judgment that is revised rests on the last identity
twice. -/
theorem evidence_repeated :
    ∃ s, (after narrow (⟨[]⟩ : Script) (List.replicate UInt64.size (.submit "(a --> b).") ++
      [.step, .submit "(a --> b).", .step])).Contains s ∧ ¬s.base.ids.Nodup := by
  rw [after_exhausted (Nat.le_refl _)]
  let t : Term := .statement (.atom "a") .inheritance (.atom "b") 0
  have hrevised : (repeated.memory.concept? t).any
      (fun c => c.beliefs.entries.any fun s => !decide s.base.ids.Nodup) = true := by
    decide +kernel
  obtain ⟨c, hconcept, hentry⟩ := (Option.any_eq_true ..).1 hrevised
  obtain ⟨s, hmem, hrepeats⟩ := List.any_eq_true.1 hentry
  exact ⟨s, .believed (Memory.contains_of_concept? hconcept) hmem, by simpa using hrepeats⟩

end Engine

end NonAxiomatic
