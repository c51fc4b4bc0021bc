import NonAxiomatic.Proofs.EngineSound

/-!
# Engines in order

**Theorem (`inOrder_after`).** Whatever is put into a new engine with valid settings, in whatever
order it runs cycles and gives out outputs, and whatever it draws, it is in order afterwards
(`Engine.InOrder`): concepts and links lie under the texts of their terms, tables hold sentences of
their kind about the term of their concept, the window holds events, nothing exceeds the capacity
that the settings give it, and operations are pending exactly when there is a goal that they are
carried out for.
-/

namespace NonAxiomatic

/-! ## Valid settings -/

namespace Settings

variable {settings : Settings}

theorem fault?_of_validate (h : settings.validate = .ok ()) {name : String}
    (hn : name ∈ unitNames ++ capacityNames) : settings.fault? name = none := by
  unfold validate at h
  split at h
  · exact absurd h (by simp)
  · split at h
    · exact absurd h (by simp)
    · rename_i hf
      exact List.findSome?_eq_none_iff.1 hf name hn

/-- A capacity is not zero. -/
theorem pos_of_validate (h : settings.validate = .ok ()) (name : String)
    {get : Settings → Nat} {set : Settings → Nat → Settings} (hn : name ∈ capacityNames)
    (hs : slot? name = some (.count get set)) : 0 < get settings := by
  have hf := fault?_of_validate h (List.mem_append_right _ hn)
  simp only [fault?, hs] at hf
  split at hf
  · exact absurd hf (by simp)
  · omega

end Settings

/-! ## Order -/

namespace Engine

variable {σ : Type}

/-- The parts of an engine are where they belong, and none of them is too large. -/
structure InOrder (settings : Settings) (e : Engine σ) : Prop where
  /-- A concept is stored under the text of its term. -/
  key_concept : ∀ key item, e.memory.concepts.get? key = some item → key = item.value.term.text
  /-- There are not too many concepts. -/
  size_memory : e.memory.size ≤ settings.conceptCapacity
  /-- A belief is a judgment about the term of its concept. -/
  beliefs : ∀ c, e.memory.Contains c → ∀ s ∈ c.beliefs.entries,
    s.isJudgment = true ∧ (s.statement == c.term) = true
  /-- A desire is a goal for the term of its concept. -/
  desires : ∀ c, e.memory.Contains c → ∀ s ∈ c.desires.entries,
    s.isGoal = true ∧ (s.statement == c.term) = true
  /-- There are not too many beliefs and desires. -/
  length_tables : ∀ c, e.memory.Contains c → c.beliefs.entries.length ≤ settings.tableCapacity ∧
    c.desires.entries.length ≤ settings.tableCapacity
  /-- A link lies under the text of its target. -/
  key_link : ∀ c, e.memory.Contains c → ∀ kind key item, (c.links kind).get? key = some item →
    key = item.value.text
  /-- There are not too many links. -/
  size_links : ∀ c, e.memory.Contains c → ∀ kind, (c.links kind).size ≤ settings.linkCapacity
  /-- Not too many sentences wait. -/
  size_input : e.input.size ≤ settings.inputCapacity
  /-- Only events are remembered as events. -/
  events : ∀ s ∈ e.events.events, s.isEvent = true
  /-- Not too many events are remembered. -/
  length_events : e.events.events.length ≤ settings.eventCapacity
  /-- Operations are pending exactly when there is a current goal. -/
  pending : e.operations ≠ [] ↔ e.currentGoal.isSome = true

variable {settings : Settings} {T : Trait} {e : Engine σ}

theorem Sound.inOrder (h : e.Sound settings T) (valid : settings.validate = .ok ()) :
    e.InOrder settings := by
  have hconcepts := Settings.pos_of_validate valid "memory_concept_capacity" (by decide) rfl
  have htables := Settings.pos_of_validate valid "table_capacity" (by decide) rfl
  have hlinks := Settings.pos_of_validate valid "concept_link_capacity" (by decide) rfl
  have hinput := Settings.pos_of_validate valid "global_buffer_capacity" (by decide) rfl
  have hevents := Settings.pos_of_validate valid "event_buffer_capacity" (by decide) rfl
  refine
    { key_concept := fun key item hk => (h.memory.concepts.all key item hk).1
      size_memory := ?_
      beliefs := fun c hc s hs => ?_
      desires := fun c hc s hs => ?_
      length_tables := fun c hc => ⟨?_, ?_⟩
      key_link := fun c hc kind => ((h.memory.of_contains hc).links kind).all
      size_links := fun c hc kind => ?_
      size_input := ?_
      events := fun s hs => (h.events.all s hs).1
      length_events := ?_
      pending := ?_ }
  · exact Nat.max_eq_left hconcepts ▸ h.memory.concepts.size_le
  · have hfits := (h.memory.of_contains hc).beliefs.all s hs
    exact ⟨by simp [Sentence.isJudgment, hfits.punctuation_eq], hfits.about⟩
  · have hfits := (h.memory.of_contains hc).desires.all s hs
    exact ⟨by simp [Sentence.isGoal, hfits.punctuation_eq], hfits.about⟩
  · exact Nat.max_eq_left htables ▸ (h.memory.of_contains hc).beliefs.length_le
  · exact Nat.max_eq_left htables ▸ (h.memory.of_contains hc).desires.length_le
  · exact Nat.max_eq_left hlinks ▸ ((h.memory.of_contains hc).links kind).size_le
  · exact Nat.max_eq_left hinput ▸ h.input.size_le
  · exact Nat.max_eq_left hevents ▸ h.events.length_le
  · rw [ne_eq, h.pending, ← Option.isNone_iff_eq_none, Bool.not_eq_true, Option.isNone_eq_false_iff]

variable [DrawSource σ]

/-- **Main theorem.** An engine with valid settings is in order after every run. -/
theorem inOrder_after (settings : Settings) (valid : settings.validate = .ok ()) (draws : σ)
    (instructions : List Instruction) : (after settings draws instructions).InOrder settings :=
  (sound_after settings .any draws instructions).inOrder valid

/-- The default settings are valid. -/
theorem inOrder_after_step :
    Settings.validate {} = .ok () ∧ (after {} (Script.mk [1, 2])
      [.submit "(a --> b).", .submit "(a --> c)?", .step, .drain]).InOrder {} :=
  ⟨rfl, inOrder_after {} rfl (Script.mk [1, 2]) _⟩

end Engine

end NonAxiomatic
