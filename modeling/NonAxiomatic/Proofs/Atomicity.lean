import NonAxiomatic.Proofs.Intake

/-!
# All or nothing

A batch of sentences is checked as a whole before any of it is put in. The check reads every text
without an engine, and then every text is read once more by the engine that it is put into. Both
readings agree, since neither the identities to come nor the cycle have a part in whether a text is
accepted (`Sentence.isOk_parse_iff`), as long as there are numbers for the cycles to come.

* `Batch.check_eq_ok`: a batch passes the check exactly if it is acceptable.
* `Sentence.intake_of_readable`: what can be read is read by every engine, and gets the identities
  that come next.
* `Engine.submitAll_of_overshoots`: at the last cycles, putting a batch in may come to a fault.
* `Service.status_respond`: no answer says that something failed within the service.

**Theorem (`Handler.input_all_or_nothing`).** A batch that is not acceptable changes nothing. All of
a batch that is acceptable is put in, in its order and with the identities that come next.
-/

namespace NonAxiomatic

/-! ## Identities in a row -/

namespace IdSupply

/-- The identities that are given out next. -/
def upcoming (ids : IdSupply) (n : Nat) : List SentenceId :=
  (List.range n).map fun i => (ids.advanceBy i).peek

theorem upcoming_succ (ids : IdSupply) (n : Nat) :
    ids.upcoming (n + 1) = ids.peek :: ids.advance.upcoming n := by
  simp only [upcoming, List.range_succ_eq_map, List.map_cons, List.map_map, Function.comp_def,
    Nat.succ_eq_add_one, advanceBy_succ]
  rfl

/-- Before the end of the supply, identities have consecutive numbers. -/
theorem numbers_upcoming {ids : IdSupply} {n : Nat} (h : ids.next.toNat + n ≤ UInt64.size) :
    (ids.upcoming n).map (·.number.toNat) = List.range' ids.next.toNat n := by
  rw [upcoming, List.map_map, List.range'_eq_map_range]
  refine List.map_congr_left fun i hi => ?_
  have hi := List.mem_range.1 hi
  show (ids.advanceBy i).next.toNat = _
  rw [toNat_next_advanceBy]
  omega

end IdSupply

/-! ## Readings of a text -/

namespace Sentence

variable {text : String} {texts : List String} {ids : IdSupply} {cycle : Cycle}

theorem exists_parse (h : (Utterance.parse text).isOk = true)
    (hfits : ¬Utterance.Overshoots text cycle) (ids : IdSupply) :
    ∃ s, parse text ids cycle = .ok (s, ids.advance) ∧ s.id = ids.peek := by
  cases hu : Utterance.parse text with
  | error cause => simp [hu, Except.isOk, Except.toBool] at h
  | ok u =>
    obtain ⟨occurrence, hat⟩ := Utterance.exists_occurrenceAt hu hfits
    exact ⟨_, parse_eq_ok.2 ⟨u, occurrence, hu, hat, rfl, rfl⟩, rfl⟩

/-- What can be read is read by every engine, and gets the identities that come next. -/
theorem intake_of_readable (h : ∀ text ∈ texts, (Utterance.parse text).isOk = true)
    (hfits : ∀ text ∈ texts, ¬Utterance.Overshoots text cycle) (ids : IdSupply) :
    ∃ new, intake cycle texts ids = .ok (new, ids.advanceBy texts.length) ∧
      new.map (·.id) = ids.upcoming texts.length := by
  induction texts generalizing ids with
  | nil => exact ⟨[], rfl, rfl⟩
  | cons text texts ih =>
    obtain ⟨s, hs, hid⟩ := exists_parse (h text (by simp)) (hfits text (by simp)) ids
    obtain ⟨new, hnew, hids⟩ := ih (fun t ht => h t (by simp [ht]))
      (fun t ht => hfits t (by simp [ht])) ids.advance
    refine ⟨{ s with fromInput := true } :: new, ?_, ?_⟩
    · rw [List.length_cons, IdSupply.advanceBy_succ]
      exact intake_cons_eq_ok.2 ⟨s, _, new, hs, hnew, rfl⟩
    · rw [List.map_cons, hids, List.length_cons, IdSupply.upcoming_succ, ← hid]
      rfl

end Sentence

/-- A batch with a sentence that overshoots is put in up to this sentence. -/
theorem Engine.submitAll_of_overshoots {σ : Type} {e : Engine σ} {texts : List String}
    (hreadable : ∀ text ∈ texts, (Utterance.parse text).isOk = true)
    (h : ∃ text ∈ texts, Utterance.Overshoots text e.cycle) :
    ∃ e', e.submitAll texts = (.error (.fault .overflow), e') := by
  induction texts generalizing e with
  | nil =>
    obtain ⟨_, hmem, -⟩ := h
    cases hmem
  | cons text texts ih =>
    rw [submitAll]
    -- The first text whose sum does not fit ends the run; those before it only use up identities
    -- and do not move the clock.
    by_cases hlate : Utterance.Overshoots text e.cycle
    · exact ⟨e, by rw [submit_eq_fault_iff.2 ⟨rfl, hlate⟩]⟩
    · obtain ⟨s, hs, -⟩ := Sentence.exists_parse (hreadable text (by simp)) hlate e.ids
      have hsubmit := submit_eq_ok.2 ⟨s, _, hs, rfl, rfl⟩
      have hrest : ∃ t ∈ texts, Utterance.Overshoots t e.cycle := by
        obtain ⟨t, ht, hlate'⟩ := h
        rcases List.mem_cons.1 ht with rfl | ht
        · exact absurd hlate' hlate
        · exact ⟨t, ht, hlate'⟩
      rw [← cycle_submit hsubmit] at hrest
      obtain ⟨e', he'⟩ := ih (fun t ht => hreadable t (by simp [ht])) hrest
      refine ⟨e', ?_⟩
      rw [hsubmit]
      dsimp only
      rw [he']
      rfl

/-! ## The check of a batch -/

namespace Batch

/-- A batch that can be put in. -/
structure Acceptable (texts : List String) : Prop where
  /-- There are not too many sentences. -/
  count : texts.length ≤ SyntaxError.maxSentences
  /-- None of them is too long. -/
  short : ∀ text ∈ texts, text.utf8ByteSize ≤ SyntaxError.maxSentenceBytes
  /-- All of them can be read. -/
  readable : ∀ text ∈ texts, (Utterance.parse text).isOk = true

variable {texts : List String}

theorem checkLimits_eq_ok : checkLimits texts = .ok () ↔
    texts.length ≤ SyntaxError.maxSentences ∧
      ∀ text ∈ texts, text.utf8ByteSize ≤ SyntaxError.maxSentenceBytes := by
  unfold checkLimits
  split
  · rename_i hmany
    simp only [reduceCtorEq, false_iff, not_and]
    intro hcount
    exact absurd hmany (Nat.not_lt.2 hcount)
  · rename_i hcount
    cases hlong : texts.find? fun s => decide (SyntaxError.maxSentenceBytes < s.utf8ByteSize) with
    | none => simpa [Nat.not_lt.1 hcount] using hlong
    | some long =>
      have hmem := List.mem_of_find?_eq_some hlong
      have hbytes : SyntaxError.maxSentenceBytes < long.utf8ByteSize := by
        simpa using List.find?_some hlong
      simp only [reduceCtorEq, false_iff, not_and]
      intro _ hshort
      exact absurd hbytes (Nat.not_lt.2 (hshort long hmem))

theorem checkTexts_eq_ok : checkTexts texts = .ok () ↔
    ∀ text ∈ texts, (Utterance.parse text).isOk = true := by
  induction texts with
  | nil => simp [checkTexts]
  | cons text texts ih =>
    rw [checkTexts, List.forall_mem_cons, ← ih]
    cases Utterance.parse text <;> simp [Except.isOk, Except.toBool]

/-- A batch passes the check exactly if it is acceptable. -/
theorem check_eq_ok : check texts = .ok () ↔ Acceptable texts := by
  have hbind : check texts = .ok () ↔ checkLimits texts = .ok () ∧ checkTexts texts = .ok () := by
    unfold check
    cases checkLimits texts <;> simp [bind, Except.bind]
  rw [hbind, checkLimits_eq_ok, checkTexts_eq_ok, and_assoc]
  exact ⟨fun ⟨hcount, hshort, hreadable⟩ => ⟨hcount, hshort, hreadable⟩,
    fun h => ⟨h.count, h.short, h.readable⟩⟩

end Batch

/-! ## Answers -/

/-- How requests go, if they are answered: none fails within the service. -/
def Response.statuses : List Nat := [unanswered.status, 200, 400, 401, 404, 405, 413, 415, 422]

namespace Handler

/-- How requests go that a handler answers, if it does. -/
def statuses : List Nat := [Response.unanswered.status, 200, 400, 413, 415, 422]

variable {σ : Type}

theorem input_of_acceptable {texts : List String} (h : Batch.Acceptable texts) (e : Engine σ)
    (hfits : ∀ text ∈ texts, ¬Utterance.Overshoots text e.cycle) :
    ∃ new, Sentence.intake e.cycle texts e.ids = .ok (new, e.ids.advanceBy texts.length) ∧
      new.map (·.id) = e.ids.upcoming texts.length ∧
      input e texts = (reply 200 (.input (.ok (new.map (·.id)))),
        { e with ids := e.ids.advanceBy texts.length
                 input := e.input.putAll new Engine.inputPriority }) := by
  obtain ⟨new, hintake, hids⟩ := Sentence.intake_of_readable h.readable hfits e.ids
  have hsubmit := Engine.submitAll_eq_ok.2 ⟨new, _, hintake, rfl, rfl⟩
  refine ⟨new, hintake, hids, ?_⟩
  rw [input, Batch.check_eq_ok.2 h]
  dsimp only
  rw [hsubmit]

theorem input_of_overshoots {texts : List String} (h : Batch.Acceptable texts) (e : Engine σ)
    (hlate : ∃ text ∈ texts, Utterance.Overshoots text e.cycle) :
    (input e texts).1 = .unanswered := by
  obtain ⟨e', hsubmit⟩ := Engine.submitAll_of_overshoots h.readable hlate
  rw [input, Batch.check_eq_ok.2 h]
  dsimp only
  rw [hsubmit]

theorem input_of_not_acceptable {texts : List String} (h : ¬ Batch.Acceptable texts)
    (e : Engine σ) : ∃ cause, Batch.check texts = .error cause ∧
      input e texts = (reply 400 (.input (.error (Failure.text cause).message)), e) := by
  cases hcheck : Batch.check texts with
  | ok _ => exact absurd (Batch.check_eq_ok.1 hcheck) h
  | error cause => exact ⟨cause, rfl, by rw [input, hcheck]⟩

theorem status_input (e : Engine σ) (texts : List String) :
    (input e texts).1.status ∈ statuses := by
  by_cases h : Batch.Acceptable texts
  · by_cases hlate : ∃ text ∈ texts, Utterance.Overshoots text e.cycle
    · simp [input_of_overshoots h e hlate, statuses]
    · obtain ⟨_, _, _, hinput⟩ := input_of_acceptable h e (by simpa using hlate)
      simp [hinput, reply, statuses]
  · obtain ⟨_, _, hinput⟩ := input_of_not_acceptable h e
    simp [hinput, reply, statuses]

theorem status_withBody {α : Type} (r : Request) (e : Engine σ) (field : Field α)
    {answer : α → Response × Engine σ} (h : ∀ a, (answer a).1.status ∈ statuses) :
    (withBody r e field answer).1.status ∈ statuses := by
  unfold withBody
  split_ifs
  · simp [statuses]
  · simp [statuses]
  · cases Body.read field r.body with
    | ok a => exact h a
    | error fault => cases fault <;> simp [statuses]

variable [DrawSource σ]

theorem status_answer (r : Request) (e : Engine σ) (endpoint : Endpoint) :
    (answer r e endpoint).1.status ∈ statuses := by
  cases endpoint with
  | health | status | outputs | snapshot => simp [answer, status, reply, statuses]
  | input => exact status_withBody r e _ (status_input e)
  | step =>
    refine status_withBody r e _ fun cycles => ?_
    unfold step
    split_ifs
    · simp [reply, statuses]
    · split <;> simp [reply, statuses]
  | concept =>
    refine status_withBody r e _ fun text => ?_
    unfold concept
    dsimp only
    split <;> simp [reply, statuses]

end Handler

namespace Service

variable {σ : Type} [DrawSource σ]

/-- Nothing fails within the service. -/
theorem status_respond (s : Service σ) (r : Request) :
    (s.respond r).1.status ∈ Response.statuses := by
  have hroute : (s.route r).1.status ∈ Response.statuses := by
    unfold route
    cases Endpoint.ofPath? r.path with
    | none => simp [Response.statuses]
    | some endpoint =>
      dsimp only
      split_ifs
      · have hstatuses : Handler.statuses ⊆ Response.statuses := by decide
        exact hstatuses (Handler.status_answer r s.engine endpoint)
      · simp [Response.statuses]
  show (s.answer r).1.status ∈ Response.statuses
  unfold answer
  split_ifs
  · simp [Response.statuses]
  · exact hroute
  · exact hroute
  · simp [Response.head, unauthorized, Response.statuses]
  · simp [unauthorized, Response.statuses]

end Service

open PriorityQueue in
/-- **Main theorem.** A batch that is not acceptable is refused and changes nothing. All of a batch
that is acceptable is put in: the engine reads its texts in their order, gives them the identities
that come next, with consecutive numbers before the end of the supply, and they come into the queue
behind what ranks as high at least and before the rest, as far as there is room. This is so in every
engine that has numbers for the cycles to come, since neither the identities to come nor the cycle
have another part in whether a text is accepted; for a cycle without a number there is no answer. A
text that is refused uses up no identity. No answer says that something failed within the
service. -/
theorem Handler.input_all_or_nothing {σ : Type} [DrawSource σ] (e : Engine σ)
    (texts : List String) :
    (¬ Batch.Acceptable texts → ∃ cause, Batch.check texts = .error cause ∧
      input e texts = (reply 400 (.input (.error (Failure.text cause).message)), e)) ∧
    (Batch.Acceptable texts → (∀ text ∈ texts, ¬Utterance.Overshoots text e.cycle) →
      ∃ new, Sentence.intake e.cycle texts e.ids = .ok (new, e.ids.advanceBy texts.length) ∧
        new.map (·.id) = e.ids.upcoming texts.length ∧
        input e texts = (reply 200 (.input (.ok (new.map (·.id)))),
          { e with ids := e.ids.advanceBy texts.length
                   input := e.input.putAll new Engine.inputPriority }) ∧
        (e.input.size ≤ e.input.capacity → (input e texts).2.input.entries =
          (e.input.ahead Engine.inputPriority ++ new.map inputEntry ++
            e.input.behind Engine.inputPriority).take e.input.capacity)) ∧
    (Batch.Acceptable texts → (∃ text ∈ texts, Utterance.Overshoots text e.cycle) →
      (input e texts).1 = .unanswered) ∧
    (e.cycle.toNat < 2 ^ 64 - 5 → ∀ text, ¬Utterance.Overshoots text e.cycle) ∧
    (e.ids.next.toNat + texts.length ≤ UInt64.size →
      (e.ids.upcoming texts.length).map (·.number.toNat) =
        List.range' e.ids.next.toNat texts.length) ∧
    (∀ text ids cycle, (Sentence.parse text ids cycle).isOk = true ↔
      (Utterance.parse text).isOk = true ∧ ¬Utterance.Overshoots text cycle) ∧
    (∀ text, (e.submit text).isOk = false → (e.submitAll [text]).2 = e) ∧
    ∀ security r, (Service.respond ⟨security, e⟩ r).1.status ∈ Response.statuses := by
  refine ⟨fun h => input_of_not_acceptable h e, fun h hfits => ?_,
    fun h hlate => input_of_overshoots h e hlate, fun hroom => ?_, IdSupply.numbers_upcoming,
    Sentence.isOk_parse_iff, fun text h => ?_, fun security r => Service.status_respond _ r⟩
  · obtain ⟨new, hintake, hids, hinput⟩ := input_of_acceptable h e hfits
    refine ⟨new, hintake, hids, hinput, fun hsize => ?_⟩
    rw [hinput]
    exact entries_putAll hsize new Engine.inputPriority
  · have hdistance : Utterance.tenseDistance.toNat = 5 := rfl
    refine Utterance.not_overshoots ?_
    rw [hdistance, UInt64.size]
    omega
  -- A single text that is refused has not changed anything yet.
  · rw [Engine.submitAll]
    cases hsubmit : e.submit text with
    | error cause => rfl
    | ok x => simp [hsubmit, Except.isOk, Except.toBool] at h

end NonAxiomatic
