import NonAxiomatic.Proofs.Admission
import NonAxiomatic.Proofs.Conduct
import NonAxiomatic.Proofs.Rounding

/-!
# What is put in comes before what is derived

A sentence that is put in waits with the priority `0.99`. One that is derived has a lower rank
(`rank_derivedPriority_lt`), so that in a queue the first kind stands in front
(`PriorityQueue.Serves`). In a full queue, the sentence that has to go is a derived one, or it is
the one that was put in just now.

* `PriorityQueue.Serves.put_derived`, `PriorityQueue.Serves.put_input`: what becomes of a queue that
  a sentence comes into.
* `Engine.serves_processWaiting`: what is taken from the queue in a cycle, and what is left.

**Theorem (`Engine.taken_first`).** A cycle takes the sentences that were put in since the last one,
as many as the queue has room for, in the order in which they were put in, and only then any that
were derived. While it does so, the rest of them stay in the queue, and none is left afterwards.
-/

namespace NonAxiomatic

namespace PriorityQueue

/-! ## Inserting by rank -/

section Insertion

variable {α : Type} {q : PriorityQueue α} {e : UInt64 × α} {ds ds' : List (UInt64 × α)}

theorem insertByRank_append (h : ∀ d ∈ ds, e.1 ≤ d.1) :
    insertByRank e (ds ++ ds') = ds ++ insertByRank e ds' := by
  induction ds with
  | nil => rfl
  | cons d ds ih =>
    rw [List.cons_append, insertByRank, if_pos (h d (by simp)),
      ih fun d hd => h d (by simp [hd]), List.cons_append]

theorem insertByRank_of_lt (h : ∀ d ∈ ds, d.1 < e.1) : insertByRank e ds = e :: ds := by
  cases ds with
  | nil => rfl
  | cons d ds => rw [insertByRank, if_neg (UInt64.not_le.2 (h d (by simp)))]

theorem length_insertByRank : (insertByRank e ds).length = ds.length + 1 :=
  (insertByRank_perm e ds).length_eq

/-- Of two parts of the entries, the last entry is dropped from the second one. -/
theorem put_cases {value : α} {priority : Double} (hne : ds' ≠ [])
    (h : insertByRank (rank priority, value) q.entries = ds ++ ds') :
    ((ds ++ ds').length ≤ q.capacity ∧
        q.put value priority = (none, { q with entries := ds ++ ds' })) ∨
      (q.capacity < (ds ++ ds').length ∧
        q.put value priority =
          (some (ds'.getLast hne).2, { q with entries := ds ++ ds'.dropLast })) := by
  unfold put
  rw [h]
  dsimp only
  split
  · rename_i hfull
    refine .inr ⟨hfull, ?_⟩
    rw [List.getLast?_append_of_ne_nil _ hne, List.getLast?_eq_some_getLast hne,
      List.dropLast_append_of_ne_nil hne]
    rfl
  · exact .inl ⟨by omega, rfl⟩

end Insertion

/-! ## Queues that serve what was put in first -/

open Engine (inputPriority derivedPriority)

/-- The entry of a sentence that was put in. -/
def inputEntry (s : Sentence) : UInt64 × Sentence := (rank inputPriority, s)

/-- Whether an entry is one of a derived sentence. -/
structure IsDerived (d : UInt64 × Sentence) : Prop where
  fromInput_eq : d.2.fromInput = false
  rank_lt : d.1 < rank inputPriority

/-- Whether a queue has room for a number of sentences and gives out some that were put in, one
after the other, before any that were derived. -/
structure Serves (q : PriorityQueue Sentence) (capacity : Nat) (submitted : List Sentence) :
    Prop where
  capacity_eq : q.capacity = capacity
  size_le : q.size ≤ q.capacity
  fromInput_eq : ∀ s ∈ submitted, s.fromInput = true
  split : ∃ derived, q.entries = submitted.map inputEntry ++ derived ∧ ∀ d ∈ derived, IsDerived d

/-- A derived sentence ranks below what was put in. -/
theorem rank_derivedPriority_lt {s : Sentence} (h : s.IsModest) :
    rank (derivedPriority s) < rank inputPriority := by
  unfold derivedPriority
  cases hv : s.value? with
  | none => decide
  | some v =>
    obtain ⟨c, hc⟩ := h.kind v hv
    dsimp only
    rw [hc]
    exact Double.rank_mul_clampConfidence_lt c

namespace Serves

variable {q : PriorityQueue Sentence} {capacity : Nat} {submitted : List Sentence} {s : Sentence}

theorem empty (capacity : Nat) : (PriorityQueue.empty capacity).Serves (max capacity 1) [] :=
  ⟨rfl, Nat.zero_le _, by simp, [], rfl, by simp⟩

theorem length_le (h : q.Serves capacity submitted) : submitted.length ≤ q.size := by
  obtain ⟨derived, hentries, _⟩ := h.split
  simp [size, hentries]

theorem exists_derived (h : q.Serves capacity submitted) :
    ∃ derived, q.toList = submitted ++ derived ∧ ∀ s ∈ derived, s.fromInput = false := by
  obtain ⟨derived, hentries, hderived⟩ := h.split
  refine ⟨derived.map Prod.snd, ?_, ?_⟩
  · have hvalue : Prod.snd ∘ inputEntry = id := rfl
    rw [toList, hentries, List.map_append, List.map_map, hvalue, List.map_id]
  · intro s hs
    obtain ⟨d, hd, rfl⟩ := List.mem_map.1 hs
    exact (hderived d hd).fromInput_eq

theorem filter_eq (h : q.Serves capacity submitted) :
    q.toList.filter (·.fromInput) = submitted := by
  obtain ⟨derived, hlist, hderived⟩ := h.exists_derived
  rw [hlist, List.filter_append, List.filter_eq_self.2 h.fromInput_eq,
    List.filter_eq_nil_iff.2 fun s hs => by simp [hderived s hs], List.append_nil]

/-- A derived sentence comes behind what was put in. What is dropped for it was derived. -/
theorem put_derived (h : q.Serves capacity submitted) (hs : s.IsModest) :
    (q.put s (derivedPriority s)).2.Serves capacity submitted ∧
      ∀ dropped, (q.put s (derivedPriority s)).1 = some dropped → dropped.fromInput = false := by
  obtain ⟨derived, hentries, hderived⟩ := h.split
  -- A derived sentence ranks below every input, so it goes in somewhere behind them.
  have hlt := rank_derivedPriority_lt hs
  have hinsert : insertByRank (rank (derivedPriority s), s) q.entries =
      submitted.map inputEntry ++ insertByRank (rank (derivedPriority s), s) derived := by
    rw [hentries]
    refine insertByRank_append fun d hd => ?_
    obtain ⟨t, _, rfl⟩ := List.mem_map.1 hd
    exact UInt64.le_of_lt hlt
  have hsize := length_put_le q s (derivedPriority s) h.size_le
  have hcapacity := (capacity_put q s (derivedPriority s)).trans h.capacity_eq
  have hall : ∀ d ∈ insertByRank (rank (derivedPriority s), s) derived, IsDerived d := by
    intro d hd
    rcases List.mem_cons.1 ((insertByRank_perm _ _).mem_iff.1 hd) with rfl | hd
    · exact ⟨hs.fromInput_eq, hlt⟩
    · exact hderived d hd
  have hne : insertByRank (rank (derivedPriority s), s) derived ≠ [] := by
    rw [← List.length_pos_iff, length_insertByRank]
    exact Nat.succ_pos _
  rcases put_cases hne hinsert with ⟨_, hput⟩ | ⟨_, hput⟩ <;> rw [hput] at hsize hcapacity ⊢
  · exact ⟨⟨hcapacity, by rwa [h.capacity_eq] at hsize ⊢, h.fromInput_eq, _, rfl, hall⟩, by simp⟩
  · refine ⟨⟨hcapacity, by rwa [h.capacity_eq] at hsize ⊢, h.fromInput_eq, _, rfl, ?_⟩, ?_⟩
    · exact fun d hd => hall d (List.mem_of_mem_dropLast hd)
    · rintro dropped hdropped
      obtain rfl := Option.some.inj hdropped
      exact (hall _ (List.getLast_mem hne)).fromInput_eq

/-- A sentence that is put in comes behind the others that were, if there is room for so many. -/
theorem put_input (h : q.Serves capacity submitted) (hs : s.fromInput = true) :
    (q.put s inputPriority).2.Serves capacity ((submitted ++ [s]).take capacity) := by
  obtain ⟨derived, hentries, hderived⟩ := h.split
  -- An input goes in behind the other inputs, which rank the same, and before all derived
  -- sentences.
  have hinsert : insertByRank (rank inputPriority, s) q.entries =
      submitted.map inputEntry ++ inputEntry s :: derived := by
    rw [hentries, insertByRank_append, insertByRank_of_lt fun d hd => (hderived d hd).rank_lt]
    · rfl
    · intro d hd
      obtain ⟨t, _, rfl⟩ := List.mem_map.1 hd
      exact UInt64.le_refl _
  have hfromInput : ∀ t ∈ submitted ++ [s], t.fromInput = true := by
    simpa [or_imp, forall_and, hs] using h.fromInput_eq
  have hsize := length_put_le q s inputPriority h.size_le
  have hcapacity := (capacity_put q s inputPriority).trans h.capacity_eq
  have hlength : submitted.length + derived.length ≤ capacity := by
    have := h.size_le
    rwa [h.capacity_eq, size, hentries, List.length_append, List.length_map] at this
  refine ⟨hcapacity, by rwa [capacity_put], fun t ht => hfromInput t (List.mem_of_mem_take ht), ?_⟩
  rcases put_cases (by simp) hinsert with ⟨hroom, hput⟩ | ⟨hfull, hput⟩ <;> rw [hput]
  · rw [List.take_of_length_le]
    · exact ⟨derived, by simp, hderived⟩
    · simp only [List.length_append, List.length_map, List.length_cons, h.capacity_eq] at hroom
      simp only [List.length_append, List.length_cons, List.length_nil]
      omega
  · -- The last sentence is dropped, which is the new one if nothing was derived.
    simp only [List.length_append, List.length_map, List.length_cons, h.capacity_eq] at hfull
    cases derived with
    | nil =>
      refine ⟨[], ?_, by simp⟩
      have hall : submitted.length = capacity := by
        simp only [List.length_nil] at hlength hfull
        omega
      rw [← hall, List.take_left]
      simp
    | cons d derived =>
      rw [List.take_of_length_le]
      · exact ⟨(d :: derived).dropLast, by simp,
          fun d' hd => hderived d' (List.mem_of_mem_dropLast hd)⟩
      · simp only [List.length_append, List.length_cons, List.length_nil] at hlength ⊢
        omega

/-- The next sentence is the first that was put in. -/
theorem take_cons (h : q.Serves capacity (s :: submitted)) :
    ∃ q', q.take? = some (s, q') ∧ q'.Serves capacity submitted := by
  obtain ⟨derived, hentries, hderived⟩ := h.split
  have hsize := h.size_le
  rw [size, hentries] at hsize
  refine ⟨{ q with entries := submitted.map inputEntry ++ derived }, ?_, h.capacity_eq, ?_,
    fun t ht => h.fromInput_eq t (by simp [ht]), derived, rfl, hderived⟩
  · simp [take?, hentries, inputEntry]
  · simp only [size, List.map_cons, List.length_append, List.length_cons] at hsize ⊢
    omega

/-- Where no sentence is left that was put in, the next one was derived. -/
theorem take_nil {q' : PriorityQueue Sentence} (h : q.Serves capacity [])
    (hq : q.take? = some (s, q')) : s.fromInput = false ∧ q'.Serves capacity [] := by
  obtain ⟨derived, hentries, hderived⟩ := h.split
  have hsize := h.size_le
  rw [size, hentries] at hsize
  cases derived with
  | nil => exact absurd hq (by simp [take?, hentries])
  | cons d derived =>
    simp only [take?, hentries, List.map_nil, List.nil_append, Option.some.injEq,
      Prod.mk.injEq] at hq
    obtain ⟨rfl, rfl⟩ := hq
    refine ⟨(hderived d (by simp)).fromInput_eq, h.capacity_eq, ?_, by simp, derived, rfl,
      fun d' hd => hderived d' (by simp [hd])⟩
    simp only [size, List.map_nil, List.nil_append, List.length_cons] at hsize ⊢
    omega

end Serves

end PriorityQueue

/-! ## Engines -/

theorem Conduct.serves_await {c : Conduct} {capacity : Nat} {submitted derived : List Sentence}
    (h : c.input.Serves capacity submitted) (hderived : ∀ s ∈ derived, s.IsModest) :
    (c.await derived).input.Serves capacity submitted := by
  unfold Conduct.await
  dsimp only
  generalize c.input = q at h
  induction derived generalizing q with
  | nil => exact h
  | cons s derived ih =>
    exact ih (fun t ht => hderived t (by simp [ht])) _ (h.put_derived (hderived s (by simp))).1

namespace Engine

section Steps

variable {σ : Type} {e e' : Engine σ} {capacity : Nat} {submitted : List Sentence}

theorem Pursues.serves (hpursues : e.Pursues e') (h : e.input.Serves capacity submitted) :
    e'.input.Serves capacity submitted := by
  obtain ⟨derived, hmodest, hconduct⟩ := hpursues
  have hinput : e'.input = _ := congrArg Conduct.input hconduct
  rw [hinput]
  exact Conduct.serves_await (by exact h) hmodest

variable [DrawSource σ]

/-- The sentences that `Engine.processWaiting` takes from the queue. -/
def taken : (count : Nat) → Engine σ → List Sentence
  | 0, _ => []
  | count + 1, e =>
    match e.input.take? with
    | none => []
    | some (s, input) => s :: taken count ({ e with input }.process s)

/-- What was put in is taken first, and the rest of it stays. -/
theorem serves_processWaiting (h : e.input.Serves capacity submitted) (count : Nat) :
    (∃ derived, taken count e = submitted.take count ++ derived ∧
      ∀ s ∈ derived, s.fromInput = false) ∧
    (processWaiting count e).input.Serves capacity (submitted.drop count) := by
  -- What is in the queue are inputs and then derived sentences, and processing one adds derived
  -- sentences only.
  induction count generalizing e submitted with
  | zero => exact ⟨⟨[], by simp [taken], by simp⟩, h⟩
  | succ count ih =>
    cases submitted with
    | nil =>
      cases hq : e.input.take? with
      | none =>
        simp only [taken, processWaiting, hq]
        exact ⟨⟨[], by simp, by simp⟩, h⟩
      | some x =>
        obtain ⟨s, input⟩ := x
        obtain ⟨hs, hinput⟩ := h.take_nil hq
        obtain ⟨⟨derived, htaken, hderived⟩, hserves⟩ :=
          ih ((pursues_process { e with input } s).serves hinput)
        simp only [taken, processWaiting, hq]
        refine ⟨⟨s :: derived, by simp [htaken], ?_⟩, by simpa using hserves⟩
        simpa [hs] using hderived
    | cons s submitted =>
      obtain ⟨input, hq, hinput⟩ := h.take_cons
      obtain ⟨⟨derived, htaken, hderived⟩, hserves⟩ :=
        ih ((pursues_process { e with input } s).serves hinput)
      simp only [taken, processWaiting, hq]
      exact ⟨⟨derived, by simp [htaken], hderived⟩, hserves⟩

theorem serves_considerSome (h : e.input.Serves capacity submitted) (count : Nat) :
    (considerSome count e).input.Serves capacity submitted := by
  induction count generalizing e with
  | zero => exact h
  | succ count ih => exact ih (e.pursues_consider.serves h)

theorem serves_executeDue (h : e.input.Serves capacity submitted) :
    e.executeDue.input.Serves capacity submitted := by
  obtain ⟨derived, hmodest, hconduct⟩ := e.conduct_executeDue
  have hinput : e.executeDue.input = _ := congrArg Conduct.input hconduct
  rw [hinput]
  exact Conduct.serves_await (by exact h) hmodest

/-- After a cycle, nothing is left of what was put in before. -/
theorem serves_step (h : e.input.Serves capacity submitted) :
    e.step.input.Serves capacity [] := by
  have hbegun : ({ e with cycle := e.cycle + 1 } : Engine σ).input.Serves capacity submitted := h
  have hprocessed := (serves_processWaiting hbegun e.input.size).2
  rw [List.drop_of_length_le h.length_le] at hprocessed
  exact serves_executeDue (serves_considerSome hprocessed _)

theorem input_restoreEntry (e : Engine σ) (x : Term × SnapshotEntry) :
    (e.restoreEntry x).input = e.input := by
  unfold restoreEntry
  dsimp only
  split <;> rfl

theorem input_restore {kept : Snapshot} {count : Nat} (h : e.restore kept = .ok (count, e')) :
    e'.input = e.input := by
  have all : ∀ (entries : List (Term × SnapshotEntry)) (e : Engine σ),
      (entries.foldl restoreEntry e).input = e.input := by
    intro entries
    induction entries with
    | nil => exact fun _ => rfl
    | cons x entries ih => exact fun e => (ih _).trans (e.input_restoreEntry x)
  obtain ⟨entries, _, _, _, rfl⟩ := restore_eq_ok_iff.1 h
  exact all entries _

end Steps

/-! ## Reachable engines -/

section Reached

variable {σ : Type} [DrawSource σ]

/-- Whether an engine with some settings can come into a state, after some sentences were put in
since the last cycle. -/
inductive Reached (settings : Settings) : Engine σ → (submitted : List Sentence) → Prop where
  /-- A new engine. -/
  | start (draws : σ) : Reached settings (.start settings draws) []
  /-- A text is put in. -/
  | submit {e : Engine σ} {submitted : List Sentence} {text : String} {s : Sentence}
      {ids : IdSupply} (reached : Reached settings e submitted)
      (parsed : Sentence.parse text e.ids e.cycle = .ok (s, ids)) :
      Reached settings (e.perform (.submit text)) (submitted ++ [{ s with fromInput := true }])
  /-- A cycle is run. -/
  | step {e : Engine σ} {submitted : List Sentence} (reached : Reached settings e submitted) :
      Reached settings e.step []
  /-- The outputs are taken out. -/
  | drain {e : Engine σ} {submitted : List Sentence} (reached : Reached settings e submitted) :
      Reached settings e.drain.2 submitted
  /-- A snapshot is restored. -/
  | restore {e e' : Engine σ} {submitted : List Sentence} {kept : Snapshot} {count : Nat}
      (reached : Reached settings e submitted) (restored : e.restore kept = .ok (count, e')) :
      Reached settings e' submitted

variable {settings : Settings} {e : Engine σ} {submitted : List Sentence}

/-- The queue serves what was put in since the last cycle, as far as there is room for it. -/
theorem Reached.serves (h : Reached settings e submitted) :
    e.input.Serves (max settings.inputCapacity 1)
      (submitted.take (max settings.inputCapacity 1)) := by
  induction h with
  | start draws =>
    rw [List.take_nil]
    exact PriorityQueue.Serves.empty settings.inputCapacity
  | @submit e submitted text s ids _ parsed ih =>
    have hsubmit : e.submit text = .ok (s.id,
        { e with ids }.enqueue { s with fromInput := true } inputPriority) :=
      submit_eq_ok.2 ⟨s, ids, parsed, rfl, rfl⟩
    have hput := ih.put_input (s := { s with fromInput := true }) rfl
    simp only [perform, hsubmit, enqueue]
    rw [List.take_append, List.take_take, Nat.min_self, List.length_take] at hput
    rw [List.take_append]
    convert hput using 3
    omega
  | step _ ih =>
    rw [List.take_nil]
    exact serves_step ih
  | drain _ ih => exact ih
  | restore _ restored ih =>
    rw [input_restore restored]
    exact ih

/-- **Main theorem.** In every state that can be reached, a cycle takes what was put in since the
last one, in this order and before anything that was derived. However many sentences have been
processed, the others that were put in are still first in the queue; in the end, only derived ones
are left. -/
theorem taken_first (h : Reached settings e submitted) :
    let waiting := submitted.take (max settings.inputCapacity 1)
    let begun := { e with cycle := e.cycle + 1 }
    e.input.toList.filter (·.fromInput) = waiting ∧
    (∃ derived, taken e.input.size begun = waiting ++ derived ∧
      ∀ s ∈ derived, s.fromInput = false) ∧
    (∀ count, ∃ derived,
      (processWaiting count begun).input.toList = waiting.drop count ++ derived ∧
        ∀ s ∈ derived, s.fromInput = false) ∧
    ∀ s ∈ e.step.input.toList, s.fromInput = false := by
  intro waiting begun
  have hserves := h.serves
  have hbegun : begun.input.Serves (max settings.inputCapacity 1) waiting := hserves
  refine ⟨hserves.filter_eq, ?_, fun count => ?_, ?_⟩
  · obtain ⟨hderived, _⟩ := serves_processWaiting hbegun e.input.size
    rwa [List.take_of_length_le hserves.length_le] at hderived
  · exact (serves_processWaiting hbegun count).2.exists_derived
  · obtain ⟨derived, hlist, hderived⟩ := (serves_step hserves).exists_derived
    rw [hlist]
    exact hderived

/-- Of three sentences, two find room in this queue and are taken. -/
theorem taken_first_full : ∃ (e : Engine Keystream) (s t u : Sentence),
    Reached { inputCapacity := 2 } e [s, t, u] ∧
    ∃ derived, taken e.input.size { e with cycle := e.cycle + 1 } = [s, t] ++ derived ∧
      ∀ r ∈ derived, r.fromInput = false := by
  have put : ∀ {e : Engine Keystream} {submitted : List Sentence},
      Reached { inputCapacity := 2 } e submitted → ∀ text,
      (Sentence.parse text e.ids e.cycle).isOk = true →
      ∃ s, Reached { inputCapacity := 2 } (e.perform (.submit text)) (submitted ++ [s]) := by
    intro e submitted h text hok
    cases hs : Sentence.parse text e.ids e.cycle with
    | error _ => exact absurd hok (by simp [hs, Except.isOk, Except.toBool])
    | ok x => exact ⟨_, h.submit hs⟩
  obtain ⟨s, h₁⟩ := put (.start (Keystream.ofSeed 7)) "(a --> b)." (by decide +kernel)
  obtain ⟨t, h₂⟩ := put h₁ "(b --> c)." (by decide +kernel)
  obtain ⟨u, h₃⟩ := put h₂ "(c --> d)." (by decide +kernel)
  exact ⟨_, s, t, u, h₃, (taken_first h₃).2.1⟩

end Reached

end Engine

end NonAxiomatic
