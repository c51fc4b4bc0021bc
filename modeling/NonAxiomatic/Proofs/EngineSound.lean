import NonAxiomatic.Proofs.Evidence
import NonAxiomatic.Proofs.MemorySound
import NonAxiomatic.Proofs.Run
import NonAxiomatic.Proofs.Schema
import NonAxiomatic.Proofs.Spelling

/-!
# Sound engines

What is true of an engine at all times (`Engine.Sound`): its memory is sound, what waits and what is
remembered does not exceed its capacity, only events are remembered as events, and there are
operations pending exactly when there is a current goal.

Beside this, all sentences in it have one and the same trait. A trait (`Trait`) is a property of
sentences that everything put in has, and that a conclusion inherits from its premises. So each
invariant of the sentences of an engine follows from `Engine.sound_after` for its own trait, and
only the inheritance has to be proved.
-/

namespace NonAxiomatic

/-! ## Traits -/

/-- A property of sentences that passes from premises to conclusions. It may depend on the
identities that have been given out. -/
structure Trait where
  has : IdSupply → Sentence → Prop
  /-- What is to hold of a term that waits to be carried out. -/
  ofOperation : Term → Prop
  /-- The trait is not lost when more identities are given out. -/
  later {ids ids' : IdSupply} {s : Sentence} : has ids s → ids.IsBefore ids' → has ids' s
  /-- What is put in has the trait. -/
  read {ids ids' : IdSupply} {text : String} {cycle : Cycle} {s : Sentence} :
    Sentence.parse text ids cycle = .ok (s, ids') → has ids' { s with fromInput := true }
  /-- A conclusion from two premises has the trait. -/
  concluded {ids ids' : IdSupply} {p : Standpoint} {s t : Sentence} {c : Conclusion} :
    has ids s → has ids t → ids.IsBefore ids' → p.Concludes s t c →
      has ids'.advance (c.number ids'.peek)
  /-- A conclusion from two events has the trait. -/
  succeeded {ids ids' : IdSupply} {p : Standpoint} {s t : Sentence} {c : Conclusion} :
    has ids s → has ids t → ids.IsBefore ids' → c ∈ p.inferEvents s t →
      has ids'.advance (c.number ids'.peek)
  /-- A contraposition has the trait. -/
  contraposed {ids ids' : IdSupply} {s : Sentence} {c : Conclusion} :
    has ids s → ids.IsBefore ids' → contraposeConjunction s = some c →
      has ids'.advance (c.number ids'.peek)
  /-- The operations of a goal may wait to be carried out. -/
  pending {ids : IdSupply} {s : Sentence} {o : PendingOperation} :
    has ids s → s.punctuation = .goal → s.statement.isOperation = true →
      o ∈ PendingOperation.ofGoal s.statement → ofOperation o.operation
  /-- What is seen of an operation that is carried out has the trait. -/
  executed {ids : IdSupply} {t : Term} {cycle : Cycle} : ofOperation t →
    has ids.advance
      { Sentence.fresh t (.judgment .default) ids.peek (some cycle) with fromInput := true }

/-- The trait that every sentence has. -/
def Trait.any : Trait where
  has _ _ := True
  ofOperation _ := True
  later _ _ := trivial
  read _ := trivial
  concluded _ _ _ _ := trivial
  succeeded _ _ _ _ := trivial
  contraposed _ _ _ := trivial
  pending _ _ _ _ := trivial
  executed _ := trivial

/-! ## Pending operations -/

namespace PendingOperation

theorem operation_spaced {delay : UInt32} {ts : List Term} {gaps : List UInt32}
    {o : PendingOperation} (h : o ∈ spaced delay ts gaps) : o.operation ∈ ts := by
  induction ts generalizing delay gaps with
  | nil => exact absurd h (by simp [spaced])
  | cons t ts ih =>
    rcases List.mem_cons.1 h with rfl | h
    · simp
    · exact List.mem_cons_of_mem _ (ih h)

/-- An operation of a goal is what the goal is about or one of its operands. -/
theorem operation_ofGoal {t : Term} {o : PendingOperation} (h : o ∈ ofGoal t) :
    o.operation = t ∨ ∃ connector operands intervals,
      t = .compound connector operands intervals ∧ o.operation ∈ operands := by
  unfold ofGoal at h
  split at h
  · rename_i connector operands intervals
    split at h
    · exact .inr ⟨connector, operands, intervals, rfl, operation_spaced h⟩
    · obtain rfl := List.mem_singleton.1 h
      exact .inl rfl
  · obtain rfl := List.mem_singleton.1 h
    exact .inl rfl

theorem ofGoal_ne_nil {t : Term} (h : t.isOperation = true) : ofGoal t ≠ [] := by
  unfold ofGoal
  split
  · rename_i connector operands intervals
    split
    · cases operands with
      | nil => exact absurd h (by simp [Term.isOperation])
      | cons t ts => simp [spaced]
    · simp
  · simp

end PendingOperation

/-! ## Waiting sentences -/

namespace PriorityQueue

variable {α : Type}

theorem mem_put {q : PriorityQueue α} {value x : α} {priority : Double}
    (h : x ∈ (q.put value priority).2.toList) : x ∈ q.toList ∨ x = value := by
  have hmem : ∀ e, e ∈ (q.put value priority).2.entries →
      e ∈ insertByRank (rank priority, value) q.entries := by
    intro e he
    simp only [put] at he
    split at he
    · exact (List.dropLast_subset _) he
    · exact he
  obtain ⟨e, he, rfl⟩ := List.mem_map.1 h
  rcases List.mem_cons.1 ((insertByRank_perm _ _).mem_iff.1 (hmem e he)) with rfl | he
  · exact .inr rfl
  · exact .inl (List.mem_map.2 ⟨e, he, rfl⟩)

theorem capacity_put (q : PriorityQueue α) (value : α) (priority : Double) :
    (q.put value priority).2.capacity = q.capacity := by
  simp only [put]
  split <;> rfl

theorem take?_eq_some {q q' : PriorityQueue α} {x : α} (h : q.take? = some (x, q')) :
    q.toList = x :: q'.toList ∧ q'.capacity = q.capacity := by
  unfold take? at h
  split at h
  · exact absurd h (by simp)
  · rename_i e entries he
    simp only [Option.some.injEq, Prod.mk.injEq] at h
    obtain ⟨rfl, rfl⟩ := h
    exact ⟨by simp [toList, he], rfl⟩

end PriorityQueue

/-- A queue of a given capacity with only such values as may wait in it. -/
structure PriorityQueue.Holds {α : Type} (q : PriorityQueue α) (capacity : Nat) (may : α → Prop) :
    Prop where
  capacity_eq : q.capacity = capacity
  size_le : q.size ≤ capacity
  all : ∀ x ∈ q.toList, may x

namespace PriorityQueue.Holds

variable {α : Type} {q q' : PriorityQueue α} {capacity : Nat} {may may' : α → Prop} {x : α}

theorem mono (h : q.Holds capacity may) (hm : ∀ x, may x → may' x) : q.Holds capacity may' :=
  ⟨h.capacity_eq, h.size_le, fun x hx => hm x (h.all x hx)⟩

theorem put (h : q.Holds capacity may) (hx : may x) (priority : Double) :
    (q.put x priority).2.Holds capacity may := by
  refine ⟨by rw [capacity_put, h.capacity_eq], ?_, ?_⟩
  · have := q.length_put_le x priority (by rw [h.capacity_eq]; exact h.size_le)
    rwa [h.capacity_eq] at this
  · intro y hy
    rcases mem_put hy with hy | rfl
    · exact h.all y hy
    · exact hx

theorem take? (h : q.Holds capacity may) (ht : q.take? = some (x, q')) :
    may x ∧ q'.Holds capacity may := by
  obtain ⟨hlist, hcap⟩ := take?_eq_some ht
  have hlen := congrArg List.length hlist
  simp only [toList, List.length_map, List.length_cons] at hlen
  refine ⟨h.all x (by rw [hlist]; simp), by rw [hcap, h.capacity_eq], ?_, fun y hy =>
    h.all y (by rw [hlist]; simp [hy])⟩
  have := h.size_le
  simp only [size] at this ⊢
  omega

end PriorityQueue.Holds

namespace EventWindow

variable {w : EventWindow} {s x : Sentence}

theorem capacity_push (w : EventWindow) (s : Sentence) : (w.push s).2.capacity = w.capacity := by
  simp only [push]
  split
  · rfl
  · split <;> rfl

theorem mem_push (h : x ∈ (w.push s).2.events) : x ∈ w.events ∨ x = s ∧ s.isEvent = true := by
  simp only [push] at h
  split at h
  · exact .inl h
  · rename_i he
    have hmem : x ∈ w.events ++ [s] := by
      split at h
      · exact List.mem_of_mem_tail h
      · exact h
    rcases List.mem_append.1 hmem with hx | hx
    · exact .inl hx
    · exact .inr ⟨List.mem_singleton.1 hx, by simpa using he⟩

end EventWindow

/-- A window of a given capacity with only such events as may be in it. -/
structure EventWindow.Holds (w : EventWindow) (capacity : Nat) (may : Sentence → Prop) : Prop where
  capacity_eq : w.capacity = capacity
  length_le : w.events.length ≤ capacity
  all : ∀ s ∈ w.events, s.isEvent = true ∧ may s

namespace EventWindow.Holds

variable {w : EventWindow} {capacity : Nat} {may may' : Sentence → Prop} {s : Sentence}

theorem mono (h : w.Holds capacity may) (hm : ∀ s, may s → may' s) : w.Holds capacity may' :=
  ⟨h.capacity_eq, h.length_le, fun s hs => ⟨(h.all s hs).1, hm s (h.all s hs).2⟩⟩

theorem push (h : w.Holds capacity may) (hs : may s) : (w.push s).2.Holds capacity may := by
  have hlen := w.length_push_le s (by rw [h.capacity_eq]; exact h.length_le)
  rw [h.capacity_eq] at hlen
  refine ⟨by rw [capacity_push, h.capacity_eq], hlen, ?_⟩
  intro x hx
  rcases mem_push hx with hx | ⟨rfl, he⟩
  · exact h.all x hx
  · exact ⟨he, hs⟩

end EventWindow.Holds

/-! ## The invariant -/

namespace Engine

variable {σ : Type}

/-- All parts of an engine are in good order, and all sentences in it have a trait. -/
structure Sound (settings : Settings) (T : Trait) (e : Engine σ) : Prop where
  settings_eq : e.settings = settings
  memory : e.memory.Sound settings (T.has e.ids)
  input : e.input.Holds (max settings.inputCapacity 1) (T.has e.ids)
  events : e.events.Holds (max settings.eventCapacity 1) (T.has e.ids)
  goal : ∀ s, e.currentGoal = some s → T.has e.ids s
  operations : ∀ o ∈ e.operations,
    T.ofOperation o.operation ∧ o.operation.mentionsVariable = false
  /-- Operations are pending for a goal. -/
  pending : e.operations = [] ↔ e.currentGoal = none

variable {settings : Settings} {T : Trait} {e e' : Engine σ} {s t : Sentence}

/-- Whether an engine comes from another one by giving out identities and by drawing. -/
def DiffersByChance (e e' : Engine σ) : Prop :=
  e.ids.IsBefore e'.ids ∧ e' = { e with ids := e'.ids, draws := e'.draws }

namespace DiffersByChance

theorem refl (e : Engine σ) : e.DiffersByChance e := ⟨e.ids.isBefore_refl, rfl⟩

theorem trans {e'' : Engine σ} (h : e.DiffersByChance e') (h' : e'.DiffersByChance e'') :
    e.DiffersByChance e'' := by
  refine ⟨h.1.trans h'.1, ?_⟩
  rw [h'.2, h.2]

theorem ofIds {ids : IdSupply} (h : e.ids.IsBefore ids) :
    e.DiffersByChance { e with ids } := ⟨h, rfl⟩

theorem ofDraws (e : Engine σ) (draws : σ) : e.DiffersByChance { e with draws } :=
  ⟨e.ids.isBefore_refl, rfl⟩

end DiffersByChance

theorem Sound.of_differsByChance (h : e.Sound settings T) (hd : e.DiffersByChance e') :
    e'.Sound settings T := by
  obtain ⟨hids, he⟩ := hd
  have later : ∀ s, T.has e.ids s → T.has e'.ids s := fun s hs => T.later hs hids
  rw [he]
  exact ⟨h.settings_eq, h.memory.mono later, h.input.mono later, h.events.mono later,
    fun s hs => later s (h.goal s hs), h.operations, h.pending⟩

theorem sound_start (settings : Settings) (T : Trait) (draws : σ) :
    (start settings draws).Sound settings T :=
  ⟨rfl, .empty settings _, ⟨rfl, Nat.zero_le _, fun s hs => absurd hs (by
      simp [start, PriorityQueue.empty, PriorityQueue.toList])⟩,
    ⟨rfl, Nat.zero_le _, fun s hs => absurd hs (by simp [start, EventWindow.empty])⟩,
    fun s hs => absurd hs (by simp [start]), fun o ho => absurd ho (by simp [start]),
    by simp [start]⟩

/-! ## Waiting -/

theorem Sound.enqueue (h : e.Sound settings T) (hs : T.has e.ids s) (priority : Double) :
    (e.enqueue s priority).Sound settings T :=
  ⟨h.settings_eq, h.memory, h.input.put hs priority, h.events, h.goal, h.operations, h.pending⟩

theorem Sound.enqueueDerived {derived : List Sentence} (h : e.Sound settings T)
    (hd : ∀ s ∈ derived, T.has e.ids s) : (e.enqueueDerived derived).Sound settings T := by
  unfold Engine.enqueueDerived
  induction derived generalizing e with
  | nil => exact h
  | cons s derived ih =>
    exact ih (h.enqueue (hd s (by simp)) _) fun t ht => hd t (by simp [ht])

theorem Sound.submit {text : String} {id : SentenceId} (h : e.Sound settings T)
    (hs : e.submit text = .ok (id, e')) : e'.Sound settings T := by
  obtain ⟨s, ids, hparse, _, rfl⟩ := submit_eq_ok.1 hs
  have hbefore : e.ids.IsBefore ids := by
    obtain ⟨_, _, _, _, rfl, _⟩ := Sentence.parse_eq_ok.1 hparse
    exact e.ids.isBefore_advance
  exact (h.of_differsByChance (.ofIds hbefore)).enqueue (T.read hparse) _

/-! ## Deriving -/

/-- Sentences that were derived, with what has become of the engine: nothing but identities and
draws were used, and the sentences have the trait. -/
structure Derived (T : Trait) (e : Engine σ) (x : List Sentence × Engine σ) : Prop where
  chance : e.DiffersByChance x.2
  has : ∀ s ∈ x.1, T.has x.2.ids s

namespace Derived

theorem nil (T : Trait) (e : Engine σ) : Derived T e ([], e) :=
  ⟨.refl e, fun s hs => absurd hs (by simp)⟩

theorem after {x : List Sentence × Engine σ} (hd : e.DiffersByChance e') (h : Derived T e' x) :
    Derived T e x := ⟨hd.trans h.chance, h.has⟩

theorem append {x y : List Sentence × Engine σ} (hx : Derived T e x) (hy : Derived T x.2 y) :
    Derived T e (x.1 ++ y.1, y.2) := by
  refine ⟨hx.chance.trans hy.chance, ?_⟩
  intro s hs
  rcases List.mem_append.1 hs with hs | hs
  · exact T.later (hx.has s hs) hy.chance.1
  · exact hy.has s hs

end Derived

theorem derived_collect {ids : IdSupply} {cs : List Conclusion}
    (h : ∀ c ∈ cs, ∀ ids', ids.IsBefore ids' → T.has ids'.advance (c.number ids'.peek)) :
    ∀ s ∈ (Conclusion.collect ids cs).1, T.has (Conclusion.collect ids cs).2 s := by
  intro s hs
  obtain ⟨c, hc, ids', hb, hb', rfl⟩ := mem_collect hs
  exact T.later (h c hc ids' hb) hb'

theorem derived_derive (hs : T.has e.ids s) (ht : T.has e.ids t) :
    Derived T e (e.derive s t) := by
  unfold Engine.derive
  cases hd : e.standpoint.derive e.ids s t with
  | error refusal => exact .nil T e
  | ok x =>
    obtain ⟨cs, hcs, hcol⟩ := derive_eq_ok.1 (hd : _ = Except.ok (x.1, x.2))
    have hx : x = Conclusion.collect e.ids cs := hcol.symm
    subst hx
    refine ⟨.ofIds (isBefore_numberAll e.ids cs), derived_collect ?_⟩
    intro c hc ids' hb
    rcases Standpoint.infer_concludes hcs hc with h | h
    · exact T.concluded hs ht hb h
    · exact T.concluded ht hs hb h

theorem derived_deriveEach {others : List Sentence} (hs : T.has e.ids s)
    (ho : ∀ t ∈ others, T.has e.ids t) : Derived T e (e.deriveEach s others) := by
  induction others generalizing e with
  | nil => exact .nil T e
  | cons t ts ih =>
    have hd := derived_derive hs (ho t (by simp))
    exact hd.append (ih (T.later hs hd.chance.1) fun u hu =>
      T.later (ho u (by simp [hu])) hd.chance.1)

section Counterpart

variable [DrawSource σ]

theorem counterpart_cases (e : Engine σ) (s : Sentence) :
    e.DiffersByChance (e.counterpart s).2 ∧
      ∀ c, (e.counterpart s).1 = some c → e.memory.Contains c := by
  refine ⟨.ofDraws e _, ?_⟩
  intro c hc
  simp only [counterpart] at hc
  split at hc
  · exact absurd hc (by simp)
  · split at hc
    · exact Memory.contains_of_follow hc
    · split at hc
      · exact absurd hc (by simp)
      · split at hc
        · split at hc
          · rename_i hf
            exact Memory.contains_of_follow ((congrArg Prod.fst hf).trans hc)
          · exact Memory.contains_of_follow hc
        · exact Memory.contains_of_related hc

/-- What a sentence is held against has the trait, and so has what is derived from it. -/
theorem derived_deriveSemantically (h : e.Sound settings T) (hs : T.has e.ids s) :
    Derived T e (e.deriveSemantically s) := by
  obtain ⟨hd, hc⟩ := e.counterpart_cases s
  unfold deriveSemantically
  split
  · rename_i e₁ hx
    rw [hx] at hd
    exact (Derived.nil T e₁).after hd
  · rename_i c e₁ hx
    rw [hx] at hd hc
    have hsound := h.memory.of_contains (hc c rfl)
    have hd' : e.DiffersByChance { e₁ with draws := (c.desires.draw e₁.draws).2 } :=
      hd.trans (.ofDraws e₁ _)
    refine (derived_deriveEach (T.later hs hd'.1) ?_).after hd'
    intro t ht
    rcases List.mem_append.1 ht with ht | ht
    · exact T.later (hsound.beliefs.best? (Option.mem_toList.1 ht)).good hd'.1
    · exact T.later (hsound.desires.draw (Option.mem_toList.1 ht)).good hd'.1

theorem Sound.conceptualize (h : e.Sound settings T) (t : Term) :
    (e.conceptualize t).Sound settings T := by
  have hm : (Memory.conceptualize e.settings t (e.memory, e.draws)).1.Sound settings
      (T.has e.ids) := by
    rw [h.settings_eq]
    exact Memory.Sound.conceptualize t h.memory
  exact ⟨h.settings_eq, hm, h.input, h.events, h.goal, h.operations, h.pending⟩

end Counterpart

/-! ## Judgments and questions -/

theorem Sound.withMemory (h : e.Sound settings T) {memory : Memory}
    (hm : memory.Sound settings (T.has e.ids)) : { e with memory }.Sound settings T :=
  ⟨h.settings_eq, hm, h.input, h.events, h.goal, h.operations, h.pending⟩

theorem derived_pairEvent {p : Standpoint} {ids : IdSupply} {others : List Sentence}
    (hs : T.has ids s) (ho : ∀ t ∈ others, T.has ids t) :
    ids.IsBefore (pairEvent p ids s others).2 ∧
      ∀ r ∈ (pairEvent p ids s others).1, T.has (pairEvent p ids s others).2 r := by
  induction others generalizing ids with
  | nil => exact ⟨ids.isBefore_refl, fun r hr => absurd hr (by simp [pairEvent])⟩
  | cons t ts ih =>
    have hb : ids.IsBefore (p.deriveEvents ids t s).2 := isBefore_numberAll _ _
    have hd : ∀ r ∈ (p.deriveEvents ids t s).1, T.has (p.deriveEvents ids t s).2 r :=
      derived_collect fun c hc ids' hb' => T.succeeded (ho t (by simp)) hs hb' hc
    obtain ⟨hb', hd'⟩ := ih (T.later hs hb) fun u hu => T.later (ho u (by simp [hu])) hb
    refine ⟨hb.trans hb', ?_⟩
    intro r hr
    rcases List.mem_append.1 hr with hr | hr
    · exact T.later (hd r hr) hb'
    · exact hd' r hr

/-- An engine that came from another one by deriving sentences, which have the trait. -/
structure Yields (settings : Settings) (T : Trait) (e : Engine σ) (x : List Sentence × Engine σ) :
    Prop where
  sound : x.2.Sound settings T
  before : e.ids.IsBefore x.2.ids
  has : ∀ s ∈ x.1, T.has x.2.ids s

theorem Derived.yields {x : List Sentence × Engine σ} (h : Derived T e x)
    (hs : e.Sound settings T) : Yields settings T e x :=
  ⟨hs.of_differsByChance h.chance, h.chance.1, h.has⟩

theorem yields_observe (h : e.Sound settings T) (hs : T.has e.ids s) :
    Yields settings T e (e.observe s) := by
  obtain ⟨derived, ids, hpair, hbefore, hhas⟩ : ∃ derived ids,
      (if e.settings.temporalChaining then pairEvent e.standpoint e.ids s e.events.events
        else ([], e.ids)) = (derived, ids) ∧ e.ids.IsBefore ids ∧ ∀ r ∈ derived, T.has ids r := by
    split
    · obtain ⟨hb, hd⟩ := derived_pairEvent (p := e.standpoint) hs fun t ht =>
        (h.events.all t ht).2
      exact ⟨_, _, rfl, hb, hd⟩
    · exact ⟨_, _, rfl, e.ids.isBefore_refl, fun r hr => absurd hr (by simp)⟩
  have later : ∀ s, T.has e.ids s → T.has ids s := fun s hs => T.later hs hbefore
  simp only [observe, hpair]
  refine ⟨⟨h.settings_eq, h.memory.mono later, h.input.mono later, ?_,
    fun s hs => later s (h.goal s hs), h.operations, h.pending⟩, hbefore, hhas⟩
  exact (h.events.mono later).push (later s hs)

/-- A revision fits where the revised sentences fit. -/
theorem fits_revise {good good' : Sentence → Prop} {kind : Punctuation} {p : Standpoint}
    {term : Term} {c : Conclusion} {id : SentenceId} (hs : s.Fits good kind term)
    (ht : t.Fits good kind term) (hc : revise p s t = some c) (hgood : good' (c.number id)) :
    (c.number id).Fits good' kind term := by
  have htext := Standpoint.text_revise hc
  refine ⟨?_, ?_, ?_, hgood⟩
  · exact (Standpoint.punctuation_revise hc
      (hs.punctuation_eq.trans ht.punctuation_eq.symm)).trans hs.punctuation_eq
  · exact Term.beq_iff_text_eq.2 (htext.trans (Term.beq_iff_text_eq.1 hs.about))
  · show c.statement.mentionsVariable = false
    unfold Term.mentionsVariable
    rw [htext]
    exact hs.plain

/-- A sentence that fits a table of a concept is put there, or a revision of it is. -/
theorem fits_put {kind : Punctuation} {table : Table} {capacity : Nat}
    {p : Standpoint} {ids : IdSupply} {term : Term}
    (h : table.Holds capacity (Sentence.Fits (T.has ids) kind term))
    (hs : s.Fits (T.has ids) kind term) :
    ids.IsBefore (table.put p s ids).2.2 ∧
      (table.put p s ids).2.1.Holds capacity
        (Sentence.Fits (T.has (table.put p s ids).2.2) kind term) := by
  rcases table.put_cases p s ids with hput | ⟨partner, hmem, i, revision, _, hr, hput⟩
  · rw [hput]
    exact ⟨ids.isBefore_refl, h.insert hs⟩
  · rw [hput]
    have hp := h.all partner hmem
    refine ⟨ids.isBefore_advance, ((h.mono ?_).eraseIdx i).insert (fits_revise hs hp hr ?_)⟩
    · intro x hx
      exact ⟨hx.punctuation_eq, hx.about, hx.plain, T.later hx.good ids.isBefore_advance⟩
    · exact T.concluded hs.good hp.good ids.isBefore_refl (Standpoint.concludes_of_revise hr)

theorem fits_of_concept? {good : Sentence → Prop} {c : Concept} {kind : Punctuation}
    (hterm : c.term.text = s.statement.text) (hkind : s.punctuation = kind)
    (hplain : s.statement.mentionsVariable = false) (hgood : good s) :
    s.Fits good kind c.term :=
  ⟨hkind, Term.beq_iff_text_eq.2 hterm.symm, hplain, hgood⟩

theorem Sound.believe (h : e.Sound settings T) (hs : T.has e.ids s)
    (hkind : s.punctuation = .judgment) (hplain : s.statement.mentionsVariable = false) :
    (e.believe s).Sound settings T ∧ e.ids.IsBefore (e.believe s).ids := by
  unfold Engine.believe
  cases hc : e.memory.concept? s.statement with
  | none => exact ⟨h, e.ids.isBefore_refl⟩
  | some c =>
    obtain ⟨hsound, hterm⟩ := h.memory.concept? hc
    obtain ⟨hb, hput⟩ := fits_put (p := e.standpoint) hsound.beliefs
      (fits_of_concept? hterm hkind hplain hs)
    have later : ∀ s, T.has e.ids s → T.has _ s := fun s hs => T.later hs hb
    refine ⟨⟨h.settings_eq, (h.memory.mono later).modify fun c' hc' => ?_, h.input.mono later,
      h.events.mono later, fun s hs => later s (h.goal s hs), h.operations, h.pending⟩, hb⟩
    obtain rfl := Option.some.inj (hc.symm.trans hc')
    have hsound' := hsound.mono later
    exact ⟨hterm, hput, hsound'.desires, hsound'.links⟩

theorem Sound.want (h : e.Sound settings T) (hs : T.has e.ids s) (hkind : s.punctuation = .goal)
    (hplain : s.statement.mentionsVariable = false) :
    (e.want s).Sound settings T ∧ e.ids.IsBefore (e.want s).ids := by
  unfold Engine.want
  cases hc : e.memory.concept? s.statement with
  | none => exact ⟨h, e.ids.isBefore_refl⟩
  | some c =>
    obtain ⟨hsound, hterm⟩ := h.memory.concept? hc
    obtain ⟨hb, hput⟩ := fits_put (p := e.standpoint) hsound.desires
      (fits_of_concept? hterm hkind hplain hs)
    have later : ∀ s, T.has e.ids s → T.has _ s := fun s hs => T.later hs hb
    refine ⟨⟨h.settings_eq, (h.memory.mono later).modify fun c' hc' => ?_, h.input.mono later,
      h.events.mono later, fun s hs => later s (h.goal s hs), h.operations, h.pending⟩, hb⟩
    obtain rfl := Option.some.inj (hc.symm.trans hc')
    have hsound' := hsound.mono later
    exact ⟨hterm, hsound'.beliefs, hput, hsound'.links⟩

theorem Sound.emit (h : e.Sound settings T) (output : Output) :
    (e.emit output).Sound settings T :=
  ⟨h.settings_eq, h.memory, h.input, h.events, h.goal, h.operations, h.pending⟩

theorem Sound.bestBelief? (h : e.Sound settings T) {t : Term} (hs : e.bestBelief? t = some s) :
    T.has e.ids s := by
  simp only [Engine.bestBelief?, Option.bind_eq_bind, Option.bind_eq_some_iff] at hs
  obtain ⟨c, hc, hbest⟩ := hs
  exact ((h.memory.concept? hc).1.beliefs.best? hbest).good

theorem derived_contraposed {ids : IdSupply} (hs : T.has ids s) (input : Bool) :
    ∃ derived ids', (if input then Conclusion.numberAll ids (contraposeConjunction s).toList
      else ([], ids)) = (derived, ids') ∧ ids.IsBefore ids' ∧ ∀ r ∈ derived, T.has ids' r := by
  cases input with
  | false => exact ⟨_, _, rfl, ids.isBefore_refl, fun r hr => absurd hr (by simp)⟩
  | true =>
    refine ⟨_, _, rfl, isBefore_numberAll _ _, ?_⟩
    intro r hr
    obtain ⟨c, hc, ids', hb, hb', rfl⟩ := mem_numberAll hr
    exact T.later (T.contraposed hs hb (Option.mem_toList.1 hc)) hb'

section Processing

variable [DrawSource σ]

theorem yields_deriveSemantically (h : e.Sound settings T) (hs : T.has e.ids s) :
    Yields settings T e (e.deriveSemantically s) := (derived_deriveSemantically h hs).yields h

theorem Sound.processJudgment (h : e.Sound settings T) (hs : T.has e.ids s)
    (hkind : s.punctuation = .judgment) (hplain : s.statement.mentionsVariable = false) :
    (e.processJudgment s).Sound settings T := by
  unfold Engine.processJudgment
  -- Whether or not the event is paired with those before it, what follows is processed as known.
  obtain ⟨fromEvents, e₁, hobs, hy₁⟩ : ∃ fromEvents e₁,
      (if (s.isEvent && s.fromInput) = true then e.observe s else ([], e)) = (fromEvents, e₁) ∧
        Yields settings T e (fromEvents, e₁) := by
    split
    · exact ⟨_, _, rfl, yields_observe h hs⟩
    · exact ⟨_, _, rfl, (Derived.nil T e).yields h⟩
  have h₂ := hy₁.sound.conceptualize s.statement
  have hb₂ : e.ids.IsBefore (e₁.conceptualize s.statement).ids := hy₁.before
  have hev : ∀ r ∈ fromEvents, T.has (e₁.conceptualize s.statement).ids r := hy₁.has
  simp only [hobs]
  generalize e₁.conceptualize s.statement = e₂ at h₂ hb₂ hev ⊢
  -- A judgment whose concept did not fit into memory leaves nothing behind.
  split
  · exact h₂
  · obtain ⟨contraposed, ids, hcon, hb₃, hhas⟩ := derived_contraposed (T.later hs hb₂) s.fromInput
    simp only [hcon]
    have hm : ((e₂.memory.activate e₂.settings s.statement).strengthenQuality
        s.statement).Sound settings (T.has e₂.ids) := (h₂.memory.rebudget _ _).rebudget _ _
    have h₃ : Sound settings T { e₂ with
        memory := (e₂.memory.activate e₂.settings s.statement).strengthenQuality s.statement
        ids } := (h₂.withMemory hm).of_differsByChance (.ofIds hb₃)
    obtain ⟨h₄, hb₄⟩ := h₃.believe (T.later hs (hb₂.trans hb₃)) hkind hplain
    generalize Engine.believe _ s = e₄ at h₄ hb₄ ⊢
    -- Whatever is derived from the best belief in the end, the three lists go to the buffer
    -- together. Each was known at its own supply, and stays known at the last one.
    have done : ∀ x, Yields settings T e₄ x →
        (x.2.enqueueDerived (fromEvents ++ contraposed ++ x.1)).Sound settings T := by
      intro x hx
      apply hx.sound.enqueueDerived
      intro r hr
      rcases List.mem_append.1 hr with hr | hr
      · rcases List.mem_append.1 hr with hr | hr
        · exact T.later (hev r hr) (hb₃.trans (hb₄.trans hx.before))
        · exact T.later (hhas r hr) (hb₄.trans hx.before)
      · exact hx.has r hr
    apply done _
    split
    · exact yields_deriveSemantically h₄ (h₄.bestBelief? ‹_›)
    · exact (Derived.nil T e₄).yields h₄

theorem Sound.processQuestion (h : e.Sound settings T) (hs : T.has e.ids s) :
    (e.processQuestion s).Sound settings T := by
  unfold Engine.processQuestion
  have h₁ := h.conceptualize s.statement
  have hs₁ : T.has (e.conceptualize s.statement).ids s := hs
  generalize e.conceptualize s.statement = e₁ at h₁ hs₁ ⊢
  simp only
  split
  · exact h₁
  · have h₂ : Sound settings T { e₁ with memory := e₁.memory.strengthenQuality s.statement } :=
      h₁.withMemory (h₁.memory.rebudget _ _)
    have hs₂ : T.has (Engine.ids { e₁ with
      memory := e₁.memory.strengthenQuality s.statement }) s := hs₁
    generalize ({ e₁ with memory := e₁.memory.strengthenQuality s.statement } : Engine σ) = e₂
      at h₂ hs₂ ⊢
    -- The answer is the question itself if there is no best belief; both ways end alike.
    have done : ∀ x : Sentence × Engine σ, x.2.Sound settings T → T.has x.2.ids x.1 →
        ((x.2.deriveSemantically x.1).2.enqueueDerived
          (x.2.deriveSemantically x.1).1).Sound settings T := by
      intro x hx hsx
      have hy := yields_deriveSemantically hx hsx
      exact hy.sound.enqueueDerived hy.has
    refine done _ ?_ ?_ <;> split
    · exact h₂
    · split
      · exact h₂.emit _
      · exact h₂
    · exact hs₂
    · split
      · exact h₂.bestBelief? ‹_›
      · exact h₂.bestBelief? ‹_›

end Processing

/-! ## Goals -/

theorem Sound.withActed (h : e.Sound settings T) (acted : Acted) :
    { e with acted }.Sound settings T :=
  ⟨h.settings_eq, h.memory, h.input, h.events, h.goal, h.operations, h.pending⟩

theorem Sound.queueOperations (h : e.Sound settings T) (hs : T.has e.ids s)
    (hkind : s.punctuation = .goal) (hplain : s.statement.mentionsVariable = false)
    (hop : s.statement.isOperation = true) : (e.queueOperations s).Sound settings T := by
  -- The queue of operations and the goal behind it are replaced together.
  have replaced : Sound settings T
      { e with operations := PendingOperation.ofGoal s.statement, acted := e.acted.record s
               currentGoal := some s } := by
    refine ⟨h.settings_eq, h.memory, h.input, h.events, ?_, ?_, ?_⟩
    · intro t ht
      obtain rfl := Option.some.inj ht
      exact hs
    · intro o ho
      refine ⟨T.pending hs hkind hop ho, ?_⟩
      rcases PendingOperation.operation_ofGoal ho with ho | ⟨_, _, _, ht, ho⟩
      · rwa [ho]
      · rw [ht] at hplain
        exact Term.mentionsVariable_operand hplain ho
    · simp [PendingOperation.ofGoal_ne_nil hop]
  -- A goal takes over, unless it asks for what is pending already, or is not better than the one
  -- that does.
  unfold Engine.queueOperations
  split
  · exact replaced
  · split
    · exact h.withActed _
    · split
      · exact h
      · exact replaced

theorem Sound.act (h : e.Sound settings T) (hs : T.has e.ids s) (hkind : s.punctuation = .goal)
    (hplain : s.statement.mentionsVariable = false) : (e.act s).Sound settings T := by
  unfold Engine.act
  split
  · rename_i hop
    split
    · exact h.withActed _
    · apply h.queueOperations hs hkind hplain
      simp only [Bool.and_eq_true] at hop
      exact hop.1
  · exact h

theorem ids_queueOperations (e : Engine σ) (s : Sentence) : (e.queueOperations s).ids = e.ids := by
  unfold Engine.queueOperations
  split
  · rfl
  · split
    · rfl
    · split <;> rfl

theorem ids_act (e : Engine σ) (s : Sentence) : (e.act s).ids = e.ids := by
  unfold Engine.act
  split
  · split
    · rfl
    · exact e.ids_queueOperations s
  · rfl

theorem Sound.holding? (h : e.Sound settings T) {u : Term} (hs : e.holding? u = some s) :
    T.has e.ids s := by
  simp only [Engine.holding?, Option.filter_eq_some_iff] at hs
  exact h.bestBelief? hs.1

section Processing

variable [DrawSource σ]

theorem means_cases (h : e.Sound settings T) (u : Term) :
    e.DiffersByChance (e.means u).2 ∧ ∀ s, (e.means u).1 = some s → T.has e.ids s := by
  unfold Engine.means
  split
  · exact ⟨.refl e, fun s hs => absurd hs (by simp)⟩
  · rename_i c hc
    refine ⟨.ofDraws e _, ?_⟩
    intro s hs
    obtain ⟨found, hfound, hbest⟩ := Option.bind_eq_some_iff.1 hs
    exact ((h.memory.of_contains (Memory.contains_of_follow hfound)).beliefs.best? hbest).good

theorem yields_pursue (h : e.Sound settings T) (hs : T.has e.ids s) (hkind : s.punctuation = .goal)
    (hplain : s.statement.mentionsVariable = false) :
    Yields settings T e (e.pursue s) := by
  unfold Engine.pursue
  split
  · exact (Derived.nil T e).yields h
  · have h₁ := h.act hs hkind hplain
    have hids := e.ids_act s
    have hs₁ : T.has (e.act s).ids s := by rwa [hids]
    have hb₁ : e.ids.IsBefore (e.act s).ids := by
      rw [hids]
      exact e.ids.isBefore_refl
    generalize e.act s = e₁ at h₁ hs₁ hb₁ ⊢
    -- Acting on a goal derives nothing; what follows is a derivation from the engine that has
    -- acted.
    have done : ∀ x, Derived T e₁ x → Yields settings T e x := by
      intro x hx
      exact ⟨h₁.of_differsByChance hx.chance, hb₁.trans hx.chance.1, hx.has⟩
    simp only
    split
    · exact done _ (.nil T e₁)
    · split
      · rename_i belief hbelief
        obtain ⟨u, _, hu⟩ := Option.bind_eq_some_iff.1 hbelief
        exact done _ (derived_derive hs₁ (h₁.holding? hu))
      -- Without a conjunct that holds, an implication of the goal may be a means.
      · obtain ⟨hd, hm⟩ := means_cases h₁ s.statement
        split
        · rename_i belief e₂ hx
          rw [hx] at hd hm
          exact done _ ((derived_derive (T.later hs₁ hd.1) (T.later (hm belief rfl) hd.1)).after hd)
        · rename_i e₂ hx
          rw [hx] at hd
          exact done _ ((Derived.nil T e₂).after hd)

theorem Sound.processGoal (h : e.Sound settings T) (hs : T.has e.ids s)
    (hkind : s.punctuation = .goal) (hplain : s.statement.mentionsVariable = false) :
    (e.processGoal s).Sound settings T := by
  unfold Engine.processGoal
  have h₁ := h.conceptualize s.statement
  have hs₁ : T.has (e.conceptualize s.statement).ids s := hs
  generalize e.conceptualize s.statement = e₁ at h₁ hs₁ ⊢
  simp only
  split
  · exact h₁
  · have h₂ : Sound settings T { e₁ with
        memory := (e₁.memory.activate e₁.settings s.statement).setQuality s.statement
          goalQuality } := h₁.withMemory ((h₁.memory.rebudget _ _).rebudget _ _)
    obtain ⟨h₃, _⟩ := h₂.want hs₁ hkind hplain
    generalize Engine.want _ s = e₃ at h₃ ⊢
    split
    · exact h₃
    -- What is pursued is the best desire of the concept, which need not be the goal itself.
    · rename_i best hbest
      obtain ⟨c, hc, hb⟩ := Option.bind_eq_some_iff.1 hbest
      have hfits := (h₃.memory.concept? hc).1.desires.best? hb
      have hy := yields_pursue h₃ hfits.good hfits.punctuation_eq hfits.plain
      exact hy.sound.enqueueDerived hy.has

theorem Sound.process (h : e.Sound settings T) (hs : T.has e.ids s) :
    (e.process s).Sound settings T := by
  unfold Engine.process
  split
  · exact h
  · rename_i hplain
    have hplain : s.statement.mentionsVariable = false := by simpa using hplain
    split
    · exact h.processJudgment hs ‹_› hplain
    · exact h.processQuestion hs
    · exact h.processGoal hs ‹_› hplain

/-! ## Cycles -/

theorem Sound.processWaiting (h : e.Sound settings T) (count : Nat) :
    (Engine.processWaiting count e).Sound settings T := by
  induction count generalizing e with
  | zero => exact h
  | succ count ih =>
    unfold Engine.processWaiting
    split
    · exact h
    · rename_i s input ht
      obtain ⟨hs, hinput⟩ := h.input.take? ht
      have h₁ : Sound settings T { e with input } :=
        ⟨h.settings_eq, h.memory, hinput, h.events, h.goal, h.operations, h.pending⟩
      exact ih (h₁.process hs)

theorem contains_of_toSentential {m : Memory} {hops : Nat} {c found : Concept} {draws : σ}
    (hc : m.Contains c) (h : (toSentential m hops c draws).1 = some found) :
    m.Contains found := by
  induction hops generalizing c draws with
  | zero =>
    simp only [toSentential] at h
    split at h
    · obtain rfl := Option.some.inj h
      exact hc
    · exact absurd h (by simp)
  | succ hops ih =>
    unfold toSentential at h
    split at h
    · obtain rfl := Option.some.inj h
      exact hc
    · split at h
      · exact absurd h (by simp)
      · rename_i next draws' hf
        exact ih (Memory.contains_of_follow (congrArg Prod.fst hf)) h

theorem drawSentential_cases (e : Engine σ) :
    e.DiffersByChance e.drawSentential.2 ∧
      ∀ c, e.drawSentential.1 = some c → e.memory.Contains c := by
  unfold drawSentential
  split
  · exact ⟨.ofDraws e _, fun c hc => absurd hc (by simp)⟩
  · rename_i c draws hd
    exact ⟨.ofDraws e _, fun found hf =>
      contains_of_toSentential (Memory.contains_of_draw (congrArg Prod.fst hd)) hf⟩

theorem Sound.consider (h : e.Sound settings T) : e.consider.Sound settings T := by
  obtain ⟨hd, hc⟩ := e.drawSentential_cases
  unfold Engine.consider
  split
  · rename_i e₁ hx
    rw [hx] at hd
    exact h.of_differsByChance hd
  · rename_i c e₁ hx
    rw [hx] at hd hc
    have h₁ := h.of_differsByChance hd
    have hsound := (h.memory.of_contains (hc c rfl)).mono fun s hs => T.later hs hd.1
    -- What the concept wants is pursued after its belief has been used, by an engine that has moved
    -- on.
    have desired : ∀ x : List Sentence × Engine σ, Yields settings T e₁ x →
        Yields settings T x.2 (c.desires.best?.elim ([], x.2) x.2.pursue) := by
      intro x hx
      cases hdesire : c.desires.best? with
      | none => exact (Derived.nil T _).yields hx.sound
      | some desire =>
        have hfits := hsound.desires.best? hdesire
        exact yields_pursue hx.sound (T.later hfits.good hx.before) hfits.punctuation_eq
          hfits.plain
    have done : ∀ x y : List Sentence × Engine σ, Yields settings T e₁ x →
        Yields settings T x.2 y → (Engine.enqueueDerived { y.2 with
          memory := y.2.memory.decay c.term y.2.settings.considerDecay }
          (x.1 ++ y.1)).Sound settings T := by
      intro x y hx hy
      apply (hy.sound.withMemory (hy.sound.memory.rebudget _ _)).enqueueDerived
      intro r hr
      rcases List.mem_append.1 hr with hr | hr
      · exact T.later (hx.has r hr) hy.before
      · exact hy.has r hr
    have believed : Yields settings T e₁
        (c.beliefs.best?.elim ([], e₁) e₁.deriveSemantically) := by
      cases hbelief : c.beliefs.best? with
      | none => exact (Derived.nil T e₁).yields h₁
      | some belief => exact yields_deriveSemantically h₁ (hsound.beliefs.best? hbelief).good
    -- The program asks for both in one match; all four cases are this one.
    have result := done _ _ believed (desired _ believed)
    cases hbelief : c.beliefs.best? <;> cases hdesire : c.desires.best? <;>
      rw [hbelief, hdesire] at result <;> exact result

theorem Sound.considerSome (h : e.Sound settings T) (count : Nat) :
    (Engine.considerSome count e).Sound settings T := by
  induction count generalizing e with
  | zero => exact h
  | succ count ih => exact ih h.consider

theorem Sound.execute (h : e.Sound settings T) {operation : Term} (hop : T.ofOperation operation)
    (hplain : operation.mentionsVariable = false) (desirability : Double) :
    (e.execute desirability operation).Sound settings T := by
  have h₁ : Sound settings T { e with
      commands := e.commands.push operation
      outputs := e.outputs.push (.executed operation.text desirability e.cycle)
      ids := e.ids.advance } := by
    have h₁ := h.of_differsByChance (.ofIds e.ids.isBefore_advance)
    exact ⟨h₁.settings_eq, h₁.memory, h₁.input, h₁.events, h₁.goal, h₁.operations, h₁.pending⟩
  exact h₁.processJudgment (T.executed hop) rfl hplain

theorem Sound.executeAll (h : e.Sound settings T) {due : List Term} (desirability : Double)
    (hdue : ∀ t ∈ due, T.ofOperation t ∧ t.mentionsVariable = false) :
    (due.foldl (fun e operation => e.execute desirability operation) e).Sound settings T := by
  induction due generalizing e with
  | nil => exact h
  | cons t due ih =>
    obtain ⟨hop, hplain⟩ := hdue t (by simp)
    exact ih (h.execute hop hplain desirability) fun u hu => hdue u (by simp [hu])

theorem Sound.executeDue (h : e.Sound settings T) : e.executeDue.Sound settings T := by
  -- What is due and what is left were both pending before.
  have hdue : ∀ t ∈ PendingOperation.due e.operations,
      T.ofOperation t ∧ t.mentionsVariable = false := by
    intro t ht
    obtain ⟨o, ho, rfl⟩ := List.mem_map.1 ht
    exact h.operations o (List.mem_filter.1 ho).1
  have hleft : ∀ o ∈ PendingOperation.tick e.operations,
      T.ofOperation o.operation ∧ o.operation.mentionsVariable = false := by
    intro o ho
    obtain ⟨o', ho', rfl⟩ := List.mem_map.1 ho
    exact h.operations o' (List.mem_filter.1 ho').1
  have hgoal : ∀ s, (if (PendingOperation.tick e.operations).isEmpty then none
      else e.currentGoal) = some s → T.has e.ids s := by
    intro s hs
    split at hs
    · exact absurd hs (by simp)
    · exact h.goal s hs
  have hpending : PendingOperation.tick e.operations = [] ↔
      (if (PendingOperation.tick e.operations).isEmpty then none else e.currentGoal) = none := by
    split
    · rename_i hempty
      simpa using hempty
    · rename_i hne
      have hsome : e.currentGoal ≠ none := by
        intro hnone
        rw [h.pending.2 hnone] at hne
        exact hne rfl
      simp only [hsome, iff_false]
      simpa using hne
  have h₁ : Sound settings T { e with
      operations := PendingOperation.tick e.operations
      currentGoal := if (PendingOperation.tick e.operations).isEmpty then none
        else e.currentGoal } :=
    ⟨h.settings_eq, h.memory, h.input, h.events, hgoal, hleft, hpending⟩
  exact h₁.executeAll _ hdue

theorem Sound.step (h : e.Sound settings T) : e.step.Sound settings T := by
  have h₁ : Sound settings T { e with cycle := e.cycle + 1 } :=
    ⟨h.settings_eq, h.memory, h.input, h.events, h.goal, h.operations, h.pending⟩
  exact ((h₁.processWaiting _).considerSome _).executeDue

theorem Sound.perform (h : e.Sound settings T) (instruction : Instruction) :
    (e.perform instruction).Sound settings T := by
  cases instruction with
  | submit text =>
    unfold Engine.perform
    simp only
    split
    · exact h.submit ‹_›
    · exact h
  | step => exact h.step
  | drain => exact ⟨h.settings_eq, h.memory, h.input, h.events, h.goal, h.operations, h.pending⟩

/-- **Main theorem.** After every run an engine is sound, and every sentence in it has the trait. -/
theorem sound_after (settings : Settings) (T : Trait) (draws : σ)
    (instructions : List Instruction) : (after settings draws instructions).Sound settings T :=
  invariant_after (sound_start settings T draws) (fun _ instruction h => h.perform instruction)
    instructions

end Processing

end Engine

end NonAxiomatic
