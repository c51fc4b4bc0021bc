import Mathlib.Tactic.ByContra
import NonAxiomatic.Engine.Parts
import NonAxiomatic.Proofs.Evidence
import NonAxiomatic.Proofs.MemorySound
import NonAxiomatic.Proofs.Schema

/-!
# A goal that is put in again

What becomes of the desires for one statement, and of the record of the goals that have been acted
on, when one timeless goal is put in over and over (`Desk.turn`).

At first each goal is pooled with the desire that is there (`Desk.Pooled`). The revision rests on
the new goal, which has not been acted on, and so it is acted on in its turn. With every turn two
identities come into the base of the desire, until after 15 revisions the base is full. From there
on a revision leaves out its own identity and that of the new goal and rests on exactly what the
desire before it rested on. All of this has been acted on, and the desk is stuck (`Desk.Stuck`).

* `Desk.Pooled.turn`: pooling goes on while there is room.
* `Desk.Pooled.stuck_turn`, `Desk.Stuck.turn`: a desk whose base is full gets stuck and stays so.
-/

namespace NonAxiomatic

/-! ## What has been acted on -/

namespace Recent

variable {r : Recent} {id x : SentenceId}

theorem contains_iff : r.contains id = true ↔ id ∈ r.ids := by
  simp [contains]

theorem insert_of_mem (h : id ∈ r.ids) : r.insert id = r := by
  simp only [insert, contains_iff.2 h, if_true]

theorem mem_insert_self (r : Recent) (id : SentenceId) : id ∈ (r.insert id).ids := by
  simp only [insert]
  split
  · exact contains_iff.1 ‹_›
  · split <;> simp

theorem mem_of_mem_insert (h : x ∈ (r.insert id).ids) : x ∈ r.ids ∨ x = id := by
  simp only [insert] at h
  split at h
  · exact .inl h
  · split at h
    · rcases List.mem_append.1 h with h | h
      · exact .inl (List.mem_of_mem_tail h)
      · exact .inr (List.mem_singleton.1 h)
    · simpa using h

theorem mem_insert_of_mem (hroom : r.ids.length < capacity) (h : x ∈ r.ids) :
    x ∈ (r.insert id).ids := by
  simp only [insert]
  split
  · exact h
  · rw [if_neg (by omega)]
    exact List.mem_append_left _ h

theorem length_insert_le_succ (r : Recent) (id : SentenceId) :
    (r.insert id).ids.length ≤ r.ids.length + 1 := by
  simp only [insert]
  split
  · omega
  · split <;> simp

theorem length_insertAll_le (ids : List SentenceId) (r : Recent) :
    (ids.foldl insert r).ids.length ≤ r.ids.length + ids.length := by
  induction ids generalizing r with
  | nil => exact Nat.le_refl _
  | cons id ids ih =>
    have := ih (r.insert id)
    have := r.length_insert_le_succ id
    simp only [List.foldl_cons, List.length_cons]
    omega

theorem mem_of_mem_insertAll {ids : List SentenceId} (h : x ∈ (ids.foldl insert r).ids) :
    x ∈ r.ids ∨ x ∈ ids := by
  induction ids generalizing r with
  | nil => exact .inl h
  | cons id ids ih =>
    rcases ih h with h | h
    · rcases mem_of_mem_insert h with h | rfl
      · exact .inl h
      · exact .inr (by simp)
    · exact .inr (by simp [h])

/-- As long as there is room for all, nothing is forgotten. -/
theorem mem_insertAll {ids : List SentenceId} (hroom : r.ids.length + ids.length < capacity)
    (h : x ∈ r.ids ∨ x ∈ ids) : x ∈ (ids.foldl insert r).ids := by
  induction ids generalizing r with
  | nil => simpa using h
  | cons id ids ih =>
    simp only [List.length_cons] at hroom
    have hlen := r.length_insert_le_succ id
    apply ih (by omega)
    rcases h with h | h
    · exact .inl (mem_insert_of_mem (by omega) h)
    · rcases List.mem_cons.1 h with rfl | h
      · exact .inl (r.mem_insert_self _)
      · exact .inr h

end Recent

namespace Acted

variable {a : Acted} {s : Sentence}

theorem settles_of_mem (h : s.id ∈ a.goals.ids) : a.settles s = true := by
  simp only [settles, Recent.contains_iff.2 h, Bool.true_or]

theorem settle_of_mem (h : s.id ∈ a.goals.ids) : a.settle s = a := by
  simp only [settle, settles_of_mem h, if_true, Recent.insert_of_mem h]

theorem settle_of_not (h : a.settles s = false) : a.settle s = a := by
  simp [settle, h]

theorem goals_settle (h : a.settles s = true) : s.id ∈ (a.settle s).goals.ids := by
  simp only [settle, h, if_true]
  exact Recent.mem_insert_self _ _

theorem evidence_settle (a : Acted) (s : Sentence) : (a.settle s).evidence = a.evidence := by
  unfold settle
  split <;> rfl

theorem restsOnActed_iff : a.restsOnActed s = true ↔
    (∃ id ∈ s.base.ids, id ≠ s.id) ∧ ∀ id ∈ s.base.ids, id ≠ s.id → id ∈ a.evidence.ids := by
  simp only [restsOnActed, Bool.and_eq_true, Bool.not_eq_true', List.isEmpty_eq_false_iff,
    List.all_eq_true, List.mem_filter, bne_iff_ne, ne_eq, and_imp, Recent.contains_iff,
    List.filter_eq_nil_iff, not_forall, Decidable.not_not, exists_prop]

/-- A sentence that rests on nothing but what was acted on is settled. -/
theorem settles_of_evidence (hne : s.base.ids ≠ [])
    (h : ∀ id ∈ s.base.ids, id ∈ a.evidence.ids ∧ id ≠ s.id) : a.settles s = true := by
  obtain ⟨id, hmem⟩ := List.exists_mem_of_ne_nil _ hne
  have hrests : a.restsOnActed s = true :=
    restsOnActed_iff.2 ⟨⟨id, hmem, (h id hmem).2⟩, fun id hmem _ => (h id hmem).1⟩
  simp only [settles, hrests, Bool.or_true, Bool.true_or]

/-- A sentence that rests on itself alone is settled only if it was acted on itself. -/
theorem settles_fresh (statement : Term) (kind : SentenceKind) (occurrence : Option Cycle)
    {id : SentenceId} (h : id ∉ a.goals.ids) :
    a.settles (.fresh statement kind id occurrence) = false := by
  have hrests : a.restsOnActed (.fresh statement kind id occurrence) = false := by
    rw [Bool.eq_false_iff, ne_eq, restsOnActed_iff]
    rintro ⟨⟨x, hx, hne⟩, _⟩
    exact hne (List.mem_singleton.1 hx)
  have hgoals : a.goals.contains id = false := by
    rw [Bool.eq_false_iff, ne_eq, Recent.contains_iff]
    exact h
  show (a.goals.contains id || _ || _) = false
  rw [hrests, hgoals]
  rfl

/-- A revision is not settled if a premise is not, and if it rests on something new. -/
theorem settles_revision (fresh parent : SentenceId) (hid : s.id ∉ a.goals.ids)
    (hrule : s.stamp.rule = some .revision) (hparent : parent ∈ s.stamp.parents)
    (hparent' : parent ∉ a.goals.ids) (hfresh : fresh ∈ s.base.ids) (hne : fresh ≠ s.id)
    (hnew : fresh ∉ a.evidence.ids) : a.settles s = false := by
  have hrests : a.restsOnActed s = false := by
    rw [Bool.eq_false_iff, ne_eq, restsOnActed_iff]
    rintro ⟨_, h⟩
    exact hnew (h fresh hfresh hne)
  have hfollows : a.followsActed s = false := by
    simp only [followsActed, hrule, Bool.and_eq_false_iff, List.all_eq_false]
    exact .inr ⟨parent, hparent, fun h => hparent' (Recent.contains_iff.1 h)⟩
  have hgoals : a.goals.contains s.id = false := by
    rw [Bool.eq_false_iff, ne_eq, Recent.contains_iff]
    exact hid
  simp only [settles, hrests, hfollows, hgoals, Bool.or_self]

end Acted

/-! ## Tables with one entry -/

/-- A timeless goal for a statement. -/
structure Sentence.Wants (t : Term) (w : TruthValue Double) (s : Sentence) : Prop where
  statement_eq : s.statement = t
  kind_eq : s.kind = .goal w
  timeless : s.occurrence = none

section Revision

variable {p : Standpoint} {t : Term} {s x : Sentence} {v w : TruthValue Double}

theorem Sentence.Wants.isEvent (h : s.Wants t v) : s.isEvent = false := by
  simp [Sentence.isEvent, h.timeless]

theorem Sentence.Wants.value? (h : s.Wants t v) : s.value? = some v := by
  simp [Sentence.value?, h.kind_eq, SentenceKind.value?]

theorem Sentence.Wants.value?_standpoint (h : s.Wants t v) : p.value? s = some v := by
  simp [Standpoint.value?, h.value?, h.timeless]

theorem Sentence.Wants.pursues (h : s.Wants t v) :
    p.pursues s = decide (p.settings.decisionThreshold < v.expectation) := by
  simp [Standpoint.pursues, Standpoint.expectation, h.value?_standpoint, Sentence.isGoal,
    Sentence.punctuation, h.kind_eq, SentenceKind.punctuation]

/-- The revision of two timeless goals for one statement about terms. -/
def revisedWish (p : Standpoint) (t : Term) (s x : Sentence) (v w : TruthValue Double) :
    Conclusion :=
  { statement := t, kind := .goal (TruthFunction.revision.apply p.settings.horizon v w)
    occurrence := none, grounds := [s.base, x.base], rule := .revision, parents := [s.id, x.id] }

theorem revise_wants (hstatement : t.isStatement = true) (hs : s.Wants t v) (hx : x.Wants t w) :
    revise p s x = some (revisedWish p t s x v w) := by
  cases t with
  | statement subject copula predicate interval =>
    -- With or without fading, the values are those of the two goals: both are timeless.
    have hdecay : ∀ u, p.premiseValue? u s = some v ∧ p.premiseValue? u x = some w := by
      intro u
      simp only [Standpoint.premiseValue?]
      split
      · exact ⟨hs.value?, hx.value?⟩
      · exact ⟨hs.value?_standpoint, hx.value?_standpoint⟩
    refine Standpoint.revise_eq_some.2 ⟨?_, ?_, ?_, .statement subject copula predicate interval,
      ?_, ?_⟩
    · rw [hs.statement_eq, hx.statement_eq, BEq.rfl]
    · simp [Sentence.isQuestion, Sentence.punctuation, hs.kind_eq, SentenceKind.punctuation]
    · simp [Sentence.isQuestion, Sentence.punctuation, hx.kind_eq, SentenceKind.punctuation]
    · simp [revisedStatement?, hs.statement_eq]
    · simp [Standpoint.conclude, Term.headsSentence, Standpoint.kindOf?, Sentence.punctuation,
        hs.kind_eq, hx.kind_eq, SentenceKind.punctuation, (hdecay _).1, (hdecay _).2, hs.isEvent,
        hx.isEvent, revisedWish]
  | _ => exact absurd hstatement (by simp [Term.isStatement])

end Revision

namespace Table

variable {table : Table} {s x : Sentence}

theorem insert_nil {p : Standpoint} (hroom : 0 < table.capacity) (hnil : table.entries = []) :
    table.insert p s = { table with entries := [s] } := by
  simp only [insert, hnil, List.nil_append]
  congr 1
  exact List.take_of_length_le hroom

/-- What is put beside other entries is not merged with any of them. -/
theorem put_of_not_mayInteract (p : Standpoint) (ids : IdSupply) (ht : s.isEvent = false)
    (h : ∀ x ∈ table.entries, mayInteract s x = false) :
    table.put p s ids = (none, table.insert p s, ids) := by
  have hpartner : table.partner? s = none := by
    simp only [partner?, ht, Bool.false_eq_true, if_false, List.findIdx?_eq_none_iff]
    exact h
  simp [put, revise?, hpartner]

/-- What is put to the only entry takes its place, revised. -/
theorem put_of_mayInteract {c : Conclusion} (p : Standpoint) (ids : IdSupply)
    (hroom : 0 < table.capacity) (hentries : table.entries = [x]) (ht : s.isEvent = false)
    (h : mayInteract s x = true)
    (hr : revise p s x = some c) :
    table.put p s ids = (some (c.number ids.peek),
      { table with entries := [c.number ids.peek] }, ids.advance) := by
  have hpartner : table.partner? s = some 0 := by
    simp [partner?, ht, hentries, h]
  have hrevise : table.revise? p s = some (c, { table with entries := [] }) := by
    simp [revise?, hpartner, hentries, hr]
  simp only [put, hrevise]
  congr 2
  exact insert_nil hroom rfl

end Table

/-! ## Desks -/

/-- The value of a desire after its goal has been put in again `n` times. -/
def TruthValue.pooled (k : Double) (v : TruthValue Double) : (n : Nat) → TruthValue Double
  | 0 => v
  | n + 1 => TruthFunction.revision.apply k v (pooled k v n)

/-- What a reasoner keeps about the goals for one statement. -/
structure Desk where
  /-- The desires. -/
  desires : Table
  /-- The goals that have been acted on. -/
  acted : Acted
  /-- The identities to come. -/
  ids : IdSupply

/-- A timeless goal that is put in. -/
def wish (t : Term) (v : TruthValue Double) (id : SentenceId) : Sentence :=
  { Sentence.fresh t (.goal v) id none with fromInput := true }

namespace Desk

/-- Put a goal into the desires. It is settled if what it comes from is, and so is its revision. -/
def want (p : Standpoint) (s : Sentence) (d : Desk) : Desk :=
  let acted := d.acted.settle s
  let (revised, desires, ids) := d.desires.put p s d.ids
  { desires, ids
    acted := match revised with
      | some revised => acted.settle revised
      | none => acted }

/-- Pursue what is most wanted, and say whether it is acted on. -/
def pursue (p : Standpoint) (d : Desk) : Bool × Desk :=
  match d.desires.best? with
  | none => (false, d)
  | some best =>
    if !p.pursues best then (false, d)
    else if d.acted.settles best then (false, { d with acted := d.acted.settle best })
    else (true, { d with acted := d.acted.record best })

/-- Put a timeless goal in and pursue what is most wanted then. -/
def turn (p : Standpoint) (t : Term) (v : TruthValue Double) (d : Desk) : Bool × Desk :=
  (want p (wish t v d.ids.peek) { d with ids := d.ids.advance }).pursue p

section Turn

variable {p : Standpoint} {t : Term} {v w : TruthValue Double} {d : Desk} {x : Sentence}

theorem wants_wish (t : Term) (v : TruthValue Double) (id : SentenceId) :
    (wish t v id).Wants t v := ⟨rfl, rfl, rfl⟩

theorem mayInteract_wish {id : SentenceId} :
    mayInteract (wish t v id) x = true ↔ id ≠ x.id ∧ id ∉ x.base.ids := by
  have hid : (wish t v id).id = id := rfl
  have hbase : (wish t v id).base.ids = [id] := rfl
  simp only [mayInteract, hid, (wants_wish t v id).isEvent, EvidenceBase.contains, hbase,
    EvidenceBase.overlaps, Bool.false_or, Bool.and_eq_true, Bool.not_eq_true', bne_iff_ne, ne_eq,
    Bool.or_eq_false_iff, List.any_cons, List.any_nil, Bool.or_false, List.contains_eq_mem,
    decide_eq_false_iff_not, List.mem_singleton]
  constructor
  · rintro ⟨⟨hne, hnot, _⟩, _⟩
    exact ⟨hne, hnot⟩
  · rintro ⟨hne, hnot⟩
    exact ⟨⟨hne, hnot, fun h => hne h.symm⟩, hnot⟩

/-- The revision of a goal that is put in with the desire that is there. -/
def merged (p : Standpoint) (t : Term) (v w : TruthValue Double) (d : Desk) (x : Sentence) :
    Sentence :=
  (revisedWish p t (wish t v d.ids.peek) x v w).number d.ids.advance.peek

theorem wants_merged : (merged p t v w d x).Wants t
    (TruthFunction.revision.apply p.settings.horizon v w) := ⟨rfl, rfl, rfl⟩

/-- What comes into the base of a revision: as much as there is room for beside the old base. -/
theorem ids_merged (h : x.base.ids.length ≤ EvidenceBase.maxLength) :
    (merged p t v w d x).base.ids =
      EvidenceBase.lastOf (EvidenceBase.maxLength - x.base.ids.length)
        [d.ids.advance.peek, d.ids.peek] ++ x.base.ids := EvidenceBase.ids_merge h

theorem turn_of_mayInteract (hstatement : t.isStatement = true) (hroom : 0 < d.desires.capacity)
    (hentries : d.desires.entries = [x]) (hx : x.Wants t w) (hne : d.ids.peek ≠ x.id)
    (hbase : d.ids.peek ∉ x.base.ids) :
    d.turn p t v = Desk.pursue p
      { desires := { d.desires with entries := [merged p t v w d x] }
        acted := (d.acted.settle (wish t v d.ids.peek)).settle (merged p t v w d x)
        ids := d.ids.advance.advance } := by
  have hput := Table.put_of_mayInteract p d.ids.advance hroom hentries
    (wants_wish t v d.ids.peek).isEvent (mayInteract_wish.2 ⟨hne, hbase⟩)
    (revise_wants hstatement (wants_wish t v d.ids.peek) hx)
  simp only [turn, want, hput]
  rfl

end Turn

/-- A few identities may be given out between two turns. -/
def Later (d d' : Desk) : Prop :=
  d.ids.IsBefore d'.ids ∧ d'.ids.next.toNat ≤ d.ids.next.toNat + 2 ∧
    d' = { d with ids := d'.ids }

/-! ### Pooling -/

/-- The goal has been acted on at first and after each of `n` revisions, and the base of the desire
has grown with each of them. -/
structure Pooled (k : Double) (t : Term) (v : TruthValue Double) (n : Nat) (d : Desk) : Prop where
  room : 0 < d.desires.capacity
  /-- Each turn has used up a few identities. -/
  next_le : d.ids.next.toNat ≤ 4 * (n + 1)
  /-- What has been acted on is known by identities that have been given out. -/
  goals : ∀ id ∈ d.acted.goals.ids, id.number < d.ids.next
  /-- And so is what that rested on. -/
  evidence : ∀ id ∈ d.acted.evidence.ids, id.number < d.ids.next
  /-- Nothing of this has been forgotten. -/
  evidence_le : d.acted.evidence.ids.length ≤ 30 * (n + 1)
  /-- The only desire has been acted on. Its base grows by two identities with each revision. -/
  entry : ∃ x, d.desires.entries = [x] ∧ x.Wants t (v.pooled k n) ∧ x.id ∈ d.acted.goals.ids ∧
    x.base.ids.length = min 30 (2 * n + 1) ∧ ∀ id ∈ x.base.ids, id ∈ d.acted.evidence.ids

variable {p : Standpoint} {k : Double} {t : Term} {v w : TruthValue Double} {n : Nat} {d d' : Desk}

/-- An empty desk, at which nothing has been wanted yet. -/
def new (capacity : Nat) : Desk := ⟨.empty capacity, {}, {}⟩

theorem pursue_singleton {table : Table} {a : Acted} {ids : IdSupply} {x : Sentence}
    (hentries : table.entries = [x]) (hx : x.Wants t w)
    (hwant : p.settings.decisionThreshold < w.expectation) (hnew : a.settles x = false) :
    pursue p ⟨table, a, ids⟩ = (true, ⟨table, a.record x, ids⟩) := by
  simp [pursue, Table.best?, hentries, hx.pursues, hwant, hnew]

theorem next_advance {ids : IdSupply} (h : ids.next.toNat + 1 < UInt64.size) :
    ids.advance.next.toNat = ids.next.toNat + 1 := by
  have hne : ids.next ≠ 0 - 1 := by
    intro hmax
    rw [hmax] at h
    exact absurd h (by decide)
  have hone : UInt64.toNat 1 = 1 := rfl
  simp only [IdSupply.advance, hne, if_false, UInt64.toNat_add, hone]
  exact Nat.mod_eq_of_lt h

theorem settles_wish {a : Acted} {id : SentenceId} (h : id ∉ a.goals.ids) :
    a.settles (wish t v id) = false := Acted.settles_fresh t (.goal v) none h

/-- After a goal has been acted on, its desk is pooled. -/
theorem pooled_record {table : Table} {a : Acted} {ids : IdSupply} {x : Sentence} (hn : n ≤ 15)
    (hroom : 0 < table.capacity) (hentries : table.entries = [x])
    (hx : x.Wants t (v.pooled k n)) (hlen : x.base.ids.length = min 30 (2 * n + 1))
    (hnext : ids.next.toNat ≤ 4 * (n + 1)) (hid : x.id.number < ids.next)
    (hbase : ∀ id ∈ x.base.ids, id.number < ids.next)
    (hgoals : ∀ id ∈ a.goals.ids, id.number < ids.next)
    (hevidence : ∀ id ∈ a.evidence.ids, id.number < ids.next)
    (hle : a.evidence.ids.length ≤ 30 * n) : Pooled k t v n ⟨table, a.record x, ids⟩ := by
  have hcapacity : Recent.capacity = 1000 := rfl
  refine ⟨hroom, hnext, fun id hid' => ?_, fun id hid' => ?_, ?_, x, hentries, hx,
    Recent.mem_insert_self _ _, hlen, fun id hid' => ?_⟩
  · rcases Recent.mem_of_mem_insert hid' with hid' | rfl
    · exact hgoals id hid'
    · exact hid
  · rcases Recent.mem_of_mem_insertAll hid' with hid' | hid'
    · exact hevidence id hid'
    · exact hbase id hid'
  · have := Recent.length_insertAll_le x.base.ids a.evidence
    simp only [Acted.record]
    omega
  -- The capacity is not reached, so that all of the base is remembered.
  · exact Recent.mem_insertAll (by omega) (.inr hid')

theorem lt_later {ids ids' : IdSupply} {id : SentenceId} (h : id.number < ids.next)
    (hb : ids.IsBefore ids') : id.number < ids'.next := UInt64.lt_of_lt_of_le h hb

/-- The first time, there is nothing that the goal could be pooled with. -/
theorem turn_new_eq (capacity : Nat) : (new capacity).turn p t v = pursue p
    ⟨{ Table.empty capacity with entries := [wish t v ⟨0⟩] }, {}, ⟨1⟩⟩ := by
  have hroom : 0 < (Table.empty capacity).capacity := by
    show 0 < max capacity 1
    omega
  have hput : (Table.empty capacity).put p (wish t v ⟨0⟩) ⟨1⟩ =
      (none, { Table.empty capacity with entries := [wish t v ⟨0⟩] }, ⟨1⟩) := by
    rw [Table.put_of_not_mayInteract p _ (wants_wish t v _).isEvent
      (fun x hx => absurd hx (by simp [Table.empty])), Table.insert_nil hroom rfl]
  show pursue p (want p (wish t v ⟨0⟩) ⟨Table.empty capacity, {}, ⟨1⟩⟩) = _
  simp only [want, hput, Acted.settle_of_not (settles_wish (a := {}) (by simp))]

/-- The first time, the goal is acted on as it is. -/
theorem turn_new (capacity : Nat) (hwant : p.settings.decisionThreshold < v.expectation) :
    ∃ d', (new capacity).turn p t v = (true, d') ∧ ∀ d'', d'.Later d'' → d''.Pooled k t v 0 := by
  have hs := wants_wish t v ⟨0⟩
  have hsettles : Acted.settles {} (wish t v ⟨0⟩) = false := settles_wish (by simp)
  refine ⟨_, (turn_new_eq capacity).trans (pursue_singleton rfl hs hwant hsettles), ?_⟩
  rintro ⟨_, _, ids⟩ ⟨hbefore, hle, heq⟩
  cases heq
  have hroom : 0 < (Table.empty capacity).capacity := by
    show 0 < max capacity 1
    omega
  have hone : (0 : UInt64) < 1 := by decide
  have three_le : (1 : UInt64).toNat + 2 ≤ 4 * (0 + 1) := by decide
  have hlt : (0 : UInt64) < ids.next := UInt64.lt_of_lt_of_le hone hbefore
  refine pooled_record (by omega) hroom rfl hs rfl (Nat.le_trans hle three_le) hlt
    (fun id hid => ?_) (fun id hid => absurd hid (by simp)) (fun id hid => absurd hid (by simp))
    (Nat.zero_le _)
  obtain rfl := List.mem_singleton.1 hid
  exact hlt

section Identities

variable {ids : IdSupply}

/-- Where identities have not run out, the next two are new, and differ. -/
theorem ids_fresh (ids : IdSupply) (h : ids.next.toNat ≤ 1000) :
    ids.peek.number < ids.advance.next ∧ ids.advance.peek.number < ids.advance.advance.next ∧
      ids.next < ids.advance.next ∧ ids.advance.next < ids.advance.advance.next ∧
      ids.peek ≠ ids.advance.peek ∧ ids.advance.advance.next.toNat = ids.next.toNat + 2 := by
  have hsize : UInt64.size = 18446744073709551616 := rfl
  have h₁ : ids.advance.next.toNat = ids.next.toNat + 1 := next_advance (by omega)
  have h₂ : ids.advance.advance.next.toNat = ids.advance.next.toNat + 1 := next_advance (by omega)
  have hlt₁ : ids.next < ids.advance.next := by
    rw [UInt64.lt_iff_toNat_lt]
    omega
  have hlt₂ : ids.advance.next < ids.advance.advance.next := by
    rw [UInt64.lt_iff_toNat_lt]
    omega
  refine ⟨hlt₁, hlt₂, hlt₁, hlt₂, ?_, by omega⟩
  intro heq
  have : ids.next = ids.advance.next := congrArg SentenceId.number heq
  rw [← this] at hlt₁
  exact UInt64.lt_irrefl _ hlt₁

theorem ne_of_lt {id : SentenceId} (h : id.number < ids.next) : id ≠ ids.peek := by
  rintro rfl
  exact UInt64.lt_irrefl _ h

end Identities

/-- As long as the base of the desire is not full, its revision rests on the new goal and is acted
on if it is wanted enough. -/
theorem Pooled.turn (h : d.Pooled p.settings.horizon t v n) (hstatement : t.isStatement = true)
    (hn : n < 15)
    (hwant : p.settings.decisionThreshold < (v.pooled p.settings.horizon (n + 1)).expectation) :
    ∃ d', d.turn p t v = (true, d') ∧
      ∀ d'', d'.Later d'' → d''.Pooled p.settings.horizon t v (n + 1) := by
  -- There is one entry, with room in its base for at least one identity more.
  obtain ⟨x, hentries, hx, hid, hlen, hbase⟩ := h.entry
  have hnext := h.next_le
  have hmax : EvidenceBase.maxLength = 30 := rfl
  obtain ⟨hlt₁, hlt₂, hlt₃, hlt₄, hne, hsum⟩ := ids_fresh d.ids (by omega)
  have hgoal : d.ids.peek ∉ d.acted.goals.ids := fun hmem => ne_of_lt (h.goals _ hmem) rfl
  have hev : d.ids.peek ∉ d.acted.evidence.ids := fun hmem => ne_of_lt (h.evidence _ hmem) rfl
  have hr := wants_merged (p := p) (v := v) (w := v.pooled p.settings.horizon n) (d := d) (x := x)
    (t := t)
  have hids := ids_merged (p := p) (t := t) (v := v) (w := v.pooled p.settings.horizon n) (d := d)
    (x := x) (by omega)
  -- The goal and the entry are merged; all that counts from here on is the identity and the base of
  -- the result.
  generalize hm : merged p t v (v.pooled p.settings.horizon n) d x = r at hr hids
  have hrid : r.id = d.ids.advance.peek := by
    rw [← hm]
    rfl
  have hlong : (EvidenceBase.lastOf (EvidenceBase.maxLength - x.base.ids.length)
      [d.ids.advance.peek, d.ids.peek]).length = min 2 (30 - x.base.ids.length) := by
    simp only [EvidenceBase.lastOf, List.length_drop, List.length_cons, List.length_nil]
    omega
  -- The merged goal is not settled: the identity of the goal itself is in its base, and has not
  -- been acted on.
  have hnew : d.acted.settles r = false := by
    refine Acted.settles_revision d.ids.peek d.ids.peek ?_ ?_ ?_ hgoal ?_ ?_
      hev
    · rw [hrid]
      exact fun hmem => ne_of_lt (lt_later (h.goals _ hmem) d.ids.isBefore_advance) rfl
    · rw [← hm]
      rfl
    · rw [← hm]
      exact List.mem_cons_self
    · rw [hids]
      refine List.mem_append_left _ (EvidenceBase.getLast_mem_lastOf ?_ (List.cons_ne_nil _ _))
      omega
    · rw [hrid]
      exact hne
  have hturn := turn_of_mayInteract (p := p) (v := v) hstatement h.room hentries hx
    (ne_of_lt (h.goals _ hid)).symm (fun hmem => hev (hbase _ hmem))
  rw [hm, Acted.settle_of_not (settles_wish hgoal), Acted.settle_of_not hnew] at hturn
  -- From now on the supply may be any later one, as the rest of the cycle may use up identities.
  refine ⟨_, hturn.trans (pursue_singleton rfl hr hwant hnew), ?_⟩
  rintro ⟨_, _, ids⟩ ⟨hbefore, hle, heq⟩
  cases heq
  have hbefore' : d.ids.advance.IsBefore ids := d.ids.advance.isBefore_advance.trans hbefore
  have hold : ∀ id : SentenceId, id.number < d.ids.next → id.number < ids.next := fun id hlt =>
    lt_later hlt (d.ids.isBefore_advance.trans hbefore')
  refine pooled_record (by omega) h.room rfl hr ?_ ?_ ?_ ?_ (fun id hid => hold id (h.goals id hid))
    (fun id hid => hold id (h.evidence id hid)) h.evidence_le
  · rw [hids, List.length_append, hlong]
    omega
  · have : ids.next.toNat ≤ d.ids.advance.advance.next.toNat + 2 := hle
    omega
  · rw [hrid]
    exact lt_later hlt₂ hbefore
  · intro id hmem
    rw [hids] at hmem
    rcases List.mem_append.1 hmem with hmem | hmem
    · rcases List.mem_cons.1 (List.mem_of_mem_drop hmem) with rfl | hmem
      · exact lt_later hlt₂ hbefore
      · obtain rfl := List.mem_singleton.1 hmem
        exact lt_later hlt₁ hbefore'
    · exact hold id (h.evidence id (hbase id hmem))

/-- What is not wanted enough is not acted on. -/
theorem pursue_unwanted {x : Sentence} (hentries : d.desires.entries = [x]) (hx : x.Wants t w)
    (hunwanted : ¬p.settings.decisionThreshold < w.expectation) : d.pursue p = (false, d) := by
  simp [pursue, Table.best?, hentries, hx.pursues, hunwanted]

theorem turn_new_unwanted (capacity : Nat)
    (hunwanted : ¬p.settings.decisionThreshold < v.expectation) :
    ((new capacity).turn p t v).1 = false := by
  rw [turn_new_eq, pursue_unwanted rfl (wants_wish t v _) hunwanted]

theorem Pooled.turn_unwanted (h : d.Pooled p.settings.horizon t v n)
    (hstatement : t.isStatement = true) (hunwanted : ¬p.settings.decisionThreshold <
      (v.pooled p.settings.horizon (n + 1)).expectation) : (d.turn p t v).1 = false := by
  obtain ⟨x, hentries, hx, hid, _, hbase⟩ := h.entry
  rw [turn_of_mayInteract hstatement h.room hentries hx (ne_of_lt (h.goals _ hid)).symm
    (fun hmem => ne_of_lt (h.evidence _ (hbase _ hmem)) rfl),
    pursue_unwanted rfl wants_merged hunwanted]

/-! ### Stuck desks -/

/-- Everything that the desires rest on has been acted on. When the identities have run out, each
desire has the last one, which has been settled. -/
structure Stuck (t : Term) (d : Desk) : Prop where
  room : 0 < d.desires.capacity
  wanted : d.desires.entries ≠ []
  entries : ∀ x ∈ d.desires.entries, (∃ w, x.Wants t w) ∧ x.id ∈ d.acted.goals.ids
  /-- There is one desire with a full base, or there are no new identities. -/
  known : (∃ x, d.desires.entries = [x] ∧ d.ids.HasGiven x.id ∧
      x.base.ids.length = EvidenceBase.maxLength ∧
      ∀ id ∈ x.base.ids, id ∈ d.acted.evidence.ids ∧ id.number < d.ids.next) ∨
    d.ids.IsExhausted ∧ ∀ x ∈ d.desires.entries, x.id = d.ids.peek

theorem Stuck.later (h : d.Stuck t) (hl : d.Later d') : d'.Stuck t := by
  obtain ⟨hbefore, _, heq⟩ := hl
  rw [heq]
  refine ⟨h.room, h.wanted, h.entries, ?_⟩
  rcases h.known with ⟨x, hentries, hgiven, hlen, hbase⟩ | ⟨hx, hid⟩
  · exact .inl ⟨x, hentries, hgiven.of_isBefore hbefore, hlen, fun id hmem =>
      ⟨(hbase id hmem).1, lt_later (hbase id hmem).2 hbefore⟩⟩
  · have hx' := hx.of_isBefore hbefore
    have hpeek : d'.ids.peek = d.ids.peek := by
      rw [IdSupply.IsExhausted] at hx hx'
      simp only [IdSupply.peek, hx, hx']
    exact .inr ⟨hx', fun x hmem => (hid x hmem).trans hpeek.symm⟩

/-- Nothing is acted on when what is wanted most is settled. -/
theorem pursue_of_settled (h : ∀ x ∈ d.desires.entries, x.id ∈ d.acted.goals.ids) :
    d.pursue p = (false, d) := by
  unfold pursue
  split
  · rfl
  · rename_i best hbest
    have hgoal := h best (List.mem_of_mem_head? hbest)
    rw [Acted.settles_of_mem hgoal, Acted.settle_of_mem hgoal]
    simp only [if_true]
    split <;> rfl

/-- Without new identities, a goal is taken for one that is there already. -/
theorem turn_of_exhausted (hroom : 0 < d.desires.capacity) (hne : d.desires.entries ≠ [])
    (hentries : ∀ x ∈ d.desires.entries, (∃ w, x.Wants t w) ∧ x.id ∈ d.acted.goals.ids)
    (hx : d.ids.IsExhausted) (hid : ∀ x ∈ d.desires.entries, x.id = d.ids.peek) :
    ∃ d', d.turn p t v = (false, d') ∧ d'.Stuck t := by
  obtain ⟨x, hmem⟩ := List.exists_mem_of_ne_nil _ hne
  -- The supply gives out its last identity again, which all entries have and which was acted on.
  have hgoal : (wish t v d.ids.peek).id ∈ d.acted.goals.ids := by
    show d.ids.peek ∈ d.acted.goals.ids
    rw [← hid x hmem]
    exact (hentries x hmem).2
  have hput := Table.put_of_not_mayInteract p d.ids (wants_wish t v _).isEvent
    (fun y hy => by
      rw [Bool.eq_false_iff, ne_eq, mayInteract_wish]
      exact fun h => h.1 (hid y hy).symm)
  have hturn : d.turn p t v =
      pursue p ⟨d.desires.insert p (wish t v d.ids.peek), d.acted, d.ids⟩ := by
    have hstay : d.ids.advance = d.ids := by
      simp only [IdSupply.advance, show d.ids.next = 0 - 1 from hx, if_true]
      exact congrArg IdSupply.mk hx.symm
    simp only [turn, want, hstay, hput, Acted.settle_of_mem hgoal]
  have hentries' : ∀ y ∈ (d.desires.insert p (wish t v d.ids.peek)).entries,
      (∃ w, y.Wants t w) ∧ y.id ∈ d.acted.goals.ids ∧ y.id = d.ids.peek := by
    intro y hy
    rcases Table.mem_insert hy with hy | rfl
    · exact ⟨(hentries y hy).1, (hentries y hy).2, hid y hy⟩
    · exact ⟨⟨v, wants_wish t v _⟩, hgoal, rfl⟩
  -- All entries, the new one among them, have been acted on: nothing is pursued any more.
  refine ⟨_, hturn.trans (pursue_of_settled fun y hy => (hentries' y hy).2.1), hroom, ?_,
    fun y hy => ⟨(hentries' y hy).1, (hentries' y hy).2.1⟩,
    .inr ⟨hx, fun y hy => (hentries' y hy).2.2⟩⟩
  apply List.ne_nil_of_length_pos
  simp only [Table.insert, List.length_take, length_stableSort, List.length_append,
    List.length_singleton]
  omega

/-- A desk whose desire has a full base is stuck from the next turn on. -/
theorem turn_of_full {x : Sentence} (hstatement : t.isStatement = true)
    (hroom : 0 < d.desires.capacity) (hentries : d.desires.entries = [x]) (hx : x.Wants t w)
    (hid : d.ids.peek ≠ x.id) (hlen : x.base.ids.length = EvidenceBase.maxLength)
    (hbase : ∀ id ∈ x.base.ids, id ∈ d.acted.evidence.ids ∧ id.number < d.ids.next) :
    ∃ d', d.turn p t v = (false, d') ∧ d'.Stuck t := by
  have hnot : d.ids.peek ∉ x.base.ids := fun hmem => ne_of_lt (hbase _ hmem).2 rfl
  have hturn := turn_of_mayInteract (p := p) (v := v) hstatement hroom hentries hx hid hnot
  -- A full base has no room for the second one, so that the merged goal rests on what the entry
  -- rested on.
  have hids : (merged p t v w d x).base.ids = x.base.ids := by
    rw [ids_merged (Nat.le_of_eq hlen), hlen, Nat.sub_self]
    rfl
  have hr := wants_merged (p := p) (v := v) (w := w) (d := d) (x := x) (t := t)
  have hrid : (merged p t v w d x).id = d.ids.advance.peek := rfl
  generalize merged p t v w d x = r at hturn hids hr hrid
  have hev : (d.acted.settle (wish t v d.ids.peek)).evidence = d.acted.evidence :=
    d.acted.evidence_settle _
  generalize d.acted.settle (wish t v d.ids.peek) = a at hturn hev
  -- All of that was recorded when the entry was acted on.
  have hold : ∀ id ∈ r.base.ids, id ∈ a.evidence.ids ∧ id ≠ r.id := by
    intro id hmem
    rw [hids] at hmem
    rw [hev, hrid]
    exact ⟨(hbase id hmem).1, ne_of_lt (lt_later (hbase id hmem).2 d.ids.isBefore_advance)⟩
  -- So the merged goal counts as acted on, before it has been.
  have hsettles : a.settles r = true := by
    refine Acted.settles_of_evidence ?_ hold
    rw [hids]
    exact List.ne_nil_of_length_pos (by rw [hlen]; decide)
  have hgoal := Acted.goals_settle hsettles
  refine ⟨_, hturn.trans (pursue_of_settled ?_), hroom, List.cons_ne_nil _ _, ?_,
    .inl ⟨r, rfl, ?_, ?_, ?_⟩⟩
  · intro y hy
    obtain rfl := List.mem_singleton.1 hy
    exact hgoal
  · intro y hy
    obtain rfl := List.mem_singleton.1 hy
    exact ⟨⟨_, hr⟩, hgoal⟩
  · rw [hrid]
    exact d.ids.advance.hasGiven_advance
  · rw [hids, hlen]
  · intro id hmem
    refine ⟨?_, ?_⟩
    · rw [Acted.evidence_settle]
      exact (hold id hmem).1
    · rw [hids] at hmem
      exact lt_later (hbase id hmem).2 (d.ids.isBefore_advance.trans d.ids.advance.isBefore_advance)

theorem Stuck.turn (h : d.Stuck t) (hstatement : t.isStatement = true) :
    ∃ d', d.turn p t v = (false, d') ∧ d'.Stuck t := by
  rcases h.known with ⟨x, hentries, hgiven, hlen, hbase⟩ | ⟨hx, hid⟩
  · have hmem : x ∈ d.desires.entries := by
      rw [hentries]
      exact List.mem_singleton_self x
    by_cases hid : d.ids.peek = x.id
    · refine turn_of_exhausted h.room h.wanted h.entries ?_ ?_
      · by_contra hx
        exact hgiven.ne_peek hx d.ids.isBefore_refl hid.symm
      · intro y hy
        rw [hentries] at hy
        obtain rfl := List.mem_singleton.1 hy
        exact hid.symm
    · obtain ⟨w, hw⟩ := (h.entries x hmem).1
      exact turn_of_full hstatement h.room hentries hw hid hlen hbase
  · exact turn_of_exhausted h.room h.wanted h.entries hx hid

/-- After fifteen revisions the base is full. -/
theorem Pooled.stuck_turn (h : d.Pooled k t v 15) (hstatement : t.isStatement = true) :
    ∃ d', d.turn p t v = (false, d') ∧ d'.Stuck t := by
  obtain ⟨x, hentries, hx, hid, hlen, hbase⟩ := h.entry
  exact turn_of_full hstatement h.room hentries hx (ne_of_lt (h.goals _ hid)).symm hlen
    fun id hmem => ⟨hbase id hmem, h.evidence id (hbase id hmem)⟩

end Desk

end NonAxiomatic
