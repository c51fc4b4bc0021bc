import Mathlib.Data.List.Nodup
import Mathlib.Logic.Relation
import NonAxiomatic.Proofs.Evidence
import NonAxiomatic.Proofs.Schema

/-!
# Ledgers

The sentences that ever got an identity from one supply (`Ledger`). A sentence enters when it is
read, observed or concluded, and waits. Later it is taken up or given up, and then it is done. Only
sentences that are done are premises (`Arises`).

**Theorem (`Sound.of_leads`).** Along every sequence of steps from a sound ledger, each sentence
rests as it should (`Rests`): on at least one and at most thirty identities, all of them given out
and no two of them the same; an event on itself alone; and a timeless conclusion from two premises
on itself, on what the first premise rests on and on what the second one rests on, as far as there
is room.

That no identity occurs twice in a base is an invariant of the whole ledger (`Distinct`). Premises
that may interact have no evidence in common, so that they need no more than bases without
repetition. But an event that is put in a table is revised with the first entry there without
being held against it. Nothing goes wrong, since nothing that is done rests on a sentence that has
only just been taken up: as long as a sentence waits, only the sentence itself rests on it
(`Distinct.unused`).

All this needs identities that differ. The supply gives out its last identity over and over, and
so nothing is said of repetitions once it is exhausted (`IdSupply.IsExhausted`).
-/

namespace NonAxiomatic

open EvidenceBase (lastOf maxLength)

/-! ## What conclusions rest on -/

namespace Standpoint

variable {p : Standpoint} {a b : Sentence} {w : Term} {function : TruthFunction} {rule : Rule}
  {c : Conclusion}

theorem parents_of_conclude (h : p.conclude a b w function rule = some c) :
    c.parents = [a.id, b.id] := by
  obtain ⟨_, _, _, rfl⟩ := conclude_eq_some.1 h
  rfl

/-- A conclusion either happens and rests on itself, or holds timelessly and rests on the premises
as well. -/
theorem base_of_conclude (h : p.conclude a b w function rule = some c) (id : SentenceId) :
    (c.number id).isEvent = true ∧ (c.number id).base.ids = [id] ∨
    (c.number id).isEvent = false ∧
      (c.number id).base.ids = lastOf maxLength (id :: (a.base.ids ++ b.base.ids)) := by
  obtain ⟨_, kind, _, rfl⟩ := conclude_eq_some.1 h
  by_cases happens : ((a.isEvent || b.isEvent) && !w.isHigherOrder) = true
  · simp only [happens, if_true]
    exact .inl ⟨rfl, rfl⟩
  · simp only [happens]
    exact .inr ⟨rfl, EvidenceBase.lastOf_lastOf_append maxLength (id :: a.base.ids) b.base.ids⟩

/-- Two events are premises in one order or the other. -/
theorem conclude_of_inferEvents (h : c ∈ p.inferEvents a b) :
    a.isEvent = true ∧ b.isEvent = true ∧ a.id ≠ b.id ∧
      ∃ w function rule, p.conclude a b w function rule = some c ∨
        p.conclude b a w function rule = some c := by
  obtain ⟨different, e, he, h⟩ := inOrder?_of_inferEvents h
  obtain ⟨eventA, eventB, order⟩ := Succession.inOrder?_cases he
  have drawn : ∃ w function rule, p.conclude e.first e.second w function rule = some c := by
    rcases h with h | h
    · exact ⟨_, _, _, h⟩
    · unfold Succession.leadsTo at h
      split at h
      · exact absurd h (by simp)
      · exact ⟨_, _, _, h⟩
  obtain ⟨w, function, rule, drawn⟩ := drawn
  refine ⟨eventA, eventB, different, w, function, rule, ?_⟩
  rcases order with ⟨hf, hg⟩ | ⟨hf, hg⟩
  · rw [hf, hg] at drawn
    exact .inl drawn
  · rw [hf, hg] at drawn
    exact .inr drawn

end Standpoint

theorem contraposeConjunction_grounds {a : Sentence} {c : Conclusion}
    (h : contraposeConjunction a = some c) :
    c.occurrence = none ∧ c.grounds = [a.base] ∧ c.parents = [a.id] := by
  simp only [contraposeConjunction, Option.bind_eq_bind, Option.bind_eq_some_iff,
    Option.ite_none_left_eq_some, Option.bind_none, Bool.or_eq_true, not_or] at h
  obtain ⟨⟨⟨_, timeless⟩, _⟩, _, _, _, h⟩ := h
  simp only [contrapose, Option.bind_eq_bind, Option.bind_eq_some_iff, concludeAlone,
    Option.ite_none_left_eq_some, Option.some.injEq] at h
  obtain ⟨_, _, _, _, _, rfl⟩ := h
  exact ⟨by simpa [Sentence.isEvent] using timeless, rfl, rfl⟩

/-! ## Entering -/

/-- The sentences that got an identity from one supply. -/
structure Ledger where
  /-- The identities to come. -/
  ids : IdSupply := {}
  /-- The sentences that have been taken up or given up, the last one first. -/
  done : List Sentence := []
  /-- The other ones. -/
  waiting : List Sentence := []

namespace Ledger

/-- All sentences in a ledger. -/
def known (l : Ledger) : List Sentence := l.done ++ l.waiting

/-- How two sentences come to be the premises of a conclusion. -/
inductive Paired : (done : List Sentence) → (a b : Sentence) → Prop where
  /-- They may interact. -/
  | held {done : List Sentence} {a b : Sentence} (first : a ∈ done) (second : b ∈ done)
      (interact : mayInteract a b = true ∨ mayInteract b a = true) : Paired done a b
  /-- They are different events. -/
  | observed {done : List Sentence} {a b : Sentence} (first : a ∈ done) (second : b ∈ done)
      (eventA : a.isEvent = true) (eventB : b.isEvent = true) (different : a.id ≠ b.id) :
      Paired done a b
  /-- The first one is an event that was taken up last. -/
  | filed {done : List Sentence} {a b : Sentence} (event : a.isEvent = true) (second : b ∈ done) :
      Paired (a :: done) a b

/-- How a sentence comes by the next identity. -/
inductive Arises (ids : IdSupply) (done : List Sentence) : Sentence → Prop where
  | read {ids' : IdSupply} {text : String} {cycle : Cycle} {s : Sentence}
      (parsed : Sentence.parse text ids cycle = .ok (s, ids')) :
      Arises ids done { s with fromInput := true }
  | executed (operation : Term) (cycle : Cycle) :
      Arises ids done
        { Sentence.fresh operation (.judgment .default) ids.peek (some cycle) with
          fromInput := true }
  | concluded {p : Standpoint} {a b : Sentence} {w : Term} {function : TruthFunction} {rule : Rule}
      {c : Conclusion} (paired : Paired done a b)
      (drawn : p.conclude a b w function rule = some c) : Arises ids done (c.number ids.peek)
  | contraposed {a : Sentence} {c : Conclusion} (premise : a ∈ done)
      (drawn : contraposeConjunction a = some c) : Arises ids done (c.number ids.peek)

/-- What happens to a ledger. -/
inductive Step : Ledger → Ledger → Prop where
  /-- An identity is used up. -/
  | skip (l : Ledger) : Step l { l with ids := l.ids.advance }
  /-- A sentence enters. -/
  | enter {l : Ledger} {s : Sentence} (arises : Arises l.ids l.done s) :
      Step l ⟨l.ids.advance, l.done, s :: l.waiting⟩
  /-- A sentence is taken up, or given up. -/
  | take (ids : IdSupply) (done : List Sentence) (s : Sentence) (waiting : List Sentence) :
      Step ⟨ids, done, s :: waiting⟩ ⟨ids, s :: done, waiting⟩
  /-- Sentences that wait change places. -/
  | reorder {ids : IdSupply} {done waiting waiting' : List Sentence}
      (same : waiting.Perm waiting') : Step ⟨ids, done, waiting⟩ ⟨ids, done, waiting'⟩

/-- Whether a ledger becomes another one in the course of time. -/
def Leads : Ledger → Ledger → Prop := Relation.ReflTransGen Step

variable {l l' : Ledger} {ids ids' : IdSupply} {done : List Sentence} {s t a b : Sentence}

/-! ### What a sentence rests on when it enters -/

/-- Nothing in a list of sentences rests on anything twice, and nothing rests on what was taken up
after it. -/
structure Apart (done : List Sentence) : Prop where
  nodup : ∀ a ∈ done, a.base.ids.Nodup
  event : ∀ a ∈ done, a.isEvent = true → a.base.ids = [a.id]
  order : done.Pairwise fun a b => a.id ∉ b.base.ids

theorem disjoint_of_mayInteract (h : mayInteract a b = true)
    (event : a.isEvent = true → a.base.ids = [a.id]) : a.base.ids.Disjoint b.base.ids := by
  simp only [mayInteract, EvidenceBase.contains, Bool.and_eq_true, Bool.not_eq_true',
    Bool.or_eq_false_iff, List.contains_eq_mem, decide_eq_false_iff_not, Bool.or_eq_true] at h
  obtain ⟨⟨_, hab, _⟩, h⟩ := h
  rcases h with h | h
  · rw [event h, List.singleton_disjoint]
    exact hab
  · intro id ha hb
    rw [EvidenceBase.overlaps_iff.2 ⟨id, ha, hb⟩] at h
    exact absurd h (by decide)

theorem Paired.mem (h : Paired done a b) : a ∈ done ∧ b ∈ done := by
  cases h with
  | held first second _ => exact ⟨first, second⟩
  | observed first second _ _ _ => exact ⟨first, second⟩
  | filed _ second => exact ⟨by simp, by simp [second]⟩

/-- Premises have no evidence in common. -/
theorem Paired.disjoint (h : Paired done a b) (apart : Apart done) :
    a.base.ids.Disjoint b.base.ids := by
  cases h with
  | held first second interact =>
    rcases interact with h | h
    · exact disjoint_of_mayInteract h (apart.event a first)
    · intro id ha hb
      exact disjoint_of_mayInteract h (apart.event b second) hb ha
  | observed first second eventA eventB different =>
    rw [apart.event a first eventA, apart.event b second eventB, List.singleton_disjoint]
    simpa using different
  | filed event second =>
    rw [apart.event a (by simp) event, List.singleton_disjoint]
    exact (List.pairwise_cons.1 apart.order).1 b second

/-- What a sentence rests on beside itself, before the base is cut. -/
structure RestsOn (done : List Sentence) (s : Sentence) (grounds : List SentenceId) : Prop where
  base_eq : s.base.ids = lastOf maxLength (s.id :: grounds)
  event : s.isEvent = true → grounds = []
  known : ∀ id ∈ grounds, ∃ a ∈ done, id ∈ a.base.ids
  nodup : Apart done → grounds.Nodup

theorem restsOn_nil (base_eq : s.base.ids = [s.id]) : RestsOn done s [] where
  base_eq := base_eq
  event _ := rfl
  known id hid := absurd hid (by simp)
  nodup _ := List.nodup_nil

theorem Arises.id_eq (h : Arises ids done s) : s.id = ids.peek := by
  cases h with
  | read parsed =>
    obtain ⟨_, _, _, _, _, rfl⟩ := Sentence.parse_eq_ok.1 parsed
    rfl
  | executed operation cycle => rfl
  | concluded paired drawn => rfl
  | contraposed premise drawn => rfl

theorem Arises.restsOn (h : Arises ids done s) : ∃ grounds, RestsOn done s grounds := by
  cases h with
  | read parsed =>
    obtain ⟨_, _, _, _, _, rfl⟩ := Sentence.parse_eq_ok.1 parsed
    exact ⟨[], restsOn_nil rfl⟩
  | executed operation cycle => exact ⟨[], restsOn_nil rfl⟩
  | @concluded p a b w function rule c paired drawn =>
    rcases Standpoint.base_of_conclude drawn ids.peek with ⟨_, hbase⟩ | ⟨timeless, hbase⟩
    · exact ⟨[], restsOn_nil hbase⟩
    · refine ⟨a.base.ids ++ b.base.ids, hbase, fun event => ?_, ?_, ?_⟩
      · rw [timeless] at event
        exact absurd event (by decide)
      · intro id hid
        rcases List.mem_append.1 hid with hid | hid
        · exact ⟨a, paired.mem.1, hid⟩
        · exact ⟨b, paired.mem.2, hid⟩
      · intro apart
        exact (apart.nodup a paired.mem.1).append (apart.nodup b paired.mem.2)
          (paired.disjoint apart)
  | @contraposed a c premise drawn =>
    obtain ⟨hocc, hgrounds, _⟩ := contraposeConjunction_grounds drawn
    refine ⟨a.base.ids, ?_, fun event => ?_, fun id hid => ⟨a, premise, hid⟩,
      fun apart => apart.nodup a premise⟩
    · show (c.grounds.foldl EvidenceBase.merge (.own ids.peek)).ids = _
      rw [hgrounds]
      rfl
    · have : (c.number ids.peek).isEvent = c.occurrence.isSome := rfl
      rw [this, hocc] at event
      exact absurd event (by decide)

/-- A timeless sentence with two premises rests on what they rest on. -/
theorem Arises.pair (h : Arises ids done s) (timeless : s.isEvent = false) {i j : SentenceId}
    (parents : s.stamp.parents = [i, j]) : ∃ a ∈ done, ∃ b ∈ done, a.id = i ∧ b.id = j ∧
      s.base.ids = lastOf maxLength (s.id :: (a.base.ids ++ b.base.ids)) := by
  cases h with
  | read parsed =>
    obtain ⟨_, _, _, _, _, rfl⟩ := Sentence.parse_eq_ok.1 parsed
    exact absurd parents (List.cons_ne_nil _ _).symm
  | executed operation cycle => exact absurd parents (List.cons_ne_nil _ _).symm
  | @concluded p a b w function rule c paired drawn =>
    have hparents : [a.id, b.id] = [i, j] :=
      (Standpoint.parents_of_conclude drawn).symm.trans parents
    obtain ⟨rfl, rfl⟩ : a.id = i ∧ b.id = j := by simpa using hparents
    refine ⟨a, paired.mem.1, b, paired.mem.2, rfl, rfl, ?_⟩
    rcases Standpoint.base_of_conclude drawn ids.peek with ⟨event, _⟩ | ⟨_, hbase⟩
    · rw [timeless] at event
      exact absurd event (by decide)
    · exact hbase
  | contraposed premise drawn =>
    obtain ⟨_, _, hparents⟩ := contraposeConjunction_grounds drawn
    have := hparents.symm.trans parents
    exact absurd this (by simp)

/-! ## The invariant -/

/-- What is claimed of the evidence for a sentence in a ledger. -/
structure Rests (l : Ledger) (s : Sentence) : Prop where
  /-- The base is nonempty and short enough, and what is in it has been given out. -/
  grounded : s.Grounded l.ids
  /-- No identity is in the base twice. -/
  nodup : ¬l.ids.IsExhausted → s.base.ids.Nodup
  /-- An event rests on itself alone. -/
  event : s.isEvent = true → s.base.ids = [s.id]
  /-- A timeless conclusion from two premises rests on itself and on what these rest on. -/
  pair : s.isEvent = false → ∀ i j, s.stamp.parents = [i, j] →
    ∃ a ∈ l.known, ∃ b ∈ l.known, a.id = i ∧ b.id = j ∧
      s.base.ids = lastOf maxLength (s.id :: (a.base.ids ++ b.base.ids))

/-- No two sentences are confused, and no sentence is used before it is taken up. -/
structure Distinct (l : Ledger) : Prop where
  /-- No two sentences have the same identity. -/
  ids : (l.known.map Sentence.id).Nodup
  /-- On a sentence that waits, nothing rests but itself. -/
  unused : ∀ w ∈ l.waiting, ∀ s ∈ l.known, w.id ∈ s.base.ids → s.id = w.id
  /-- On a sentence that is done, nothing rests that was done before. -/
  order : l.done.Pairwise fun a b => a.id ∉ b.base.ids

/-- Every sentence in a ledger rests as it should. -/
structure Sound (l : Ledger) : Prop where
  rests : ∀ s ∈ l.known, l.Rests s
  distinct : ¬l.ids.IsExhausted → l.Distinct

theorem sound_empty (ids : IdSupply) : Sound { ids } where
  rests s hs := absurd hs (by simp [known])
  distinct _ := ⟨List.nodup_nil, fun w hw => absurd hw (by simp), .nil⟩

theorem Step.before (h : Step l l') : l.ids.IsBefore l'.ids := by
  cases h with
  | skip => exact l.ids.isBefore_advance
  | enter arises => exact l.ids.isBefore_advance
  | take ids done s waiting => exact ids.isBefore_refl
  | reorder same => exact IdSupply.isBefore_refl _

/-- Nothing gets lost. -/
theorem Step.subset (h : Step l l') : l.known ⊆ l'.known := by
  cases h with
  | skip => exact fun s hs => hs
  | enter arises =>
    intro s hs
    rcases List.mem_append.1 hs with hs | hs
    · exact List.mem_append_left _ hs
    · exact List.mem_append_right _ (List.mem_cons_of_mem _ hs)
  | take ids done s waiting => exact List.perm_middle.subset
  | reorder same => exact (same.append_left _).subset

theorem Rests.mono (h : l.Rests s) (before : l.ids.IsBefore l'.ids) (subset : l.known ⊆ l'.known) :
    l'.Rests s where
  grounded := h.grounded.of_isBefore before
  nodup hx := h.nodup fun hx' => hx (hx'.of_isBefore before)
  event := h.event
  pair timeless i j parents := by
    obtain ⟨a, ha, b, hb, hrest⟩ := h.pair timeless i j parents
    exact ⟨a, subset ha, b, subset hb, hrest⟩

theorem Distinct.ne (h : l.Distinct) (ha : a ∈ l.done) (hb : b ∈ l.waiting) : a.id ≠ b.id := by
  have := h.ids
  rw [known, List.map_append, List.nodup_append] at this
  exact this.2.2 a.id (List.mem_map_of_mem ha) b.id (List.mem_map_of_mem hb)

theorem Sound.apart (h : l.Sound) (hx : ¬l.ids.IsExhausted) : Apart l.done where
  nodup a ha := (h.rests a (List.mem_append_left _ ha)).nodup hx
  event a ha := (h.rests a (List.mem_append_left _ ha)).event
  order := (h.distinct hx).order

/-! ### A sentence enters -/

section Enter

variable {grounds : List SentenceId}

theorem RestsOn.hasGiven (h : RestsOn l.done s grounds) (sound : l.Sound) {id : SentenceId}
    (hid : id ∈ grounds) : l.ids.HasGiven id := by
  obtain ⟨a, ha, hid⟩ := h.known id hid
  exact (sound.rests a (List.mem_append_left _ ha)).grounded.base.given id hid

theorem RestsOn.mem (h : RestsOn done s grounds) {id : SentenceId} (hid : id ∈ s.base.ids) :
    id = s.id ∨ id ∈ grounds := by
  rw [h.base_eq] at hid
  exact List.mem_cons.1 (List.mem_of_mem_drop hid)

theorem Arises.grounded (h : Arises l.ids l.done s) (sound : l.Sound) :
    s.Grounded l.ids.advance := by
  obtain ⟨grounds, hrest⟩ := h.restsOn
  have given : l.ids.advance.HasGiven s.id := by
    rw [h.id_eq]
    exact l.ids.hasGiven_advance
  refine ⟨given, ?_, ?_, ?_⟩
  · rw [hrest.base_eq]
    exact List.ne_nil_of_mem
      (EvidenceBase.getLast_mem_lastOf (by decide) (List.cons_ne_nil s.id grounds))
  · rw [hrest.base_eq, lastOf, List.length_drop]
    omega
  · intro id hid
    rcases hrest.mem hid with rfl | hid
    · exact given
    · exact (hrest.hasGiven sound hid).of_isBefore l.ids.isBefore_advance

theorem Arises.nodup (h : Arises l.ids l.done s) (sound : l.Sound) (hx : ¬l.ids.IsExhausted) :
    s.base.ids.Nodup := by
  obtain ⟨grounds, hrest⟩ := h.restsOn
  have fresh : s.id ∉ grounds := by
    intro hid
    exact (hrest.hasGiven sound hid).ne_peek hx l.ids.isBefore_refl h.id_eq
  rw [hrest.base_eq]
  exact (List.nodup_cons.2 ⟨fresh, hrest.nodup (sound.apart hx)⟩).sublist (List.drop_sublist _ _)

/-- Once the supply is exhausted, a base may hold an identity twice. -/
example :
    let t := Term.relate (.atom "a") .inheritance (.atom "b") 0
    let old := Sentence.fresh t (.judgment .default) ⟨0⟩ none
    let last := Sentence.fresh t (.judgment .default) ⟨0 - 1⟩ none
    (Standpoint.derive ⟨{}, 0⟩ ⟨0 - 1⟩ old last).toOption.map (fun x => x.1.map (·.base.ids)) =
      some [[⟨0 - 1⟩, ⟨0⟩, ⟨0 - 1⟩]] := by decide +kernel

theorem Arises.event (h : Arises ids done s) (event : s.isEvent = true) : s.base.ids = [s.id] := by
  obtain ⟨grounds, hrest⟩ := h.restsOn
  rw [hrest.base_eq, hrest.event event]
  rfl

theorem Sound.rests_enter (sound : l.Sound) (h : Arises l.ids l.done s) :
    Rests ⟨l.ids.advance, l.done, s :: l.waiting⟩ s where
  grounded := h.grounded sound
  nodup hx := h.nodup sound fun hx' => hx (hx'.of_isBefore l.ids.isBefore_advance)
  event := h.event
  pair timeless i j parents := by
    obtain ⟨a, ha, b, hb, hrest⟩ := h.pair timeless parents
    exact ⟨a, List.mem_append_left _ ha, b, List.mem_append_left _ hb, hrest⟩

/-- The identity of a sentence that enters is not among those known. -/
theorem Arises.ne (h : Arises l.ids l.done s) (hx : ¬l.ids.IsExhausted) {id : SentenceId}
    (hid : l.ids.HasGiven id) : id ≠ s.id := by
  rw [h.id_eq]
  exact hid.ne_peek hx l.ids.isBefore_refl

theorem Sound.distinct_enter (sound : l.Sound) (h : Arises l.ids l.done s)
    (hx : ¬l.ids.IsExhausted) : Distinct ⟨l.ids.advance, l.done, s :: l.waiting⟩ := by
  have distinct := sound.distinct hx
  have given : ∀ t ∈ l.known, l.ids.HasGiven t.id := fun t ht => (sound.rests t ht).grounded.given
  refine ⟨?_, ?_, distinct.order⟩
  · have fresh : s.id ∉ l.known.map Sentence.id := by
      intro hid
      obtain ⟨t, ht, heq⟩ := List.mem_map.1 hid
      exact h.ne hx (given t ht) heq
    exact ((List.perm_middle.map Sentence.id).nodup_iff).2
      (List.nodup_cons.2 ⟨fresh, distinct.ids⟩)
  · intro w hw t ht hwt
    obtain ⟨grounds, hrest⟩ := h.restsOn
    have ht : t = s ∨ t ∈ l.known := List.mem_cons.1 (List.perm_middle.subset ht)
    rcases List.mem_cons.1 hw with rfl | before
    · rcases ht with rfl | ht
      · rfl
      · exact absurd rfl (h.ne hx ((sound.rests t ht).grounded.base.given _ hwt))
    · rcases ht with rfl | ht
      · rcases hrest.mem hwt with hid | hid
        · exact hid.symm
        · -- What the new sentence rests on is done, and so it rests on nothing that waits.
          obtain ⟨a, ha, hid⟩ := hrest.known _ hid
          have := distinct.unused w before a (List.mem_append_left _ ha) hid
          exact absurd this (distinct.ne ha before)
      · exact distinct.unused w before t ht hwt

end Enter

/-! ### Steps -/

theorem Distinct.take {waiting : List Sentence} (h : Distinct ⟨ids, done, s :: waiting⟩) :
    Distinct ⟨ids, s :: done, waiting⟩ := by
  have perm : (done ++ s :: waiting).Perm (s :: done ++ waiting) := List.perm_middle
  refine ⟨(perm.map Sentence.id).nodup_iff.1 h.ids, ?_, ?_⟩
  · intro w hw t ht
    exact h.unused w (List.mem_cons_of_mem _ hw) t (perm.symm.subset ht)
  · refine List.pairwise_cons.2 ⟨?_, h.order⟩
    intro b hb hin
    have := h.unused s (by simp) b (List.mem_append_left _ hb) hin
    exact h.ne hb (by simp) this

theorem Distinct.reorder {waiting waiting' : List Sentence} (h : Distinct ⟨ids, done, waiting⟩)
    (same : waiting.Perm waiting') : Distinct ⟨ids, done, waiting'⟩ := by
  have perm : (done ++ waiting).Perm (done ++ waiting') := same.append_left done
  refine ⟨(perm.map Sentence.id).nodup_iff.1 h.ids, ?_, h.order⟩
  intro w hw t ht
  exact h.unused w (same.symm.subset hw) t (perm.symm.subset ht)

theorem Sound.step (h : l.Sound) (step : Step l l') : l'.Sound := by
  have kept : ∀ s ∈ l.known, l'.Rests s := fun s hs => (h.rests s hs).mono step.before step.subset
  have distinct : ¬l'.ids.IsExhausted → ¬l.ids.IsExhausted := fun hx hx' =>
    hx (hx'.of_isBefore step.before)
  cases step with
  | skip =>
    refine ⟨kept, fun hx => ?_⟩
    have same := h.distinct (distinct hx)
    exact ⟨same.ids, same.unused, same.order⟩
  | @enter _ s arises =>
    refine ⟨?_, fun hx => h.distinct_enter arises (distinct hx)⟩
    intro t ht
    rcases List.mem_cons.1 (List.perm_middle.subset ht) with rfl | ht
    · exact h.rests_enter arises
    · exact kept t ht
  | take ids done s waiting =>
    exact ⟨fun t ht => kept t (List.perm_middle.symm.subset ht), fun hx => (h.distinct hx).take⟩
  | reorder same =>
    exact ⟨fun t ht => kept t ((same.symm.append_left _).subset ht),
      fun hx => (h.distinct hx).reorder same⟩

/-! ### Sequences of steps -/

theorem Leads.subset (h : Leads l l') : l.known ⊆ l'.known := by
  induction h with
  | refl => exact fun s hs => hs
  | tail _ step ih => exact fun s hs => step.subset (ih hs)

/-- **Main theorem.** What comes of a sound ledger is sound. -/
theorem Sound.of_leads (h : l.Sound) (leads : Leads l l') : l'.Sound := by
  induction leads with
  | refl => exact h
  | tail _ step ih => exact ih.step step

/-! ### Several sentences at once -/

section Leads

variable {l₀ : Ledger} {waiting waiting' : List Sentence} {p : Standpoint}

theorem Leads.enter (h : l₀.Leads ⟨ids, done, waiting⟩) (arises : Arises ids done s) :
    l₀.Leads ⟨ids.advance, done, s :: waiting⟩ := h.tail (.enter arises)

theorem Leads.take (h : l₀.Leads ⟨ids, done, s :: waiting⟩) :
    l₀.Leads ⟨ids, s :: done, waiting⟩ := h.tail (.take ids done s waiting)

theorem Leads.reorder (h : l₀.Leads ⟨ids, done, waiting⟩) (same : waiting.Perm waiting') :
    l₀.Leads ⟨ids, done, waiting'⟩ := h.tail (.reorder same)

/-- Sentences are given up. -/
theorem Leads.giveUp {dropped : List Sentence} (h : l₀.Leads ⟨ids, done, dropped ++ waiting⟩) :
    ∃ done', done ⊆ done' ∧ l₀.Leads ⟨ids, done', waiting⟩ := by
  induction dropped generalizing done with
  | nil => exact ⟨done, fun s hs => hs, h⟩
  | cons s dropped ih =>
    obtain ⟨done', subset, h'⟩ := ih h.take
    exact ⟨done', fun t ht => subset (List.mem_cons_of_mem _ ht), h'⟩

/-- Conclusions are numbered, and some of them enter. -/
theorem Leads.numberAll {cs : List Conclusion} (h : l₀.Leads ⟨ids, done, waiting⟩)
    (arises : ∀ c ∈ cs, ∀ ids, Arises ids done (c.number ids.peek)) (keep : Sentence → Bool) :
    l₀.Leads ⟨(Conclusion.numberAll ids cs).2, done,
      (Conclusion.numberAll ids cs).1.filter keep ++ waiting⟩ := by
  induction cs generalizing ids waiting with
  | nil => exact h
  | cons c cs ih =>
    have later : ∀ c ∈ cs, ∀ ids, Arises ids done (c.number ids.peek) :=
      fun c hc => arises c (by simp [hc])
    simp only [Conclusion.numberAll]
    by_cases hkeep : keep (c.number ids.peek) = true
    · rw [List.filter_cons_of_pos hkeep]
      exact (ih (h.enter (arises c (by simp) ids)) later).reorder List.perm_middle
    · rw [List.filter_cons_of_neg hkeep]
      exact ih (h.tail (.skip _)) later

theorem Leads.collect {cs : List Conclusion} (h : l₀.Leads ⟨ids, done, waiting⟩)
    (arises : ∀ c ∈ cs, ∀ ids, Arises ids done (c.number ids.peek)) :
    l₀.Leads ⟨(Conclusion.collect ids cs).2, done, (Conclusion.collect ids cs).1 ++ waiting⟩ :=
  h.numberAll arises _

theorem arises_of_infer {cs : List Conclusion} {c : Conclusion} (hs : s ∈ done) (ht : t ∈ done)
    (inferred : p.infer s t = .ok cs) (hc : c ∈ cs) (ids : IdSupply) :
    Arises ids done (c.number ids.peek) := by
  have interact := Standpoint.mayInteract_of_infer inferred
  rcases Standpoint.infer_concludes inferred hc with h | h
  · obtain ⟨function, drawn⟩ := h.drawn
    exact .concluded (.held hs ht (.inl interact)) drawn
  · obtain ⟨function, drawn⟩ := h.drawn
    exact .concluded (.held ht hs (.inr interact)) drawn

theorem arises_of_inferEvents {c : Conclusion} (hs : s ∈ done) (ht : t ∈ done)
    (hc : c ∈ p.inferEvents s t) (ids : IdSupply) : Arises ids done (c.number ids.peek) := by
  obtain ⟨eventS, eventT, different, w, function, rule, drawn⟩ :=
    Standpoint.conclude_of_inferEvents hc
  rcases drawn with drawn | drawn
  · exact .concluded (.observed hs ht eventS eventT different) drawn
  · exact .concluded (.observed ht hs eventT eventS different.symm) drawn

theorem arises_of_revise {c : Conclusion} (paired : Paired done s t) (hc : revise p s t = some c)
    (ids : IdSupply) : Arises ids done (c.number ids.peek) := by
  obtain ⟨function, drawn⟩ := (Standpoint.concludes_of_revise hc).drawn
  exact .concluded paired drawn

end Leads

end Ledger

end NonAxiomatic
