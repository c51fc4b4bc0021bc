import NonAxiomatic.Proofs.Fading
import NonAxiomatic.Proofs.MemorySound
import NonAxiomatic.Proofs.Schema

/-!
# The first entry of a table

A table is put in order when a sentence comes in (`Table.receive`), by the confidence seen from the
cycle of its coming. In this cycle the first entry is the best one (`Table.bestFirst_insert`). It is
not put in order when cycles pass, and then confidence in events fades while confidence in what
happens later grows: of two events that are believed alike, the one of the last cycle comes first,
and the one of a later cycle is the better one when this cycle has come.

Where nothing is an event but questions, nothing fades (`Table.BestFirst.of_isEvent`).

**Theorem (`Table.bestFirst_iff`).** The first entry of every table is the best one in a cycle, if
and only if this is the cycle in which a sentence came in last, or there is room for one entry only,
or no events come in but questions.
-/

namespace NonAxiomatic

namespace Table

/-- Whether no other entry is seen with more confidence than the first one. -/
def BestFirst (p : Standpoint) (table : Table) : Prop :=
  ∀ s, table.best? = some s → ∀ t ∈ table.entries.tail, p.confidence t ≤ p.confidence s

/-- A sentence that comes in. -/
structure Arrival where
  /-- When it comes in. -/
  cycle : Cycle
  /-- Whether it is revised where that is possible, or put in as it is. -/
  revised : Bool
  /-- The sentence. -/
  sentence : Sentence

/-- Take a sentence in. -/
def receive (settings : Settings) (state : Table × IdSupply) (a : Arrival) : Table × IdSupply :=
  let p : Standpoint := ⟨settings, a.cycle⟩
  if a.revised then (state.1.put p a.sentence state.2).2
  else (state.1.insert p a.sentence, state.2)

/-- A new table after sentences have come in. -/
def received (settings : Settings) (capacity : Nat) (ids : IdSupply) (arrivals : List Arrival) :
    Table :=
  (arrivals.foldl (receive settings) (empty capacity, ids)).1

/-- Sentences come in about one statement, in the order of their cycles and the last of them in a
given cycle. Only events of some kinds are among them. -/
structure Course (t : Term) (eventKinds : List Punctuation) (last : Cycle)
    (arrivals : List Arrival) : Prop where
  about : ∀ a ∈ arrivals, (a.sentence.statement == t) = true
  kind : ∀ a ∈ arrivals, a.sentence.isEvent = true → a.sentence.punctuation ∈ eventKinds
  ordered : arrivals.Pairwise fun a b => a.cycle ≤ b.cycle
  last : ∃ before a, arrivals = before ++ [a] ∧ a.cycle = last

variable {settings : Settings} {table : Table} {p : Standpoint}

/-! ## One sentence -/

/-- In the end, a sentence is put in as it is. -/
theorem receive_eq_insert (settings : Settings) (state : Table × IdSupply) (a : Arrival) :
    ∃ rest s, (receive settings state a).1 = insert ⟨settings, a.cycle⟩ rest s := by
  rw [receive]
  split
  · rcases put_cases ⟨settings, a.cycle⟩ state.1 a.sentence state.2 with h | ⟨_, _, _, _, _, _, h⟩
    · exact ⟨_, _, congrArg (·.2.1) h⟩
    · exact ⟨_, _, congrArg (·.2.1) h⟩
  · exact ⟨_, _, rfl⟩

/-- When a sentence is put in, the best entry comes first. -/
theorem bestFirst_insert (hvalid : p.settings.validate = .ok ()) {s : Sentence}
    (hrange : ∀ t ∈ (table.insert p s).entries, ∀ v ∈ t.value?, v.InRange) :
    (table.insert p s).BestFirst p := by
  -- The sort puts the greatest key first; on confidences in the unit interval, the keys order as
  -- the numbers do.
  have hsorted : (table.insert p s).entries.Pairwise fun t u => ranksBefore p t u := by
    refine List.Pairwise.sublist (List.take_sublist _ _) (pairwise_stableSort ?_ ?_ _)
    · intro t u w htu huw
      simp only [ranksBefore, decide_eq_true_eq] at htu huw ⊢
      exact Int.le_trans huw htu
    · intro t u
      simp only [ranksBefore, Bool.or_eq_true, decide_eq_true_eq]
      exact Int.le_total _ _
  intro first hfirst t ht
  obtain ⟨others, hentries⟩ : ∃ others, (table.insert p s).entries = first :: others :=
    List.head?_eq_some_iff.1 hfirst
  rw [hentries] at hsorted ht
  have hbefore := (List.pairwise_cons.1 hsorted).1 t ht
  have hunit : ∀ u ∈ first :: others, (p.confidence u).InUnit := fun u hu =>
    Standpoint.inUnit_confidence hvalid (hrange u (hentries ▸ hu))
  have hfirstUnit := hunit first List.mem_cons_self
  have htUnit := hunit t (List.mem_cons_of_mem _ ht)
  rw [ranksBefore, decide_eq_true_eq, hfirstUnit.unsigned.totalKey, htUnit.unsigned.totalKey]
    at hbefore
  exact (htUnit.le_iff hfirstUnit).2 (Int.ofNat_le.1 hbefore)

/-! ## Runs -/

/-- What holds of all sentences that come in, and of what is revised from such sentences, holds of
all entries. -/
theorem holds_received {may : Sentence → Prop} {arrivals : List Arrival}
    (hcoming : ∀ a ∈ arrivals, may a.sentence)
    (hrevised : ∀ p s t c id, may s → may t → revise p s t = some c → may (c.number id))
    (capacity : Nat) (ids : IdSupply) :
    (received settings capacity ids arrivals).Holds (max capacity 1) may := by
  -- What a table may hold is kept by each arrival, whether it is put in or revised with an entry.
  have hrun : ∀ (arrivals : List Arrival) (state : Table × IdSupply),
      (∀ a ∈ arrivals, may a.sentence) → state.1.Holds (max capacity 1) may →
      (arrivals.foldl (receive settings) state).1.Holds (max capacity 1) may := by
    intro arrivals
    induction arrivals with
    | nil => exact fun _ _ h => h
    | cons a arrivals ih =>
      intro state hcoming h
      have ha := hcoming a List.mem_cons_self
      refine ih _ (fun b hb => hcoming b (List.mem_cons_of_mem _ hb)) ?_
      rw [receive]
      split
      · rcases put_cases ⟨settings, a.cycle⟩ state.1 a.sentence state.2 with
          heq | ⟨partner, hpartner, i, c, _, hc, heq⟩
        · rw [heq]
          exact h.insert ha
        · rw [heq]
          exact (h.eraseIdx i).insert (hrevised _ _ _ _ _ ha (h.all _ hpartner) hc)
      · exact h.insert ha
  exact hrun arrivals _ hcoming (Holds.empty capacity may)

/-- Where no events come in but questions, no event is revised but questions. -/
theorem isQuestion_of_revise {s t : Sentence} {c : Conclusion} {id : SentenceId}
    (hs : s.isEvent = true → s.isQuestion = true) (ht : t.isEvent = true → t.isQuestion = true)
    (h : revise p s t = some c) :
    (c.number id).isEvent = true → (c.number id).isQuestion = true := by
  obtain ⟨_, hnoQuestion, hnoQuestion', w, _, hconclude⟩ := Standpoint.revise_eq_some.1 h
  have hsNever : s.isEvent = false := Bool.eq_false_iff.2 fun hevent =>
    Bool.false_ne_true (hnoQuestion.symm.trans (hs hevent))
  have htNever : t.isEvent = false := Bool.eq_false_iff.2 fun hevent =>
    Bool.false_ne_true (hnoQuestion'.symm.trans (ht hevent))
  obtain ⟨_, _, _, hc⟩ := Standpoint.conclude_eq_some.1 hconclude
  have hnever : c.occurrence = none := by
    rw [hc]
    simp [hsNever, htNever]
  intro hevent
  rw [Sentence.isEvent, show (c.number id).occurrence = c.occurrence from rfl, hnever] at hevent
  exact absurd hevent (by simp)

/-! ## Later cycles -/

/-- Of at most one entry, none is behind the first one. -/
theorem BestFirst.of_length_le (h : table.entries.length ≤ 1) : table.BestFirst p := by
  intro s _ t ht
  have hlength := List.length_pos_of_mem ht
  rw [List.length_tail] at hlength
  omega

/-- Where no entries are events but questions, the first entry stays the best one. -/
theorem BestFirst.of_isEvent (h : table.BestFirst p)
    (hnever : ∀ s ∈ table.entries, s.isEvent = true → s.isQuestion = true) (now : Cycle) :
    table.BestFirst { p with now } := by
  intro s hs t ht
  have hsMem := List.mem_of_mem_head? hs
  rw [Standpoint.confidence_of_isEvent p now (hnever s hsMem),
    Standpoint.confidence_of_isEvent p now (hnever t (List.mem_of_mem_tail ht))]
  exact h s hs t ht

/-- An event that is believed or wanted with the usual confidence. -/
def usualEvent (t : Term) (kind : Punctuation) (time : Cycle) : Sentence :=
  .fresh t (if kind = .goal then .goal .default else .judgment .default) ⟨0⟩ (some time)

/-- In the last cycle, an event of this cycle comes in, and one of a later cycle. -/
def rivals (t : Term) (kind : Punctuation) (last now : Cycle) : List Arrival :=
  [⟨last, false, usualEvent t kind last⟩, ⟨last, false, usualEvent t kind now⟩]

theorem value?_usualEvent (t : Term) (kind : Punctuation) (time : Cycle) :
    (usualEvent t kind time).value? = some .default := by
  rw [usualEvent]
  split <;> rfl

theorem punctuation_usualEvent {kind : Punctuation} (t : Term) (hkind : kind ≠ .question)
    (time : Cycle) : (usualEvent t kind time).punctuation = kind := by
  cases kind with
  | judgment | goal => rfl
  | question => exact absurd rfl hkind

theorem course_rivals {kind : Punctuation} {eventKinds : List Punctuation} (t : Term)
    (hkind : kind ≠ .question) (hmem : kind ∈ eventKinds) (last now : Cycle) :
    Course t eventKinds last (rivals t kind last now) := by
  have hall : ∀ a ∈ rivals t kind last now, ∃ time, a.sentence = usualEvent t kind time := by
    intro a ha
    simp only [rivals, List.mem_cons, List.not_mem_nil, or_false] at ha
    obtain rfl | rfl := ha
    · exact ⟨_, rfl⟩
    · exact ⟨_, rfl⟩
  refine ⟨fun a ha => ?_, fun a ha _ => ?_, ?_,
    [⟨last, false, usualEvent t kind last⟩], _, rfl, rfl⟩
  · obtain ⟨time, h⟩ := hall a ha
    rw [h]
    exact Term.beq_iff_text_eq.2 rfl
  · obtain ⟨time, h⟩ := hall a ha
    rw [h, punctuation_usualEvent t hkind]
    exact hmem
  · exact .cons (fun b hb => by
      obtain rfl := List.mem_singleton.1 hb
      exact UInt64.le_refl _) (List.pairwise_singleton _ _)

theorem confidence_usualEvent (p : Standpoint) (t : Term) (kind : Punctuation) :
    p.confidence (usualEvent t kind p.now) = 0.9 :=
  Standpoint.confidence_eq (value?_usualEvent t kind p.now) rfl

theorem not_le_confidence_usualEvent (hvalid : p.settings.validate = .ok ()) (t : Term)
    (kind : Punctuation) {time : Cycle} (hne : time ≠ p.now) :
    ¬ (0.9 : Double) ≤ p.confidence (usualEvent t kind time) :=
  Standpoint.not_le_confidence hvalid (value?_usualEvent t kind time) rfl hne

theorem inRange_default : TruthValue.default.InRange where
  frequency_nonneg := by decide
  frequency_le := by decide
  confidence_pos := by decide
  confidence_lt := by decide

theorem inRange_usualEvent (t : Term) (kind : Punctuation) (time : Cycle) :
    ∀ v ∈ (usualEvent t kind time).value?, v.InRange := by
  intro v hv
  rw [value?_usualEvent] at hv
  obtain rfl := Option.some.inj hv
  exact inRange_default

/-- Of the two events, the one of the cycle in which they come in is put first. -/
theorem received_rivals (hvalid : settings.validate = .ok ()) {capacity : Nat}
    (hroom : 1 < capacity) (t : Term) (kind : Punctuation) (ids : IdSupply) {last now : Cycle}
    (hne : now ≠ last) :
    (received settings capacity ids (rivals t kind last now)).entries =
      [usualEvent t kind last, usualEvent t kind now] := by
  let p : Standpoint := ⟨settings, last⟩
  -- Seen from the first event's cycle, the second one has faded, and so stands behind it.
  have hlate : (p.confidence (usualEvent t kind now)).InUnit :=
    Standpoint.inUnit_confidence hvalid (inRange_usualEvent t kind now)
  have hless : (p.confidence (usualEvent t kind now)).bits.toNat ≤ (0.9 : Double).bits.toNat := by
    have hnot := not_le_confidence_usualEvent (p := p) hvalid t kind hne
    rw [Double.inUnit_nine_tenths.le_iff hlate] at hnot
    omega
  have hranks : ranksBefore p (usualEvent t kind last) (usualEvent t kind now) = true := by
    rw [ranksBefore, decide_eq_true_eq, confidence_usualEvent p t kind, hlate.unsigned.totalKey,
      Double.inUnit_nine_tenths.unsigned.totalKey]
    exact Int.ofNat_le.2 hless
  have hmax : max capacity 1 = capacity := Nat.max_eq_left hroom.le
  have hfirst : ((empty capacity).insert p (usualEvent t kind last)).entries =
      [usualEvent t kind last] := by
    show List.take (max capacity 1) _ = _
    rw [hmax, List.take_of_length_le]
    · rfl
    · exact hroom.le
  show List.take (max capacity 1) (stableSort (ranksBefore p)
    (((empty capacity).insert p (usualEvent t kind last)).entries ++ [usualEvent t kind now])) = _
  rw [hfirst, hmax, stableSort_of_pairwise, List.take_of_length_le]
  · rfl
  · exact hroom
  · exact .cons (fun s hs => by
      obtain rfl := List.mem_singleton.1 hs
      exact hranks) (List.pairwise_singleton _ _)

/-- **Main theorem.** With valid settings, the first entry of all tables with values in range is the
best one in a cycle, exactly if this is the last cycle in which a sentence came in, or there is room
for one entry only, or no events come in but questions. -/
theorem bestFirst_iff (hvalid : settings.validate = .ok ()) (capacity : Nat) (t : Term)
    (eventKinds : List Punctuation) (ids : IdSupply) (last now : Cycle) :
    (∀ arrivals, Course t eventKinds last arrivals →
      (∀ s ∈ (received settings capacity ids arrivals).entries, ∀ v ∈ s.value?, v.InRange) →
      (received settings capacity ids arrivals).BestFirst ⟨settings, now⟩) ↔
    now = last ∨ capacity ≤ 1 ∨ ∀ kind ∈ eventKinds, kind = .question := by
  constructor
  · intro hall
    by_contra hnone
    rw [not_or, not_or] at hnone
    obtain ⟨hne, hroom, hkinds⟩ := hnone
    push Not at hkinds
    obtain ⟨kind, hmem, hkind⟩ := hkinds
    -- Of the two events, the one that is put second is the better one when its cycle has come.
    have hentries := received_rivals hvalid (not_le.1 hroom) t kind ids hne
    have hbest := hall _ (course_rivals t hkind hmem last now) (by
      intro s hs
      rw [hentries] at hs
      simp only [List.mem_cons, List.not_mem_nil, or_false] at hs
      obtain rfl | rfl := hs
      · exact inRange_usualEvent t kind last
      · exact inRange_usualEvent t kind now)
    have hle := hbest (usualEvent t kind last) (by rw [best?, hentries]; rfl)
      (usualEvent t kind now) (by rw [hentries]; exact List.mem_cons_self)
    rw [confidence_usualEvent ⟨settings, now⟩ t kind] at hle
    exact not_le_confidence_usualEvent (p := ⟨settings, now⟩) hvalid t kind (Ne.symm hne) hle
  · intro hwhen arrivals hcourse hrange
    obtain ⟨before, a, rfl, rfl⟩ := hcourse.last
    obtain ⟨rest, s, hinsert⟩ := receive_eq_insert settings
      (before.foldl (receive settings) (empty capacity, ids)) a
    have hreceived : received settings capacity ids (before ++ [a]) =
        rest.insert ⟨settings, a.cycle⟩ s := by
      rw [received, List.foldl_append]
      exact hinsert
    -- Whatever comes in last puts the table in order; only the passing of cycles can undo this.
    have hbest :
        (received settings capacity ids (before ++ [a])).BestFirst ⟨settings, a.cycle⟩ := by
      rw [hreceived] at hrange ⊢
      exact bestFirst_insert (p := ⟨settings, a.cycle⟩) hvalid hrange
    rcases hwhen with rfl | hroom | hkinds
    · exact hbest
    · have hheld : (received settings capacity ids (before ++ [a])).Holds (max capacity 1)
          fun _ => True :=
        holds_received (fun _ _ => trivial) (fun _ _ _ _ _ _ _ _ => trivial) capacity ids
      exact BestFirst.of_length_le (hheld.length_le.trans (max_le hroom le_rfl))
    · have hheld : (received settings capacity ids (before ++ [a])).Holds (max capacity 1)
          fun s => s.isEvent = true → s.isQuestion = true := by
        refine holds_received ?_ ?_ capacity ids
        · intro b hb hevent
          rw [Sentence.isQuestion, hkinds _ (hcourse.kind b hb hevent)]
          rfl
        · intro _ u v c id hu hv hrevise
          exact isQuestion_of_revise hu hv hrevise
      exact hbest.of_isEvent hheld.all now

/-- With the default settings and some room, judgments about what happens lose their order in one
cycle. -/
theorem not_bestFirst_default :
    Settings.validate {} = .ok () ∧
      ¬ ∀ arrivals, Course (.atom "rain") [.judgment] 0 arrivals →
        (∀ s ∈ (received {} 5 {} arrivals).entries, ∀ v ∈ s.value?, v.InRange) →
        (received {} 5 {} arrivals).BestFirst ⟨{}, 1⟩ :=
  ⟨Settings.validate_default, fun hall => absurd
    ((bestFirst_iff Settings.validate_default 5 (.atom "rain") [.judgment] {} 0 1).1 hall)
    (by decide)⟩

end Table

end NonAxiomatic
