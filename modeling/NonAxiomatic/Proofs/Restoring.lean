import NonAxiomatic.Proofs.EngineSound
import NonAxiomatic.Proofs.RoundTrip

/-!
# Restoring what was kept

Whether an engine can be restored from its own snapshot. A snapshot keeps the statements of an
engine as texts with layouts, and restoring reads these. So it comes down to what the statements are
that an engine stores: they are well-formed, as everything is that is read or concluded
(`Trait.formed`), and no variable occurs in them. But conclusions are not bound to be readable, nor
is what is seen of an operation bound to be a statement.

**Theorem (`Engine.restorable_iff`).** After a run, a new engine takes the snapshot, with statements
equal to the stored ones and layouts that fit, exactly if every stored statement is readable and a
sentence can be about it.
-/

namespace NonAxiomatic

/-! ## What is stored is well-formed -/

theorem Utterance.formed_parse {text : String} {u : Utterance} (h : parse text = .ok u) :
    u.statement.Formed := by
  unfold parse at h
  obtain ⟨⟨statementText, rest⟩, _, h⟩ := bind_eq_ok.1 h
  obtain ⟨statement, hstatement, h⟩ := bind_eq_ok.1 h
  have hformed := Term.formed_parseChars hstatement
  extract_lets finish mark at h
  have finished : ∀ x, finish x = .ok u → u.statement = statement := by
    intro x hx
    obtain ⟨value, _, hx⟩ := bind_eq_ok.1 hx
    obtain rfl := Except.ok.inj hx
    rfl
  have hmark := (guard_eq_ok.1 h).2
  simp only [mark] at hmark
  split at hmark
  · split at hmark
    · obtain ⟨x, _, hx⟩ := bind_eq_ok.1 hmark
      rwa [finished x hx]
    · exact absurd hmark throw_bind_ne_ok
  · exact absurd hmark throw_bind_ne_ok

/-- The trait that the statements of all sentences are well-formed. -/
def Trait.formed : Trait where
  has _ s := s.statement.Formed
  ofOperation := Term.Formed
  later h _ := h
  read h := by
    obtain ⟨u, _, hu, _, _, rfl⟩ := Sentence.parse_eq_ok.1 h
    exact Utterance.formed_parse hu
  concluded hs ht _ hc := hc.allowed.formed hs ht
  succeeded hs ht _ hc := Standpoint.formed_inferEvents hs ht hc
  contraposed hs _ hc := contraposeConjunction_formed hs hc
  pending hs _ _ ho := by
    rcases PendingOperation.operation_ofGoal ho with ho | ⟨_, _, _, ht, ho⟩
    · rw [ho]
      exact hs
    · rw [ht] at hs
      exact hs.operands _ ho
  executed h := h

/-! ## Reading an entry -/

theorem Term.Recalls.withLayout?_eq {u t : Term} (h : u.Recalls t) :
    u.withLayout? t.layout = some t := by
  have htake := h.takeLayout_eq []
  rw [List.append_nil] at htake
  rw [Term.withLayout?, htake]

theorem SnapshotEntry.readStatement_eq_ok {entry : SnapshotEntry} {t : Term} :
    entry.readStatement = .ok t ↔ ∃ u, Term.parse entry.statement = .ok u ∧
      (if entry.intervals.isEmpty then u = t else u.withLayout? entry.intervals = some t) ∧
      t.headsSentence = true := by
  unfold readStatement
  rw [bind_eq_ok]
  have hparse : ∀ u, (Term.parse entry.statement).mapError RestoreError.unreadable = .ok u ↔
      Term.parse entry.statement = .ok u := by
    intro u
    cases Term.parse entry.statement <;> simp [Except.mapError]
  simp only [hparse]
  refine exists_congr fun u => and_congr_right ?_
  intro _
  have hheads : ∀ v : Term, (if v.headsSentence = true then pure v
      else throw (.notSentential v.text) : Except RestoreError Term) = .ok t ↔
        v = t ∧ t.headsSentence = true := by
    intro v
    by_cases hv : v.headsSentence = true
    · rw [if_pos hv]
      constructor
      · intro h
        obtain rfl := Except.ok.inj h
        exact ⟨rfl, hv⟩
      · rintro ⟨rfl, _⟩
        rfl
    · rw [if_neg hv]
      constructor
      · intro h
        exact absurd h throw_ne_ok
      · rintro ⟨rfl, hv'⟩
        exact absurd hv' hv
  split
  · rw [pure_bind, hheads]
  · cases hlayout : u.withLayout? entry.intervals with
    | none => simp
    | some v =>
      simp only [pure_bind, hheads, Option.some.injEq]

/-- The entry of a readable statement is taken exactly if a sentence can be about it. -/
theorem SnapshotEntry.readStatement_ofSentence {s : Sentence} (h : s.statement.Ground)
    (hreadable : s.statement.IsReadable) : (∃ t, (ofSentence s).readStatement = .ok t) ↔
      s.statement.headsSentence = true := by
  obtain ⟨u, hparse, hrecalls⟩ := Term.recalls_parse h hreadable
  have hlayout := hrecalls.withLayout?_eq
  constructor
  · rintro ⟨t, ht⟩
    obtain ⟨v, hv, hfit, hheads⟩ := readStatement_eq_ok.1 ht
    obtain rfl := Except.ok.inj (hparse.symm.trans hv)
    split at hfit
    · rw [← hrecalls.headsSentence_eq, hfit]
      exact hheads
    · obtain rfl := Option.some.inj (hlayout.symm.trans hfit)
      exact hheads
  · intro hheads
    by_cases hempty : s.statement.layout.isEmpty = true
    · refine ⟨u, readStatement_eq_ok.2 ⟨u, hparse, ?_, ?_⟩⟩
      · exact if_pos hempty ▸ rfl
      · rw [hrecalls.headsSentence_eq]
        exact hheads
    · refine ⟨s.statement, readStatement_eq_ok.2 ⟨u, hparse, ?_, hheads⟩⟩
      exact if_neg hempty ▸ hlayout

namespace Engine

variable {σ : Type} {e : Engine σ}

/-- The sentences in the tables of an engine, the beliefs first. -/
def stored (e : Engine σ) : List Sentence :=
  e.memory.toList.flatMap (fun c => c.beliefs.entries) ++
    e.memory.toList.flatMap fun c => c.desires.entries

theorem entries_snapshot (e : Engine σ) :
    e.snapshot.entries = e.stored.map SnapshotEntry.ofSentence := by
  simp only [snapshot, Snapshot.entries, stored, List.map_append, List.map_flatMap]

theorem contains_of_mem_toList {m : Memory} {c : Concept} (h : c ∈ m.toList) : m.Contains c := by
  obtain ⟨⟨key, item⟩, hmem, rfl⟩ := List.mem_map.1 h
  exact ⟨key, item, Std.TreeMap.mem_toList_iff_getElem?_eq_some.1 hmem, rfl⟩

/-- A stored statement has its trait, and no variable occurs in it. -/
theorem Sound.stored {settings : Settings} {T : Trait} (h : e.Sound settings T) {s : Sentence}
    (hs : s ∈ e.stored) : T.has e.ids s ∧ s.statement.mentionsVariable = false := by
  rcases List.mem_append.1 hs with hs | hs
  · obtain ⟨c, hc, hs⟩ := List.mem_flatMap.1 hs
    have hfits := (h.memory.of_contains (contains_of_mem_toList hc)).beliefs.all s hs
    exact ⟨hfits.good, hfits.plain⟩
  · obtain ⟨c, hc, hs⟩ := List.mem_flatMap.1 hs
    have hfits := (h.memory.of_contains (contains_of_mem_toList hc)).desires.all s hs
    exact ⟨hfits.good, hfits.plain⟩

/-! ## Restoring -/

section Restoring

variable [DrawSource σ]

theorem restore_eq_ok {kept : Snapshot} : (∃ x, e.restore kept = .ok x) ↔
    ∀ entry ∈ kept.entries, ∃ t, entry.readStatement = .ok t := by
  unfold restore
  constructor
  · rintro ⟨x, h⟩ entry hentry
    obtain ⟨entries, hentries, _⟩ := bind_eq_ok.1 h
    obtain ⟨y, _, hread⟩ := exists_of_mem_right (mapM_eq_ok.1 hentries).flip hentry
    obtain ⟨t, ht, _⟩ := bind_eq_ok.1 (hread : _ = Except.ok y)
    exact ⟨t, ht⟩
  · intro h
    have hread : ∀ entry ∈ kept.entries, ∃ y : Term × SnapshotEntry,
        (do return (← entry.readStatement, entry) : Except RestoreError _) = .ok y := by
      intro entry hentry
      obtain ⟨t, ht⟩ := h entry hentry
      exact ⟨(t, entry), bind_eq_ok.2 ⟨t, ht, rfl⟩⟩
    obtain ⟨entries, hentries⟩ := exists_forall₂ hread
    exact ⟨_, bind_eq_ok.2 ⟨entries, mapM_eq_ok.2 hentries.flip, rfl⟩⟩

/-- The snapshot of an engine is taken by a new one, and the text of every stored statement is that
of an equal one, which the layout that is kept beside it fits. -/
structure Restorable (e fresh : Engine σ) : Prop where
  /-- The snapshot is taken. -/
  restored : ∃ x, fresh.restore e.snapshot = .ok x
  /-- The stored statements are read. -/
  read : ∀ s ∈ e.stored, ∃ t, Term.parse s.statement.text = .ok t ∧ (t == s.statement) = true ∧
    t.withLayout? s.statement.layout = some s.statement

theorem Sound.restores_iff {settings : Settings} (h : e.Sound settings .formed)
    (fresh : Engine σ) : e.Restorable fresh ↔
      ∀ s ∈ e.stored, s.statement.IsReadable ∧ s.statement.headsSentence = true := by
  have taken : (∃ x, fresh.restore e.snapshot = .ok x) ↔
      ∀ s ∈ e.stored, ∃ t, (SnapshotEntry.ofSentence s).readStatement = .ok t := by
    rw [restore_eq_ok, entries_snapshot, List.forall_mem_map]
  have ground : ∀ s ∈ e.stored, s.statement.Ground :=
    fun s hs => ⟨(h.stored hs).1, (h.stored hs).2⟩
  constructor
  · intro hr s hs
    obtain ⟨t, hparse, hequal, _⟩ := hr.read s hs
    have hreadable := (Term.parse_text_iff (ground s hs)).1 ⟨t, hparse, hequal⟩
    exact ⟨hreadable, (SnapshotEntry.readStatement_ofSentence (ground s hs) hreadable).1
      (taken.1 hr.restored s hs)⟩
  · intro hall
    refine ⟨taken.2 ?_, ?_⟩
    · intro s hs
      obtain ⟨hreadable, hheads⟩ := hall s hs
      exact (SnapshotEntry.readStatement_ofSentence (ground s hs) hreadable).2 hheads
    · intro s hs
      obtain ⟨u, hparse, hrecalls⟩ := Term.recalls_parse (ground s hs) (hall s hs).1
      exact ⟨u, hparse, Term.beq_iff_text_eq.2 hrecalls.text_eq, hrecalls.withLayout?_eq⟩

/-- **Main theorem.** After a run, the snapshot of the engine is restored in a new one exactly if
every stored statement is readable and a sentence can be about it. -/
theorem restorable_iff (settings : Settings) (draws draws' : σ)
    (instructions : List Instruction) :
    (after settings draws instructions).Restorable (start settings draws') ↔
      ∀ s ∈ (after settings draws instructions).stored,
        s.statement.IsReadable ∧ s.statement.headsSentence = true :=
  (sound_after settings .formed draws instructions).restores_iff _

end Restoring

end Engine

end NonAxiomatic
