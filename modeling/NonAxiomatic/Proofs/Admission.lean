import NonAxiomatic.Proofs.Growth
import NonAxiomatic.Proofs.Restoring

/-!
# What a snapshot brings in

An engine is regular (`Engine.Regular`) if it believes judgments and wants goals, all with values in
range. That beliefs are judgments and desires are goals is true after every run
(`Engine.regular_of_inRange`).

A snapshot need not come from an engine. Its entries are put in with the kinds and values that they
have, so that a question goes into the beliefs, and a value that is out of range stays so.

* `Engine.Regular.restoreEntry`: an entry of a regular kind keeps an engine regular.
* `Engine.Roomy.restoreEntry`: with room, nothing that an entry brings in is lost.

**Theorem (`Engine.restore_regular_iff`).** A snapshot keeps all engines regular that take it
exactly if no engine takes it or all of its entries are of regular kinds.
-/

namespace NonAxiomatic

/-! ## Regular engines -/

/-- The frequency lies in the unit interval, and the confidence strictly inside. -/
structure TruthValue.InRange (v : TruthValue Double) : Prop where
  frequency_nonneg : 0.0 ≤ v.frequency
  frequency_le : v.frequency ≤ 1.0
  confidence_pos : 0.0 < v.confidence
  confidence_lt : v.confidence < 1.0

/-- A kind of sentence with a value, which is in range. -/
def SentenceKind.Regular (kind : SentenceKind) : Prop := ∃ v, kind.value? = some v ∧ v.InRange

theorem SentenceKind.Regular.punctuation_ne {kind : SentenceKind} (h : kind.Regular) :
    kind.punctuation ≠ .question := by
  obtain ⟨v, hv, _⟩ := h
  cases kind with
  | judgment | goal => simp [punctuation]
  | question => exact absurd hv (by simp [value?])

/-- All sentences are of one kind, with values in range. -/
def Table.Regular (table : Table) (kind : Punctuation) : Prop :=
  ∀ s ∈ table.entries, s.punctuation = kind ∧ s.kind.Regular

/-- What is believed are judgments, what is wanted are goals, and all values are in range. -/
structure Knowledge.Regular (k : Knowledge) : Prop where
  beliefs : k.beliefs.Regular .judgment
  desires : k.desires.Regular .goal

theorem Knowledge.regular_blank (settings : Settings) (t : Term) :
    (Knowledge.blank settings t).Regular :=
  ⟨fun s hs => absurd hs (by simp [blank, Table.empty]),
    fun s hs => absurd hs (by simp [blank, Table.empty])⟩

namespace Engine

variable {σ : Type} {e e' : Engine σ} {t : Term} {entry : SnapshotEntry} {s : Sentence}

/-- What is known of every term is regular. -/
def Regular (e : Engine σ) : Prop := ∀ key k, e.memory.knowledge? key = some k → k.Regular

/-- The values of everything believed or wanted are in range. -/
def InRange (e : Engine σ) : Prop := ∀ key k, e.memory.knowledge? key = some k →
  ∀ s ∈ k.beliefs.entries ++ k.desires.entries, ∀ v, s.value? = some v → v.InRange

/-! ## Putting entries in -/

/-- What a sentence is put into, with the sentence in it. -/
def shelve (p : Standpoint) (s : Sentence) (k : Knowledge) : Knowledge :=
  if s.isGoal then { k with desires := k.desires.insert p s }
  else { k with beliefs := k.beliefs.insert p s }

theorem knowledge?_store (e : Engine σ) (s : Sentence) (key : String) :
    (e.store s).memory.knowledge? key =
      if key = s.statement.text then (e.memory.knowledge? key).map (shelve e.standpoint s)
      else e.memory.knowledge? key := by
  unfold store
  rw [Memory.knowledge?_modify]
  by_cases hkey : key = s.statement.text
  · rw [if_pos hkey, if_pos hkey, hkey, Memory.knowledge?_text, Option.map_map]
    congr 1
    funext c
    simp only [Function.comp_apply, shelve]
    split <;> rfl
  · rw [if_neg hkey, if_neg hkey]

theorem regular_shelve {k : Knowledge} {p : Standpoint} (h : k.Regular) (hs : s.kind.Regular) :
    (shelve p s k).Regular := by
  unfold shelve
  split
  · rename_i hgoal
    refine ⟨h.beliefs, fun x hx => ?_⟩
    rcases Table.mem_insert hx with hx | rfl
    · exact h.desires x hx
    · exact ⟨by simpa [Sentence.isGoal] using hgoal, hs⟩
  · rename_i hgoal
    refine ⟨fun x hx => ?_, h.desires⟩
    rcases Table.mem_insert hx with hx | rfl
    · exact h.beliefs x hx
    · refine ⟨?_, hs⟩
      have hquestion : x.punctuation ≠ .question := hs.punctuation_ne
      have hgoal : x.punctuation ≠ .goal := by simpa [Sentence.isGoal] using hgoal
      cases hp : x.punctuation with
      | judgment => rfl
      | question => exact absurd hp hquestion
      | goal => exact absurd hp hgoal

theorem Regular.store (h : e.Regular) (hs : s.kind.Regular) : (e.store s).Regular := by
  intro key k hk
  rw [knowledge?_store] at hk
  split at hk
  · obtain ⟨k', hk', rfl⟩ := Option.map_eq_some_iff.1 hk
    exact regular_shelve (h key k' hk') hs
  · exact h key k hk

variable [DrawSource σ]

theorem Regular.conceptualize (h : e.Regular) (t : Term) : (e.conceptualize t).Regular := by
  intro key k hk
  rcases Memory.knowledge?_of_conceptualize t hk with hk | ⟨u, _, rfl⟩
  · exact h key k hk
  · exact Knowledge.regular_blank _ _

theorem Regular.restoreEntry (h : e.Regular) (hkind : entry.kind.Regular) (t : Term) :
    (e.restoreEntry (t, entry)).Regular := by
  have hconceptualized := h.conceptualize t
  unfold Engine.restoreEntry
  dsimp only
  split
  · exact hconceptualized
  · have hadvanced : Regular { e.conceptualize t with ids := (e.conceptualize t).ids.advance } :=
      hconceptualized
    exact hadvanced.store (s := .fresh t entry.kind _ entry.occurrence) hkind

theorem Regular.restoreAll {entries : List (Term × SnapshotEntry)} (h : e.Regular)
    (hkinds : ∀ x ∈ entries, x.2.kind.Regular) : (entries.foldl Engine.restoreEntry e).Regular := by
  induction entries generalizing e with
  | nil => exact h
  | cons x entries ih =>
    exact ih (h.restoreEntry (hkinds x (by simp)) x.1) fun y hy => hkinds y (by simp [hy])

/-- Entries that are all read, with what is read. -/
theorem readAll_eq_ok {kept : List SnapshotEntry} {entries : List (Term × SnapshotEntry)} :
    kept.mapM (fun entry => do return (← entry.readStatement, entry) :
      SnapshotEntry → Except RestoreError (Term × SnapshotEntry)) = .ok entries ↔
    entries.map Prod.snd = kept ∧ ∀ x ∈ entries, x.2.readStatement = .ok x.1 := by
  have hread : ∀ (entry : SnapshotEntry) (x : Term × SnapshotEntry),
      (do return (← entry.readStatement, entry) : Except RestoreError _) = .ok x ↔
        x.2 = entry ∧ x.2.readStatement = .ok x.1 := by
    intro entry x
    rw [bind_eq_ok]
    constructor
    · rintro ⟨t, ht, hx⟩
      obtain rfl := Except.ok.inj hx
      exact ⟨rfl, ht⟩
    · rintro ⟨rfl, hx⟩
      exact ⟨x.1, hx, rfl⟩
  simp only [mapM_eq_ok, hread]
  induction entries generalizing kept with
  | nil => cases kept <;> simp
  | cons x entries ih =>
    cases kept with
    | nil => simp
    | cons entry kept =>
      rw [List.forall₂_cons, List.map_cons, List.cons.injEq, List.forall_mem_cons]
      exact (and_congr_right fun _ => ih).trans (by tauto)

/-- What an engine becomes that takes a snapshot. -/
theorem restore_eq_ok_iff {kept : Snapshot} {count : Nat} : e.restore kept = .ok (count, e') ↔
    ∃ entries : List (Term × SnapshotEntry), entries.map Prod.snd = kept.entries ∧
      (∀ x ∈ entries, x.2.readStatement = .ok x.1) ∧ count = entries.length ∧
      e' = entries.foldl Engine.restoreEntry
        { e with cycle := if e.cycle < kept.cycle then kept.cycle else e.cycle } := by
  unfold restore
  rw [bind_eq_ok]
  simp only [readAll_eq_ok]
  constructor
  · rintro ⟨entries, ⟨hmap, hstatements⟩, heq⟩
    have heq := Except.ok.inj heq
    exact ⟨entries, hmap, hstatements, (congrArg Prod.fst heq).symm, (congrArg Prod.snd heq).symm⟩
  · rintro ⟨entries, hmap, hstatements, rfl, rfl⟩
    exact ⟨entries, ⟨hmap, hstatements⟩, rfl⟩

theorem Regular.restore {kept : Snapshot} {count : Nat} (h : e.Regular)
    (hkinds : ∀ entry ∈ kept.entries, entry.kind.Regular)
    (hr : e.restore kept = .ok (count, e')) : e'.Regular := by
  obtain ⟨entries, hmap, _, _, rfl⟩ := restore_eq_ok_iff.1 hr
  rw [← hmap, List.forall_mem_map] at hkinds
  have hlater :
      Regular { e with cycle := if e.cycle < kept.cycle then kept.cycle else e.cycle } := h
  exact hlater.restoreAll hkinds

/-- After a run, only the values have to be looked at. -/
theorem regular_of_inRange {settings : Settings} {draws : σ} {instructions : List Instruction}
    (h : (after settings draws instructions).InRange) :
    (after settings draws instructions).Regular := by
  intro key k hk
  obtain ⟨c, hc, rfl⟩ := Memory.contains_of_knowledge? hk
  have hsound := (sound_after settings .any draws instructions).memory.of_contains hc
  have hvalue : ∀ s ∈ c.beliefs.entries ++ c.desires.entries, s.punctuation ≠ .question →
      s.kind.Regular := by
    intro s hs hquestion
    obtain ⟨v, hv⟩ := SentenceKind.exists_value? hquestion
    exact ⟨v, hv, h key _ hk s hs v hv⟩
  refine ⟨fun s hs => ?_, fun s hs => ?_⟩
  · have hkind := (hsound.beliefs.all s hs).punctuation_eq
    exact ⟨hkind, hvalue s (List.mem_append_left _ hs) (by simp [hkind])⟩
  · have hkind := (hsound.desires.all s hs).punctuation_eq
    exact ⟨hkind, hvalue s (List.mem_append_right _ hs) (by simp [hkind])⟩

end Engine

/-! ## Room for sentences -/

theorem Table.insert_perm {table : Table} (h : table.entries.length < table.capacity)
    (p : Standpoint) (s : Sentence) : (table.insert p s).entries.Perm (s :: table.entries) := by
  have hall : (stableSort (ranksBefore p) (table.entries ++ [s])).length ≤ table.capacity := by
    rw [length_stableSort, List.length_append]
    exact h
  unfold Table.insert
  dsimp only
  rw [List.take_of_length_le hall]
  exact (stableSort_perm _ _).trans (List.perm_append_singleton s _)

namespace Knowledge

variable {k k' k'' : Knowledge} {n : Nat}

/-- What is believed or wanted. -/
def sentences (k : Knowledge) : List Sentence := k.beliefs.entries ++ k.desires.entries

/-- There is room for so many more sentences in either table. -/
structure HasRoom (k : Knowledge) (n : Nat) : Prop where
  beliefs : k.beliefs.entries.length + n ≤ k.beliefs.capacity
  desires : k.desires.entries.length + n ≤ k.desires.capacity

theorem HasRoom.mono {m : Nat} (h : k.HasRoom n) (hle : m ≤ n) : k.HasRoom m :=
  ⟨Nat.le_trans (by omega) h.beliefs, Nat.le_trans (by omega) h.desires⟩

theorem hasRoom_blank {settings : Settings} (h : n ≤ settings.tableCapacity) (t : Term) :
    (blank settings t).HasRoom n := by
  constructor <;> simp only [blank, Table.empty, List.length_nil] <;> omega

theorem Regular.kind {s : Sentence} (h : k.Regular) (hs : s ∈ k.sentences) : s.kind.Regular := by
  rcases List.mem_append.1 hs with hs | hs
  · exact (h.beliefs s hs).2
  · exact (h.desires s hs).2

/-- With room, a sentence is put beside the others. -/
theorem HasRoom.shelve (h : k.HasRoom (n + 1)) (p : Standpoint) (s : Sentence) :
    (Engine.shelve p s k).HasRoom n ∧
      (Engine.shelve p s k).sentences.Perm (s :: k.sentences) := by
  have hbeliefs : (k.beliefs.insert p s).entries.Perm (s :: k.beliefs.entries) :=
    Table.insert_perm (by have := h.beliefs; omega) p s
  have hdesires : (k.desires.insert p s).entries.Perm (s :: k.desires.entries) :=
    Table.insert_perm (by have := h.desires; omega) p s
  have hmono := h.mono (Nat.le_succ n)
  unfold Engine.shelve
  split
  · refine ⟨⟨hmono.beliefs, ?_⟩, ?_⟩
    · have hroom := h.desires
      rw [hdesires.length_eq, List.length_cons]
      exact Nat.le_trans (by omega) hroom
    · exact (hdesires.append_left _).trans List.perm_middle
  · refine ⟨⟨?_, hmono.desires⟩, hbeliefs.append_right _⟩
    have hroom := h.beliefs
    rw [hbeliefs.length_eq, List.length_cons]
    exact Nat.le_trans (by omega) hroom

end Knowledge

namespace Engine

variable {σ : Type} {e e' e'' : Engine σ} {t : Term} {entry : SnapshotEntry} {s : Sentence}
  {keys : Finset String} {n : Nat}

/-- An engine with room for the concepts of a number of terms, given by their texts, and in each of
their tables for so many more sentences. -/
structure Roomy (keys : Finset String) (n : Nat) (e : Engine σ) : Prop where
  memory : e.memory.Room keys
  known : ∀ key k, e.memory.knowledge? key = some k → k.HasRoom n
  new : n ≤ e.settings.tableCapacity

theorem knowledge?_start (settings : Settings) (draws : σ) (key : String) :
    (start settings draws).memory.knowledge? key = none := by
  rw [Memory.knowledge?, start, Memory.empty, Bag.get?_empty]
  rfl

theorem inRange_start (settings : Settings) (draws : σ) : (start settings draws).InRange := by
  intro key k hk
  rw [knowledge?_start] at hk
  exact absurd hk (by simp)

theorem roomy_start {settings : Settings} (hkeys : keys.card ≤ settings.conceptCapacity)
    (hn : n ≤ settings.tableCapacity) (draws : σ) : (start settings draws).Roomy keys n := by
  refine ⟨⟨?_, Nat.le_trans hkeys (Nat.le_max_left _ _)⟩, ?_, hn⟩
  · intro key hkey
    rw [Memory.contains_eq_isSome_knowledge?, knowledge?_start] at hkey
    exact absurd hkey (by simp)
  · intro key k hk
    rw [knowledge?_start] at hk
    exact absurd hk (by simp)

/-- Whether everything that is believed or wanted in an engine is so in another one. -/
def Covers (e' e : Engine σ) : Prop := ∀ key k, e.memory.knowledge? key = some k →
  ∃ k', e'.memory.knowledge? key = some k' ∧ k.sentences ⊆ k'.sentences

theorem Covers.refl (e : Engine σ) : e.Covers e := fun _ k hk => ⟨k, hk, fun _ hs => hs⟩

theorem Covers.trans (h' : e''.Covers e') (h : e'.Covers e) : e''.Covers e := by
  intro key k hk
  obtain ⟨k', hk', hsub⟩ := h key k hk
  obtain ⟨k'', hk'', hsub'⟩ := h' key k' hk'
  exact ⟨k'', hk'', List.Subset.trans hsub hsub'⟩

/-- Whether a sentence of a kind is believed or wanted. -/
def Has (e : Engine σ) (kind : SentenceKind) : Prop :=
  ∃ key k, e.memory.knowledge? key = some k ∧ ∃ s ∈ k.sentences, s.kind = kind

theorem Has.of_covers {kind : SentenceKind} (h : e.Has kind) (hc : e'.Covers e) :
    e'.Has kind := by
  obtain ⟨key, k, hk, s, hs, hkind⟩ := h
  obtain ⟨k', hk', hsub⟩ := hc key k hk
  exact ⟨key, k', hk', s, hsub hs, hkind⟩

theorem Regular.of_has {kind : SentenceKind} (h : e.Regular) (hhas : e.Has kind) :
    kind.Regular := by
  obtain ⟨key, k, hk, s, hs, rfl⟩ := hhas
  exact (h key k hk).kind hs

theorem Roomy.store (h : e.Roomy keys (n + 1)) (s : Sentence) : (e.store s).Roomy keys n := by
  refine ⟨⟨?_, h.memory.card_le⟩, ?_, Nat.le_trans (Nat.le_succ n) h.new⟩
  · intro key hkey
    apply h.memory.mem
    rw [Memory.contains_eq_isSome_knowledge?, knowledge?_store] at hkey
    rw [Memory.contains_eq_isSome_knowledge?]
    split at hkey
    · rwa [Option.isSome_map] at hkey
    · exact hkey
  · intro key k hk
    rw [knowledge?_store] at hk
    split at hk
    · obtain ⟨k', hk', rfl⟩ := Option.map_eq_some_iff.1 hk
      exact ((h.known key k' hk').shelve e.standpoint s).1
    · exact (h.known key k hk).mono (Nat.le_succ n)

theorem Roomy.covers_store (h : e.Roomy keys (n + 1)) (s : Sentence) : (e.store s).Covers e := by
  intro key k hk
  rw [knowledge?_store, hk]
  split
  · refine ⟨_, rfl, fun x hx => ?_⟩
    have hperm := ((h.known key k hk).shelve e.standpoint s).2
    exact hperm.mem_iff.2 (List.mem_cons_of_mem _ hx)
  · exact ⟨k, rfl, fun _ hx => hx⟩

theorem Roomy.has_store (h : e.Roomy keys (n + 1)) (hs : e.memory.holds s.statement = true) :
    (e.store s).Has s.kind := by
  rw [Memory.holds_eq_isSome_knowledge?, Option.isSome_iff_exists] at hs
  obtain ⟨k, hk⟩ := hs
  refine ⟨s.statement.text, shelve e.standpoint s k, ?_, s, ?_, rfl⟩
  · rw [knowledge?_store, if_pos rfl, hk]
    rfl
  · exact ((h.known _ k hk).shelve e.standpoint s).2.mem_iff.2 List.mem_cons_self

variable [DrawSource σ]

theorem Roomy.conceptualize (h : e.Roomy keys n) (ht : ∀ key ∈ t.keys, key ∈ keys)
    (hvariable : t.isVariable = false) : (e.conceptualize t).Roomy keys n ∧
      (e.conceptualize t).Covers e ∧ (e.conceptualize t).memory.holds t = true := by
  have hmemory : (e.memory, e.draws).1.Room keys := h.memory
  obtain ⟨hroom, hextends, hholds⟩ := hmemory.conceptualize t ht
  refine ⟨⟨hroom, ?_, h.new⟩, fun key k hk => ⟨k, hextends key k hk, fun _ hs => hs⟩,
    hholds hvariable⟩
  intro key k hk
  rcases Memory.knowledge?_of_conceptualize t hk with hk | ⟨u, _, rfl⟩
  · exact h.known key k hk
  · exact Knowledge.hasRoom_blank h.new u

/-- With room, an entry is put in, and everything else stays. -/
theorem Roomy.restoreEntry (h : e.Roomy keys (n + 1)) (entry : SnapshotEntry)
    (ht : ∀ key ∈ t.keys, key ∈ keys) (hvariable : t.isVariable = false) :
    (e.restoreEntry (t, entry)).Roomy keys n ∧
      (e.restoreEntry (t, entry)).Covers e ∧ (e.restoreEntry (t, entry)).Has entry.kind := by
  obtain ⟨hroomy, hcovers, hholds⟩ := h.conceptualize ht hvariable
  unfold Engine.restoreEntry
  simp only [hholds, Bool.not_true, Bool.false_eq_true, if_false]
  have hadvanced : Roomy keys (n + 1)
      { e.conceptualize t with ids := (e.conceptualize t).ids.advance } :=
    ⟨hroomy.memory, hroomy.known, hroomy.new⟩
  exact ⟨hadvanced.store _, Covers.trans (hadvanced.covers_store _) hcovers,
    hadvanced.has_store hholds⟩

theorem Roomy.restoreAll {entries : List (Term × SnapshotEntry)} (h : e.Roomy keys entries.length)
    (hentries : ∀ x ∈ entries, (∀ key ∈ x.1.keys, key ∈ keys) ∧ x.1.isVariable = false) :
    (entries.foldl Engine.restoreEntry e).Covers e ∧
      ∀ x ∈ entries, (entries.foldl Engine.restoreEntry e).Has x.2.kind := by
  induction entries generalizing e with
  | nil => exact ⟨.refl e, by simp⟩
  | cons x entries ih =>
    obtain ⟨t, entry⟩ := x
    obtain ⟨ht, hvariable⟩ := hentries _ List.mem_cons_self
    obtain ⟨hroomy, hcovers, hhas⟩ := h.restoreEntry entry ht hvariable
    obtain ⟨hcovers', hall⟩ := ih hroomy fun y hy => hentries y (List.mem_cons_of_mem _ hy)
    refine ⟨hcovers'.trans hcovers, ?_⟩
    rw [List.forall_mem_cons]
    exact ⟨hhas.of_covers hcovers', hall⟩

end Engine

/-! ## All engines -/

namespace Settings

theorem validate_eq_ok {s : Settings} : s.validate = .ok () ↔
    (0.0 < s.horizon && s.horizon.isFinite) = true ∧
      ∀ name ∈ unitNames ++ capacityNames, s.fault? name = none := by
  rw [← List.findSome?_eq_none_iff, validate]
  cases 0.0 < s.horizon && s.horizon.isFinite with
  | false => simp
  | true => cases (unitNames ++ capacityNames).findSome? s.fault? <;> simp

/-- Whether settings agree in a slot. Whole numbers may differ, but none that is not zero becomes
zero. -/
def AgreeIn (s s' : Settings) : Slot → Prop
  | .real get _ => get s' = get s
  | .count get _ => get s' = 0 → get s = 0
  | .flag get _ => get s' = get s
  | .seed get _ => get s' = get s

theorem fault?_withRoom {s : Settings} {m n : Nat} (hm : 0 < m) (hn : 0 < n) {name : String}
    (h : s.fault? name = none) :
    fault? { s with conceptCapacity := m, tableCapacity := n } name = none := by
  have hfields : ∀ f ∈ fields,
      s.AgreeIn { s with conceptCapacity := m, tableCapacity := n } f.2 := by
    simp only [fields, List.forall_mem_cons, AgreeIn]
    simp
    omega
  unfold fault? at h ⊢
  cases hslot : slot? name with
  | none => rfl
  | some slot =>
    obtain ⟨f, hfound, rfl⟩ := Option.map_eq_some_iff.1 hslot
    have hfield := hfields f (List.mem_of_find?_eq_some hfound)
    rw [hslot] at h
    cases hf : f.2 with
    | real get set =>
      simp only [hf, AgreeIn] at hfield h ⊢
      rw [hfield]
      exact h
    | count get set =>
      simp only [hf, AgreeIn] at hfield h ⊢
      by_cases hzero : get { s with conceptCapacity := m, tableCapacity := n } = 0
      · rw [if_pos (hfield hzero)] at h
        exact absurd h (by simp)
      · rw [if_neg hzero]
    | flag | seed => rfl

/-- Settings stay in range when concepts and sentences are given any other room. -/
theorem validate_withRoom {s : Settings} (h : s.validate = .ok ()) {m n : Nat} (hm : 0 < m)
    (hn : 0 < n) : validate { s with conceptCapacity := m, tableCapacity := n } = .ok () := by
  obtain ⟨hhorizon, hnames⟩ := validate_eq_ok.1 h
  exact validate_eq_ok.2 ⟨hhorizon, fun name hname => fault?_withRoom hm hn (hnames name hname)⟩

theorem validate_default : validate {} = .ok () := by
  refine validate_eq_ok.2 ⟨by decide +kernel, ?_⟩
  have hall : (unitNames ++ capacityNames).all fun name => (fault? {} name).isNone := by
    decide +kernel
  intro name hname
  simpa using List.all_eq_true.1 hall name hname

end Settings

theorem Term.isVariable_of_headsSentence {t : Term} (h : t.headsSentence = true) :
    t.isVariable = false := by
  cases t with
  | atom | compound | statement => rfl
  | var => exact absurd h (by simp [headsSentence])

namespace Engine

variable {σ : Type} [DrawSource σ]

/-- A new engine that is large enough loses nothing of a snapshot that can be read. -/
theorem exists_restore_all (draws : σ) {kept : Snapshot}
    (hread : ∀ entry ∈ kept.entries, ∃ t, entry.readStatement = .ok t) :
    ∃ settings count e', Settings.validate settings = .ok () ∧
      (start settings draws).restore kept = .ok (count, e') ∧
      ∀ entry ∈ kept.entries, e'.Has entry.kind := by
  obtain ⟨⟨_, _⟩, hsome⟩ := (restore_eq_ok (e := start {} draws)).2 hread
  obtain ⟨entries, hmap, hstatements, _, _⟩ := restore_eq_ok_iff.1 hsome
  -- There is room for all entries and for everything that they are about.
  let keys : Finset String := (entries.flatMap fun x => x.1.keys).toFinset
  let settings : Settings :=
    { conceptCapacity := keys.card + 1, tableCapacity := entries.length + 1 }
  have hroomy : Roomy keys entries.length (start settings draws) :=
    roomy_start (Nat.le_succ _) (Nat.le_succ _) draws
  have hlater : Roomy keys entries.length { start settings draws with
      cycle := if (start settings draws).cycle < kept.cycle then kept.cycle
        else (start settings draws).cycle } := ⟨hroomy.memory, hroomy.known, hroomy.new⟩
  have hknown : ∀ x ∈ entries, (∀ key ∈ x.1.keys, key ∈ keys) ∧ x.1.isVariable = false := by
    intro x hx
    obtain ⟨_, _, _, hheads⟩ := SnapshotEntry.readStatement_eq_ok.1 (hstatements x hx)
    refine ⟨fun key hkey => ?_, Term.isVariable_of_headsSentence hheads⟩
    exact List.mem_toFinset.2 (List.mem_flatMap.2 ⟨x, hx, hkey⟩)
  refine ⟨settings, entries.length, _, ?_,
    restore_eq_ok_iff.2 ⟨entries, hmap, hstatements, rfl, rfl⟩, ?_⟩
  · exact Settings.validate_withRoom Settings.validate_default (Nat.succ_pos _) (Nat.succ_pos _)
  · rw [← hmap, List.forall_mem_map]
    exact (hlater.restoreAll hknown).2

/-- **Main theorem.** Every engine with settings in range that has values in range and takes a
snapshot is regular after it, if and only if no engine takes the snapshot or all of its entries are
judgments and goals with values in range. -/
theorem restore_regular_iff (draws : σ) (kept : Snapshot) :
    (∀ settings instructions count e', Settings.validate settings = .ok () →
      (after settings draws instructions).InRange →
      (after settings draws instructions).restore kept = .ok (count, e') → e'.Regular) ↔
    (∃ entry ∈ kept.entries, ∀ t, entry.readStatement ≠ .ok t) ∨
      ∀ entry ∈ kept.entries, entry.kind.Regular := by
  constructor
  · intro hregular
    by_cases hread : ∀ entry ∈ kept.entries, ∃ t, entry.readStatement = .ok t
    · obtain ⟨settings, count, e', hvalid, hrestored, hall⟩ := exists_restore_all draws hread
      have hnew := inRange_start settings draws
      have hresult := hregular settings [] count e' hvalid hnew hrestored
      exact .inr fun entry hentry => hresult.of_has (hall entry hentry)
    · simp only [not_forall, not_exists] at hread
      obtain ⟨entry, hentry, hrefused⟩ := hread
      exact .inl ⟨entry, hentry, hrefused⟩
  · rintro (⟨entry, hentry, hrefused⟩ | hkinds) settings instructions count e' _ hrange hrestored
    · obtain ⟨t, ht⟩ := restore_eq_ok.1 ⟨_, hrestored⟩ entry hentry
      exact absurd ht (hrefused t)
    · exact (regular_of_inRange hrange).restore hkinds hrestored

/-- Bytes may write an entry that is a question. -/
example : (match Snapshot.ofBytes ⟨#[0x4E, 0x41, 0x52, 0x53, 1, 0, 1, 9, 0x28, 0x61, 0x20, 0x2D,
      0x2D, 0x3E, 0x20, 0x62, 0x29, 1, 0, 0, 0]⟩ with
    | .ok kept => kept.entries == [⟨"(a --> b)", .question, none, []⟩]
    | .error _ => false) = true := by
  decide +kernel

end Engine

end NonAxiomatic
