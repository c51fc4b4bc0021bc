import NonAxiomatic.Proofs.Admission
import NonAxiomatic.Proofs.Layouts
import NonAxiomatic.Proofs.Restoring

/-!
# What a restored engine holds

What is kept of a sentence (`Sentence.Content`) is its statement with all intervals, its kind with
its value, and when it happens. The contents under a key are those of the beliefs or of the desires
of a concept.

Entries are put in one after the other. With room for all concepts and sentences, what is held is,
in every table, what has been put in so far for this table (`Engine.HoldsExactly`); making concepts
neither adds nor loses any of it. So the order of the entries does not matter.

**Theorem (`Engine.recovered_iff`).** After a run whose statements can be read back, a new engine
with room for them takes the snapshot and then holds in every table what the engine held in it, if
and only if a sentence can be about every stored statement.
-/

namespace NonAxiomatic

/-! ## Contents -/

/-- What is kept of a sentence. -/
structure Sentence.Content where
  /-- The statement, with its intervals. -/
  statement : Term
  /-- What is done with the statement, and its value. -/
  kind : SentenceKind
  /-- When the statement happens. -/
  occurrence : Option Cycle

/-- What is kept of a sentence. -/
def Sentence.content (s : Sentence) : Sentence.Content := ⟨s.statement, s.kind, s.occurrence⟩

/-- What an entry keeps, with the statement that has been read. -/
def Sentence.Content.ofEntry (x : Term × SnapshotEntry) : Sentence.Content :=
  ⟨x.1, x.2.kind, x.2.occurrence⟩

/-- Whether a content is about the term of a key, and wanted or not. -/
def Sentence.Content.isIn (c : Sentence.Content) (key : String) (wanted : Bool) : Bool :=
  c.statement.text == key && (c.kind.punctuation == .goal) == wanted

/-- What is wanted, or what is believed. -/
def Knowledge.table (k : Knowledge) (wanted : Bool) : Table :=
  if wanted then k.desires else k.beliefs

namespace Engine

variable {σ : Type} {e e' : Engine σ}

/-- The contents of one of the tables of a concept; none where there is no concept. -/
def contents (e : Engine σ) (key : String) (wanted : Bool) : List Sentence.Content :=
  match e.memory.knowledge? key with
  | some k => (k.table wanted).entries.map Sentence.content
  | none => []

theorem contents_of_knowledge? {key : String} {k : Knowledge} (h : e.memory.knowledge? key = some k)
    (wanted : Bool) : e.contents key wanted = (k.table wanted).entries.map Sentence.content := by
  rw [contents, h]

theorem contents_of_eq_none {key : String} (h : e.memory.knowledge? key = none) (wanted : Bool) :
    e.contents key wanted = [] := by
  rw [contents, h]

/-- An engine in the same cycle that holds the same in every table, in any order. -/
structure Recovers (e' e : Engine σ) : Prop where
  cycle_eq : e'.cycle = e.cycle
  contents_perm : ∀ key wanted, (e'.contents key wanted).Perm (e.contents key wanted)

end Engine

/-! ## What an engine stores, table by table -/

/-- What is listed for one key is found among what is listed for all of them. -/
theorem Bag.flatMap_toList {α β : Type} (b : Bag α) (key : String) (f : Item α → List β) :
    (b.toList.flatMap fun x => if x.1 = key then f x.2 else []) =
      match b.get? key with
      | some item => f item
      | none => [] := by
  have hnil : ∀ l : List (String × Item α), (∀ x ∈ l, x.1 ≠ key) →
      (l.flatMap fun x => if x.1 = key then f x.2 else []) = [] := by
    intro l hl
    rw [List.flatMap_eq_nil_iff]
    exact fun x hx => if_neg (hl x hx)
  have hmem : ∀ k item, (k, item) ∈ b.toList ↔ b.get? k = some item :=
    fun _ _ => Std.TreeMap.mem_toList_iff_getElem?_eq_some
  cases hget : b.get? key with
  | none =>
    refine hnil _ fun x hx hkey => ?_
    have hx' := (hmem x.1 x.2).1 hx
    rw [hkey, hget] at hx'
    exact absurd hx' (by simp)
  | some item =>
    -- The key is listed once.
    obtain ⟨before, behind, hlist⟩ := List.append_of_mem ((hmem key item).2 hget)
    have hdistinct : b.toList.Pairwise fun x y => ¬compare x.1 y.1 = .eq :=
      Std.TreeMap.distinct_keys_toList
    rw [hlist, List.pairwise_append, List.pairwise_cons] at hdistinct
    obtain ⟨_, ⟨hbehind, _⟩, hbefore⟩ := hdistinct
    have hne : ∀ x y : String, ¬compare x y = .eq → x ≠ y := by
      rintro x _ h rfl
      exact h Std.ReflCmp.compare_self
    rw [hlist, List.flatMap_append, List.flatMap_cons, if_pos rfl,
      hnil before fun x hx => hne _ _ (hbefore x hx _ List.mem_cons_self),
      hnil behind fun x hx => (hne _ _ (hbehind x hx)).symm, List.nil_append, List.append_nil]

/-- The contents of a table with sentences of one kind about one term. -/
theorem Table.filter_contents {table : Table} {text : String} {w : Bool}
    (h : ∀ s ∈ table.entries, s.statement.text = text ∧ s.isGoal = w) (key : String)
    (wanted : Bool) : (table.entries.map Sentence.content).filter (·.isIn key wanted) =
      if text = key then if w = wanted then table.entries.map Sentence.content else [] else [] := by
  have hisIn : ∀ c ∈ table.entries.map Sentence.content,
      c.isIn key wanted = (text == key && w == wanted) := by
    intro c hc
    obtain ⟨s, hs, rfl⟩ := List.mem_map.1 hc
    obtain ⟨htext, hgoal⟩ := h s hs
    rw [← htext, ← hgoal]
    rfl
  by_cases hkey : text = key
  · rw [if_pos hkey]
    by_cases hw : w = wanted
    · rw [if_pos hw, List.filter_eq_self]
      intro c hc
      rw [hisIn c hc]
      simp [hkey, hw]
    · rw [if_neg hw, List.filter_eq_nil_iff]
      intro c hc
      rw [hisIn c hc]
      simp [hw]
  · rw [if_neg hkey, List.filter_eq_nil_iff]
    intro c hc
    rw [hisIn c hc]
    simp [hkey]

namespace Engine

variable {σ : Type} {e : Engine σ} {settings : Settings} {T : Trait}

theorem Sound.of_table (h : e.Sound settings T) {c : Concept} (hc : e.memory.Contains c)
    (w : Bool) :
    (∀ s ∈ (c.knowledge.table w).entries, s.statement.text = c.term.text ∧ s.isGoal = w) ∧
      (c.knowledge.table w).entries.length ≤ max settings.tableCapacity 1 := by
  have hsound := h.memory.of_contains hc
  cases w with
  | false =>
    refine ⟨fun s hs => ?_, hsound.beliefs.length_le⟩
    have hfits := hsound.beliefs.all s hs
    exact ⟨Term.beq_iff_text_eq.1 hfits.about, by rw [Sentence.isGoal, hfits.punctuation_eq]; rfl⟩
  | true =>
    refine ⟨fun s hs => ?_, hsound.desires.length_le⟩
    have hfits := hsound.desires.all s hs
    exact ⟨Term.beq_iff_text_eq.1 hfits.about, by rw [Sentence.isGoal, hfits.punctuation_eq]; rfl⟩

theorem Sound.length_contents_le (h : e.Sound settings T) (key : String) (wanted : Bool) :
    (e.contents key wanted).length ≤ max settings.tableCapacity 1 := by
  cases hk : e.memory.knowledge? key with
  | none =>
    rw [contents_of_eq_none hk]
    exact Nat.zero_le _
  | some k =>
    obtain ⟨c, hc, rfl⟩ := Memory.contains_of_knowledge? hk
    rw [contents_of_knowledge? hk, List.length_map]
    exact (h.of_table hc wanted).2

/-- All that is stored of one kind, table by table. -/
theorem Sound.filter_tables (h : e.Sound settings T) (w : Bool) (key : String) (wanted : Bool) :
    ((e.memory.toList.flatMap fun c => (c.knowledge.table w).entries).map
      Sentence.content).filter (·.isIn key wanted) =
        if w = wanted then e.contents key wanted else [] := by
  have hitem : ∀ x ∈ e.memory.concepts.toList,
      ((x.2.value.knowledge.table w).entries.map Sentence.content).filter (·.isIn key wanted) =
        if x.1 = key then if w = wanted then
          (x.2.value.knowledge.table w).entries.map Sentence.content else [] else [] := by
    rintro ⟨k, item⟩ hx
    have hget : e.memory.concepts.get? k = some item :=
      Std.TreeMap.mem_toList_iff_getElem?_eq_some.1 hx
    rw [(h.memory.concepts.all k item hget).1]
    exact Table.filter_contents (h.of_table ⟨k, item, hget, rfl⟩ w).1 key wanted
  have hfound := Bag.flatMap_toList e.memory.concepts key fun item =>
    if w = wanted then (item.value.knowledge.table w).entries.map Sentence.content else []
  rw [List.map_flatMap, List.filter_flatMap, Memory.toList, List.flatMap_map,
    List.flatMap_congr hitem, hfound, contents, Memory.knowledge?]
  by_cases hw : w = wanted
  · subst hw
    simp only [if_true]
    cases e.memory.concepts.get? key <;> rfl
  · simp only [if_neg hw]
    cases e.memory.concepts.get? key <;> rfl

theorem Sound.filter_stored (h : e.Sound settings T) (key : String) (wanted : Bool) :
    (e.stored.map Sentence.content).filter (·.isIn key wanted) = e.contents key wanted := by
  have hbeliefs := h.filter_tables false key wanted
  have hdesires := h.filter_tables true key wanted
  rw [Engine.stored, List.map_append, List.filter_append]
  refine (congrArg₂ (· ++ ·) hbeliefs hdesires).trans ?_
  cases wanted with
  | false => exact List.append_nil _
  | true => exact List.nil_append _

end Engine

/-! ## Putting entries in -/

/-- Changing a concept takes no room. -/
theorem Memory.Room.modify {m : Memory} {keys : Finset String} (h : m.Room keys) (t : Term)
    (f : Concept → Concept) : (m.modify t f).Room keys := by
  refine ⟨fun key hkey => h.mem key ?_, h.card_le⟩
  rw [Bag.contains_eq_isSome, Memory.modify, Bag.get?_modify] at hkey
  rw [Bag.contains_eq_isSome]
  split at hkey
  · rwa [Option.isSome_map] at hkey
  · exact hkey

namespace Engine

variable {σ : Type} {e : Engine σ} {settings : Settings} {keys : Finset String} {cycle : Cycle}
  {held : List Sentence.Content} {t : Term} {s : Sentence}

theorem table_shelve (p : Standpoint) (s : Sentence) (k : Knowledge) (wanted : Bool) :
    (shelve p s k).table wanted =
      if s.isGoal = wanted then (k.table wanted).insert p s else k.table wanted := by
  unfold shelve
  cases s.isGoal <;> cases wanted <;> rfl

/-- An engine that holds certain contents, each of them in the table that it belongs into, and that
has room for the concepts of a number of terms. -/
structure HoldsExactly (settings : Settings) (cycle : Cycle) (keys : Finset String)
    (held : List Sentence.Content) (e : Engine σ) : Prop where
  settings_eq : e.settings = settings
  cycle_eq : e.cycle = cycle
  memory : e.memory.Room keys
  capacity_eq : ∀ key k, e.memory.knowledge? key = some k → ∀ wanted,
    (k.table wanted).capacity = max settings.tableCapacity 1
  contents_perm : ∀ key wanted, (e.contents key wanted).Perm (held.filter (·.isIn key wanted))

theorem holdsExactly_start (settings : Settings) (draws : σ) (cycle : Cycle)
    (hkeys : keys.card ≤ settings.conceptCapacity) :
    HoldsExactly settings cycle keys [] { start settings draws with cycle } where
  settings_eq := rfl
  cycle_eq := rfl
  memory := (roomy_start (n := 0) hkeys (Nat.zero_le _) draws).memory
  capacity_eq key k hk := by
    have hnone := knowledge?_start settings draws key
    exact absurd (hnone.symm.trans hk) (by simp)
  contents_perm key wanted := by
    have hnone : ({ start settings draws with cycle } : Engine σ).memory.knowledge? key = none :=
      knowledge?_start settings draws key
    rw [contents_of_eq_none hnone]
    exact List.Perm.nil

theorem HoldsExactly.store (h : e.HoldsExactly settings cycle keys held)
    (hthere : e.memory.holds s.statement = true)
    (hroom : (held.filter (·.isIn s.statement.text s.isGoal)).length <
      max settings.tableCapacity 1) :
    (e.store s).HoldsExactly settings cycle keys (s.content :: held) where
  settings_eq := h.settings_eq
  cycle_eq := h.cycle_eq
  memory := h.memory.modify s.statement _
  capacity_eq key k hk wanted := by
    rw [knowledge?_store] at hk
    split at hk
    · obtain ⟨k', hk', rfl⟩ := Option.map_eq_some_iff.1 hk
      rw [table_shelve]
      split <;> exact h.capacity_eq key k' hk' wanted
    · exact h.capacity_eq key k hk wanted
  contents_perm key wanted := by
    rw [Memory.holds_eq_isSome_knowledge?, Option.isSome_iff_exists] at hthere
    obtain ⟨k, hk⟩ := hthere
    have hperm := h.contents_perm key wanted
    have hbelongs : s.content.isIn key wanted =
        (s.statement.text == key && s.isGoal == wanted) := rfl
    have hstored := knowledge?_store e s key
    by_cases hkey : key = s.statement.text
    · subst hkey
      rw [if_pos rfl, hk, Option.map_some] at hstored
      rw [contents_of_knowledge? hk] at hperm
      rw [contents_of_knowledge? hstored, table_shelve]
      by_cases hwanted : s.isGoal = wanted
      · subst hwanted
        have hlength := hperm.length_eq
        rw [List.length_map] at hlength
        have hfits : (k.table s.isGoal).entries.length < (k.table s.isGoal).capacity := by
          rw [h.capacity_eq _ k hk, hlength]
          exact hroom
        have hinsert := Table.insert_perm hfits e.standpoint s
        rw [if_pos rfl, List.filter_cons_of_pos (by simp [hbelongs])]
        exact (hinsert.map Sentence.content).trans (hperm.cons s.content)
      · rw [if_neg hwanted, List.filter_cons_of_neg (by simp [hbelongs, hwanted])]
        exact hperm
    · rw [if_neg hkey] at hstored
      rw [List.filter_cons_of_neg (by simp [hbelongs, Ne.symm hkey]), contents, hstored]
      exact hperm

variable [DrawSource σ]

/-- Making concepts changes nothing of what is held. -/
theorem HoldsExactly.conceptualize (h : e.HoldsExactly settings cycle keys held)
    (ht : ∀ key ∈ t.keys, key ∈ keys) (hvariable : t.isVariable = false) :
    (e.conceptualize t).HoldsExactly settings cycle keys held ∧
      (e.conceptualize t).memory.holds t = true := by
  have hmemory : (e.memory, e.draws).1.Room keys := h.memory
  obtain ⟨hroom, hextends, hholds⟩ := hmemory.conceptualize t ht
  have hnew : ∀ key k, (e.conceptualize t).memory.knowledge? key = some k →
      e.memory.knowledge? key = some k ∨ ∃ u, k = .blank settings u := by
    intro key k hk
    rcases Memory.knowledge?_of_conceptualize t hk with hk | ⟨u, _, rfl⟩
    · exact .inl hk
    · exact .inr ⟨u, by rw [h.settings_eq]⟩
  refine ⟨⟨h.settings_eq, h.cycle_eq, hroom, fun key k hk wanted => ?_, fun key wanted => ?_⟩,
    hholds hvariable⟩
  · rcases hnew key k hk with hk | ⟨u, rfl⟩
    · exact h.capacity_eq key k hk wanted
    · cases wanted <;> rfl
  -- A concept that is new has empty tables, and one that was there is not replaced.
  · have hsame : (e.conceptualize t).contents key wanted = e.contents key wanted := by
      cases hknown : e.memory.knowledge? key with
      | some k =>
        rw [contents_of_knowledge? hknown, contents_of_knowledge? (hextends key k hknown)]
      | none =>
        rw [contents_of_eq_none hknown]
        cases hlater : (e.conceptualize t).memory.knowledge? key with
        | none => exact contents_of_eq_none hlater wanted
        | some k =>
          rw [contents_of_knowledge? hlater]
          rcases hnew key k hlater with hk | ⟨u, rfl⟩
          · exact absurd (hknown.symm.trans hk) (by simp)
          · cases wanted <;> rfl
    rw [hsame]
    exact h.contents_perm key wanted

/-- With room, an entry is put in beside what is held. -/
theorem HoldsExactly.restoreEntry (h : e.HoldsExactly settings cycle keys held)
    (entry : SnapshotEntry) (ht : ∀ key ∈ t.keys, key ∈ keys) (hvariable : t.isVariable = false)
    (hroom : ∀ key wanted, ((.ofEntry (t, entry) :: held).filter (·.isIn key wanted)).length ≤
      max settings.tableCapacity 1) :
    (e.restoreEntry (t, entry)).HoldsExactly settings cycle keys (.ofEntry (t, entry) :: held) := by
  obtain ⟨hconcepts, hholds⟩ := h.conceptualize ht hvariable
  unfold Engine.restoreEntry
  simp only [hholds, Bool.not_true, Bool.false_eq_true, if_false]
  have hadvanced : HoldsExactly settings cycle keys held
      { e.conceptualize t with ids := (e.conceptualize t).ids.advance } :=
    ⟨hconcepts.settings_eq, hconcepts.cycle_eq, hconcepts.memory, hconcepts.capacity_eq,
      hconcepts.contents_perm⟩
  refine hadvanced.store (s := .fresh t entry.kind _ entry.occurrence) hholds ?_
  have hlength := hroom t.text (entry.kind.punctuation == .goal)
  rw [List.filter_cons_of_pos (by simp [Sentence.Content.ofEntry, Sentence.Content.isIn]),
    List.length_cons] at hlength
  exact hlength

/-- Entries that are put in one after the other are all held, wherever they belong. -/
theorem HoldsExactly.restoreAll {entries : List (Term × SnapshotEntry)}
    (h : e.HoldsExactly settings cycle keys held)
    (hentries : ∀ x ∈ entries, (∀ key ∈ x.1.keys, key ∈ keys) ∧ x.1.isVariable = false)
    (hroom : ∀ key wanted, (((entries.map Sentence.Content.ofEntry) ++ held).filter
      (·.isIn key wanted)).length ≤ max settings.tableCapacity 1) :
    (entries.foldl Engine.restoreEntry e).HoldsExactly settings cycle keys
      ((entries.map Sentence.Content.ofEntry).reverse ++ held) := by
  induction entries generalizing e held with
  | nil => exact h
  | cons x entries ih =>
    obtain ⟨t, entry⟩ := x
    obtain ⟨ht, hvariable⟩ := hentries _ List.mem_cons_self
    -- How many sentences a table gets does not depend on which of them are in already.
    have hmiddle : ∀ key wanted,
        (((entries.map Sentence.Content.ofEntry) ++ .ofEntry (t, entry) :: held).filter
          (·.isIn key wanted)).length ≤ max settings.tableCapacity 1 := by
      intro key wanted
      rw [(List.perm_middle.filter _).length_eq]
      exact hroom key wanted
    have hfirst : ∀ key wanted, ((.ofEntry (t, entry) :: held).filter (·.isIn key wanted)).length ≤
        max settings.tableCapacity 1 := by
      intro key wanted
      have hle := ((List.sublist_append_right (entries.map Sentence.Content.ofEntry)
        (.ofEntry (t, entry) :: held)).filter (·.isIn key wanted)).length_le
      exact Nat.le_trans hle (hmiddle key wanted)
    have hrest := ih (h.restoreEntry entry ht hvariable hfirst)
      (fun y hy => hentries y (List.mem_cons_of_mem _ hy)) hmiddle
    rw [List.map_cons, List.reverse_cons, List.append_assoc]
    exact hrest

end Engine

/-! ## Reading entries back -/

namespace Term

/-- A term into which nothing can be put has no intervals. -/
theorem layout_eq_nil_of_withLayout? {t u : Term} (h : u.withLayout? [] = some t) :
    u.layout = [] := by
  have hlength := (isSome_withLayout?_iff u []).1 (Option.isSome_of_eq_some h)
  exact List.length_eq_zero_iff.1 hlength.symm

/-- Without intervals and variables, nothing is left out of the skeleton. -/
theorem Ground.timeless_eq {t : Term} (h : t.Ground) (hlayout : t.layout = []) :
    t.timeless = t := by
  induction h using Ground.induct with
  | atom => rfl
  | @compound connector operands intervals h ih =>
    rw [layout, List.append_eq_nil_iff] at hlayout
    have hnone : ∀ ts : List Term, layouts ts = [] → ∀ t ∈ ts, t.layout = [] := by
      intro ts hts
      induction ts with
      | nil => exact fun t ht => absurd ht (by simp)
      | cons t ts ih =>
        rw [layouts, List.append_eq_nil_iff] at hts
        exact List.forall_mem_cons.2 ⟨hts.1, ih hts.2⟩
    have hoperands : skeletons id operands = operands := by
      rw [skeletons_eq_map]
      exact (List.map_congr_left fun t ht => ih t ht (hnone operands hlayout.2 t ht)).trans
        (List.map_id _)
    rw [timeless, skeleton, hoperands, hlayout.1]
  | statement => exact absurd hlayout (by simp [layout])

end Term

/-- The statement of a readable entry is read with its intervals. -/
theorem SnapshotEntry.eq_of_readStatement {s : Sentence} {t : Term} (h : s.statement.Ground)
    (hreadable : s.statement.IsReadable) (ht : (ofSentence s).readStatement = .ok t) :
    t = s.statement := by
  obtain ⟨u, hparse, hrecalls⟩ := Term.recalls_parse h hreadable
  obtain ⟨v, hv, hfit, _⟩ := readStatement_eq_ok.1 ht
  obtain rfl := Except.ok.inj (hparse.symm.trans hv)
  have hwith := hrecalls.withLayout?_eq
  split at hfit
  · rename_i hempty
    have hlayout : s.statement.layout = [] := List.isEmpty_iff.1 hempty
    rw [hlayout] at hwith
    have hnone := Term.layout_eq_nil_of_withLayout? hwith
    have hground : u.Ground := by
      refine ⟨Term.formed_parseChars hparse, ?_⟩
      rw [Term.mentionsVariable, hrecalls.text_eq]
      exact h.plain
    rw [← hfit, ← hground.timeless_eq hnone, hrecalls.timeless_eq, h.timeless_eq hlayout]
  · exact Option.some.inj (hfit.symm.trans hwith)

/-! ## Whole engines -/

/-- A snapshot with the same entries in another order. -/
structure Snapshot.Rearranges (s' s : Snapshot) : Prop where
  cycle_eq : s'.cycle = s.cycle
  beliefs : s'.beliefs.Perm s.beliefs
  desires : s'.desires.Perm s.desires

theorem Snapshot.Rearranges.entries {s s' : Snapshot} (h : s'.Rearranges s) :
    s'.entries.Perm s.entries := h.beliefs.append h.desires

/-- A snapshot with its entries in the opposite order. -/
def Snapshot.reversed (s : Snapshot) : Snapshot :=
  { s with beliefs := s.beliefs.reverse, desires := s.desires.reverse }

theorem Snapshot.rearranges_reversed (s : Snapshot) : s.reversed.Rearranges s :=
  ⟨rfl, List.reverse_perm _, List.reverse_perm _⟩

namespace Engine

variable {σ : Type} {e : Engine σ} {settings : Settings} {kept : Snapshot}

/-- What is read from the entries of a snapshot is what was stored. -/
theorem contents_of_readAll {entries : List (Term × SnapshotEntry)}
    (hground : ∀ s ∈ e.stored, s.statement.Ground)
    (hreadable : ∀ s ∈ e.stored, s.statement.IsReadable) (hkept : kept.Rearranges e.snapshot)
    (hmap : entries.map Prod.snd = kept.entries)
    (hread : ∀ x ∈ entries, x.2.readStatement = .ok x.1) :
    (entries.map Sentence.Content.ofEntry).Perm (e.stored.map Sentence.content) := by
  have hentry : ∀ s ∈ e.stored, (SnapshotEntry.ofSentence s).readStatement = .ok s.statement := by
    intro s hs
    have hmem : SnapshotEntry.ofSentence s ∈ entries.map Prod.snd := by
      rw [hmap, hkept.entries.mem_iff, entries_snapshot]
      exact List.mem_map_of_mem hs
    obtain ⟨x, hx, hxs⟩ := List.mem_map.1 hmem
    have hreads := hread x hx
    rw [hxs] at hreads
    rw [hreads, SnapshotEntry.eq_of_readStatement (hground s hs) (hreadable s hs) hreads]
  -- What an entry is read as depends on nothing but the entry.
  let reading (entry : SnapshotEntry) : Option Sentence.Content :=
    entry.readStatement.toOption.map fun t => .ofEntry (t, entry)
  have hperm : ((entries.map Prod.snd).map reading).Perm
      ((e.stored.map SnapshotEntry.ofSentence).map reading) := by
    rw [hmap, ← entries_snapshot]
    exact hkept.entries.map reading
  have hleft : (entries.map Prod.snd).map reading =
      (entries.map Sentence.Content.ofEntry).map some := by
    rw [List.map_map, List.map_map]
    refine List.map_congr_left fun x hx => ?_
    simp only [reading, Function.comp_apply, hread x hx]
    rfl
  have hright : (e.stored.map SnapshotEntry.ofSentence).map reading =
      (e.stored.map Sentence.content).map some := by
    rw [List.map_map, List.map_map]
    refine List.map_congr_left fun s hs => ?_
    simp only [reading, Function.comp_apply, hentry s hs]
    rfl
  rw [hleft, hright] at hperm
  exact (List.map_perm_map_iff (Option.some_injective _)).1 hperm

variable [DrawSource σ]

/-- A new engine with room for what an engine stores holds it after it has taken the snapshot. -/
theorem Sound.recovers_of_restore (h : e.Sound settings .formed) {draws : σ} {count : Nat}
    {e' : Engine σ} (hreadable : ∀ s ∈ e.stored, s.statement.IsReadable)
    (hroom : (e.stored.flatMap fun s => s.statement.keys).toFinset.card ≤ settings.conceptCapacity)
    (hkept : kept.Rearranges e.snapshot)
    (hrestored : (start settings draws).restore kept = .ok (count, e')) : e'.Recovers e := by
  have hground : ∀ s ∈ e.stored, s.statement.Ground :=
    fun s hs => ⟨(h.stored hs).1, (h.stored hs).2⟩
  obtain ⟨entries, hmap, hread, _, rfl⟩ := restore_eq_ok_iff.1 hrestored
  have hcontents := contents_of_readAll hground hreadable hkept hmap hread
  -- A fresh engine starts at zero, so the larger of both cycles is that of the snapshot.
  have hcycle : (if (start settings draws).cycle < kept.cycle then kept.cycle
      else (start settings draws).cycle) = e.cycle := by
    have hzero : (start settings draws).cycle = 0 := rfl
    have hcycle : kept.cycle = e.cycle := hkept.cycle_eq
    rw [hzero, hcycle]
    split
    · rfl
    · exact (UInt64.le_antisymm (UInt64.not_lt.1 ‹_›) UInt64.zero_le).symm
  have hentries : ∀ x ∈ entries, (∀ key ∈ x.1.keys,
      key ∈ (e.stored.flatMap fun s => s.statement.keys).toFinset) ∧ x.1.isVariable = false := by
    intro x hx
    obtain ⟨_, _, _, hheads⟩ := SnapshotEntry.readStatement_eq_ok.1 (hread x hx)
    refine ⟨fun key hkey => ?_, Term.isVariable_of_headsSentence hheads⟩
    obtain ⟨s, hs, hcontent⟩ := List.mem_map.1 (hcontents.mem_iff.1 (List.mem_map_of_mem hx))
    have hstatement : s.statement = x.1 := congrArg Sentence.Content.statement hcontent
    exact List.mem_toFinset.2 (List.mem_flatMap.2 ⟨s, hs, hstatement ▸ hkey⟩)
  have htables : ∀ key wanted, (((entries.map Sentence.Content.ofEntry) ++ []).filter
      fun c : Sentence.Content => c.isIn key wanted).length ≤ max settings.tableCapacity 1 := by
    intro key wanted
    rw [List.append_nil, (hcontents.filter _).length_eq, h.filter_stored]
    exact h.length_contents_le key wanted
  have hheld := (holdsExactly_start settings draws e.cycle hroom).restoreAll hentries htables
  rw [hcycle]
  refine ⟨hheld.cycle_eq, fun key wanted => ?_⟩
  have hstored := h.filter_stored key wanted
  rw [← hstored]
  refine (hheld.contents_perm key wanted).trans (List.Perm.filter _ ?_)
  rw [List.append_nil]
  exact (List.reverse_perm _).trans hcontents

/-- **Main theorem.** After a run whose statements can all be read back from their texts, a new
engine with room for their terms takes the snapshot, in whatever order its entries stand, and holds
the same in every table then, if and only if a sentence can be about every stored statement. -/
theorem recovered_iff (settings : Settings) (draws draws' : σ) (instructions : List Instruction)
    (hkept : kept.Rearranges (after settings draws instructions).snapshot)
    (hread : ∀ s ∈ (after settings draws instructions).stored,
      ∃ u, Term.parse s.statement.text = .ok u ∧ u.timeless = s.statement.timeless)
    (hroom : ((after settings draws instructions).stored.flatMap fun s =>
      s.statement.keys).toFinset.card ≤ settings.conceptCapacity) :
    (∃ count e', (start settings draws').restore kept = .ok (count, e') ∧
      e'.Recovers (after settings draws instructions)) ↔
    ∀ s ∈ (after settings draws instructions).stored, s.statement.headsSentence = true := by
  have hsound := sound_after settings .formed draws instructions
  generalize after settings draws instructions = e at *
  have hground : ∀ s ∈ e.stored, s.statement.Ground :=
    fun s hs => ⟨(hsound.stored hs).1, (hsound.stored hs).2⟩
  -- The text of a term leaves out what `timeless` leaves out, so equal trees have equal texts.
  have hreadable : ∀ s ∈ e.stored, s.statement.IsReadable := by
    intro s hs
    obtain ⟨u, hparse, htimeless⟩ := hread s hs
    have htext := congrArg Term.text htimeless
    rw [Term.text_timeless, Term.text_timeless] at htext
    exact (Term.parse_text_iff (hground s hs)).1 ⟨u, hparse, Term.beq_iff_text_eq.2 htext⟩
  -- Whether a snapshot is taken does not depend on the order of its entries.
  have htaken : (∃ x, (start settings draws').restore kept = .ok x) ↔
      ∀ s ∈ e.stored, s.statement.headsSentence = true := by
    have hentries : (∀ entry ∈ kept.entries, ∃ t, entry.readStatement = .ok t) ↔
        ∀ entry ∈ e.snapshot.entries, ∃ t, entry.readStatement = .ok t :=
      forall_congr' fun entry => imp_congr hkept.entries.mem_iff Iff.rfl
    rw [restore_eq_ok, hentries, entries_snapshot, List.forall_mem_map]
    exact forall₂_congr fun s hs =>
      SnapshotEntry.readStatement_ofSentence (hground s hs) (hreadable s hs)
  rw [← htaken]
  constructor
  · rintro ⟨count, e', hrestored, _⟩
    exact ⟨_, hrestored⟩
  · rintro ⟨⟨count, e'⟩, hrestored⟩
    exact ⟨count, e', hrestored, hsound.recovers_of_restore hreadable hroom hkept hrestored⟩

/-- What is believed of two statements, of which one leads to the other after a while, and a wish
for both in turn. -/
def turns : List Instruction := [
  .submit "((a --> b) =/> (c --> d)).", .submit "(&/,(a --> b),5,(c --> d))! %1.0;0.3%", .step]

/-- After these instructions, there is something stored, and all of it is read back. -/
theorem recovered_turns :
    let settings : Settings := { considerPerCycle := 0 }
    let e := after settings (Keystream.ofSeed 7) turns
    e.stored.length = 2 ∧ (∀ s ∈ e.stored, s.statement.IsReadable) ∧
      (∀ s ∈ e.stored, s.statement.headsSentence = true) ∧
      (e.stored.flatMap fun s => s.statement.keys).toFinset.card ≤ settings.conceptCapacity ∧
      ∃ count e', (start settings (Keystream.ofSeed 8)).restore e.snapshot.reversed =
        .ok (count, e') ∧ e'.Recovers e := by
  intro settings e
  have hlength : e.stored.length = 2 := by decide +kernel
  have hreadable : ∀ s ∈ e.stored, s.statement.IsReadable := by decide +kernel
  have hheads : ∀ s ∈ e.stored, s.statement.headsSentence = true := by decide +kernel
  have hroom : (e.stored.flatMap fun s => s.statement.keys).toFinset.card ≤
      settings.conceptCapacity := by decide +kernel
  have hread : ∀ s ∈ e.stored,
      ∃ u, Term.parse s.statement.text = .ok u ∧ u.timeless = s.statement.timeless := by
    intro s hs
    have hground := (sound_after settings .formed (Keystream.ofSeed 7) turns).stored hs
    obtain ⟨u, hparse, hrecalls⟩ := Term.recalls_parse ⟨hground.1, hground.2⟩ (hreadable s hs)
    exact ⟨u, hparse, hrecalls.timeless_eq⟩
  exact ⟨hlength, hreadable, hheads, hroom, (recovered_iff settings (Keystream.ofSeed 7)
    (Keystream.ofSeed 8) turns (Snapshot.rearranges_reversed _) hread hroom).2 hheads⟩

end Engine

end NonAxiomatic
