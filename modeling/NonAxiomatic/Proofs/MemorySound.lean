import NonAxiomatic.Memory
import NonAxiomatic.Proofs.Filing

/-!
# Sound memories

What is true of a memory at all times (`Memory.Sound`): every concept is stored under the text of
its term, every link lies under the text of its target, every belief is a judgment about the term
and every desire is a goal for it, and nothing exceeds its capacity. Beside this, every sentence in
a table is `good`, whatever that means.

* `Memory.Sound.conceptualize`: making concepts and links keeps a memory sound.
* `Table.Holds.put`: putting in a good sentence whose revisions are good keeps a table sound.
-/

namespace NonAxiomatic

/-! ## Tables -/

namespace Table

/-- A table of a given capacity with only such sentences as may be in it. -/
structure Holds (table : Table) (capacity : Nat) (may : Sentence → Prop) : Prop where
  /-- The capacity is the given one. -/
  capacity_eq : table.capacity = capacity
  /-- The capacity is kept to. -/
  length_le : table.entries.length ≤ capacity
  /-- Every sentence may be in it. -/
  all : ∀ s ∈ table.entries, may s

variable {table : Table} {capacity : Nat} {may : Sentence → Prop} {p : Standpoint}

namespace Holds

theorem empty (capacity : Nat) (may : Sentence → Prop) :
    (Table.empty capacity).Holds (max capacity 1) may :=
  ⟨rfl, Nat.zero_le _, fun s h => absurd h (by simp [Table.empty])⟩

theorem mono {may' : Sentence → Prop} (h : table.Holds capacity may)
    (hm : ∀ s, may s → may' s) : table.Holds capacity may' :=
  ⟨h.capacity_eq, h.length_le, fun s hs => hm s (h.all s hs)⟩

theorem insert (h : table.Holds capacity may) {s : Sentence} (hs : may s) :
    (table.insert p s).Holds capacity may := by
  refine ⟨h.capacity_eq, ?_, ?_⟩
  · rw [← h.capacity_eq]
    exact table.length_insert_le p s
  · intro e he
    rcases mem_insert he with he | rfl
    · exact h.all e he
    · exact hs

theorem eraseIdx (h : table.Holds capacity may) (i : Nat) :
    { table with entries := table.entries.eraseIdx i }.Holds capacity may :=
  ⟨h.capacity_eq, Nat.le_trans (List.length_eraseIdx_le _ _) h.length_le,
    fun s hs => h.all s (List.mem_of_mem_eraseIdx hs)⟩

theorem best? (h : table.Holds capacity may) {s : Sentence} (hs : table.best? = some s) :
    may s := h.all s (List.mem_of_mem_head? hs)

theorem draw {σ : Type} [DrawSource σ] (h : table.Holds capacity may) {draws : σ} {s : Sentence}
    (hs : (table.draw draws).1 = some s) : may s := by
  unfold Table.draw at hs
  split at hs
  · exact absurd hs (by simp)
  · exact h.all s (List.mem_of_getElem? hs)

end Holds

/-- An event is revised with any entry, a timeless sentence only with one it may interact with. -/
theorem of_partner?_eq_some {s partner : Sentence} {i : Nat} (hi : table.partner? s = some i)
    (hp : table.entries[i]? = some partner) : s.isEvent = true ∨ mayInteract s partner = true := by
  unfold partner? at hi
  split at hi
  · exact .inl ‹_›
  · obtain ⟨hlt, hmay, _⟩ := List.findIdx?_eq_some_iff_getElem.1 hi
    rw [List.getElem?_eq_getElem hlt] at hp
    obtain rfl := Option.some.inj hp
    exact .inr hmay

/-- What `put` does to a table: it puts in the sentence, or its revision with one of the entries in
the place of both. -/
theorem put_cases (p : Standpoint) (table : Table) (s : Sentence) (ids : IdSupply) :
    table.put p s ids = (none, table.insert p s, ids) ∨
    ∃ partner ∈ table.entries, ∃ i revision, (s.isEvent = true ∨ mayInteract s partner = true) ∧
      revise p s partner = some revision ∧
      table.put p s ids = (some (revision.number ids.peek),
        { table with entries := table.entries.eraseIdx i }.insert p (revision.number ids.peek),
        ids.advance) := by
  unfold put
  split
  · rename_i revision rest hr
    simp only [revise?, Option.bind_eq_bind, Option.bind_eq_some_iff, Option.pure_def,
      Option.some.injEq, Prod.mk.injEq] at hr
    obtain ⟨i, hi, partner, hp, revision', hr, rfl, rfl⟩ := hr
    exact .inr ⟨partner, List.mem_of_getElem? hp, i, revision', of_partner?_eq_some hi hp, hr, rfl⟩
  · exact .inl rfl

end Table

/-! ## Concepts -/

/-- Whether a sentence may be in a table of a concept: it is about its term, without variables, of
the kind of the table, and good. -/
structure Sentence.Fits (good : Sentence → Prop) (kind : Punctuation) (t : Term) (s : Sentence) :
    Prop where
  /-- The sentence is of the kind of the table. -/
  punctuation_eq : s.punctuation = kind
  /-- The sentence is about the term. -/
  about : (s.statement == t) = true
  /-- No variable occurs in it. -/
  plain : s.statement.mentionsVariable = false
  /-- It is good. -/
  good : good s

/-- The tables and links of a concept are in good order. -/
structure Concept.Sound (settings : Settings) (good : Sentence → Prop) (c : Concept) : Prop where
  /-- What is believed. -/
  beliefs : c.beliefs.Holds (max settings.tableCapacity 1) (Sentence.Fits good .judgment c.term)
  /-- What is wanted. -/
  desires : c.desires.Holds (max settings.tableCapacity 1) (Sentence.Fits good .goal c.term)
  /-- Links lie under the texts of their targets. -/
  links : ∀ kind, (c.links kind).Holds (max settings.linkCapacity 1) fun key target =>
    key = target.text

namespace Concept

variable {settings : Settings} {good good' : Sentence → Prop} {c : Concept}

namespace Sound

theorem empty (settings : Settings) (good : Sentence → Prop) (t : Term) :
    (Concept.empty settings t).Sound settings good :=
  ⟨.empty _ _, .empty _ _, fun kind => by cases kind <;> exact .empty _ _ _⟩

theorem mono (h : c.Sound settings good) (hg : ∀ s, good s → good' s) :
    c.Sound settings good' :=
  ⟨h.beliefs.mono fun _ hs => ⟨hs.punctuation_eq, hs.about, hs.plain, hg _ hs.good⟩,
    h.desires.mono fun _ hs => ⟨hs.punctuation_eq, hs.about, hs.plain, hg _ hs.good⟩, h.links⟩

theorem withLinks (h : c.Sound settings good) (kind : LinkKind) {bag : Bag Term}
    (hb : bag.Holds (max settings.linkCapacity 1) fun key target => key = target.text) :
    (c.withLinks kind bag).Sound settings good := by
  refine ⟨?_, ?_, ?_⟩
  · cases kind <;> exact h.beliefs
  · cases kind <;> exact h.desires
  · intro kind'
    rw [links_withLinks]
    by_cases hk : kind = kind'
    · rw [if_pos hk]
      exact hb
    · rw [if_neg hk]
      exact h.links kind'

end Sound

variable {σ : Type} [DrawSource σ]

theorem link_eq (c : Concept) (kind : LinkKind) (target : Term) (priority : Double) (draws : σ) :
    (c.link kind target priority draws).1 = c ∨
    (c.link kind target priority draws).1 = c.withLinks kind
      (((c.links kind).put target.text target .default draws).2.1.setPriority target.text
        priority) := by
  by_cases h : (c.links kind).contains target.text = true
  · exact .inl (by simp [link, h])
  · exact .inr (by simp [link, h])

theorem Sound.link (h : c.Sound settings good) (kind : LinkKind) (target : Term)
    (priority : Double) (draws : σ) :
    (c.link kind target priority draws).1.Sound settings good ∧
      (c.link kind target priority draws).1.term = c.term := by
  rcases c.link_eq kind target priority draws with hl | hl <;> rw [hl]
  · exact ⟨h, rfl⟩
  · exact ⟨h.withLinks kind (((h.links kind).put (by omega) rfl _ _).rebudget _ _),
      c.term_withLinks kind _⟩

end Concept

/-! ## Memories -/

namespace Memory

/-- Every concept is sound and stored under the text of its term, and there are not too many. -/
structure Sound (settings : Settings) (good : Sentence → Prop) (m : Memory) : Prop where
  /-- The concepts under their keys. -/
  concepts : m.concepts.Holds (max settings.conceptCapacity 1) fun key c =>
    key = c.term.text ∧ c.Sound settings good

variable {settings : Settings} {good good' : Sentence → Prop} {m : Memory} {t : Term} {c : Concept}

/-- Whether a concept is in a memory. -/
def Contains (m : Memory) (c : Concept) : Prop :=
  ∃ key item, m.concepts.get? key = some item ∧ item.value = c

theorem contains_of_concept? (h : m.concept? t = some c) : m.Contains c := by
  obtain ⟨item, hget, rfl⟩ := Option.map_eq_some_iff.1 h
  exact ⟨_, item, hget, rfl⟩

theorem concept?_modify (m : Memory) (t : Term) (f : Concept → Concept) (u : Term) :
    (m.modify t f).concept? u =
      if u.text = t.text then (m.concept? u).map f else m.concept? u := by
  unfold concept? modify
  rw [Bag.get?_modify]
  by_cases h : u.text = t.text
  · rw [if_pos h, if_pos h, Option.map_map, Option.map_map]
    rfl
  · rw [if_neg h, if_neg h]

namespace Sound

theorem empty (settings : Settings) (good : Sentence → Prop) :
    (Memory.empty settings).Sound settings good := ⟨.empty _ _ _⟩

theorem of_contains (h : m.Sound settings good) (hc : m.Contains c) : c.Sound settings good := by
  obtain ⟨key, item, hget, rfl⟩ := hc
  exact (h.concepts.all key item hget).2

theorem concept? (h : m.Sound settings good) (hc : m.concept? t = some c) :
    c.Sound settings good ∧ c.term.text = t.text := by
  obtain ⟨item, hget, rfl⟩ := Option.map_eq_some_iff.1 hc
  exact ⟨(h.concepts.all _ item hget).2, (h.concepts.all _ item hget).1.symm⟩

theorem mono (h : m.Sound settings good) (hg : ∀ s, good s → good' s) :
    m.Sound settings good' :=
  ⟨⟨h.concepts.filed, h.concepts.capacity_eq, h.concepts.size_le, fun key item hk =>
    ⟨(h.concepts.all key item hk).1, (h.concepts.all key item hk).2.mono hg⟩⟩⟩

/-- Only the concept that is changed has to be looked at. -/
theorem modify (h : m.Sound settings good) {f : Concept → Concept}
    (hf : ∀ c, m.concept? t = some c → (f c).term.text = t.text ∧ (f c).Sound settings good) :
    (m.modify t f).Sound settings good := by
  refine ⟨⟨h.concepts.filed.modify _ _, h.concepts.capacity_eq,
    by simpa [Memory.modify] using h.concepts.size_le, fun key item hk => ?_⟩⟩
  simp only [Memory.modify, Bag.get?_modify] at hk
  by_cases hkey : key = t.text
  · rw [if_pos hkey] at hk
    obtain ⟨old, hold, rfl⟩ := Option.map_eq_some_iff.1 hk
    subst hkey
    obtain ⟨hterm, hsound⟩ := hf old.value (Option.map_eq_some_iff.2 ⟨old, hold, rfl⟩)
    exact ⟨hterm.symm, hsound⟩
  · rw [if_neg hkey] at hk
    exact h.concepts.all key item hk

theorem rebudget (h : m.Sound settings good) (key : String) (f : Budget → Budget) :
    Sound settings good ⟨m.concepts.rebudget key f⟩ := ⟨h.concepts.rebudget key f⟩

end Sound

/-! ## Conceptualization -/

section Conceptualize

variable {σ : Type} [DrawSource σ] {mem : Memory × σ}

theorem Sound.link (h : mem.1.Sound settings good) (source : Term) (kind : LinkKind)
    (target : Term) (priority : Double) :
    (Memory.link source kind target priority mem).1.Sound settings good := by
  unfold Memory.link
  cases hc : mem.1.concept? source with
  | none => exact h
  | some c =>
    obtain ⟨hsound, hterm⟩ := h.concept? hc
    obtain ⟨hsound', hterm'⟩ := hsound.link kind target priority mem.2
    refine h.modify fun _ _ => ⟨?_, hsound'⟩
    rw [hterm', hterm]

theorem Sound.linkPart (h : mem.1.Sound settings good) (whole part : Term) :
    (Memory.linkPart whole part mem).1.Sound settings good := by
  unfold Memory.linkPart
  split
  · exact h
  · exact (((h.link _ _ _ _).link _ _ _ _).link _ _ _ _).link _ _ _ _

theorem Sound.linkParts (h : mem.1.Sound settings good) (whole : Term) (parts : List Term) :
    (parts.foldl (fun m part => Memory.linkPart whole part m) mem).1.Sound settings good := by
  induction parts generalizing mem with
  | nil => exact h
  | cons part parts ih => exact ih (h.linkPart whole part)

theorem Sound.linkSides (h : mem.1.Sound settings good) (t : Term) :
    (Memory.linkSides t mem).1.Sound settings good := by
  unfold Memory.linkSides
  split
  · split
    · exact h
    · exact (h.link _ _ _ _).link _ _ _ _
  · exact h

theorem Sound.introduce (h : mem.1.Sound settings good) (t : Term) :
    (Memory.introduce settings t mem).1.Sound settings good := by
  have hput : Sound settings good
      ⟨(mem.1.concepts.put t.text (Concept.empty settings t) .default mem.2).2.1⟩ :=
    ⟨h.concepts.put (by omega) ⟨rfl, .empty _ _ _⟩ _ _⟩
  exact (hput.linkParts t _).linkSides t

mutual

theorem Sound.conceptualize (t : Term) {mem : Memory × σ} (h : mem.1.Sound settings good) :
    (Memory.conceptualize settings t mem).1.Sound settings good := by
  match t with
  | .var .. => exact h
  | .atom name =>
    rw [Memory.conceptualize]
    split
    · exact h
    · exact h.introduce _
  | .compound connector operands intervals =>
    rw [Memory.conceptualize]
    split
    · exact h
    · exact (Sound.conceptualizeAll operands h).introduce _
  | .statement subject copula predicate interval =>
    rw [Memory.conceptualize]
    split
    · exact h
    · exact (Sound.conceptualize predicate (Sound.conceptualize subject h)).introduce _

theorem Sound.conceptualizeAll (ts : List Term) {mem : Memory × σ}
    (h : mem.1.Sound settings good) :
    (Memory.conceptualizeAll settings ts mem).1.Sound settings good := by
  match ts with
  | [] => exact h
  | t :: ts => exact Sound.conceptualizeAll ts (Sound.conceptualize t h)

end

end Conceptualize

/-! ## Finding concepts -/

section Find

variable {σ : Type} [DrawSource σ] {found : Concept} {draws : σ}

theorem contains_of_draw (h : (m.draw draws).1 = some found) : m.Contains found := by
  simp only [Memory.draw, Option.map_eq_some_iff] at h
  obtain ⟨⟨key, item⟩, hd, rfl⟩ := h
  exact ⟨key, item, Bag.get?_of_drawFrom hd, rfl⟩

theorem contains_of_follow {kind : LinkKind} (h : (m.follow c kind draws).1 = some found) :
    m.Contains found := by
  simp only [Memory.follow, Option.bind_eq_some_iff] at h
  obtain ⟨⟨key, item⟩, _, hc⟩ := h
  exact contains_of_concept? hc

theorem contains_of_throughPart (hc : m.Contains c)
    (h : (m.throughPart c draws).1 = some found) : m.Contains found := by
  unfold throughPart at h
  split at h
  · exact contains_of_follow h
  · split at h
    · simp only [Option.filter_eq_some_iff] at h
      exact contains_of_follow h.1
    · obtain rfl := Option.some.inj h
      exact hc
  · obtain rfl := Option.some.inj h
    exact hc
  · exact absurd h (by simp)

theorem contains_of_throughSide (h : (m.throughSide c draws).1 = some found) :
    m.Contains found := by
  unfold throughSide at h
  split at h
  · exact absurd h (by simp)
  · exact contains_of_follow h
  · exact contains_of_follow h
  · exact contains_of_follow h

theorem contains_of_attemptRelated (h : (m.attemptRelated t c draws).1 = some found) :
    m.Contains found := by
  unfold attemptRelated at h
  split at h
  · exact absurd h (by simp)
  · rename_i shared draws' hf
    have hshared : m.Contains shared := contains_of_follow (congrArg Prod.fst hf)
    simp only [Option.filter_eq_some_iff] at h
    split at h
    · exact contains_of_throughPart hshared h.1
    · exact contains_of_throughSide h.1

theorem contains_of_attemptsRelated {attempts : Nat}
    (h : (m.attemptsRelated t c attempts draws).1 = some found) : m.Contains found := by
  induction attempts generalizing draws with
  | zero => exact absurd h (by simp [attemptsRelated])
  | succ attempts ih =>
    unfold attemptsRelated at h
    split at h
    · rename_i hf
      exact contains_of_attemptRelated ((congrArg Prod.fst hf).trans h)
    · exact ih h

theorem contains_of_related (h : (m.related settings t draws).1 = some found) :
    m.Contains found := by
  unfold related at h
  split at h
  · exact absurd h (by simp)
  · split at h
    · exact absurd h (by simp)
    · exact contains_of_attemptsRelated h

end Find

end Memory

end NonAxiomatic
