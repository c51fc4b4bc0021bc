import Mathlib.Data.Finset.Card
import NonAxiomatic.Proofs.MemorySound

/-!
# How a memory grows

What a memory knows (`Memory.knowledge?`) are the tables of its concepts; links and budgets are left
out. Giving a term and its parts their concepts changes no table: whatever is known afterwards was
known before, or nothing is known of a term but that it has a concept
(`Memory.knowledge?_of_conceptualize`).

To make room, concepts go. But a memory that only holds terms out of a number of terms that it has
room for (`Memory.Room`) loses nothing when one of these gets its concept.

**Theorem (`Memory.Room.conceptualize`).** In a memory with room for a term and its parts, these get
their concepts, and what was known stays known.
-/

namespace NonAxiomatic

/-! ## Keys of bags -/

namespace Bag

variable {α σ : Type} {b : Bag α} {keys : Finset String} {key : String}

/-- Fewer items are in a bag than there are keys that they may have, if one of these is left. -/
theorem size_lt_card (hkeys : ∀ k, b.contains k = true → k ∈ keys) (hkey : key ∈ keys)
    (hnew : b.contains key = false) : b.size < keys.card := by
  have hsubset : b.items.keys.toFinset ⊆ keys.erase key := by
    intro k hk
    have hcontains : b.contains k = true :=
      Std.TreeMap.mem_keys.1 (List.mem_toFinset.1 hk)
    refine Finset.mem_erase.2 ⟨?_, hkeys k hcontains⟩
    rintro rfl
    exact absurd (hnew.symm.trans hcontains) (by decide)
  have hle := Finset.card_le_card hsubset
  rw [List.toFinset_card_of_nodup Std.TreeMap.nodup_keys, Std.TreeMap.length_keys,
    Finset.card_erase_of_mem hkey] at hle
  have hpos : 0 < keys.card := Finset.card_pos.2 ⟨key, hkey⟩
  exact Nat.lt_of_le_of_lt hle (by omega)

end Bag

/-! ## What is known -/

/-- What is known of a term. -/
structure Knowledge where
  /-- The term. -/
  term : Term
  /-- What is believed of it. -/
  beliefs : Table
  /-- What is wanted of it. -/
  desires : Table

/-- Nothing is known of a term. -/
def Knowledge.blank (settings : Settings) (t : Term) : Knowledge :=
  ⟨t, .empty settings.tableCapacity, .empty settings.tableCapacity⟩

/-- What is known of the term of a concept. -/
def Concept.knowledge (c : Concept) : Knowledge := ⟨c.term, c.beliefs, c.desires⟩

theorem Concept.knowledge_withLinks (c : Concept) (kind : LinkKind) (links : Bag Term) :
    (c.withLinks kind links).knowledge = c.knowledge := by
  cases kind <;> rfl

theorem Concept.knowledge_link {σ : Type} [DrawSource σ] (c : Concept) (kind : LinkKind)
    (target : Term) (priority : Double) (draws : σ) :
    (c.link kind target priority draws).1.knowledge = c.knowledge := by
  rcases c.link_eq kind target priority draws with h | h <;> rw [h]
  exact c.knowledge_withLinks kind _

namespace Memory

/-- What is known under a key. -/
def knowledge? (m : Memory) (key : String) : Option Knowledge :=
  (m.concepts.get? key).map fun item => item.value.knowledge

variable {m : Memory} {settings : Settings} {t u : Term} {key : String} {k : Knowledge}

theorem knowledge?_eq_some : m.knowledge? key = some k ↔
    ∃ item, m.concepts.get? key = some item ∧ item.value.knowledge = k :=
  Option.map_eq_some_iff

theorem knowledge?_text (m : Memory) (t : Term) :
    m.knowledge? t.text = (m.concept? t).map Concept.knowledge := by
  rw [concept?, Option.map_map]
  rfl

theorem contains_eq_isSome_knowledge? (m : Memory) (key : String) :
    m.concepts.contains key = (m.knowledge? key).isSome := by
  rw [knowledge?, Option.isSome_map]
  exact Bag.contains_eq_isSome _ _

theorem holds_eq_isSome_knowledge? (m : Memory) (t : Term) :
    m.holds t = (m.knowledge? t.text).isSome :=
  m.contains_eq_isSome_knowledge? t.text

theorem contains_of_knowledge? (h : m.knowledge? key = some k) :
    ∃ c, m.Contains c ∧ c.knowledge = k := by
  obtain ⟨item, hget, rfl⟩ := knowledge?_eq_some.1 h
  exact ⟨item.value, ⟨key, item, hget, rfl⟩, rfl⟩

/-- Changing a concept changes what is known of its term. -/
theorem knowledge?_modify (m : Memory) (t : Term) (f : Concept → Concept) (key : String) :
    (m.modify t f).knowledge? key =
      if key = t.text then (m.concept? t).map fun c => (f c).knowledge
      else m.knowledge? key := by
  unfold knowledge? modify
  rw [Bag.get?_modify]
  by_cases h : key = t.text
  · rw [if_pos h, if_pos h, h, concept?, Option.map_map, Option.map_map]
    rfl
  · rw [if_neg h, if_neg h]

variable {σ : Type} [DrawSource σ] {x : Memory × σ}

/-! ## Links -/

/-- Two memories that differ in links and budgets only. -/
structure Alike (m m' : Memory) : Prop where
  capacity_eq : m'.concepts.capacity = m.concepts.capacity
  knowledge?_eq : m'.knowledge? = m.knowledge?

theorem Alike.refl (m : Memory) : m.Alike m := ⟨rfl, rfl⟩

theorem Alike.trans {m' m'' : Memory} (h : m.Alike m') (h' : m'.Alike m'') : m.Alike m'' :=
  ⟨h'.capacity_eq.trans h.capacity_eq, h'.knowledge?_eq.trans h.knowledge?_eq⟩

theorem alike_link (source : Term) (kind : LinkKind) (target : Term) (priority : Double)
    (x : Memory × σ) : x.1.Alike (link source kind target priority x).1 := by
  unfold link
  cases hc : x.1.concept? source with
  | none => exact .refl _
  | some c =>
    refine ⟨rfl, funext fun key => ?_⟩
    rw [knowledge?_modify]
    split
    · rename_i hkey
      rw [hc, hkey, knowledge?_text, hc, Option.map_some, Option.map_some, c.knowledge_link]
    · rfl

theorem alike_linkPart (whole part : Term) (x : Memory × σ) :
    x.1.Alike (linkPart whole part x).1 := by
  unfold linkPart
  split
  · exact .refl _
  · exact (((alike_link _ _ _ _ _).trans (alike_link _ _ _ _ _)).trans
      (alike_link _ _ _ _ _)).trans (alike_link _ _ _ _ _)

theorem alike_linkParts (whole : Term) (parts : List Term) (x : Memory × σ) :
    x.1.Alike (parts.foldl (fun m part => linkPart whole part m) x).1 := by
  induction parts generalizing x with
  | nil => exact .refl _
  | cons part parts ih => exact (alike_linkPart whole part x).trans (ih _)

theorem alike_linkSides (t : Term) (x : Memory × σ) : x.1.Alike (linkSides t x).1 := by
  unfold linkSides
  split
  · split
    · exact .refl _
    · exact (alike_link _ _ _ _ _).trans (alike_link _ _ _ _ _)
  · exact .refl _

/-! ## New concepts -/

theorem alike_introduce (settings : Settings) (t : Term) (x : Memory × σ) :
    Alike ⟨(x.1.concepts.put t.text (.empty settings t) .default x.2).2.1⟩
      (introduce settings t x).1 :=
  (alike_linkParts t _ (_, _)).trans (alike_linkSides t _)

theorem knowledge?_of_introduce (h : (introduce settings t x).1.knowledge? key = some k) :
    x.1.knowledge? key = some k ∨ key = t.text ∧ k = .blank settings t := by
  rw [(alike_introduce settings t x).knowledge?_eq] at h
  obtain ⟨item, hget, rfl⟩ := knowledge?_eq_some.1 h
  rcases Bag.get?_put hget with hget | ⟨hkey, rfl⟩
  · exact .inl (knowledge?_eq_some.2 ⟨item, hget, rfl⟩)
  · exact .inr ⟨hkey, rfl⟩

mutual

/-- When a term gets its concept, nothing is found out but that there are terms. -/
theorem knowledge?_of_conceptualize (t : Term) {x : Memory × σ}
    (h : (conceptualize settings t x).1.knowledge? key = some k) :
    x.1.knowledge? key = some k ∨ ∃ u : Term, key = u.text ∧ k = .blank settings u := by
  -- By the constructors, as the parts come before the whole.
  match t with
  | .var .. => exact .inl h
  | .atom name =>
    rw [conceptualize] at h
    split at h
    · exact .inl h
    · exact (knowledge?_of_introduce h).imp_right fun h => ⟨_, h⟩
  | .compound connector operands intervals =>
    rw [conceptualize] at h
    split at h
    · exact .inl h
    · rcases knowledge?_of_introduce h with h | h
      · exact knowledge?_of_conceptualizeAll operands h
      · exact .inr ⟨_, h⟩
  | .statement subject copula predicate interval =>
    rw [conceptualize] at h
    split at h
    · exact .inl h
    · rcases knowledge?_of_introduce h with h | h
      · rcases knowledge?_of_conceptualize predicate h with h | h
        · exact knowledge?_of_conceptualize subject h
        · exact .inr h
      · exact .inr ⟨_, h⟩

theorem knowledge?_of_conceptualizeAll (ts : List Term) {x : Memory × σ}
    (h : (conceptualizeAll settings ts x).1.knowledge? key = some k) :
    x.1.knowledge? key = some k ∨ ∃ u : Term, key = u.text ∧ k = .blank settings u := by
  match ts with
  | [] => exact .inl h
  | t :: ts =>
    rcases knowledge?_of_conceptualizeAll ts h with h | h
    · exact knowledge?_of_conceptualize t h
    · exact .inr h

end

/-! ## Room -/

end Memory

mutual

/-- The texts of a term and of its parts, without variables: the keys of their concepts. -/
def Term.keys : Term → List String
  | .var .. => []
  | .atom name => [name]
  | .compound connector operands intervals =>
    (compound connector operands intervals).text :: Term.keysOfAll operands
  | .statement subject copula predicate interval =>
    (statement subject copula predicate interval).text :: (subject.keys ++ predicate.keys)

/-- The keys of several terms. -/
def Term.keysOfAll : List Term → List String
  | [] => []
  | t :: ts => t.keys ++ Term.keysOfAll ts

end

namespace Memory

/-- A memory with only such concepts as are among a number of terms, given by their texts, for all
of which there is room. -/
structure Room (keys : Finset String) (m : Memory) : Prop where
  /-- Every concept is among them. -/
  mem : ∀ key, m.concepts.contains key = true → key ∈ keys
  /-- There is room for all of them. -/
  card_le : keys.card ≤ m.concepts.capacity

/-- A memory in which at least as much is known as in another one. -/
def Extends (m' m : Memory) : Prop :=
  ∀ key k, m.knowledge? key = some k → m'.knowledge? key = some k

theorem Extends.refl (m : Memory) : m.Extends m := fun _ _ h => h

theorem Extends.trans {m m' m'' : Memory} (h' : m''.Extends m') (h : m'.Extends m) :
    m''.Extends m := fun key k hk => h' key k (h key k hk)

namespace Room

variable {m m' : Memory} {keys : Finset String} {settings : Settings} {t : Term} {σ : Type}
  [DrawSource σ] {x : Memory × σ}

theorem of_alike (h : m.Room keys) (ha : m.Alike m') : m'.Room keys := by
  refine ⟨fun key hkey => h.mem key ?_, ?_⟩
  · rwa [contains_eq_isSome_knowledge?, ← ha.knowledge?_eq, ← contains_eq_isSome_knowledge?]
  · rw [ha.capacity_eq]
    exact h.card_le

/-- With room for a term, no concept goes when it gets its own. -/
theorem introduce (h : x.1.Room keys) (ht : t.text ∈ keys) :
    (Memory.introduce settings t x).1.Room keys ∧
      (Memory.introduce settings t x).1.Extends x.1 ∧
      (Memory.introduce settings t x).1.holds t = true := by
  have ha := alike_introduce settings t x
  -- Linking changes no knowledge and drops nothing; what matters is what putting the concept in
  -- does.
  suffices hput : Room keys ⟨(x.1.concepts.put t.text (.empty settings t) .default x.2).2.1⟩ ∧
      Extends ⟨(x.1.concepts.put t.text (.empty settings t) .default x.2).2.1⟩ x.1 ∧
      Memory.holds ⟨(x.1.concepts.put t.text (.empty settings t) .default x.2).2.1⟩ t = true by
    refine ⟨hput.1.of_alike ha, ?_, ?_⟩
    · unfold Extends
      rw [ha.knowledge?_eq]
      exact hput.2.1
    · rw [holds_eq_isSome_knowledge?, ha.knowledge?_eq, ← holds_eq_isSome_knowledge?]
      exact hput.2.2
  rcases x.1.concepts.put_cases t.text (Concept.empty settings t) .default x.2 with
    ⟨hthere, hput⟩ | ⟨hnew, b, hput, hb⟩ <;> rw [hput]
  · exact ⟨h, .refl _, hthere⟩
  · have hlt := Bag.size_lt_card h.mem ht hnew
    have hroom := h.card_le
    rcases hb with ⟨rfl, _⟩ | ⟨_, hfull⟩
    · have hadd := Bag.get?_add x.1.concepts t.text ⟨Concept.empty settings t, .default⟩
      refine ⟨⟨?_, h.card_le⟩, ?_, ?_⟩
      · intro key hkey
        rw [Bag.contains_eq_isSome, hadd] at hkey
        split at hkey
        · rename_i heq
          rwa [heq]
        · exact h.mem key (by rwa [Bag.contains_eq_isSome])
      · intro key k hk
        obtain ⟨item, hget, rfl⟩ := knowledge?_eq_some.1 hk
        have hne : key ≠ t.text := by
          rintro rfl
          rw [Bag.get?_eq_none_of_contains hnew] at hget
          exact absurd hget (by simp)
        exact knowledge?_eq_some.2 ⟨item, by rw [hadd, if_neg hne, hget], rfl⟩
      · rw [Memory.holds, Bag.contains_eq_isSome, hadd, if_pos rfl]
        rfl
    · omega

mutual

/-- **Main theorem.** With room for a term and its parts, no concept goes when these get theirs, and
a term that is no variable has its concept then. -/
theorem conceptualize (t : Term) {x : Memory × σ} (h : x.1.Room keys)
    (ht : ∀ key ∈ t.keys, key ∈ keys) :
    (Memory.conceptualize settings t x).1.Room keys ∧
      (Memory.conceptualize settings t x).1.Extends x.1 ∧
      (t.isVariable = false → (Memory.conceptualize settings t x).1.holds t = true) := by
  match t with
  | .var .. => exact ⟨h, .refl _, fun hvar => absurd hvar (by simp [Term.isVariable])⟩
  | .atom name =>
    rw [Memory.conceptualize]
    split
    · rename_i hthere
      exact ⟨h, .refl _, fun _ => hthere⟩
    · have hname : (Term.atom name).text ∈ keys := ht name (by simp [Term.keys])
      obtain ⟨hroom, hextends, hthere⟩ := h.introduce hname
      exact ⟨hroom, hextends, fun _ => hthere⟩
  | .compound connector operands intervals =>
    rw [Memory.conceptualize]
    rw [Term.keys, List.forall_mem_cons] at ht
    split
    · rename_i hthere
      exact ⟨h, .refl _, fun _ => hthere⟩
    · obtain ⟨hroom, hextends⟩ := conceptualizeAll operands h ht.2
      obtain ⟨hroom', hextends', hthere⟩ := hroom.introduce ht.1
      exact ⟨hroom', hextends'.trans hextends, fun _ => hthere⟩
  | .statement subject copula predicate interval =>
    rw [Memory.conceptualize]
    rw [Term.keys, List.forall_mem_cons, List.forall_mem_append] at ht
    split
    · rename_i hthere
      exact ⟨h, .refl _, fun _ => hthere⟩
    · obtain ⟨hroom, hextends, _⟩ := conceptualize subject h ht.2.1
      obtain ⟨hroom', hextends', _⟩ := conceptualize predicate hroom ht.2.2
      obtain ⟨hroom'', hextends'', hthere⟩ := hroom'.introduce ht.1
      exact ⟨hroom'', hextends''.trans (hextends'.trans hextends), fun _ => hthere⟩

theorem conceptualizeAll (ts : List Term) {x : Memory × σ} (h : x.1.Room keys)
    (ht : ∀ key ∈ Term.keysOfAll ts, key ∈ keys) :
    (Memory.conceptualizeAll settings ts x).1.Room keys ∧
      (Memory.conceptualizeAll settings ts x).1.Extends x.1 := by
  match ts with
  | [] => exact ⟨h, .refl _⟩
  | t :: ts =>
    rw [Term.keysOfAll, List.forall_mem_append] at ht
    obtain ⟨hroom, hextends, _⟩ := conceptualize t h ht.1
    obtain ⟨hroom', hextends'⟩ := conceptualizeAll ts hroom ht.2
    exact ⟨hroom', hextends'.trans hextends⟩

end

end Room

end Memory

end NonAxiomatic
