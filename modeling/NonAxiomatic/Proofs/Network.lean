import Mathlib.Logic.Relation
import NonAxiomatic.Proofs.Linking
import NonAxiomatic.Proofs.Rebuilding

/-!
# The network of concepts

When terms get their concepts one after the other, the concepts are those of the terms and of all
that is within them, and the links are the ones that come with each of them (`Memory.Woven`): this
is kept by every new concept (`Memory.Woven.introduce`), and a term that has a concept brings
nothing new, because what is within it has concepts, too. That two terms have the same text is
enough for this (`Term.keys_eq_of_text_eq`).

All of it is said of memories that have room in the end, and so have lost nothing.

**Theorem (`Memory.linked_conceptualizeAll`).** The concepts are exactly those of the terms that are
no variables among the given ones and all that is within them, and each concept has exactly the
links to its parts, to what it is a part of, and to the statements about statements that it is a
side of.
-/

namespace NonAxiomatic

namespace Term

/-! ## Terms with the same text -/

theorem isVariable_skeleton (tag : VariableKind → VariableKind) (t : Term) :
    (t.skeleton tag).isVariable = t.isVariable := by
  cases t <;> rfl

mutual

/-- The keys of a term are those of its skeleton. -/
theorem keys_skeleton {tag : VariableKind → VariableKind}
    (htag : ∀ kind, (tag kind).symbol = kind.symbol) : (t : Term) → (t.skeleton tag).keys = t.keys
  | atom _ => rfl
  | var .. => rfl
  | compound connector operands intervals => by
    have htext := text_skeleton htag (compound connector operands intervals)
    rw [skeleton] at htext ⊢
    rw [keys, keys, htext, keysOfAll_skeletons htag operands]
  | statement subject copula predicate interval => by
    have htext := text_skeleton htag (statement subject copula predicate interval)
    rw [skeleton] at htext ⊢
    rw [keys, keys, htext, keys_skeleton htag subject, keys_skeleton htag predicate]

theorem keysOfAll_skeletons {tag : VariableKind → VariableKind}
    (htag : ∀ kind, (tag kind).symbol = kind.symbol) :
    (ts : List Term) → keysOfAll (skeletons tag ts) = keysOfAll ts
  | [] => rfl
  | t :: ts => by
    rw [skeletons, keysOfAll, keysOfAll, keys_skeleton htag t, keysOfAll_skeletons htag ts]

end

variable {s t u part : Term} {key : String}

/-- What the tags of variables have no part in is the same for terms with the same text. -/
theorem map_eq_of_text_eq {α : Type} {f : Term → α}
    (hf : ∀ t : Term, f (t.skeleton untag) = f t) (hs : s.Named) (ht : t.Named)
    (h : s.text = t.text) : f s = f t := by
  have huntagged := (text_eq_iff hs ht).1 h
  rw [untagged, untagged] at huntagged
  rw [← hf s, huntagged, hf]

/-- Terms with the same text have the same keys. -/
theorem keys_eq_of_text_eq (hs : s.Named) (ht : t.Named) (h : s.text = t.text) :
    s.keys = t.keys :=
  map_eq_of_text_eq (keys_skeleton symbol_untag) hs ht h

theorem isVariable_eq_of_text_eq (hs : s.Named) (ht : t.Named) (h : s.text = t.text) :
    s.isVariable = t.isVariable :=
  map_eq_of_text_eq (isVariable_skeleton _) hs ht h

theorem Named.component (h : t.Named) (hpart : part ∈ t.components) : part.Named := by
  cases h with
  | atom | var => exact absurd hpart (by simp [components])
  | compound all => exact all part hpart
  | statement left right =>
    rcases List.mem_cons.1 hpart with rfl | hpart
    · exact left
    · exact List.mem_singleton.1 hpart ▸ right

/-! ## What is within a term -/

/-- Whether a term is another one, or a part of it, or a part of a part, and so on. -/
def Within : Term → Term → Prop := fun u t =>
  Relation.ReflTransGen (fun whole part => part ∈ whole.components) t u

theorem isVariable_of_mem_components (h : part ∈ t.components) : t.isVariable = false := by
  cases t with
  | var => exact absurd h (by simp [components])
  | _ => rfl

theorem keysOfAll_eq_flatMap (ts : List Term) : keysOfAll ts = ts.flatMap keys := by
  induction ts with
  | nil => rfl
  | cons t ts ih => rw [keysOfAll, ih, List.flatMap_cons]

theorem keys_eq (t : Term) :
    t.keys = if t.isVariable then [] else t.text :: t.components.flatMap keys := by
  cases t with
  | atom name => rfl
  | var => rfl
  | compound connector operands intervals =>
    rw [keys, keysOfAll_eq_flatMap]
    rfl
  | statement subject copula predicate interval => simp [keys, components, isVariable]

theorem keys_subset_of_mem_components (h : part ∈ t.components) : part.keys ⊆ t.keys := by
  rw [keys_eq t, isVariable_of_mem_components h]
  exact fun key hkey => List.mem_cons_of_mem _ (List.mem_flatMap.2 ⟨part, h, hkey⟩)

theorem exists_within_of_mem_keys {t : Term} (h : key ∈ t.keys) :
    ∃ u : Term, u.Within t ∧ u.isVariable = false ∧ u.text = key := by
  rw [keys_eq] at h
  split at h
  · exact absurd h (by simp)
  · rename_i hvariable
    rcases List.mem_cons.1 h with rfl | h
    · exact ⟨t, .refl, by simpa using hvariable, rfl⟩
    · obtain ⟨part, hpart, hkey⟩ := List.mem_flatMap.1 h
      obtain ⟨u, hwithin, hu⟩ := exists_within_of_mem_keys hkey
      exact ⟨u, .head hpart hwithin, hu⟩
termination_by t.text.length
decreasing_by exact length_text_lt hpart

/-- The keys of a term are the texts of what is within it, but for the variables. -/
theorem mem_keys_iff : key ∈ t.keys ↔
    ∃ u : Term, u.Within t ∧ u.isVariable = false ∧ u.text = key := by
  refine ⟨exists_within_of_mem_keys, ?_⟩
  rintro ⟨u, hwithin, hvariable, rfl⟩
  induction hwithin using Relation.ReflTransGen.head_induction_on with
  | refl =>
    rw [keys_eq, hvariable]
    exact List.mem_cons_self
  | head hpart _ ih => exact keys_subset_of_mem_components hpart ih

theorem Within.length_text_le (h : u.Within t) : u.text.length ≤ t.text.length := by
  induction h with
  | refl => exact Nat.le_refl _
  | tail _ hpart ih => exact (length_text_lt hpart).le.trans ih

/-- A term is not within its parts. -/
theorem text_notMem_keys_components : t.text ∉ t.components.flatMap keys := by
  intro h
  obtain ⟨part, hpart, hkey⟩ := List.mem_flatMap.1 h
  obtain ⟨u, hwithin, _, htext⟩ := mem_keys_iff.1 hkey
  have hle := hwithin.length_text_le
  rw [htext] at hle
  exact Nat.not_lt.2 hle (length_text_lt hpart)

end Term

namespace Memory

variable {σ : Type} [DrawSource σ] {m m' m'' : Memory} {x y : Memory × σ} {settings : Settings}
  {t u : Term} {key : String} {keys keys' : List String}

/-! ## Woven memories -/

/-- Whether there is a concept of a term in a memory, and not only one of a term with its text. -/
def Stores (m : Memory) (t : Term) : Prop := ∃ k, m.knowledge? t.text = some k ∧ k.term = t

theorem stores_iff_of_added (hadded : ∀ key, m'.knowledge? key =
      if key = t.text then some (Knowledge.blank settings t) else m.knowledge? key)
    (hnew : m.holds t = false) (u : Term) : m'.Stores u ↔ m.Stores u ∨ u = t := by
  rw [Stores, Stores, hadded]
  by_cases htext : u.text = t.text
  · have hnone : m.knowledge? u.text = none := by
      rw [holds_eq_isSome_knowledge?, ← htext] at hnew
      simpa using hnew
    rw [if_pos htext, hnone]
    simp [Knowledge.blank, eq_comm]
  · rw [if_neg htext]
    have hne : u ≠ t := fun heq => htext (congrArg Term.text heq)
    simp [hne]

/-- The concepts of a memory are those of terms that are no variables, and of all that is within
them, and the links are those that come with them. -/
structure Woven (m : Memory) : Prop where
  stored : ∀ key k, m.knowledge? key = some k →
    k.term.text = key ∧ k.term.Named ∧ k.term.isVariable = false
  closed : ∀ key k, m.knowledge? key = some k → ∀ key' ∈ k.term.keys,
    m.concepts.contains key' = true
  linked : ∀ kind key key', m.linked kind key key' = true ↔
    ∃ t, m.Stores t ∧ t.Joins kind key key'

namespace Woven

theorem empty (settings : Settings) : (Memory.empty settings).Woven := by
  have hnone : ∀ key, (Memory.empty settings).concepts.get? key = none := fun key =>
    Bag.get?_empty _ _ key
  have hknowledge : ∀ key, (Memory.empty settings).knowledge? key = none := fun key => by
    rw [knowledge?, hnone]
    rfl
  refine ⟨fun key k h => ?_, fun key k h => ?_, fun kind key key' => ?_⟩
  · exact absurd h (by simp [hknowledge])
  · exact absurd h (by simp [hknowledge])
  · simp [Memory.linked, hnone, Stores, hknowledge]

/-- What is within a term that has a concept has concepts. -/
theorem contains_of_holds (h : m.Woven) (ht : t.Named) (hholds : m.holds t = true)
    (hkey : key ∈ t.keys) : m.concepts.contains key = true := by
  rw [holds_eq_isSome_knowledge?, Option.isSome_iff_exists] at hholds
  obtain ⟨k, hk⟩ := hholds
  obtain ⟨htext, hnamed, _⟩ := h.stored _ k hk
  exact h.closed _ k hk key (Term.keys_eq_of_text_eq hnamed ht htext ▸ hkey)

theorem holds_of_isVariable (h : m.Woven) (ht : t.Named) (hvariable : t.isVariable = true) :
    m.holds t = false := by
  rw [holds_eq_isSome_knowledge?]
  cases hk : m.knowledge? t.text with
  | none => rfl
  | some k =>
    obtain ⟨htext, hnamed, hplain⟩ := h.stored _ k hk
    rw [Term.isVariable_eq_of_text_eq hnamed ht htext, hvariable] at hplain
    exact absurd hplain (by decide)

/-- Where all that is within the parts of a term has concepts, the parts have theirs, but for the
variables. -/
theorem holds_component (h : m.Woven) (ht : t.Named)
    (hparts : ∀ key ∈ t.components.flatMap Term.keys, m.concepts.contains key = true) :
    ∀ part ∈ t.components, m.holds part = !part.isVariable := by
  intro part hpart
  cases hplain : part.isVariable with
  | true => exact h.holds_of_isVariable (ht.component hpart) hplain
  | false =>
    refine hparts _ (List.mem_flatMap.2 ⟨part, hpart, ?_⟩)
    rw [Term.keys_eq, hplain]
    exact List.mem_cons_self

/-- A new concept of a term whose parts have theirs keeps a memory woven. -/
theorem introduce (h : x.1.Woven) (hroom : (Memory.introduce settings t x).1.Spacious)
    (hnew : x.1.holds t = false) (ht : t.Named) (hvariable : t.isVariable = false)
    (hparts : ∀ key ∈ t.components.flatMap Term.keys, x.1.concepts.contains key = true) :
    (Memory.introduce settings t x).1.Woven ∧
      ∀ key, (Memory.introduce settings t x).1.concepts.contains key = true ↔
        x.1.concepts.contains key = true ∨ key ∈ t.keys := by
  obtain ⟨hknowledge, hlinked⟩ := hroom.introduce_iff hnew (h.holds_component ht hparts)
  -- What is known afterwards, and of which terms; then what is linked.
  have hcontains : ∀ key, (Memory.introduce settings t x).1.concepts.contains key = true ↔
      x.1.concepts.contains key = true ∨ key = t.text := by
    intro key
    rw [contains_eq_isSome_knowledge?, contains_eq_isSome_knowledge?, hknowledge]
    split <;> simp [*]
  have hkeys : ∀ key ∈ t.keys,
      (Memory.introduce settings t x).1.concepts.contains key = true := by
    intro key hkey
    rw [hcontains]
    rw [Term.keys_eq, hvariable] at hkey
    exact (List.mem_cons.1 hkey).symm.imp_left (hparts key)
  refine ⟨⟨fun key k hk => ?_, fun key k hk key' hkey' => ?_, fun kind key key' => ?_⟩,
    fun key => ?_⟩
  · rw [hknowledge] at hk
    split at hk
    · rename_i hkey
      obtain rfl := Option.some.inj hk
      exact ⟨hkey.symm, ht, hvariable⟩
    · exact h.stored key k hk
  · rw [hknowledge] at hk
    split at hk
    · obtain rfl := Option.some.inj hk
      exact hkeys key' hkey'
    · exact (hcontains key').2 (.inl (h.closed key k hk key' hkey'))
  · rw [hlinked, h.linked]
    simp only [stores_iff_of_added hknowledge hnew, or_and_right, exists_or, exists_eq_left]
  · refine ⟨fun hkey => ?_, fun hkey => hkey.elim (fun hkey => (hcontains key).2 (.inl hkey))
      (hkeys key)⟩
    refine ((hcontains key).1 hkey).imp_right fun htext => ?_
    rw [htext, Term.keys_eq, hvariable]
    exact List.mem_cons_self

end Woven

/-! ## Conceptualization -/

/-- A memory became another one that is woven and has concepts under some keys, too. -/
structure Grows (m m' : Memory) (keys : List String) : Prop where
  woven : m'.Woven
  contains_iff : ∀ key, m'.concepts.contains key = true ↔
    m.concepts.contains key = true ∨ key ∈ keys

namespace Grows

theorem refl (h : m.Woven) : m.Grows m [] := ⟨h, by simp⟩

theorem trans (h : m.Grows m' keys) (h' : m'.Grows m'' keys') : m.Grows m'' (keys ++ keys') := by
  refine ⟨h'.woven, fun key => ?_⟩
  rw [h'.contains_iff, h.contains_iff, List.mem_append, or_assoc]

/-- Once its parts have their concepts, a term gets its own, unless it has one already. -/
theorem introduce (h : x.1.Woven) (ht : t.Named) (hvariable : t.isVariable = false)
    (hroom : (if x.1.holds t then x else Memory.introduce settings t y).1.Spacious)
    (hparts : y.1.Spacious → x.1.Grows y.1 (t.components.flatMap Term.keys)) :
    x.1.Grows (if x.1.holds t then x else Memory.introduce settings t y).1 t.keys := by
  by_cases hthere : x.1.holds t = true
  · rw [if_pos hthere]
    refine ⟨h, fun key => ⟨.inl, ?_⟩⟩
    rintro (hkey | hkey)
    · exact hkey
    · exact h.contains_of_holds ht hthere hkey
  · rw [if_neg hthere] at hroom ⊢
    obtain ⟨hwoven, hcontains⟩ := hparts hroom.of_introduce.1
    have hnew : y.1.holds t = false := by
      rw [← Bool.not_eq_true]
      exact fun hholds => ((hcontains _).1 hholds).elim hthere Term.text_notMem_keys_components
    obtain ⟨hwoven', hcontains'⟩ := hwoven.introduce hroom hnew ht hvariable
      fun key hkey => (hcontains key).2 (.inr hkey)
    refine ⟨hwoven', fun key => ?_⟩
    have hsubset : key ∈ t.components.flatMap Term.keys → key ∈ t.keys := by
      rw [Term.keys_eq t, hvariable]
      exact List.mem_cons_of_mem _
    rw [hcontains', hcontains, or_assoc, or_iff_right_of_imp hsubset]

end Grows

mutual

/-- With room in the end, exactly what is within a term gets concepts with it. -/
theorem grows_conceptualize (t : Term) {x : Memory × σ} (h : x.1.Woven) (ht : t.Named)
    (hroom : (conceptualize settings t x).1.Spacious) :
    x.1.Grows (conceptualize settings t x).1 t.keys := by
  match t with
  | .var .. => exact .refl h
  | .atom name =>
    rw [conceptualize] at hroom ⊢
    exact .introduce h ht rfl hroom fun _ => .refl h
  | .compound connector operands intervals =>
    rw [conceptualize] at hroom ⊢
    refine .introduce h ht rfl hroom fun hroom => ?_
    rw [← Term.keysOfAll_eq_flatMap]
    exact grows_conceptualizeAll operands h (fun part hpart => ht.component hpart) hroom
  | .statement subject copula predicate interval =>
    rw [conceptualize] at hroom ⊢
    refine .introduce h ht rfl hroom fun hroom => ?_
    have hsubject := grows_conceptualize subject h (ht.component (by simp [Term.components]))
      (Spacious.of_conceptualize predicate hroom)
    have hpredicate := grows_conceptualize predicate hsubject.woven
      (ht.component (by simp [Term.components])) hroom
    simpa [Term.components] using hsubject.trans hpredicate

theorem grows_conceptualizeAll (ts : List Term) {x : Memory × σ} (h : x.1.Woven)
    (hts : ∀ t ∈ ts, t.Named) (hroom : (conceptualizeAll settings ts x).1.Spacious) :
    x.1.Grows (conceptualizeAll settings ts x).1 (Term.keysOfAll ts) := by
  match ts with
  | [] => exact .refl h
  | t :: ts =>
    rw [List.forall_mem_cons] at hts
    have hfirst := grows_conceptualize t h hts.1 (Spacious.of_conceptualizeAll ts hroom)
    exact hfirst.trans (grows_conceptualizeAll ts hfirst.woven hts.2 hroom)

end

/-! ## Links -/

namespace Woven

variable {c : Concept}

/-- A concept lies under the text of its term, and there is one for each term that is stored. -/
theorem exists_stores_iff (h : m.Woven) (p : Term → Prop) :
    (∃ t, m.Stores t ∧ p t) ↔ ∃ d, m.Contains d ∧ p d.term := by
  constructor
  · rintro ⟨t, ⟨k, hk, rfl⟩, hp⟩
    obtain ⟨d, hd, rfl⟩ := contains_of_knowledge? hk
    exact ⟨d, hd, hp⟩
  · rintro ⟨d, ⟨key, item, hitem, rfl⟩, hp⟩
    have hk : m.knowledge? key = some item.value.knowledge :=
      knowledge?_eq_some.2 ⟨item, hitem, rfl⟩
    obtain ⟨htext, _⟩ := h.stored key _ hk
    exact ⟨_, ⟨_, htext ▸ hk, rfl⟩, hp⟩

/-- A term that is stored is told by its text from the others. -/
theorem eq_of_stores (h : m.Stores t) (h' : m.Stores u) (htext : t.text = u.text) : t = u := by
  obtain ⟨k, hk, rfl⟩ := h
  obtain ⟨k', hk', rfl⟩ := h'
  rw [htext, hk'] at hk
  rw [Option.some.inj hk]

variable (h : m.Woven) (hc : m.Contains c)

include h hc

theorem stored_of_contains : m.Stores c.term ∧ c.term.Named ∧ c.term.isVariable = false := by
  obtain ⟨key, item, hitem, rfl⟩ := hc
  have hk : m.knowledge? key = some item.value.knowledge :=
    knowledge?_eq_some.2 ⟨item, hitem, rfl⟩
  obtain ⟨htext, hnamed, hvariable⟩ := h.stored key _ hk
  exact ⟨⟨_, htext ▸ hk, rfl⟩, hnamed, hvariable⟩

theorem concept?_eq : m.concept? c.term = some c := by
  obtain ⟨key, item, hitem, rfl⟩ := hc
  obtain ⟨htext, _⟩ := h.stored key _ (knowledge?_eq_some.2 ⟨item, hitem, rfl⟩)
  have hkey : item.value.term.text = key := htext
  rw [concept?, hkey, hitem]
  rfl

/-- The links of a concept are those that come with the terms that are stored. -/
theorem contains_links_iff (kind : LinkKind) (key : String) :
    (c.links kind).contains key = true ↔ ∃ d, m.Contains d ∧ d.term.Joins kind c.term.text key := by
  have hget := concept?_eq h hc
  obtain ⟨item, hitem, rfl⟩ := Option.map_eq_some_iff.1 hget
  rw [← h.exists_stores_iff fun t => t.Joins kind item.value.term.text key, ← h.linked,
    Memory.linked, hitem, Option.any_some]

theorem subtermLinks_iff (key : String) : c.subtermLinks.contains key = true ↔
    ∃ part ∈ c.term.components, part.isVariable = false ∧ part.text = key := by
  rw [show c.subtermLinks = c.links .subterm from rfl, contains_links_iff h hc]
  simp only [Term.joins_subterm]
  constructor
  · rintro ⟨d, hd, htext, part, hpart, hvariable, rfl⟩
    rw [eq_of_stores (h.stored_of_contains hc).1 (h.stored_of_contains hd).1 htext]
    exact ⟨part, hpart, hvariable, rfl⟩
  · rintro ⟨part, hpart, hvariable, rfl⟩
    exact ⟨c, hc, rfl, part, hpart, hvariable, rfl⟩

/-- A term with the text of a stored one is no variable. -/
theorem and_text_eq_iff {s : Term} (hs : s.Named) :
    s.isVariable = false ∧ c.term.text = s.text ↔ (s == c.term) = true := by
  obtain ⟨_, hnamed, hvariable⟩ := h.stored_of_contains hc
  rw [Term.beq_iff_text_eq]
  constructor
  · rintro ⟨_, htext⟩
    exact htext.symm
  · intro htext
    exact ⟨(Term.isVariable_eq_of_text_eq hs hnamed htext).trans hvariable, htext.symm⟩

theorem supertermLinks_iff (key : String) : c.supertermLinks.contains key = true ↔
    ∃ d, m.Contains d ∧ d.term.text = key ∧
      ∃ part ∈ d.term.components, (part == c.term) = true := by
  rw [show c.supertermLinks = c.links .superterm from rfl, contains_links_iff h hc]
  simp only [Term.joins_superterm, eq_comm (a := key)]
  refine exists_congr fun d => and_congr_right fun hd => and_congr_right fun _ => ?_
  refine exists_congr fun part => and_congr_right fun hpart => ?_
  exact h.and_text_eq_iff hc ((h.stored_of_contains hd).2.1.component hpart)

theorem termLinks_iff (key : String) : c.termLinks.contains key = true ↔
    c.subtermLinks.contains key = true ∨ c.supertermLinks.contains key = true := by
  rw [show c.termLinks = c.links .term from rfl, show c.subtermLinks = c.links .subterm from rfl,
    show c.supertermLinks = c.links .superterm from rfl, contains_links_iff h hc,
    contains_links_iff h hc, contains_links_iff h hc]
  simp only [Term.joins_term, and_or_left, exists_or]

theorem predictionLinks_iff (key : String) : c.predictionLinks.contains key = true ↔
    ∃ d, m.Contains d ∧ d.term.text = key ∧ ∃ subject predicate,
      d.term.sides? = some (subject, predicate) ∧ (subject == c.term) = true := by
  rw [show c.predictionLinks = c.links .prediction from rfl, contains_links_iff h hc]
  simp only [Term.joins_prediction, eq_comm (a := key)]
  refine exists_congr fun d => and_congr_right fun hd => and_congr_right fun _ => ?_
  refine exists₂_congr fun subject predicate => and_congr_right fun hsides => ?_
  have hsubject := (Term.mem_components_of_sides? hsides).1
  exact h.and_text_eq_iff hc ((h.stored_of_contains hd).2.1.component hsubject)

theorem explanationLinks_iff (key : String) : c.explanationLinks.contains key = true ↔
    ∃ d, m.Contains d ∧ d.term.text = key ∧ ∃ subject predicate,
      d.term.sides? = some (subject, predicate) ∧ (predicate == c.term) = true := by
  rw [show c.explanationLinks = c.links .explanation from rfl, contains_links_iff h hc]
  simp only [Term.joins_explanation, eq_comm (a := key)]
  refine exists_congr fun d => and_congr_right fun hd => and_congr_right fun _ => ?_
  refine exists₂_congr fun subject predicate => and_congr_right fun hsides => ?_
  have hpredicate := (Term.mem_components_of_sides? hsides).2
  exact h.and_text_eq_iff hc ((h.stored_of_contains hd).2.1.component hpredicate)

end Woven

/-- **Main theorem.** After any terms got their concepts in an empty memory that still has room, the
concepts are exactly those of what is within these terms, but for the variables. Each concept is
linked exactly to the parts of its term, to the terms that it is a part of, to both of them, and to
the statements about statements that it is the subject or the predicate of. -/
theorem linked_conceptualizeAll (settings : Settings) (draws : σ) (ts : List Term)
    (hbuilt : ∀ t ∈ ts, t.Built)
    (hroom : (conceptualizeAll settings ts (.empty settings, draws)).1.Spacious) :
    let m := (conceptualizeAll settings ts (.empty settings, draws)).1
    (∀ key, m.concepts.contains key = true ↔
      ∃ t ∈ ts, ∃ u : Term, u.Within t ∧ u.isVariable = false ∧ u.text = key) ∧
    ∀ c, m.Contains c → m.concept? c.term = some c ∧
      (∀ key, c.subtermLinks.contains key = true ↔
        ∃ part ∈ c.term.components, part.isVariable = false ∧ part.text = key) ∧
      (∀ key, c.supertermLinks.contains key = true ↔
        ∃ d, m.Contains d ∧ d.term.text = key ∧
          ∃ part ∈ d.term.components, (part == c.term) = true) ∧
      (∀ key, c.termLinks.contains key = true ↔
        c.subtermLinks.contains key = true ∨ c.supertermLinks.contains key = true) ∧
      (∀ key, c.predictionLinks.contains key = true ↔
        ∃ d, m.Contains d ∧ d.term.text = key ∧ ∃ subject predicate,
          d.term.sides? = some (subject, predicate) ∧ (subject == c.term) = true) ∧
      (∀ key, c.explanationLinks.contains key = true ↔
        ∃ d, m.Contains d ∧ d.term.text = key ∧ ∃ subject predicate,
          d.term.sides? = some (subject, predicate) ∧ (predicate == c.term) = true) ∧
      ∀ kind key link, (c.links kind).get? key = some link → link.value.text = key := by
  intro m
  obtain ⟨hwoven, hcontains⟩ := grows_conceptualizeAll ts (x := (.empty settings, draws))
    (Woven.empty settings) (fun t ht => (hbuilt t ht).named) hroom
  have hempty : (Memory.empty settings, draws).1.Sound settings fun _ => True := .empty settings _
  have hsound : m.Sound settings fun _ => True := hempty.conceptualizeAll ts
  refine ⟨fun key => ?_, fun c hc => ⟨hwoven.concept?_eq hc, hwoven.subtermLinks_iff hc,
    hwoven.supertermLinks_iff hc, hwoven.termLinks_iff hc, hwoven.predictionLinks_iff hc,
    hwoven.explanationLinks_iff hc, fun kind key link hlink => ?_⟩⟩
  · have hnone : (Memory.empty settings).concepts.contains key = false := by
      rw [Bag.contains_eq_isSome]
      exact congrArg Option.isSome (Bag.get?_empty _ _ key)
    rw [hcontains, hnone, Term.keysOfAll_eq_flatMap, List.mem_flatMap]
    simp only [Bool.false_eq_true, false_or, Term.mem_keys_iff]
  · exact ((hsound.of_contains hc).links kind).all key link hlink |>.symm

/-- An implication with a part that occurs in both sides of it, and with variables. -/
theorem linked_conceptualizeAll_implication :
    let a := Term.atom "a"
    let x := Term.var .independent "x" []
    let whole := Term.relate (.relate a .inheritance x 0) .implication (.relate a .similarity a 0) 0
    let m := (conceptualizeAll {} [whole, x, a] (.empty {}, Keystream.ofSeed 7)).1
    (∀ t ∈ [whole, x, a], t.Built) ∧ m.Spacious ∧ ∀ key, m.concepts.contains key = true ↔
      ∃ t ∈ [whole, x, a], ∃ u : Term, u.Within t ∧ u.isVariable = false ∧ u.text = key := by
  intro a x whole m
  have ha : a.Built := .ofName (show Term.ofName "a" = _ from rfl)
  have hx : x.Built :=
    .ofVariable (by simp) (show Term.ofVariable .independent "x" [] = _ from rfl)
  have hbuilt : ∀ t ∈ [whole, x, a], t.Built := by
    simp only [List.forall_mem_cons]
    exact ⟨.relate (.relate ha hx) (.relate ha ha), hx, ha, by simp⟩
  have hroom : m.Spacious := by decide +kernel
  exact ⟨hbuilt, hroom, (linked_conceptualizeAll {} _ _ hbuilt hroom).1⟩

end Memory

end NonAxiomatic
