import NonAxiomatic.Proofs.Growth
import NonAxiomatic.Proofs.Spelling

/-!
# What a link adds

A bag only loses something when it is full, and then it stays full. So a bag that has room after an
item was put in has lost nothing (`Bag.put_of_room`), and a memory that has room in the end
(`Memory.Spacious`) had room all the time: every concept and every link that was made is there.

Which concepts are linked to which, by their keys, is all that is looked at (`Memory.linked`).

* `Memory.Spacious.link_iff`: with room in the end, exactly one link is added, if its source has a
  concept.
* `Memory.Spacious.linkPart_iff`, `Memory.Spacious.linkParts_iff`: a term and a part of it get four
  links, also where they are not made because they are there already (`Memory.Mutual`).
* `Memory.Spacious.linkSides_iff`: a statement about statements gets the links of its two sides.
* `Memory.Spacious.introduce_iff`: a new concept takes nothing away, and brings exactly the links
  that join its term to its parts and sides (`Term.Joins`).
-/

namespace NonAxiomatic

/-! ## Bags with room -/

namespace Bag

variable {α σ : Type} [DrawSource σ] {b : Bag α} {key : String}

/-- Whether there is room for another item. -/
def HasRoom (b : Bag α) : Prop := b.size < b.capacity

theorem size_add_of_new (h : b.contains key = false) (item : Item α) :
    (b.add key item).size = b.size + 1 := by
  show (b.items.insert key item).size = b.items.size + 1
  rw [Std.TreeMap.size_insert]
  exact if_neg (ne_true_of_eq_false h)

theorem size_le_takeMin (b : Bag α) (s : σ) : b.size ≤ (b.takeMin s).2.1.size + 1 := by
  rcases b.takeMin_cases s with htaken | ⟨taken, htaken⟩ <;> rw [htaken]
  · omega
  · cases hget : b.get? taken with
    | none => simp [erase, hget]
    | some item => exact (size_erase_of_get? hget).ge

theorem hasRoom_modify {f : α → α} : (b.modify key f).HasRoom ↔ b.HasRoom := by
  rw [HasRoom, HasRoom, size_modify]
  rfl

theorem hasRoom_rebudget {f : Budget → Budget} : (b.rebudget key f).HasRoom ↔ b.HasRoom := by
  rw [HasRoom, HasRoom, size_rebudget, capacity_rebudget]

theorem contains_rebudget {f : Budget → Budget} (k : String) :
    (b.rebudget key f).contains k = b.contains k := by
  rw [contains_eq_isSome, contains_eq_isSome, get?_rebudget]
  split <;> simp

/-- With room after an item was put in, there was room before, and nothing was taken out for it. -/
theorem put_of_room {value : α} {budget : Budget} {s : σ}
    (h : (b.put key value budget s).2.1.HasRoom) : b.HasRoom ∧
      (b.contains key = true ∧ (b.put key value budget s).2.1 = b ∨
        b.contains key = false ∧ (b.put key value budget s).2.1 = b.add key ⟨value, budget⟩) := by
  rw [HasRoom, capacity_put] at h
  rcases b.put_cases key value budget s with ⟨hthere, hput⟩ | ⟨hnew, b', hput, hb'⟩
  · rw [hput] at h
    exact ⟨h, .inl ⟨hthere, hput⟩⟩
  · rcases hb' with ⟨rfl, hroom⟩ | ⟨rfl, hfull⟩
    · exact ⟨hroom, .inr ⟨hnew, hput⟩⟩
    · -- A full bag stays full.
      have hgone : (b.takeMin s).2.1.contains key = false := by
        rw [contains_eq_isSome, b.get?_takeMin_of_none s (get?_eq_none_of_contains hnew)]
        rfl
      rw [hput, size_add_of_new hgone] at h
      have hle := b.size_le_takeMin s
      omega

end Bag

variable {σ : Type} [DrawSource σ]

/-! ## Links of a concept -/

/-- With room after a concept was linked, there was room before, and it has this link and no other
new one. -/
theorem Concept.link_of_room {c : Concept} {kind : LinkKind} {target : Term} {priority : Double}
    {draws : σ} (h : ∀ kind', ((c.link kind target priority draws).1.links kind').HasRoom) :
    (∀ kind', (c.links kind').HasRoom) ∧
      ∀ kind' key, ((c.link kind target priority draws).1.links kind').contains key = true ↔
        (c.links kind').contains key = true ∨ kind' = kind ∧ key = target.text := by
  unfold link at h ⊢
  dsimp only at h ⊢
  -- A link that is there is left alone; what is added otherwise is kept, since all bags have room
  -- in the end.
  by_cases hthere : (c.links kind).contains target.text = true
  · rw [if_pos hthere] at h ⊢
    refine ⟨h, fun kind' key => ⟨.inl, ?_⟩⟩
    rintro (hkey | ⟨rfl, rfl⟩)
    · exact hkey
    · exact hthere
  · rw [if_neg hthere] at h ⊢
    have hput := h kind
    rw [links_withLinks, if_pos rfl, Bag.setPriority, Bag.hasRoom_rebudget] at hput
    obtain ⟨hroom, hadded⟩ := Bag.put_of_room hput
    replace hadded := hadded.resolve_left fun hkept => hthere hkept.1
    refine ⟨fun kind' => ?_, fun kind' key => ?_⟩
    · by_cases hkind : kind = kind'
      · exact hkind ▸ hroom
      · simpa [links_withLinks, hkind] using h kind'
    · rw [links_withLinks]
      by_cases hkind : kind = kind'
      · subst hkind
        rw [if_pos rfl, Bag.setPriority, Bag.contains_rebudget, hadded.2, Bag.contains_eq_isSome,
          Bag.contains_eq_isSome, Bag.get?_add]
        by_cases hkey : key = target.text <;> simp [hkey]
      · rw [if_neg hkind]
        simp [Ne.symm hkind]

namespace Memory

/-! ## Memories with room -/

/-- Whether there is room for another concept, and for another link of each kind in every
concept. -/
structure Spacious (m : Memory) : Prop where
  concepts : m.concepts.HasRoom
  links : ∀ key item, m.concepts.get? key = some item → ∀ kind, (item.value.links kind).HasRoom

/-- All kinds of links. -/
def linkKinds : List LinkKind := [.term, .subterm, .superterm, .prediction, .explanation]

instance (m : Memory) : Decidable m.Spacious :=
  decidable_of_iff (m.concepts.size < m.concepts.capacity ∧ ∀ x ∈ m.concepts.toList,
    ∀ kind ∈ linkKinds, (x.2.value.links kind).size < (x.2.value.links kind).capacity) <| by
    constructor
    · rintro ⟨hconcepts, hlinks⟩
      refine ⟨hconcepts, fun key item hitem kind => hlinks (key, item) ?_ kind ?_⟩
      · exact Std.TreeMap.mem_toList_iff_getElem?_eq_some.2 hitem
      · cases kind <;> simp [linkKinds]
    · rintro ⟨hconcepts, hlinks⟩
      exact ⟨hconcepts, fun x hx kind _ =>
        hlinks x.1 x.2 (Std.TreeMap.mem_toList_iff_getElem?_eq_some.1 hx) kind⟩

/-- Whether the concept under a key, if there is one, has a link of a kind under another key. -/
def linked (m : Memory) (kind : LinkKind) (source target : String) : Bool :=
  (m.concepts.get? source).any fun item => (item.value.links kind).contains target

variable {x : Memory × σ}

namespace Spacious

variable {source target : Term} {kind : LinkKind} {priority : Double}

/-- With room after a link was made, there was room before, and it is the only new one. -/
theorem link_iff (h : (link source kind target priority x).1.Spacious) : x.1.Spacious ∧
    ∀ kind' key key', (link source kind target priority x).1.linked kind' key key' = true ↔
      x.1.linked kind' key key' = true ∨
        x.1.holds source = true ∧ kind' = kind ∧ key = source.text ∧ key' = target.text := by
  have hholds : x.1.holds source = (x.1.concept? source).isSome := by
    rw [holds, Bag.contains_eq_isSome, concept?, Option.isSome_map]
  unfold Memory.link at h ⊢
  cases hc : x.1.concept? source with
  | none =>
    rw [hc] at h
    refine ⟨h, fun kind' key key' => ?_⟩
    simp [hholds, hc]
  | some c =>
    rw [hc] at h
    dsimp only at h ⊢
    obtain ⟨item, hitem, rfl⟩ := Option.map_eq_some_iff.1 hc
    generalize hlinked : item.value.link kind target priority x.2 = linked at h ⊢
    have hget : ∀ key, (x.1.modify source fun _ => linked.1).concepts.get? key =
        if key = source.text then some { item with value := linked.1 }
        else x.1.concepts.get? key := by
      intro key
      rw [Memory.modify, Bag.get?_modify]
      split
      · rename_i hkey
        rw [hkey, hitem]
        rfl
      · rfl
    have hroom := h.links source.text { item with value := linked.1 } (by rw [hget, if_pos rfl])
    obtain ⟨hbefore, hcontains⟩ := Concept.link_of_room (by rwa [← hlinked] at hroom)
    rw [hlinked] at hcontains
    -- Room at the end means room before, as links are only added.
    refine ⟨⟨?_, fun key item' hitem' => ?_⟩, fun kind' key key' => ?_⟩
    · exact Bag.hasRoom_modify.1 h.concepts
    · by_cases hkey : key = source.text
      · rw [hkey, hitem] at hitem'
        exact Option.some.inj hitem' ▸ hbefore
      · exact h.links key item' (by rw [hget, if_neg hkey, hitem'])
    · rw [Memory.linked, Memory.linked, hget]
      by_cases hkey : key = source.text
      · rw [if_pos hkey, hkey, hitem, Option.any_some, Option.any_some, hcontains, hholds, hc]
        simp
      · rw [if_neg hkey]
        simp [hkey]

end Spacious

/-! ## Terms and their parts -/

theorem holds_link (source : Term) (kind : LinkKind) (target : Term) (priority : Double)
    (t : Term) : (link source kind target priority x).1.holds t = x.1.holds t := by
  rw [holds_eq_isSome_knowledge?, holds_eq_isSome_knowledge?, (alike_link _ _ _ _ x).knowledge?_eq]

theorem holds_linkPart (whole part t : Term) :
    (linkPart whole part x).1.holds t = x.1.holds t := by
  rw [holds_eq_isSome_knowledge?, holds_eq_isSome_knowledge?, (alike_linkPart _ _ x).knowledge?_eq]

end Memory

/-- The links between a term and a part of it. -/
def Term.Meets (whole part : Term) : LinkKind → String → String → Prop
  | .term, key, key' =>
    key = whole.text ∧ key' = part.text ∨ key = part.text ∧ key' = whole.text
  | .subterm, key, key' => key = whole.text ∧ key' = part.text
  | .superterm, key, key' => key = part.text ∧ key' = whole.text
  | .prediction, _, _ | .explanation, _, _ => False

namespace Memory

variable {m : Memory} {x : Memory × σ}

/-- Whether a term has all links to and from a part of it that it has one of. -/
def Mutual (m : Memory) (whole : Term) : Prop :=
  ∀ key, m.linked .term whole.text key = true → m.linked .term key whole.text = true ∧
    m.linked .subterm whole.text key = true ∧ m.linked .superterm key whole.text = true

theorem Mutual.linkPart {m' : Memory} {whole part : Term} (h : m.Mutual whole)
    (hlinked : ∀ kind key key', m'.linked kind key key' = true ↔
      m.linked kind key key' = true ∨ whole.Meets part kind key key') : m'.Mutual whole := by
  intro key hkey
  rw [hlinked] at hkey
  simp only [hlinked, Term.Meets]
  rcases hkey with hkey | ⟨_, rfl⟩ | ⟨hpart, rfl⟩
  · obtain ⟨hback, hdown, hup⟩ := h key hkey
    exact ⟨.inl hback, .inl hdown, .inl hup⟩
  · simp
  · simp [hpart]

namespace Spacious

theorem of_linkPart {whole part : Term} (h : (Memory.linkPart whole part x).1.Spacious) :
    x.1.Spacious := by
  unfold Memory.linkPart at h
  split at h
  · exact h
  · exact h.link_iff.1.link_iff.1.link_iff.1.link_iff.1

/-- With room in the end, a term and a part of it are linked both ways. -/
theorem linkPart_iff {whole part : Term} (h : (Memory.linkPart whole part x).1.Spacious)
    (hwhole : x.1.holds whole = true) (hpart : x.1.holds part = true)
    (hmutual : x.1.Mutual whole) (kind : LinkKind) (key key' : String) :
    (Memory.linkPart whole part x).1.linked kind key key' = true ↔
      x.1.linked kind key key' = true ∨ whole.Meets part kind key key' := by
  have hthere : ((x.1.concept? whole).any fun c => c.termLinks.contains part.text) =
      x.1.linked .term whole.text part.text := by
    rw [Memory.concept?, Option.any_map]
    rfl
  unfold Memory.linkPart at h ⊢
  rw [hthere] at h ⊢
  by_cases hlinked : x.1.linked .term whole.text part.text = true
  · -- They are linked already, as a term that occurs in a part twice is the second time.
    obtain ⟨hback, hdown, hup⟩ := hmutual _ hlinked
    rw [if_pos hlinked]
    refine ⟨.inl, ?_⟩
    rintro (hkey | hmeets)
    · exact hkey
    · cases kind with
      | term => rcases hmeets with ⟨rfl, rfl⟩ | ⟨rfl, rfl⟩ <;> assumption
      | subterm => exact hmeets.1 ▸ hmeets.2 ▸ hdown
      | superterm => exact hmeets.1 ▸ hmeets.2 ▸ hup
      | prediction => exact hmeets.elim
      | explanation => exact hmeets.elim
  · rw [if_neg hlinked] at h ⊢
    obtain ⟨h₃, h₄⟩ := h.link_iff
    obtain ⟨h₂, h₃⟩ := h₃.link_iff
    obtain ⟨h₁, h₂⟩ := h₂.link_iff
    obtain ⟨_, h₁⟩ := h₁.link_iff
    rw [h₄, h₃, h₂, h₁]
    simp only [holds_link, hwhole, hpart, true_and]
    cases kind <;> simp [Term.Meets, or_assoc]

theorem of_linkParts {whole : Term} {parts : List Term}
    (h : (parts.foldl (fun m part => Memory.linkPart whole part m) x).1.Spacious) :
    x.1.Spacious := by
  induction parts generalizing x with
  | nil => exact h
  | cons part parts ih => exact (ih h).of_linkPart

/-- With room in the end, a term is linked with each of its parts. -/
theorem linkParts_iff {whole : Term} {parts : List Term}
    (h : (parts.foldl (fun m part => Memory.linkPart whole part m) x).1.Spacious)
    (hwhole : x.1.holds whole = true) (hparts : ∀ part ∈ parts, x.1.holds part = true)
    (hmutual : x.1.Mutual whole) (kind : LinkKind) (key key' : String) :
    (parts.foldl (fun m part => Memory.linkPart whole part m) x).1.linked kind key key' = true ↔
      x.1.linked kind key key' = true ∨ ∃ part ∈ parts, whole.Meets part kind key key' := by
  induction parts generalizing x with
  | nil => simp
  | cons part parts ih =>
    rw [List.forall_mem_cons] at hparts
    rw [List.foldl_cons] at h
    have hfirst := h.of_linkParts.linkPart_iff hwhole hparts.1 hmutual
    rw [List.foldl_cons, ih h (by rwa [holds_linkPart])
      (fun part' hpart' => by rw [holds_linkPart, hparts.2 part' hpart'])
      (hmutual.linkPart hfirst), hfirst]
    simp [or_assoc]

end Spacious

end Memory

/-! ## Statements about statements -/

/-- The two sides of a statement about statements. -/
def Term.sides? : Term → Option (Term × Term)
  | statement subject copula predicate _ =>
    if copula.isFirstOrder then none else some (subject, predicate)
  | _ => none

theorem Term.mem_components_of_sides? {t subject predicate : Term}
    (h : t.sides? = some (subject, predicate)) :
    subject ∈ t.components ∧ predicate ∈ t.components := by
  cases t with
  | statement s copula p interval =>
    rw [sides?, Option.ite_none_left_eq_some, Option.some.injEq, Prod.mk.injEq] at h
    obtain ⟨_, rfl, rfl⟩ := h
    simp [components]
  | _ => exact absurd h (by simp [sides?])

/-- The links from the sides of a statement about statements to it. Variables have none. -/
def Term.Leans (t : Term) (kind : LinkKind) (key key' : String) : Prop :=
  key' = t.text ∧ ∃ subject predicate, t.sides? = some (subject, predicate) ∧
    (kind = .prediction ∧ subject.isVariable = false ∧ key = subject.text ∨
      kind = .explanation ∧ predicate.isVariable = false ∧ key = predicate.text)

/-- All links that come with the concept of a term. -/
def Term.Joins (t : Term) (kind : LinkKind) (key key' : String) : Prop :=
  (∃ part ∈ t.components, part.isVariable = false ∧ t.Meets part kind key key') ∨
    t.Leans kind key key'

namespace Term

variable {t : Term} {key key' : String}

theorem joins_subterm : t.Joins .subterm key key' ↔
    key = t.text ∧ ∃ part ∈ t.components, part.isVariable = false ∧ key' = part.text := by
  simp only [Joins, Meets, Leans, reduceCtorEq, false_and, or_self, exists_const, and_false,
    or_false]
  grind

theorem joins_superterm : t.Joins .superterm key key' ↔
    key' = t.text ∧ ∃ part ∈ t.components, part.isVariable = false ∧ key = part.text := by
  simp only [Joins, Meets, Leans, reduceCtorEq, false_and, or_self, exists_const, and_false,
    or_false]
  grind

theorem joins_term : t.Joins .term key key' ↔
    t.Joins .subterm key key' ∨ t.Joins .superterm key key' := by
  rw [joins_subterm, joins_superterm]
  simp only [Joins, Meets, Leans, reduceCtorEq, false_and, or_self, exists_const, and_false,
    or_false]
  grind

theorem joins_prediction : t.Joins .prediction key key' ↔ key' = t.text ∧ ∃ subject predicate,
    t.sides? = some (subject, predicate) ∧ subject.isVariable = false ∧ key = subject.text := by
  simp [Joins, Meets, Leans]

theorem joins_explanation : t.Joins .explanation key key' ↔ key' = t.text ∧ ∃ subject predicate,
    t.sides? = some (subject, predicate) ∧ predicate.isVariable = false ∧ key = predicate.text := by
  simp [Joins, Meets, Leans]

end Term

namespace Memory

variable {m : Memory} {x : Memory × σ} {settings : Settings} {t : Term}

theorem linkSides_eq (t : Term) (x : Memory × σ) : linkSides t x =
    match t.sides? with
    | none => x
    | some (subject, predicate) =>
      link predicate .explanation t sidePriority (link subject .prediction t sidePriority x) := by
  cases t with
  | statement subject copula predicate interval =>
    rw [linkSides, Term.sides?]
    split <;> rfl
  | _ => rfl

namespace Spacious

theorem of_linkSides (h : (Memory.linkSides t x).1.Spacious) : x.1.Spacious := by
  rw [linkSides_eq] at h
  split at h
  · exact h
  · exact h.link_iff.1.link_iff.1

/-- With room in the end, the sides of a statement about statements that are no variables are linked
to it. -/
theorem linkSides_iff (h : (Memory.linkSides t x).1.Spacious)
    (hsides : ∀ subject predicate, t.sides? = some (subject, predicate) →
      x.1.holds subject = !subject.isVariable ∧ x.1.holds predicate = !predicate.isVariable)
    (kind : LinkKind) (key key' : String) :
    (Memory.linkSides t x).1.linked kind key key' = true ↔
      x.1.linked kind key key' = true ∨ t.Leans kind key key' := by
  rw [linkSides_eq] at h ⊢
  rw [Term.Leans]
  cases ht : t.sides? with
  | none => simp
  | some sides =>
    obtain ⟨subject, predicate⟩ := sides
    rw [ht] at h
    obtain ⟨hsubject, hpredicate⟩ := hsides subject predicate ht
    obtain ⟨h₁, h₂⟩ := h.link_iff
    obtain ⟨_, h₁⟩ := h₁.link_iff
    dsimp only
    rw [h₂, h₁, holds_link, hsubject, hpredicate]
    simp only [Bool.not_eq_true', Option.some.injEq, Prod.mk.injEq, and_assoc, exists_and_left,
      exists_eq_left']
    tauto

end Spacious

/-! ## New concepts -/

/-- A memory after a term got a concept without links. -/
def added (settings : Settings) (t : Term) (m : Memory) : Memory :=
  ⟨m.concepts.add t.text ⟨.empty settings t, .default⟩⟩

theorem knowledge?_added (settings : Settings) (t : Term) (m : Memory) (key : String) :
    (m.added settings t).knowledge? key =
      if key = t.text then some (.blank settings t) else m.knowledge? key := by
  rw [knowledge?, added, Bag.get?_add]
  split
  · rfl
  · rw [knowledge?]

theorem linked_added (hnew : m.holds t = false) (kind : LinkKind) (key key' : String) :
    (m.added settings t).linked kind key key' = m.linked kind key key' := by
  rw [linked, linked, added, Bag.get?_add]
  split
  · rename_i hkey
    have hempty : ((Concept.empty settings t).links kind).contains key' = false := by
      rw [Bag.contains_eq_isSome]
      cases kind <;> exact congrArg Option.isSome (Bag.get?_empty _ _ _)
    rw [hkey, Bag.get?_eq_none_of_contains hnew, Option.any_some, hempty]
    rfl
  · rfl

namespace Spacious

/-- With room in the end, a new concept took nothing away. -/
theorem of_introduce (h : (Memory.introduce settings t x).1.Spacious) : x.1.Spacious ∧
    (x.1.holds t = false →
      ∃ draws, Memory.introduce settings t x = Memory.linkSides t
        ((t.components.filter fun part => !part.isVariable).foldl
          (fun m part => Memory.linkPart t part m) (x.1.added settings t, draws))) := by
  have hput : Spacious ⟨(x.1.concepts.put t.text (.empty settings t) .default x.2).2.1⟩ :=
    h.of_linkSides.of_linkParts
  obtain ⟨hroom, ⟨hthere, heq⟩ | ⟨hnew, heq⟩⟩ := Bag.put_of_room hput.concepts
  · rw [heq] at hput
    exact ⟨hput, fun hnew => absurd (hthere.symm.trans hnew) (by decide)⟩
  · refine ⟨⟨hroom, fun key item hitem => ?_⟩, fun _ =>
      ⟨(x.1.concepts.put t.text (.empty settings t) .default x.2).2.2, ?_⟩⟩
    · have hkey : key ≠ t.text := by
        rintro rfl
        rw [Bag.get?_eq_none_of_contains hnew] at hitem
        exact absurd hitem (by simp)
      exact hput.links key item (by rw [heq, Bag.get?_add, if_neg hkey, hitem])
    · rw [Memory.introduce, added, ← heq]

/-- With room in the end, a term that has no concept yet gets one, and the links that come with it
are the only new ones. Its parts have theirs already, but for the variables. -/
theorem introduce_iff (h : (Memory.introduce settings t x).1.Spacious) (hnew : x.1.holds t = false)
    (hparts : ∀ part ∈ t.components, x.1.holds part = !part.isVariable) :
    (∀ key, (Memory.introduce settings t x).1.knowledge? key =
      if key = t.text then some (.blank settings t) else x.1.knowledge? key) ∧
    ∀ kind key key', (Memory.introduce settings t x).1.linked kind key key' = true ↔
      x.1.linked kind key key' = true ∨ t.Joins kind key key' := by
  obtain ⟨draws, heq⟩ := h.of_introduce.2 hnew
  have hholds : ∀ part ∈ t.components,
      (x.1.added settings t).holds part = !part.isVariable := by
    intro part hpart
    have hne : part.text ≠ t.text := fun htext =>
      Nat.ne_of_lt (Term.length_text_lt hpart) (congrArg String.length htext)
    rw [← hparts part hpart, holds_eq_isSome_knowledge?, knowledge?_added, if_neg hne,
      holds_eq_isSome_knowledge?]
  have hwhole : (x.1.added settings t).holds t = true := by
    rw [holds_eq_isSome_knowledge?, knowledge?_added, if_pos rfl]
    rfl
  have hunlinked : (x.1.added settings t).Mutual t := by
    intro key hkey
    rw [linked_added hnew, linked, Bag.get?_eq_none_of_contains hnew] at hkey
    exact absurd hkey (by simp)
  have hthere : ∀ part ∈ t.components.filter fun part => !part.isVariable,
      (x.1.added settings t).holds part = true := by
    intro part hpart
    obtain ⟨hpart, hvariable⟩ := List.mem_filter.1 hpart
    rw [hholds part hpart, hvariable]
  have hlinks := alike_linkParts t (t.components.filter fun part => !part.isVariable)
    (x.1.added settings t, draws)
  rw [heq] at h ⊢
  refine ⟨fun key => ?_, fun kind key key' => ?_⟩
  · rw [(alike_linkSides t _).knowledge?_eq, hlinks.knowledge?_eq, knowledge?_added]
  -- First the links to the parts, then those to the sides.
  · rw [h.linkSides_iff, h.of_linkSides.linkParts_iff hwhole hthere hunlinked, linked_added hnew,
      Term.Joins, or_assoc]
    · simp only [List.mem_filter, Bool.not_eq_true', and_assoc]
    · intro subject predicate hsides
      obtain ⟨hsubject, hpredicate⟩ := Term.mem_components_of_sides? hsides
      rw [← hholds subject hsubject, ← hholds predicate hpredicate]
      simp only [holds_eq_isSome_knowledge?, hlinks.knowledge?_eq, and_self]

mutual

/-- A memory that has room in the end had room before its terms got their concepts. -/
theorem of_conceptualize (t : Term) {x : Memory × σ}
    (h : (Memory.conceptualize settings t x).1.Spacious) : x.1.Spacious := by
  match t with
  | .var .. => exact h
  | .atom name =>
    rw [Memory.conceptualize] at h
    split at h
    · exact h
    · exact h.of_introduce.1
  | .compound connector operands intervals =>
    rw [Memory.conceptualize] at h
    split at h
    · exact h
    · exact of_conceptualizeAll operands h.of_introduce.1
  | .statement subject copula predicate interval =>
    rw [Memory.conceptualize] at h
    split at h
    · exact h
    · exact of_conceptualize subject (of_conceptualize predicate h.of_introduce.1)

theorem of_conceptualizeAll (ts : List Term) {x : Memory × σ}
    (h : (Memory.conceptualizeAll settings ts x).1.Spacious) : x.1.Spacious := by
  match ts with
  | [] => exact h
  | t :: ts => exact of_conceptualize t (of_conceptualizeAll ts h)

end

end Spacious

end Memory

end NonAxiomatic
