import NonAxiomatic.Proofs.MemorySound
import NonAxiomatic.Proofs.Network

/-!
# Where links lead

When a memory is full, concepts and links go, and what is left of the links of a term cannot be told
any more. But a link never comes without a term that joins its two ends (`Concept.Wired`), and all
links between terms and their parts have the same priority.

* `Concept.Wired.link`: a concept that is linked to what a term joins it to stays wired.
* `Memory.Wired.conceptualize`: a term that gets its concept only brings links that it joins.
* `Memory.Reachable.wired`: so every memory is wired, whatever has been lost.
-/

namespace NonAxiomatic

/-! ## Concepts -/

/-- The links of a concept all come from terms, which need not have concepts any more. -/
structure Concept.Wired (c : Concept) : Prop where
  /-- The term of the concept has the names of its parts. -/
  named : c.term.Named
  /-- Variables have no concepts. -/
  plain : c.term.isVariable = false
  /-- A link joins the concept to the term that it leads to. -/
  joined : ∀ kind key link, (c.links kind).get? key = some link →
    ∃ t : Term, t.Named ∧ t.Joins kind c.term.text key
  /-- All links between a term and its parts get the same attention. -/
  even : ∀ key link, c.termLinks.get? key = some link →
    link.budget.priority = Budget.clamp Memory.partPriority

namespace Concept.Wired

variable {σ : Type} [DrawSource σ] {c : Concept} {settings : Settings} {t target : Term}
  {kind : LinkKind} {priority : Double}

theorem empty (ht : t.Named) (hplain : t.isVariable = false) :
    (Concept.empty settings t).Wired := by
  have hnone (kind : LinkKind) (key : String) :
      ((Concept.empty settings t).links kind).get? key = none := by
    cases kind <;> exact Bag.get?_empty _ _ key
  exact ⟨ht, hplain, fun kind key link hlink => absurd (hnone kind key ▸ hlink) (by simp),
    fun key link hlink => absurd (hnone .term key ▸ hlink) (by simp)⟩

/-- What is under a key after a link was made: what was there before, or the link. -/
theorem get?_link {draws : σ} {kind' : LinkKind} {key : String} {link : Item Term}
    (hlink : ((c.link kind target priority draws).1.links kind').get? key = some link) :
    (c.links kind').get? key = some link ∨
      kind' = kind ∧ key = target.text ∧ link.budget.priority = Budget.clamp priority := by
  rcases c.link_eq kind target priority draws with heq | heq <;> rw [heq] at hlink
  · exact .inl hlink
  · rw [links_withLinks] at hlink
    by_cases hkind : kind = kind'
    · subst hkind
      rw [if_pos rfl, Bag.setPriority, Bag.get?_rebudget] at hlink
      split at hlink
      · rename_i hkey
        obtain ⟨old, _, rfl⟩ := Option.map_eq_some_iff.1 hlink
        exact .inr ⟨rfl, hkey, rfl⟩
      · rename_i hkey
        exact .inl ((Bag.get?_put hlink).resolve_right fun hnew => hkey hnew.1)
    · rw [if_neg hkind] at hlink
      exact .inl hlink

/-- A concept may be linked to what a term joins it to. -/
theorem link (h : c.Wired) (hjoins : ∃ t : Term, t.Named ∧ t.Joins kind c.term.text target.text)
    (heven : kind = .term → priority = Memory.partPriority) (draws : σ) :
    (c.link kind target priority draws).1.Wired := by
  have hterm : (c.link kind target priority draws).1.term = c.term :=
    congrArg Knowledge.term (c.knowledge_link kind target priority draws)
  refine ⟨hterm ▸ h.named, hterm ▸ h.plain, fun kind' key link hlink => ?_,
    fun key link hlink => ?_⟩
  · rw [hterm]
    obtain hold | ⟨rfl, rfl, _⟩ := get?_link hlink
    · exact h.joined kind' key link hold
    · exact hjoins
  · have hlink : ((c.link kind target priority draws).1.links .term).get? key = some link := hlink
    obtain hold | ⟨hkind, _, hpriority⟩ := get?_link hlink
    · exact h.even key link hold
    · rw [hpriority, heven hkind.symm]

end Concept.Wired

/-! ## Memories -/

namespace Memory

variable {σ : Type} [DrawSource σ] {settings : Settings} {m : Memory} {x : Memory × σ}
  {source target whole part t : Term} {kind : LinkKind} {priority : Double}

/-- Every concept is where it belongs, and wired. -/
structure Wired (settings : Settings) (m : Memory) : Prop where
  sound : m.Sound settings fun _ => True
  wired : ∀ c, m.Contains c → c.Wired

namespace Wired

theorem empty (settings : Settings) : (Memory.empty settings).Wired settings := by
  refine ⟨.empty _ _, ?_⟩
  rintro c ⟨key, item, hitem, _⟩
  exact absurd ((Bag.get?_empty _ _ key).symm.trans hitem) (by simp)

/-- Terms may be linked that a term joins. -/
theorem link (h : x.1.Wired settings) (hsource : source.Named)
    (hjoins : source.isVariable = false →
      ∃ t : Term, t.Named ∧ t.Joins kind source.text target.text)
    (heven : kind = .term → priority = partPriority) :
    (Memory.link source kind target priority x).1.Wired settings := by
  refine ⟨h.sound.link source kind target priority, ?_⟩
  unfold Memory.link
  cases hc : x.1.concept? source with
  | none => exact h.wired
  | some c =>
    have hwired := h.wired c (contains_of_concept? hc)
    have htext := (h.sound.concept? hc).2
    have hplain := Term.isVariable_eq_of_text_eq hwired.named hsource htext
    rintro d ⟨key, item, hitem, rfl⟩
    replace hitem : (x.1.modify source fun _ =>
      (c.link kind target priority x.2).1).concepts.get? key = some item := hitem
    rw [Memory.modify, Bag.get?_modify] at hitem
    split at hitem
    · obtain ⟨_, _, rfl⟩ := Option.map_eq_some_iff.1 hitem
      exact hwired.link (htext ▸ hjoins (hplain.symm.trans hwired.plain)) heven x.2
    · exact h.wired _ ⟨key, item, hitem, rfl⟩

theorem linkPart (h : x.1.Wired settings) (hwhole : whole.Named) (hpart : part ∈ whole.components)
    (hplain : part.isVariable = false) : (Memory.linkPart whole part x).1.Wired settings := by
  have hpartNamed := hwhole.component hpart
  have hjoins {kind : LinkKind} {key key' : String} (hmeets : whole.Meets part kind key key') :
      ∃ t : Term, t.Named ∧ t.Joins kind key key' :=
    ⟨whole, hwhole, .inl ⟨part, hpart, hplain, hmeets⟩⟩
  have hto : whole.Meets part .term whole.text part.text := .inl ⟨rfl, rfl⟩
  have hback : whole.Meets part .term part.text whole.text := .inr ⟨rfl, rfl⟩
  have hdown : whole.Meets part .subterm whole.text part.text := ⟨rfl, rfl⟩
  have hup : whole.Meets part .superterm part.text whole.text := ⟨rfl, rfl⟩
  unfold Memory.linkPart
  split
  · exact h
  · exact (((h.link hwhole (fun _ => hjoins hto) (fun _ => rfl)).link hpartNamed
      (fun _ => hjoins hback) (fun _ => rfl)).link hwhole
      (fun _ => hjoins hdown) (fun _ => rfl)).link hpartNamed
      (fun _ => hjoins hup) (fun _ => rfl)

theorem linkParts (h : x.1.Wired settings) (hwhole : whole.Named) {parts : List Term}
    (hparts : ∀ part ∈ parts, part ∈ whole.components ∧ part.isVariable = false) :
    (parts.foldl (fun m part => Memory.linkPart whole part m) x).1.Wired settings := by
  induction parts generalizing x with
  | nil => exact h
  | cons part parts ih =>
    rw [List.forall_mem_cons] at hparts
    exact ih (h.linkPart hwhole hparts.1.1 hparts.1.2) hparts.2

theorem linkSides (h : x.1.Wired settings) (ht : t.Named) :
    (Memory.linkSides t x).1.Wired settings := by
  rw [linkSides_eq]
  cases hsides : t.sides? with
  | none => exact h
  | some sides =>
    obtain ⟨subject, predicate⟩ := sides
    obtain ⟨hsubject, hpredicate⟩ := Term.mem_components_of_sides? hsides
    refine (h.link (ht.component hsubject) (fun hplain => ?_) (by simp)).link
      (ht.component hpredicate) (fun hplain => ?_) (by simp)
    · exact ⟨t, ht, .inr ⟨rfl, subject, predicate, hsides, .inl ⟨rfl, hplain, rfl⟩⟩⟩
    · exact ⟨t, ht, .inr ⟨rfl, subject, predicate, hsides, .inr ⟨rfl, hplain, rfl⟩⟩⟩

theorem introduce (h : x.1.Wired settings) (ht : t.Named) (hplain : t.isVariable = false) :
    (Memory.introduce settings t x).1.Wired settings := by
  have hput : Wired settings
      ⟨(x.1.concepts.put t.text (Concept.empty settings t) .default x.2).2.1⟩ := by
    refine ⟨⟨h.sound.concepts.put (by omega) ⟨rfl, .empty _ _ _⟩ _ _⟩, ?_⟩
    rintro c ⟨key, item, hitem, rfl⟩
    obtain hold | ⟨_, rfl⟩ := Bag.get?_put hitem
    · exact h.wired _ ⟨key, item, hold, rfl⟩
    · exact .empty ht hplain
  refine (hput.linkParts ht fun part hpart => ?_).linkSides ht
  simpa using List.mem_filter.1 hpart

mutual

/-- A term that gets its concept leaves a memory wired. -/
theorem conceptualize (t : Term) {x : Memory × σ} (h : x.1.Wired settings) (ht : t.Named) :
    (Memory.conceptualize settings t x).1.Wired settings := by
  match t with
  | .var .. => exact h
  | .atom name =>
    rw [Memory.conceptualize]
    split
    · exact h
    · exact h.introduce ht rfl
  | .compound connector operands intervals =>
    rw [Memory.conceptualize]
    split
    · exact h
    · exact (conceptualizeAll operands h fun _ hpart => ht.component hpart).introduce ht rfl
  | .statement subject copula predicate interval =>
    rw [Memory.conceptualize]
    split
    · exact h
    · have hsubject := conceptualize subject h (ht.component (by simp [Term.components]))
      exact (conceptualize predicate hsubject (ht.component (by simp [Term.components]))).introduce
        ht rfl

theorem conceptualizeAll (ts : List Term) {x : Memory × σ} (h : x.1.Wired settings)
    (hts : ∀ t ∈ ts, t.Named) : (Memory.conceptualizeAll settings ts x).1.Wired settings := by
  match ts with
  | [] => exact h
  | t :: ts =>
    rw [List.forall_mem_cons] at hts
    exact conceptualizeAll ts (conceptualize t h hts.1) hts.2

end

end Wired

/-- What memories become where one term after the other gets its concept. -/
inductive Reachable (settings : Settings) : Memory → Prop
  | empty : Reachable settings (.empty settings)
  | conceptualize {σ : Type} [DrawSource σ] {m : Memory} {t : Term} (h : Reachable settings m)
    (ht : t.Built) (draws : σ) :
    Reachable settings (Memory.conceptualize settings t (m, draws)).1

/-- Every memory is wired, whatever has been lost. -/
theorem Reachable.wired (h : Reachable settings m) : m.Wired settings := by
  induction h with
  | empty => exact .empty settings
  | conceptualize _ ht draws ih => exact ih.conceptualize _ ht.named

end Memory

end NonAxiomatic
