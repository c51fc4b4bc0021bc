import NonAxiomatic.Proofs.Starvation
import NonAxiomatic.Proofs.Wiring

/-!
# Related concepts

The concept that is found to be related to a statement should be one that there can be sentences
about. The way from a statement about terms leads over one of its parts or over what it is a part
of. What a compound of terms is linked to is only taken if it is a statement, but what a name is
linked to is taken as it is, though it may be a compound of terms.

* `Memory.Wired.of_related`: where the way to a related concept may lead.
* `Memory.Wired.exists_follow`: every link between a term and its parts is followed on some draws.
* `Memory.Wired.exists_related`: whatever the way may stray to is found on some draws.

**Theorem (`Memory.related_sentential_iff`).** What is found is always another concept of the
memory, and there can be sentences about it, unless the way leads over a name to a compound of
terms. There always can be exactly if there are no attempts, or the statement is one about
statements, or its way does not stray to anything else over a name.

It does stray from `(a --> b)` to `(*,a,c)`: `Memory.product_related`.
-/

namespace NonAxiomatic

namespace Term

theorem headsSentence_eq_of_text_eq {s t : Term} (hs : s.Named) (ht : t.Named)
    (h : s.text = t.text) : s.headsSentence = t.headsSentence :=
  map_eq_of_text_eq (fun t => by cases t <;> rfl) hs ht h

theorem isEmpty_components_eq_of_text_eq {s t : Term} (hs : s.Named) (ht : t.Named)
    (h : s.text = t.text) : s.components.isEmpty = t.components.isEmpty :=
  map_eq_of_text_eq (f := fun t => t.components.isEmpty)
    (fun t => by cases t <;> simp [skeleton, components, skeletons_eq_map]) hs ht h

theorem headsSentence_of_isStatement {t : Term} (h : t.isStatement = true) :
    t.headsSentence = true := by
  cases t with
  | statement => rfl
  | _ => cases h

theorem headsSentence_of_sides? {t : Term} (h : t.sides?.isSome = true) :
    t.headsSentence = true := by
  cases t with
  | statement => rfl
  | _ => cases h

end Term

namespace Memory

variable {σ : Type} [DrawSource σ] {settings : Settings} {m : Memory} {t : Term}
  {c part r : Concept} {draws : σ}

/-! ## Ways that are taken -/

namespace Wired

variable (h : m.Wired settings)

include h

theorem concept?_eq (hc : m.Contains c) : m.concept? c.term = some c := by
  obtain ⟨key, item, hitem, rfl⟩ := hc
  rw [concept?, ← (h.sound.concepts.all key item hitem).1, hitem]
  rfl

/-- A link is followed to a concept under its key. -/
theorem exists_link_of_follow (hc : m.Contains c) {kind : LinkKind}
    (hfollow : (m.follow c kind draws).1 = some r) :
    m.Contains r ∧ ∃ link, (c.links kind).get? r.term.text = some link := by
  obtain ⟨⟨key, link⟩, hdraw, hr⟩ := Option.bind_eq_some_iff.1 hfollow
  have hlink := Bag.get?_of_drawFrom hdraw
  have htarget := ((h.sound.of_contains hc).links kind).all key link hlink
  rw [(h.sound.concept? hr).2, ← htarget]
  exact ⟨contains_of_concept? hr, link, hlink⟩

theorem linked_of_follow (hc : m.Contains c) {kind : LinkKind}
    (hfollow : (m.follow c kind draws).1 = some r) :
    m.linked kind c.term.text r.term.text = true := by
  obtain ⟨_, link, hlink⟩ := h.exists_link_of_follow hc hfollow
  obtain ⟨key, item, hitem, rfl⟩ := hc
  rw [linked, ← (h.sound.concepts.all key item hitem).1, hitem, Option.any_some,
    Bag.contains_eq_isSome, hlink]
  rfl

/-- The links of the sides of statements about statements lead to such. -/
theorem isSentential_of_follow (hc : m.Contains c) {kind : LinkKind}
    (hkind : kind = .prediction ∨ kind = .explanation)
    (hfollow : (m.follow c kind draws).1 = some r) : r.isSentential = true := by
  obtain ⟨hr, link, hlink⟩ := h.exists_link_of_follow hc hfollow
  obtain ⟨u, hu, hjoins⟩ := (h.wired c hc).joined kind _ link hlink
  have hleads : r.term.text = u.text ∧ u.sides?.isSome = true := by
    obtain rfl | rfl := hkind
    · obtain ⟨htext, subject, predicate, hsides, _⟩ := Term.joins_prediction.1 hjoins
      exact ⟨htext, by rw [hsides]; rfl⟩
    · obtain ⟨htext, subject, predicate, hsides, _⟩ := Term.joins_explanation.1 hjoins
      exact ⟨htext, by rw [hsides]; rfl⟩
  rw [Concept.isSentential, Term.headsSentence_eq_of_text_eq (h.wired r hr).named hu hleads.1]
  exact Term.headsSentence_of_sides? hleads.2

theorem isSentential_of_throughSide (hc : m.Contains c)
    (hr : (m.throughSide c draws).1 = some r) : r.isSentential = true := by
  unfold throughSide at hr
  split at hr
  · exact absurd hr (by simp)
  · exact h.isSentential_of_follow hc (.inl rfl) hr
  · exact h.isSentential_of_follow hc (.inr rfl) hr
  · refine h.isSentential_of_follow hc ?_ hr
    split <;> simp

/-- Only over a name the way may lead to something that there are no sentences about. -/
theorem of_throughPart (hc : m.Contains c) (hr : (m.throughPart c draws).1 = some r) :
    r.isSentential = true ∨
      (∃ name, c.term = .atom name) ∧ m.linked .term c.term.text r.term.text = true := by
  unfold throughPart at hr
  split at hr
  · rename_i name hname
    exact .inr ⟨⟨name, hname⟩, h.linked_of_follow hc hr⟩
  · rename_i connector operands gaps hcompound
    split at hr
    · exact .inl (Term.headsSentence_of_isStatement (Option.filter_eq_some_iff.1 hr).2)
    · rename_i horder
      obtain rfl := Option.some.inj hr
      rw [Concept.isSentential, hcompound]
      exact .inl (by simpa [Term.headsSentence] using horder)
  · rename_i hstatement
    obtain rfl := Option.some.inj hr
    rw [Concept.isSentential, hstatement]
    exact .inl rfl
  · exact absurd hr (by simp)

end Wired

/-- The way from a statement leads over a name to a concept. -/
def LeadsOverName (m : Memory) (t : Term) (r : Concept) : Prop :=
  ∃ part, m.Contains part ∧ (∃ name, part.term = .atom name) ∧
    m.linked .term t.text part.term.text = true ∧
    m.linked .term part.term.text r.term.text = true

/-- The way from a statement leads over a name to something that there are no sentences about. -/
def Strays (m : Memory) (t : Term) : Prop :=
  ∃ r, m.Contains r ∧ m.LeadsOverName t r ∧ r.isSentential = false

namespace Wired

theorem of_attemptRelated (h : m.Wired settings) (hc : m.concept? t = some c)
    (hr : (m.attemptRelated t c draws).1 = some r) : (r.term == t) = false ∧
      (r.isSentential = false → t.isFirstOrder = true ∧ m.LeadsOverName t r) := by
  have hcontains := contains_of_concept? hc
  unfold attemptRelated at hr
  split at hr
  · exact absurd hr (by simp)
  · rename_i part draws' hpart
    obtain ⟨hthrough, hother⟩ := Option.filter_eq_some_iff.1 hr
    rw [bne, Bool.not_eq_true'] at hother
    refine ⟨hother, fun hstray => ?_⟩
    have hpartFound := congrArg Prod.fst hpart
    have hpartContains := contains_of_follow hpartFound
    split at hthrough
    · rename_i horder
      obtain hsentential | ⟨hname, hlinked⟩ := h.of_throughPart hpartContains hthrough
      · exact absurd (hstray.symm.trans hsentential) (by decide)
      · have hfirst := h.linked_of_follow hcontains hpartFound
        rw [(h.sound.concept? hc).2] at hfirst
        exact ⟨horder, part, hpartContains, hname, hfirst, hlinked⟩
    · have hsentential := h.isSentential_of_throughSide hpartContains hthrough
      exact absurd (hstray.symm.trans hsentential) (by decide)

theorem of_attemptsRelated (h : m.Wired settings) (hc : m.concept? t = some c) {attempts : Nat}
    (hr : (m.attemptsRelated t c attempts draws).1 = some r) : (r.term == t) = false ∧
      (r.isSentential = false → attempts ≠ 0 ∧ t.isFirstOrder = true ∧ m.LeadsOverName t r) := by
  induction attempts generalizing draws with
  | zero => exact absurd hr (by simp [attemptsRelated])
  | succ attempts ih =>
    unfold attemptsRelated at hr
    split at hr
    · rename_i hfirst
      obtain ⟨hother, hstray⟩ := h.of_attemptRelated hc ((congrArg Prod.fst hfirst).trans hr)
      exact ⟨hother, fun hr => ⟨attempts.succ_ne_zero, hstray hr⟩⟩
    · obtain ⟨hother, hstray⟩ := ih hr
      exact ⟨hother, fun hr => ⟨attempts.succ_ne_zero, (hstray hr).2⟩⟩

theorem of_related (h : m.Wired settings) (hr : (m.related settings t draws).1 = some r) :
    (r.term == t) = false ∧ (r.isSentential = false →
      settings.relatedAttempts ≠ 0 ∧ t.isFirstOrder = true ∧ m.LeadsOverName t r) := by
  unfold related at hr
  split at hr
  · exact absurd hr (by simp)
  · rename_i c hc
    split at hr
    · exact absurd hr (by simp)
    · exact h.of_attemptsRelated hc hr

end Wired

/-! ## Ways that can be taken -/

namespace Wired

variable (h : m.Wired settings)

include h

theorem exists_link_of_linked (hc : m.Contains c) {kind : LinkKind} {key : String}
    (hlinked : m.linked kind c.term.text key = true) :
    ∃ link, (c.links kind).get? key = some link := by
  obtain ⟨item, hitem, rfl⟩ := Option.map_eq_some_iff.1 (h.concept?_eq hc)
  rw [linked, hitem, Option.any_some, Bag.contains_eq_isSome] at hlinked
  exact Option.isSome_iff_exists.1 hlinked

/-- Every link between a term and its parts is followed on some numbers, since no such link gets
more attention than another one. -/
theorem exists_follow (hc : m.Contains c) (hr : m.Contains r)
    (hlinked : m.linked .term c.term.text r.term.text = true) :
    ∃ values, ∀ rest, m.follow c .term (⟨values ++ rest⟩ : Script) = (some r, ⟨rest⟩) := by
  have hholds := (h.sound.of_contains hc).links .term
  obtain ⟨link, hlink⟩ := h.exists_link_of_linked hc hlinked
  have hfree : ¬ (c.links .term).IsCovered (c.links .term).priorityLevel link := by
    rintro ⟨_, key, other, hother, hbelow⟩
    have heven := h.wired c hc |>.even
    rw [Bag.priorityLevel, Bag.priorityLevel, heven key other hother, heven _ link hlink] at hbelow
    omega
  obtain ⟨values, hdraw⟩ := Bag.exists_drawFrom hholds.filed.byPriority hlink hfree
  have htarget : m.concept? link.value = some r := by
    rw [← h.concept?_eq hr, concept?, concept?, ← hholds.all _ link hlink]
  refine ⟨values, fun rest => ?_⟩
  rw [follow, Bag.peek, hdraw rest]
  exact Prod.ext htarget rfl

/-- Whatever the way may stray to is found on some numbers. -/
theorem exists_related (ht : t.Named) (hsentential : t.headsSentence = true)
    (hattempts : settings.relatedAttempts ≠ 0) (horder : t.isFirstOrder = true)
    (hstrays : m.Strays t) :
    ∃ values r, (m.related settings t (⟨values⟩ : Script)).1 = some r ∧ r.isSentential = false := by
  obtain ⟨r, hr, ⟨part, hpart, ⟨name, hname⟩, hfirst, hsecond⟩, hstray⟩ := hstrays
  obtain ⟨c, hc⟩ : ∃ c, m.concept? t = some c := by
    cases hget : m.concepts.get? t.text with
    | none => exact absurd hfirst (by simp [linked, hget])
    | some item => exact ⟨item.value, by rw [concept?, hget]; rfl⟩
  have hcontains := contains_of_concept? hc
  rw [← (h.sound.concept? hc).2] at hfirst
  obtain ⟨first, hfollow⟩ := h.exists_follow hcontains hpart hfirst
  obtain ⟨second, hfollow'⟩ := h.exists_follow hpart hr hsecond
  have hother : (r.term != t) = true := by
    rw [bne, Bool.not_eq_true', ← Bool.not_eq_true, Term.beq_iff_text_eq]
    intro htext
    have heads := Term.headsSentence_eq_of_text_eq (h.wired r hr).named ht htext
    exact absurd (hstray.symm.trans (heads.trans hsentential)) (by decide)
  have hlast := hfollow' []
  rw [List.append_nil] at hlast
  have hattempt : m.attemptRelated t c (⟨first ++ second⟩ : Script) = (some r, ⟨[]⟩) := by
    simp [attemptRelated, hfollow, horder, throughPart, hname, hlast, hother]
  obtain ⟨link, hlink⟩ := h.exists_link_of_linked hcontains hfirst
  have hlinks : c.termLinks.isEmpty = false := Bag.isEmpty_eq_false_of_get? hlink
  obtain ⟨attempts, hattempts⟩ := Nat.exists_eq_succ_of_ne_zero hattempts
  refine ⟨first ++ second, r, ?_, hstray⟩
  rw [related, hc]
  simp only [hlinks, hattempts, attemptsRelated, hattempt]
  rfl

/-- What a name is linked to is made of terms. -/
theorem of_linked_atom (hc : m.Contains c) (hname : ∃ name, c.term = .atom name)
    (hr : m.Contains r) (hlinked : m.linked .term c.term.text r.term.text = true) :
    r.isSentential = true ∨ r.term.isCompound = true ∧ r.term.isFirstOrder = true := by
  obtain ⟨link, hlink⟩ := h.exists_link_of_linked hc hlinked
  obtain ⟨u, hu, hjoins⟩ := (h.wired c hc).joined .term _ link hlink
  have hparts : r.term.components.isEmpty = false := by
    obtain hjoins | hjoins := Term.joins_term.1 hjoins
    · -- a name has no parts that it could be linked to
      obtain ⟨htext, part, hpart, _⟩ := Term.joins_subterm.1 hjoins
      obtain ⟨name, hname⟩ := hname
      have hempty := Term.isEmpty_components_eq_of_text_eq (h.wired c hc).named hu htext
      rw [hname] at hempty
      exact absurd (List.isEmpty_iff.1 hempty.symm ▸ hpart) (by simp)
    · obtain ⟨htext, part, hpart, _⟩ := Term.joins_superterm.1 hjoins
      rw [Term.isEmpty_components_eq_of_text_eq (h.wired r hr).named hu htext]
      exact List.isEmpty_eq_false_iff.2 (List.ne_nil_of_mem hpart)
  rw [Concept.isSentential]
  cases hterm : r.term with
  | atom | var =>
    rw [hterm] at hparts
    cases hparts
  | statement => exact .inl rfl
  | compound connector operands gaps =>
    cases horder : connector.isFirstOrder <;>
      simp [Term.headsSentence, Term.isCompound, Term.isFirstOrder, horder]

end Wired

/-- **Main theorem.** Whatever is found to be related to a statement is another concept of the
memory, and there can be sentences about it, unless it is a compound of terms to which the way leads
over a name. It is always one that there can be sentences about exactly if there are no attempts, or
the statement is one about statements, or its way does not stray. -/
theorem related_sentential_iff (h : Reachable settings m) (ht : t.Built)
    (hstatement : t.isStatement = true) :
    (∀ (σ : Type) [DrawSource σ] (draws : σ) (r : Concept),
      (m.related settings t draws).1 = some r →
      (r.term == t) = false ∧ m.concept? r.term = some r ∧
        (r.isSentential = true ∨ (r.term.isCompound = true ∧ r.term.isFirstOrder = true) ∧
          t.isFirstOrder = true ∧ m.LeadsOverName t r)) ∧
    ((∀ (σ : Type) [DrawSource σ] (draws : σ) (r : Concept),
        (m.related settings t draws).1 = some r → r.isSentential = true) ↔
      settings.relatedAttempts = 0 ∨ t.isFirstOrder = false ∨ ¬ m.Strays t) := by
  have hwired := h.wired
  refine ⟨fun σ _ draws r hr => ?_, fun hall => ?_, fun hcondition σ _ draws r hr => ?_⟩
  · obtain ⟨hother, hstray⟩ := hwired.of_related hr
    have hfound := contains_of_related hr
    refine ⟨hother, hwired.concept?_eq hfound, ?_⟩
    cases hr' : r.isSentential with
    | true => exact .inl rfl
    | false =>
      obtain ⟨_, horder, hleads⟩ := hstray hr'
      have ⟨part, hpart, hname, _, hlinked⟩ := hleads
      have hmade := hwired.of_linked_atom hpart hname hfound hlinked
      rw [hr'] at hmade
      exact .inr ⟨hmade.resolve_left (by decide), horder, hleads⟩
  · by_contra hnot
    push Not at hnot
    obtain ⟨hattempts, horder, hstrays⟩ := hnot
    obtain ⟨values, r, hr, hstray⟩ := hwired.exists_related ht.named
      (Term.headsSentence_of_isStatement hstatement) hattempts (by simpa using horder) hstrays
    exact absurd (hstray.symm.trans (hall Script ⟨values⟩ r hr)) (by decide)
  · cases hr' : r.isSentential with
    | true => rfl
    | false =>
      obtain ⟨hattempts, horder, hleads⟩ := (hwired.of_related hr).2 hr'
      obtain hzero | hhigher | hfree := hcondition
      · exact absurd hzero hattempts
      · exact absurd (horder.symm.trans hhigher) (by decide)
      · exact absurd ⟨r, contains_of_related hr, hleads, hr'⟩ hfree

/-! ## A statement and a product with one name -/

/-- What `a` is said to be. -/
abbrev aIsB : Term := .relate (.atom "a") .inheritance (.atom "b") 0

/-- The memory of `(a --> b)` and `(*,a,c)`. -/
def nameShared : Memory :=
  (conceptualize {} (.compose .product [.atom "a", .atom "c"] [])
    ((conceptualize {} aIsB (.empty {}, (⟨[]⟩ : Script))).1, (⟨[]⟩ : Script))).1

theorem built_atom {name : String} (h : Term.ofName name = .ok (.atom name)) :
    (Term.atom name).Built := .ofName h

theorem built_aIsB : aIsB.Built := .relate (built_atom rfl) (built_atom rfl)

theorem reachable_nameShared : Reachable {} nameShared := by
  have hparts : ∀ part ∈ [Term.atom "a", .atom "c"], part.Built := by
    intro part hpart
    rcases List.mem_pair.1 hpart with rfl | rfl <;> exact built_atom rfl
  exact .conceptualize (.conceptualize .empty built_aIsB _) (.compose hparts) _

theorem related_nameShared : ∃ r,
    (nameShared.related {} aIsB (⟨[0, 0, 0, 0, 0, 1]⟩ : Script)).1 = some r ∧
      r.term.text = "(*,a,c)" ∧ r.isSentential = false := by
  obtain ⟨r, hr, hfound⟩ := Option.map_eq_some_iff.1 (show
    ((nameShared.related {} aIsB (⟨[0, 0, 0, 0, 0, 1]⟩ : Script)).1.map fun r =>
      (r.term.text, r.isSentential)) = some ("(*,a,c)", false) by decide +kernel)
  obtain ⟨htext, hstray⟩ := Prod.mk.inj hfound
  exact ⟨r, hr, htext, hstray⟩

/-- A product is found to be related to a statement that begins with the same name. -/
theorem product_related : Reachable {} nameShared ∧ aIsB.Built ∧ aIsB.isStatement = true ∧ ∃ r,
    (nameShared.related {} aIsB (⟨[0, 0, 0, 0, 0, 1]⟩ : Script)).1 = some r ∧
      r.term.text = "(*,a,c)" ∧ r.isSentential = false :=
  ⟨reachable_nameShared, built_aIsB, by decide, related_nameShared⟩

/-- The way to the product leads over the name that it shares with the statement. -/
theorem product_related_over_name : ∃ r,
    (nameShared.related {} aIsB (⟨[0, 0, 0, 0, 0, 1]⟩ : Script)).1 = some r ∧
      r.term.text = "(*,a,c)" ∧ (r.term == aIsB) = false ∧ nameShared.concept? r.term = some r ∧
        nameShared.LeadsOverName aIsB r := by
  obtain ⟨r, hr, htext, hstray⟩ := related_nameShared
  obtain ⟨hother, hstored, hway⟩ :=
    (related_sentential_iff reachable_nameShared built_aIsB (by decide)).1 Script _ r hr
  rw [hstray] at hway
  exact ⟨r, hr, htext, hother, hstored, (hway.resolve_left (by decide)).2.2⟩

end Memory

end NonAxiomatic
