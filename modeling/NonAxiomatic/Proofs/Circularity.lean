import Mathlib.Tactic.ByContra
import NonAxiomatic.Proofs.Evidence
import NonAxiomatic.Proofs.Schema

/-!
# Circular evidence

Whether a conclusion may meet its own premises again. A timeless conclusion from `a` and `b` rests
on its own identity, then on what `a` rests on, then on what `b` rests on, as far as the base has
room; what does not fit is dropped from the front.

**Theorem (`mayInteract_premise_iff`).** Let all sentences be read and concluded with one supply of
identities. A conclusion from timeless premises never interacts with its second premise. It
interacts with its first premise exactly when the base of the second one is full, as long as the
supply is not exhausted: then the base of the conclusion is that of the second premise alone, and
nothing in it is left of the first.

This does happen: `exists_mayInteract_premise` revises a judgment with itself until its base is
full.
-/

namespace NonAxiomatic

/-! ## Timeless premises -/

section Timeless

variable {p : Standpoint} {s t a b : Sentence} {c : Conclusion}

theorem mayInteract_iff (hs : s.isEvent = false) :
    mayInteract s t = true ↔ s.id ≠ t.id ∧ s.id ∉ t.base.ids ∧ t.id ∉ s.base.ids ∧
      s.base.overlaps t.base = false := by
  simp only [mayInteract, hs, EvidenceBase.contains, Bool.false_or, Bool.and_eq_true,
    bne_iff_ne, Bool.not_eq_true', Bool.or_eq_false_iff, List.contains_eq_mem,
    decide_eq_false_iff_not, and_assoc]

theorem mayInteract_eq_false_of_overlaps (hs : s.isEvent = false)
    (h : s.base.overlaps t.base = true) : mayInteract s t = false := by
  rw [← Bool.not_eq_true, mayInteract_iff hs]
  rintro ⟨_, _, _, hno⟩
  rw [h] at hno
  exact absurd hno (by decide)

theorem mayInteract_comm (hs : s.isEvent = false) (ht : t.isEvent = false) :
    mayInteract s t = mayInteract t s := by
  rw [Bool.eq_iff_iff, mayInteract_iff hs, mayInteract_iff ht,
    EvidenceBase.overlaps_comm t.base s.base]
  constructor
  · rintro ⟨hne, hst, hts, ho⟩
    exact ⟨hne.symm, hts, hst, ho⟩
  · rintro ⟨hne, hts, hst, ho⟩
    exact ⟨hne.symm, hst, hts, ho⟩

theorem isEvent_number (h : p.Concludes a b c) (ha : a.isEvent = false)
    (hb : b.isEvent = false) (id : SentenceId) : (c.number id).isEvent = false := by
  show c.occurrence.isSome = false
  simp [h.occurrence_eq, ha, hb]

theorem base_number (h : p.Concludes a b c) (ha : a.isEvent = false)
    (hb : b.isEvent = false) (id : SentenceId) :
    (c.number id).base = ((EvidenceBase.own id).merge a.base).merge b.base := by
  show c.grounds.foldl EvidenceBase.merge (.own id) = _
  simp [h.grounds_eq, ha, hb]

/-- A conclusion does not interact with its second premise. -/
theorem mayInteract_second (h : p.Concludes a b c) (ha : a.isEvent = false)
    (hb : b.isEvent = false) (short : b.base.ids.length ≤ EvidenceBase.maxLength)
    (nonempty : b.base.ids ≠ []) (id : SentenceId) : mayInteract (c.number id) b = false := by
  apply mayInteract_eq_false_of_overlaps (isEvent_number h ha hb id)
  rw [base_number h ha hb]
  exact EvidenceBase.overlaps_merge_right short nonempty

/-- A conclusion interacts with its first premise only when the base of the second one is full. -/
theorem mayInteract_first_iff (h : p.Concludes a b c) (ha : a.isEvent = false)
    (hb : b.isEvent = false) (shortA : a.base.ids.length ≤ EvidenceBase.maxLength)
    (shortB : b.base.ids.length ≤ EvidenceBase.maxLength) (nonempty : a.base.ids ≠ [])
    (interact : mayInteract a b = true) (id : SentenceId) :
    mayInteract (c.number id) a = true ↔
      b.base.ids.length = EvidenceBase.maxLength ∧ id ≠ a.id ∧ id ∉ a.base.ids := by
  obtain ⟨_, hab, _, hov⟩ := (mayInteract_iff ha).1 interact
  have hr : (c.number id).id = id := rfl
  rw [mayInteract_iff (isEvent_number h ha hb id), base_number h ha hb, hr]
  constructor
  · rintro ⟨hid, hin, _, hno⟩
    refine ⟨?_, hid, hin⟩
    by_contra hfull
    rw [EvidenceBase.overlaps_merge_left shortA nonempty (by omega)] at hno
    exact absurd hno (by decide)
  · rintro ⟨hfull, hid, hin⟩
    rw [EvidenceBase.merge_of_full hfull, EvidenceBase.overlaps_comm]
    exact ⟨hid, hin, hab, hov⟩

end Timeless

/-! ## Lineages -/

/-- The sentences read and concluded with one supply of identities, and what is left of it. -/
inductive Lineage : IdSupply → List Sentence → Prop where
  | start (ids : IdSupply) : Lineage ids []
  | read {ids ids' : IdSupply} {known : List Sentence} {text : String} {cycle : Cycle}
      {s : Sentence} (before : Lineage ids known)
      (parsed : Sentence.parse text ids cycle = .ok (s, ids')) : Lineage ids' (s :: known)
  | conclude {ids ids' : IdSupply} {known derived : List Sentence} {p : Standpoint}
      {s t : Sentence} (before : Lineage ids known) (first : s ∈ known) (second : t ∈ known)
      (concluded : p.derive ids s t = .ok (derived, ids')) : Lineage ids' (derived ++ known)

theorem Lineage.grounded {ids : IdSupply} {known : List Sentence} (h : Lineage ids known) :
    ∀ s ∈ known, s.Grounded ids := by
  induction h with
  | start => exact fun _ h => absurd h (by simp)
  | @read ids ids' known text cycle s _ parsed ih =>
    obtain ⟨u, _, _, _, rfl, rfl⟩ := Sentence.parse_eq_ok.1 parsed
    intro x hx
    rcases List.mem_cons.1 hx with rfl | hx
    · exact grounded_fresh _ _ _
    · exact (ih x hx).of_isBefore ids.isBefore_advance
  | @conclude ids ids' known derived p s t _ hs ht concluded ih =>
    obtain ⟨cs, hcs, hcol⟩ := derive_eq_ok.1 concluded
    have hout : ids.IsBefore ids' := by
      have := isBefore_numberAll ids cs
      rwa [show (Conclusion.numberAll ids cs).2 = (Conclusion.collect ids cs).2 from rfl, hcol]
        at this
    intro x hx
    rcases List.mem_append.1 hx with hx | hx
    · have hx' : x ∈ (Conclusion.collect ids cs).1 := by rwa [hcol]
      obtain ⟨c, hc, ids₁, hb, hb', rfl⟩ := mem_collect hx'
      rw [hcol] at hb'
      refine (grounded_number hb ?_).of_isBefore hb'
      -- The base of a conclusion comes from its two premises, both of which are known.
      intro b hmem
      rcases Standpoint.infer_concludes hcs hc with h | h <;>
        rw [h.grounds_eq] at hmem <;> split at hmem <;>
        simp only [List.not_mem_nil, List.mem_cons, or_false] at hmem <;>
        rcases hmem with rfl | rfl
      · exact (ih s hs).base
      · exact (ih t ht).base
      · exact (ih t ht).base
      · exact (ih s hs).base
    · exact (ih x hx).of_isBefore hout

/-- **Main theorem.** A conclusion from two timeless premises never interacts with the second of
them, and with the first one exactly when the base of the second is full and the conclusion has
got an identity of its own; it does as long as the supply is not exhausted. -/
theorem mayInteract_premise_iff {ids ids' : IdSupply} {known derived : List Sentence}
    {p : Standpoint} {s t r : Sentence} (lineage : Lineage ids known) (hs : s ∈ known)
    (ht : t ∈ known) (timelessS : s.isEvent = false) (timelessT : t.isEvent = false)
    (concluded : p.derive ids s t = .ok (derived, ids')) (hr : r ∈ derived) :
    ∃ a b : Sentence, (a = s ∧ b = t ∨ a = t ∧ b = s) ∧ r.stamp.parents = [a.id, b.id] ∧
      mayInteract r b = false ∧ mayInteract b r = false ∧
      mayInteract a r = mayInteract r a ∧
      (mayInteract r a = true ↔
        b.base.ids.length = EvidenceBase.maxLength ∧ r.id ≠ a.id ∧ r.id ∉ a.base.ids) ∧
      (ids.next ≠ 0 - 1 → r.id ≠ a.id ∧ r.id ∉ a.base.ids) := by
  obtain ⟨cs, hcs, hcol⟩ := derive_eq_ok.1 concluded
  have hr' : r ∈ (Conclusion.collect ids cs).1 := by rwa [hcol]
  obtain ⟨c, hc, ids₁, hb, _, rfl⟩ := mem_collect hr'
  have hst := Standpoint.mayInteract_of_infer hcs
  -- Either order of the premises is the first case of this one.
  have main : ∀ a b : Sentence, a ∈ known → b ∈ known → a.isEvent = false → b.isEvent = false →
      mayInteract a b = true → p.Concludes a b c →
      (c.number ids₁.peek).stamp.parents = [a.id, b.id] ∧
        mayInteract (c.number ids₁.peek) b = false ∧
        mayInteract b (c.number ids₁.peek) = false ∧
        mayInteract a (c.number ids₁.peek) = mayInteract (c.number ids₁.peek) a ∧
        (mayInteract (c.number ids₁.peek) a = true ↔
          b.base.ids.length = EvidenceBase.maxLength ∧ ids₁.peek ≠ a.id ∧
            ids₁.peek ∉ a.base.ids) ∧
        (ids.next ≠ 0 - 1 → ids₁.peek ≠ a.id ∧ ids₁.peek ∉ a.base.ids) := by
    intro a b ha hb' hae hbe hab h
    have ga := lineage.grounded a ha
    have gb := lineage.grounded b hb'
    have timeless := isEvent_number h hae hbe ids₁.peek
    have second := mayInteract_second h hae hbe gb.base.short gb.base.nonempty ids₁.peek
    refine ⟨h.parents_eq, second, ?_, mayInteract_comm hae timeless,
      mayInteract_first_iff h hae hbe ga.base.short gb.base.short ga.base.nonempty hab _,
      -- The second premise's base stands behind, and keeps its last identity in the merged one.
      fun hx => ⟨(ga.given.ne_peek hx hb).symm, fun hin => ?_⟩⟩
    · rw [mayInteract_comm hbe timeless]
      exact second
    · exact (ga.base.given _ hin).ne_peek hx hb rfl
  rcases Standpoint.infer_concludes hcs hc with h | h
  · exact ⟨s, t, .inl ⟨rfl, rfl⟩, main s t hs ht timelessS timelessT hst h⟩
  · rw [mayInteract_comm timelessS timelessT] at hst
    exact ⟨t, s, .inr ⟨rfl, rfl⟩, main t s ht hs timelessT timelessS hst h⟩

/-! ## A full base -/

/-- A judgment revised with `n` copies of itself, and the supply after that. -/
def revisedCopies : (n : Nat) → Option (Sentence × IdSupply)
  | 0 => (Sentence.parse "(a --> b)." {} 0).toOption
  | n + 1 => do
    let (s, ids) ← revisedCopies n
    let (copy, ids) ← (Sentence.parse "(a --> b)." ids 0).toOption
    let (derived, ids) ← (Standpoint.derive ⟨{}, 0⟩ ids copy s).toOption
    let revised ← derived.head?
    return (revised, ids)

theorem toOption_eq_some {ε α : Type} {x : Except ε α} {a : α} :
    x.toOption = some a ↔ x = .ok a := by
  cases x <;> simp [Except.toOption]

theorem revisedCopies_succ {n : Nat} {r : Sentence} {ids : IdSupply}
    (h : revisedCopies (n + 1) = some (r, ids)) :
    ∃ s copy ids₁ ids₂ derived, revisedCopies n = some (s, ids₁) ∧
      Sentence.parse "(a --> b)." ids₁ 0 = .ok (copy, ids₂) ∧
      Standpoint.derive ⟨{}, 0⟩ ids₂ copy s = .ok (derived, ids) ∧ r ∈ derived := by
  simp only [revisedCopies, Option.bind_eq_bind, Option.bind_eq_some_iff, Prod.exists,
    Option.pure_def, Option.some.injEq, Prod.mk.injEq, toOption_eq_some] at h
  obtain ⟨s, ids₁, hs, copy, ids₂, hcopy, derived, _, hd, r, hr, rfl, rfl⟩ := h
  exact ⟨s, copy, ids₁, ids₂, derived, hs, hcopy, hd, List.mem_of_mem_head? hr⟩

theorem lineage_revisedCopies {n : Nat} {s : Sentence} {ids : IdSupply}
    (h : revisedCopies n = some (s, ids)) : ∃ known, Lineage ids known ∧ s ∈ known := by
  induction n generalizing s ids with
  | zero =>
    exact ⟨[s], .read (.start {}) (toOption_eq_some.1 h), by simp⟩
  | succ n ih =>
    obtain ⟨t, copy, ids₁, ids₂, derived, ht, hcopy, hd, hs⟩ := revisedCopies_succ h
    obtain ⟨known, hl, hmem⟩ := ih ht
    exact ⟨_, .conclude (.read hl hcopy) (by simp) (List.mem_cons_of_mem _ hmem) hd,
      List.mem_append_left _ hs⟩

theorem isEvent_copy {ids ids' : IdSupply} {copy : Sentence}
    (h : Sentence.parse "(a --> b)." ids 0 = .ok (copy, ids')) :
    copy.isEvent = false ∧ copy.id = ids.peek ∧ ids' = ids.advance := by
  obtain ⟨u, occurrence, hu, hat, rfl, rfl⟩ := Sentence.parse_eq_ok.1 h
  have tense : (Utterance.parse "(a --> b).").toOption.map Utterance.tense = some .eternal := by
    decide +kernel
  simp only [hu, Except.toOption, Option.map_some, Option.some.injEq] at tense
  rw [tense] at hat
  cases hat
  exact ⟨rfl, rfl, rfl⟩

/-- After fifteen revisions the base is full, and the next revision interacts with the copy that it
was concluded from. -/
theorem exists_mayInteract_premise :
    ∃ ids ids' known derived p s t r, Lineage ids known ∧ s ∈ known ∧ t ∈ known ∧
      s.isEvent = false ∧ t.isEvent = false ∧
      Standpoint.derive p ids s t = .ok (derived, ids') ∧ r ∈ derived ∧
      mayInteract r s = true := by
  have full : (revisedCopies 15).map (fun (s, ids) =>
      (s.isEvent, s.id, s.base.ids.length, ids)) = some (false, ⟨30⟩, 30, ⟨31⟩) := by
    decide +kernel
  have parents : (revisedCopies 16).map (fun x => x.1.stamp.parents) =
      some [⟨31⟩, ⟨30⟩] := by decide +kernel
  obtain ⟨⟨r, ids'⟩, hr, parents⟩ := Option.map_eq_some_iff.1 parents
  obtain ⟨s, copy, ids₁, ids₂, derived, hs, hcopy, hd, hmem⟩ := revisedCopies_succ hr
  rw [hs] at full
  simp only [Option.map_some, Option.some.injEq, Prod.mk.injEq] at full
  obtain ⟨timeless, hid, hfull, rfl⟩ := full
  obtain ⟨timelessCopy, hidCopy, rfl⟩ := isEvent_copy hcopy
  obtain ⟨known, hl, hsk⟩ := lineage_revisedCopies hs
  have lineage := Lineage.read hl hcopy
  have hcopyk : copy ∈ copy :: known := by simp
  have hsk : s ∈ copy :: known := by simp [hsk]
  obtain ⟨a, b, order, parents', _, _, _, hiff, fresh⟩ :=
    mayInteract_premise_iff lineage hcopyk hsk timelessCopy timeless hd hmem
  refine ⟨_, ids', _, derived, _, copy, s, r, lineage, hcopyk, hsk, timelessCopy, timeless, hd,
    hmem, ?_⟩
  -- One order of the premises is this one; the other does not fit the parents of the revision.
  rcases order with ⟨rfl, rfl⟩ | ⟨rfl, rfl⟩
  · exact hiff.2 ⟨hfull, fresh (by decide)⟩
  · rw [parents', hid, hidCopy] at parents
    exact absurd parents (by decide)

end NonAxiomatic
