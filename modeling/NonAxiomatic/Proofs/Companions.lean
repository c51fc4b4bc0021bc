import NonAxiomatic.Proofs.Circularity
import NonAxiomatic.Proofs.Retention
import NonAxiomatic.Proofs.Utterances

/-!
# Entries side by side

A sentence that is put into a table is revised with the first entry that it may interact with, and
the revision is put in as it is. That this leaves no two entries which may interact rests on where
evidence comes from (`Provenance`): sentences with one identity rest on the same, and what a
sentence is found in the base of has not dropped out of its own.

A base drops what is in front when it is full, and the revision has the base of the entry in the end
(`EvidenceBase.subset_merge`). So it shares evidence with all that the entry shared evidence with,
and the entries beside it stay apart from it (`Provenance.mayInteract_revision`).

The last identity is given out again and again when the supply is exhausted. It keeps sentences
apart although it does not tell them apart.

**Theorem (`Upkeep.entries_apart`).** No two entries of a table may interact where timeless
judgments and goals of first order are put in, and they share evidence as long as the supply is not
exhausted.
-/

namespace NonAxiomatic

/-! ## The last identity -/

/-- The identity that an exhausted supply gives out. -/
def SentenceId.last : SentenceId := ⟨0 - 1⟩

namespace IdSupply

variable {ids ids' : IdSupply} {id : SentenceId}

theorem isExhausted_iff_peek_eq : ids.IsExhausted ↔ ids.peek = .last :=
  ⟨fun h => congrArg SentenceId.mk h, fun h => congrArg SentenceId.number h⟩

theorem HasGiven.isExhausted (h : ids.HasGiven .last) : ids.IsExhausted := by
  refine h.resolve_right fun hlt => ?_
  have hlast : UInt64.toNat (0 - 1) = 2 ^ 64 - 1 := by decide
  have hbound := ids.next.toNat_lt
  have hlt' := UInt64.lt_iff_toNat_lt.1 hlt
  rw [SentenceId.last, hlast] at hlt'
  omega

end IdSupply

/-! ## Where evidence comes from -/

theorem EvidenceBase.subset_merge {b other : EvidenceBase} (h : other.ids.length ≤ maxLength) :
    other.ids ⊆ (b.merge other).ids := by
  rw [ids_merge h]
  exact List.subset_append_right _ _

/-- Where the evidence of sentences comes from. But for the last identity, sentences with one
identity rest on the same, and a sentence that others rest on rests on itself. -/
structure Provenance (ids : IdSupply) (known : List Sentence) : Prop where
  grounded : ∀ s ∈ known, s.Grounded ids
  heads : ∀ s ∈ known, s.statement.headsSentence = true
  base_eq : ∀ s ∈ known, ∀ t ∈ known, s.id = t.id → s.id ≠ .last → s.base = t.base
  own : ∀ s ∈ known, ∀ t ∈ known, s.id ∈ t.base.ids → s.id ≠ .last → s.id ∈ s.base.ids

namespace Provenance

variable {ids ids' : IdSupply} {known known' : List Sentence} {s t e r : Sentence} {p : Standpoint}
  {c : Conclusion}

theorem nil (ids : IdSupply) : Provenance ids [] := by
  constructor <;> exact fun s hs => absurd hs List.not_mem_nil

theorem mono (h : Provenance ids known) (hsub : known' ⊆ known) : Provenance ids known' :=
  ⟨fun s hs => h.grounded s (hsub hs), fun s hs => h.heads s (hsub hs),
    fun s hs t ht => h.base_eq s (hsub hs) t (hsub ht),
    fun s hs t ht => h.own s (hsub hs) t (hsub ht)⟩

/-- A sentence with the next identity that rests on itself and on what is known. -/
theorem cons (h : Provenance ids known) (hid : r.id = ids.peek)
    (hheads : r.statement.headsSentence = true) (hbase : r.base.Grounded ids.advance)
    (hfrom : ∀ id ∈ r.base.ids, id = r.id ∨ ∃ s ∈ known, id ∈ s.base.ids) :
    Provenance ids.advance (r :: known) := by
  have hnew : r.id ≠ .last → ∀ id, ids.HasGiven id → id ≠ r.id := by
    intro hne id hgiven
    rw [hid] at hne ⊢
    exact hgiven.ne_peek (fun hx => hne (IdSupply.isExhausted_iff_peek_eq.1 hx)) ids.isBefore_refl
  refine ⟨?_, ?_, ?_, ?_⟩
  · rintro s (_ | ⟨_, hs⟩)
    · exact ⟨hid ▸ ids.hasGiven_advance, hbase⟩
    · exact (h.grounded s hs).of_isBefore ids.isBefore_advance
  · rintro s (_ | ⟨_, hs⟩)
    · exact hheads
    · exact h.heads s hs
  -- Two sentences of one identity are the same one, or the identity is the last of the supply.
  · rintro s (_ | ⟨_, hs⟩) t (_ | ⟨_, ht⟩) heq hne
    · rfl
    · exact absurd heq.symm (hnew hne _ (h.grounded t ht).given)
    · exact absurd heq (hnew (heq ▸ hne) _ (h.grounded s hs).given)
    · exact h.base_eq s hs t ht heq hne
  · rintro s (_ | ⟨_, hs⟩) t (_ | ⟨_, ht⟩) hin hne
    · exact hin
    · exact absurd rfl (hnew hne _ ((h.grounded t ht).base.given _ hin))
    · obtain heq | ⟨u, hu, hin⟩ := hfrom _ hin
      · exact absurd heq (hnew (heq ▸ hne) _ (h.grounded s hs).given)
      · exact h.own s hs u hu hin hne
    · exact h.own s hs t ht hin hne

theorem read (h : Provenance ids known) {text : String} {cycle : Cycle}
    (parsed : Sentence.parse text ids cycle = .ok (s, ids')) : Provenance ids' (s :: known) := by
  obtain ⟨u, _, hu, _, rfl, rfl⟩ := Sentence.parse_eq_ok.1 parsed
  exact h.cons rfl (Utterance.headsSentence_parse hu) (.own ids)
    fun id hid => .inl (List.mem_singleton.1 hid)

/-! ## Conclusions -/

theorem mem_foldl_merge {grounds : List EvidenceBase} {b : EvidenceBase} {id : SentenceId}
    (h : id ∈ (grounds.foldl EvidenceBase.merge b).ids) :
    id ∈ b.ids ∨ ∃ ground ∈ grounds, id ∈ ground.ids := by
  induction grounds generalizing b with
  | nil => exact .inl h
  | cons ground grounds ih =>
    obtain hin | ⟨other, hother, hin⟩ := ih h
    · exact (EvidenceBase.mem_of_mem_merge hin).imp_right fun hin =>
        ⟨ground, List.mem_cons_self, hin⟩
    · exact .inr ⟨other, List.mem_cons_of_mem _ hother, hin⟩

/-- Whether a conclusion is drawn from what is known. -/
structure RestsOn (known : List Sentence) (c : Conclusion) : Prop where
  heads : c.statement.headsSentence = true
  grounds : ∀ b ∈ c.grounds, ∃ s ∈ known, s.base = b

theorem restsOn_of_concludes (hs : s ∈ known) (ht : t ∈ known) (h : p.Concludes s t c) :
    RestsOn known c := by
  obtain ⟨_, hdrawn⟩ := h.drawn
  refine ⟨(Standpoint.conclude_eq_some.1 hdrawn).1, fun b hb => ?_⟩
  rw [h.grounds_eq] at hb
  split at hb
  · exact absurd hb List.not_mem_nil
  · simp only [List.mem_cons, List.not_mem_nil, or_false] at hb
    obtain rfl | rfl := hb
    · exact ⟨s, hs, rfl⟩
    · exact ⟨t, ht, rfl⟩

theorem RestsOn.mono (h : RestsOn known c) (hsub : known ⊆ known') : RestsOn known' c :=
  ⟨h.heads, fun b hb => (h.grounds b hb).imp fun _ hs => ⟨hsub hs.1, hs.2⟩⟩

theorem number (h : Provenance ids known) (hc : RestsOn known c) :
    Provenance ids.advance (c.number ids.peek :: known) := by
  refine h.cons rfl hc.heads ?_ fun id hid => ?_
  · refine (grounded_number ids.isBefore_refl fun b hb => ?_).base
    obtain ⟨s, hs, rfl⟩ := hc.grounds b hb
    exact (h.grounded s hs).base
  · refine (mem_foldl_merge hid).imp List.mem_singleton.1 ?_
    rintro ⟨b, hb, hin⟩
    obtain ⟨s, hs, rfl⟩ := hc.grounds b hb
    exact ⟨s, hs, hin⟩

theorem numberAll {cs : List Conclusion} (h : Provenance ids known)
    (hcs : ∀ c ∈ cs, RestsOn known c) :
    Provenance (Conclusion.numberAll ids cs).2 ((Conclusion.numberAll ids cs).1 ++ known) := by
  induction cs generalizing ids known with
  | nil => exact h
  | cons c cs ih =>
    have hrest := ih (h.number (hcs c List.mem_cons_self)) fun d hd =>
      (hcs d (List.mem_cons_of_mem _ hd)).mono (List.subset_cons_self _ _)
    exact hrest.mono List.perm_middle.symm.subset

theorem derive {derived : List Sentence} (h : Provenance ids known) (hs : s ∈ known)
    (ht : t ∈ known) (concluded : p.derive ids s t = .ok (derived, ids')) :
    Provenance ids' (derived ++ known) := by
  obtain ⟨cs, hcs, hcollect⟩ := derive_eq_ok.1 concluded
  have hall := h.numberAll fun c hc => (Standpoint.infer_concludes hcs hc).elim
    (restsOn_of_concludes hs ht) (restsOn_of_concludes ht hs)
  simp only [Conclusion.collect, Prod.mk.injEq] at hcollect
  obtain ⟨rfl, rfl⟩ := hcollect
  refine hall.mono (List.append_subset.2 ⟨fun s hs => ?_, List.subset_append_right _ _⟩)
  exact List.mem_append_left _ (List.mem_filter.1 hs).1

theorem put {table : Table} (h : Provenance ids known) (hentries : table.entries ⊆ known)
    (hs : s ∈ known) (p : Standpoint) :
    Provenance (table.put p s ids).2.2 ((table.put p s ids).1.toList ++ known) := by
  obtain hput | ⟨partner, hpartner, _, c, _, hc, hput⟩ := Table.put_cases p table s ids
  · rw [hput]
    exact h
  · rw [hput]
    exact h.number (restsOn_of_concludes hs (hentries hpartner) (Standpoint.concludes_of_revise hc))

/-! ## Keeping apart -/

theorem overlaps_self (h : s.Grounded ids) : s.base.overlaps s.base = true := by
  obtain ⟨id, hid⟩ := List.exists_mem_of_ne_nil _ h.base.nonempty
  exact EvidenceBase.overlaps_iff.2 ⟨id, hid, hid⟩

/-- Timeless sentences that may not interact share evidence, unless it is the last identity that
keeps them apart. -/
theorem overlaps_or (h : Provenance ids known) (hs : s ∈ known) (ht : t ∈ known)
    (timeless : s.isEvent = false) (hno : mayInteract s t = false) :
    s.base.overlaps t.base = true ∨ ids.IsExhausted ∧
      (s.id = .last ∧ s.id ∈ t.id :: t.base.ids ∨ t.id = .last ∧ t.id ∈ s.base.ids) := by
  have hexhausted : ∀ {u}, u ∈ known → u.id = .last → ids.IsExhausted := fun hu hlast =>
    IdSupply.HasGiven.isExhausted (hlast ▸ (h.grounded _ hu).given)
  by_cases hshare : s.base.overlaps t.base = true
  · exact .inl hshare
  -- They may not interact for one of four reasons, of which shared evidence is excluded here.
  have hkept : s.id = t.id ∨ s.id ∈ t.base.ids ∨ t.id ∈ s.base.ids := by
    by_contra hall
    simp only [not_or] at hall
    rw [(mayInteract_iff timeless).2 ⟨hall.1, hall.2.1, hall.2.2, by simpa using hshare⟩] at hno
    exact absurd hno (by decide)
  -- Each of the other three shares evidence as well, as long as the identity is not the last one.
  refine .inr ?_
  obtain heq | hin | hin := hkept
  · by_cases hlast : s.id = .last
    · exact ⟨hexhausted hs hlast, .inl ⟨hlast, heq ▸ List.mem_cons_self⟩⟩
    · have hself := overlaps_self (h.grounded s hs)
      exact absurd (h.base_eq s hs t ht heq hlast ▸ hself) hshare
  · by_cases hlast : s.id = .last
    · exact ⟨hexhausted hs hlast, .inl ⟨hlast, List.mem_cons_of_mem _ hin⟩⟩
    · exact absurd (EvidenceBase.overlaps_iff.2 ⟨_, h.own s hs t ht hin hlast, hin⟩) hshare
  · by_cases hlast : t.id = .last
    · exact ⟨hexhausted ht hlast, .inr ⟨hlast, hin⟩⟩
    · exact absurd (EvidenceBase.overlaps_iff.2 ⟨_, hin, h.own t ht s hs hin hlast⟩) hshare

/-- The revision of a sentence with an entry does not interact with what the entry did not interact
with. -/
theorem mayInteract_revision (h : Provenance ids known) (he : e ∈ known) (hr : r ∈ known)
    (timelessS : s.isEvent = false) (timelessE : e.isEvent = false)
    (hc : revise p s e = some c) (hno : mayInteract e r = false) :
    mayInteract (c.number ids.peek) r = false := by
  have hconcludes := Standpoint.concludes_of_revise hc
  have hsub : e.base.ids ⊆ (c.number ids.peek).base.ids := by
    rw [base_number hconcludes timelessS timelessE]
    exact EvidenceBase.subset_merge (h.grounded e he).base.short
  rw [← Bool.not_eq_true, mayInteract_iff (isEvent_number hconcludes timelessS timelessE _)]
  rintro ⟨hne, hnotin, hnotin', hapart⟩
  obtain hshare | ⟨hexhausted, ⟨hlast, hin⟩ | ⟨hlast, hin⟩⟩ := h.overlaps_or he hr timelessE hno
  · obtain ⟨id, hide, hidr⟩ := EvidenceBase.overlaps_iff.1 hshare
    rw [EvidenceBase.overlaps_iff.2 ⟨id, hsub hide, hidr⟩] at hapart
    exact absurd hapart (by decide)
  · -- The revision has the last identity as well.
    have hid : (c.number ids.peek).id = e.id :=
      (IdSupply.isExhausted_iff_peek_eq.1 hexhausted).trans hlast.symm
    rw [hid] at hne hnotin
    exact (List.mem_cons.1 hin).elim hne hnotin
  · exact hnotin' (hsub hin)

end Provenance

/-! ## Tables -/

/-- Whether neither of two sentences may interact with the other one. -/
def Sentence.Apart (s t : Sentence) : Prop := mayInteract s t = false ∧ mayInteract t s = false

theorem Sentence.apart_of_mayInteract {s t : Sentence} (hs : s.isEvent = false)
    (ht : t.isEvent = false) (h : mayInteract s t = false) : s.Apart t :=
  ⟨h, mayInteract_comm hs ht ▸ h⟩

theorem Sentence.Apart.symm {s t : Sentence} (h : s.Apart t) : t.Apart s := ⟨h.2, h.1⟩

/-- A timeless judgment or goal of first order about a term. -/
structure Sentence.Lasts (u : Term) (s : Sentence) : Prop where
  timeless : s.isEvent = false
  firstOrder : s.statement.isFirstOrder = true
  about : (s.statement == u) = true
  isQuestion_eq : s.isQuestion = false

namespace Table

variable {u : Term} {ids : IdSupply} {known : List Sentence} {table : Table} {p : Standpoint}
  {s e : Sentence} {c : Conclusion}

theorem apart_insert (table : Table) (hs : ∀ e ∈ table.entries, s.Apart e)
    (h : table.entries.Pairwise Sentence.Apart) :
    (table.insert p s).entries.Pairwise Sentence.Apart := by
  have hperm : (stableSort (ranksBefore p) (table.entries ++ [s])).Perm (s :: table.entries) :=
    (stableSort_perm _ _).trans (List.perm_append_singleton s _)
  have hsorted := (hperm.pairwise_iff Sentence.Apart.symm).2 (List.pairwise_cons.2 ⟨hs, h⟩)
  exact hsorted.sublist (List.take_sublist _ _)

theorem isSome_revise (hs : s.Lasts u) (he : e.Lasts u)
    (hheads : s.statement.headsSentence = true) : (revise p s e).isSome = true :=
  (isSome_revise_of_statement hs.isQuestion_eq he.isQuestion_eq
    (by rw [Term.beq_iff_text_eq, Term.beq_iff_text_eq.1 hs.about, Term.beq_iff_text_eq.1 he.about])
    (revisedStatement?_of_isFirstOrder hs.firstOrder)).2 hheads

/-- What does not ask is revised to something that does not ask. -/
theorem isQuestion_revise (hc : revise p s e = some c) (id : SentenceId) :
    (c.number id).isQuestion = false := by
  obtain ⟨_, hs, he, _, _, hconclude⟩ := Standpoint.revise_eq_some.1 hc
  obtain ⟨_, kind, hkind, rfl⟩ := Standpoint.conclude_eq_some.1 hconclude
  show (kind.punctuation == .question) = false
  rw [Standpoint.kindOf?] at hkind
  cases hps : s.punctuation <;> cases hpe : e.punctuation <;>
    simp only [Sentence.isQuestion, hps, hpe] at hs he hkind
  case judgment.judgment | judgment.goal | goal.judgment | goal.goal =>
    obtain ⟨v, _, rfl⟩ := Option.map_eq_some_iff.1 hkind
    rfl
  all_goals contradiction

theorem lasts_revise (hs : s.Lasts u) (he : e.Lasts u) (hc : revise p s e = some c)
    (id : SentenceId) : (c.number id).Lasts u := by
  obtain ⟨_, _, _, x, hx, hconclude⟩ := Standpoint.revise_eq_some.1 hc
  obtain rfl := Option.some.inj ((revisedStatement?_of_isFirstOrder hs.firstOrder).symm.trans hx)
  have hstatement : (c.number id).statement = s.statement := by
    obtain ⟨_, _, _, rfl⟩ := Standpoint.conclude_eq_some.1 hconclude
    rfl
  refine ⟨?_, ?_, ?_, isQuestion_revise hc id⟩
  · exact isEvent_number (Standpoint.concludes_of_revise hc) hs.timeless he.timeless id
  · rw [hstatement]
    exact hs.firstOrder
  · rw [hstatement]
    exact hs.about

theorem lasts_put (hs : s.Lasts u) (hall : ∀ e ∈ table.entries, e.Lasts u) (p : Standpoint)
    (ids : IdSupply) : ∀ e ∈ (table.put p s ids).2.1.entries, e.Lasts u := by
  intro r hr
  obtain ⟨hput, _⟩ | ⟨i, e, c, _, hchooses, hc, hput⟩ := put_cases_of_revise p table s ids <;>
    rw [hput] at hr
  · obtain hr | rfl := mem_insert hr
    · exact hall r hr
    · exact hs
  · obtain hr | rfl := mem_insert hr
    · exact hall r (List.mem_of_mem_eraseIdx hr)
    · exact lasts_revise hs (hall e (List.mem_of_getElem? hchooses.entry)) hc _

theorem entries_put_subset (hentries : table.entries ⊆ known) (hs : s ∈ known) (p : Standpoint) :
    (table.put p s ids).2.1.entries ⊆ (table.put p s ids).1.toList ++ known := by
  intro r hr
  obtain hput | ⟨_, _, i, c, _, _, hput⟩ := put_cases p table s ids <;> rw [hput] at hr ⊢
  · obtain hr | rfl := mem_insert hr
    · exact hentries hr
    · exact hs
  · obtain hr | rfl := mem_insert hr
    · exact List.mem_append_right _ (hentries (List.mem_of_mem_eraseIdx hr))
    · exact List.mem_append_left _ (List.mem_singleton_self _)

/-- A sentence that is put in leaves all entries apart. -/
theorem apart_put (h : Provenance ids known) (hentries : table.entries ⊆ known) (hs : s ∈ known)
    (hlasts : s.Lasts u) (hall : ∀ e ∈ table.entries, e.Lasts u)
    (hapart : table.entries.Pairwise Sentence.Apart) (p : Standpoint) :
    (table.put p s ids).2.1.entries.Pairwise Sentence.Apart := by
  obtain ⟨hput, hnone⟩ | ⟨i, e, c, _, hchooses, hc, hput⟩ := put_cases_of_revise p table s ids
  · rw [hput]
    -- Put in as it is: it could be revised with no entry, and so stands apart from all of them.
    refine apart_insert table (fun e he => ?_) hapart
    have hno : mayInteract s e = false := by
      by_contra hmay
      obtain ⟨i, partner, hi, hpartner⟩ := hasChoice_iff.1 ⟨e, he, .inr (by simpa using hmay)⟩
      have hsome := isSome_revise (p := p) hlasts (hall _ (List.mem_of_getElem? hpartner))
        (h.heads s hs)
      rw [hnone i partner hi hpartner] at hsome
      exact absurd hsome (by decide)
    exact Sentence.apart_of_mayInteract hlasts.timeless (hall e he).timeless hno
  · rw [hput]
    have he := List.mem_of_getElem? hchooses.entry
    -- Revised with one entry, which is taken out. The revision rests on the evidence of both, and
    -- stands apart from what they stood apart from.
    obtain ⟨hi, hentry⟩ := List.getElem?_eq_some_iff.1 hchooses.entry
    have hpair := ((List.getElem_cons_eraseIdx_perm hi).pairwise_iff Sentence.Apart.symm).2 hapart
    rw [hentry, List.pairwise_cons] at hpair
    refine apart_insert { table with entries := table.entries.eraseIdx i } (fun r hr => ?_) hpair.2
    have hrIn := List.mem_of_mem_eraseIdx hr
    have hno := h.mayInteract_revision (hentries he) (hentries hrIn) hlasts.timeless
      (hall e he).timeless hc (hpair.1 r hr).1
    have hrevision := lasts_revise hlasts (hall e he) hc ids.peek
    exact Sentence.apart_of_mayInteract hrevision.timeless (hall r hrIn).timeless hno

end Table

/-! ## Runs -/

/-- The sentences that are read and concluded with one supply of identities, or revised in tables,
and a table that timeless sentences of first order about one term are put into, of given kinds. -/
inductive Upkeep (u : Term) (kinds : List Punctuation) :
    IdSupply → List Sentence → Table → Prop where
  | start (ids : IdSupply) (capacity : Nat) : Upkeep u kinds ids [] (Table.empty capacity)
  | read {ids ids' : IdSupply} {known : List Sentence} {table : Table} {text : String}
      {cycle : Cycle} {s : Sentence} (before : Upkeep u kinds ids known table)
      (parsed : Sentence.parse text ids cycle = .ok (s, ids')) :
      Upkeep u kinds ids' (s :: known) table
  | conclude {ids ids' : IdSupply} {known derived : List Sentence} {table : Table}
      {p : Standpoint} {s t : Sentence} (before : Upkeep u kinds ids known table)
      (first : s ∈ known) (second : t ∈ known)
      (concluded : p.derive ids s t = .ok (derived, ids')) :
      Upkeep u kinds ids' (derived ++ known) table
  | elsewhere {ids : IdSupply} {known : List Sentence} {table other : Table} {s : Sentence}
      (before : Upkeep u kinds ids known table) (p : Standpoint) (held : other.entries ⊆ known)
      (put : s ∈ known) :
      Upkeep u kinds (other.put p s ids).2.2 ((other.put p s ids).1.toList ++ known) table
  | put {ids : IdSupply} {known : List Sentence} {table : Table} {s : Sentence}
      (before : Upkeep u kinds ids known table) (p : Standpoint) (put : s ∈ known)
      (timeless : s.isEvent = false) (firstOrder : s.statement.isFirstOrder = true)
      (about : (s.statement == u) = true) (kind : s.punctuation ∈ kinds) :
      Upkeep u kinds (table.put p s ids).2.2 ((table.put p s ids).1.toList ++ known)
        (table.put p s ids).2.1

namespace Upkeep

variable {u : Term} {kinds : List Punctuation} {ids : IdSupply} {known : List Sentence}
  {table : Table}

theorem entries_subset (h : Upkeep u kinds ids known table) : table.entries ⊆ known := by
  induction h with
  | start => exact List.nil_subset _
  | read _ _ ih => exact List.subset_cons_of_subset _ ih
  | conclude _ _ _ _ ih => exact List.subset_append_of_subset_right _ ih
  | elsewhere _ _ _ _ ih => exact List.subset_append_of_subset_right _ ih
  | put _ p put _ _ _ _ ih => exact Table.entries_put_subset ih put p

theorem provenance (h : Upkeep u kinds ids known table) : Provenance ids known := by
  induction h with
  | start ids capacity => exact .nil ids
  | read _ parsed ih => exact ih.read parsed
  | conclude _ first second concluded ih => exact ih.derive first second concluded
  | elsewhere _ p held put ih => exact ih.put held put p
  | put before p put _ _ _ _ ih => exact ih.put before.entries_subset put p

theorem isQuestion_eq {s : Sentence} (hkinds : .question ∉ kinds) (h : s.punctuation ∈ kinds) :
    s.isQuestion = false :=
  beq_eq_false_iff_ne.2 fun heq => hkinds (heq ▸ h)

theorem lasts (hkinds : .question ∉ kinds) (h : Upkeep u kinds ids known table) :
    ∀ s ∈ table.entries, s.Lasts u := by
  induction h with
  | start => exact fun s hs => absurd hs List.not_mem_nil
  | read _ _ ih => exact ih
  | conclude _ _ _ _ ih => exact ih
  | elsewhere _ _ _ _ ih => exact ih
  | @put ids _ _ _ _ p _ timeless firstOrder about kind ih =>
    exact Table.lasts_put ⟨timeless, firstOrder, about, isQuestion_eq hkinds kind⟩ ih p ids

/-- **Main theorem.** Where timeless judgments and goals of first order about one term are put into
a table, no two entries may interact, and any two share evidence as long as the supply of identities
is not exhausted. -/
theorem entries_apart (hkinds : .question ∉ kinds) (h : Upkeep u kinds ids known table) :
    table.entries.Pairwise fun s t => mayInteract s t = false ∧ mayInteract t s = false ∧
      (¬ ids.IsExhausted → s.base.overlaps t.base = true) := by
  have hapart : table.entries.Pairwise Sentence.Apart := by
    induction h with
    | start => exact .nil
    | read _ _ ih => exact ih
    | conclude _ _ _ _ ih => exact ih
    | elsewhere _ _ _ _ ih => exact ih
    | put before p put timeless firstOrder about kind ih =>
      exact Table.apart_put before.provenance before.entries_subset put
        ⟨timeless, firstOrder, about, isQuestion_eq hkinds kind⟩ (before.lasts hkinds) ih p
  refine hapart.imp_of_mem fun {s t} hs ht hno => ⟨hno.1, hno.2, fun hmore => ?_⟩
  exact (h.provenance.overlaps_or (h.entries_subset hs) (h.entries_subset ht)
    (h.lasts hkinds s hs).timeless hno.1).resolve_right fun hlast => hmore hlast.1

theorem parse_usual (ids : IdSupply) :
    Sentence.parse "(a --> b)." ids 0 = .ok (Table.usual ids.peek, ids.advance) := by rfl

/-- A copy of a judgment is put in beside a revision of it. -/
theorem apart_copy : ∃ ids known table,
    Upkeep (Table.usual ⟨0⟩).statement [.judgment, .goal] ids known table ∧
      table.entries.length = 2 ∧ table.entries.Pairwise fun s t =>
        mayInteract s t = false ∧ s.base.overlaps t.base = true := by
  have hstart : Upkeep (Table.usual ⟨0⟩).statement [.judgment, .goal] {} [] (.empty 5) :=
    .start {} 5
  have hfirst := (hstart.read (parse_usual {})).put ⟨{}, 0⟩ (s := Table.usual ⟨0⟩)
    List.mem_cons_self rfl rfl (Term.beq_iff_text_eq.2 rfl) List.mem_cons_self
  have hsecond := (hfirst.read (parse_usual ⟨1⟩)).put ⟨{}, 0⟩ (s := Table.usual ⟨1⟩)
    List.mem_cons_self rfl rfl (Term.beq_iff_text_eq.2 rfl) List.mem_cons_self
  have hcopy := hsecond.put ⟨{}, 0⟩ (s := Table.usual ⟨0⟩)
    (List.mem_append_right _ (List.mem_cons_of_mem _ (List.mem_append_right _ List.mem_cons_self)))
    rfl rfl (Term.beq_iff_text_eq.2 rfl) List.mem_cons_self
  have hapart := entries_apart (by decide) hcopy
  refine ⟨_, _, _, hcopy, by decide +kernel, hapart.imp fun h => ⟨h.1, h.2.2 fun hlast => ?_⟩⟩
  exact absurd (congrArg UInt64.toNat hlast) (by decide +kernel)

/-! ## Runs with questions, and runs that exhaust the supply -/

/-- A table after a judgment has been read and put in, over and over again. -/
def repeated (ids : IdSupply) : Nat → Table × IdSupply
  | 0 => (.empty 5, ids)
  | n + 1 =>
    let (table, ids) := repeated ids n
    (table.put ⟨{}, 0⟩ (Table.usual ids.peek) ids.advance).2

theorem upkeep_repeated (ids : IdSupply) (n : Nat) : ∃ known,
    Upkeep (Table.usual ⟨0⟩).statement [.judgment] (repeated ids n).2 known (repeated ids n).1 := by
  induction n with
  | zero => exact ⟨[], .start ids 5⟩
  | succ n ih =>
    obtain ⟨known, h⟩ := ih
    exact ⟨_, (h.read (parse_usual _)).put ⟨{}, 0⟩ List.mem_cons_self rfl rfl
      (Term.beq_iff_text_eq.2 rfl) List.mem_cons_self⟩

/-- A question about the statement of the judgment. -/
def question (id : SentenceId) : Sentence := .fresh (Table.usual id).statement .question id none

theorem parse_question (ids : IdSupply) :
    Sentence.parse "(a --> b)?" ids 0 = .ok (question ids.peek, ids.advance) := by rfl

/-- A table after a judgment and a question about its statement have been put in. -/
def asked : Table × IdSupply :=
  let table := ((Table.empty 5).put ⟨{}, 0⟩ (Table.usual ⟨0⟩) ⟨2⟩).2.1
  (table.put ⟨{}, 0⟩ (question ⟨1⟩) ⟨2⟩).2

theorem upkeep_asked : ∃ known,
    Upkeep (Table.usual ⟨0⟩).statement [.judgment, .question] asked.2 known asked.1 := by
  have hstart : Upkeep (Table.usual ⟨0⟩).statement [.judgment, .question] {} [] (.empty 5) :=
    .start {} 5
  have hread := (hstart.read (parse_usual {})).read (parse_question ⟨1⟩)
  have hput := hread.put ⟨{}, 0⟩ (s := Table.usual ⟨0⟩) (List.mem_cons_of_mem _ List.mem_cons_self)
    rfl rfl (Term.beq_iff_text_eq.2 rfl) List.mem_cons_self
  exact ⟨_, hput.put ⟨{}, 0⟩ (s := question ⟨1⟩) List.mem_cons_self rfl rfl
    (Term.beq_iff_text_eq.2 rfl) (List.mem_cons_of_mem _ List.mem_cons_self)⟩

/-- Entries may interact where questions are put in. They may share no evidence, although they do
not interact, where the supply is exhausted. -/
theorem not_apart :
    ((∃ known, Upkeep (Table.usual ⟨0⟩).statement [.judgment, .question] asked.2 known asked.1) ∧
      ¬ asked.2.IsExhausted ∧
      ¬ asked.1.entries.Pairwise fun s t =>
        s.base.overlaps t.base = true ∨ mayInteract s t = false) ∧
    (∃ known, Upkeep (Table.usual ⟨0⟩).statement [.judgment] (repeated ⟨0 - 31⟩ 17).2 known
      (repeated ⟨0 - 31⟩ 17).1) ∧
    ¬ (repeated ⟨0 - 31⟩ 17).1.entries.Pairwise fun s t => s.base.overlaps t.base = true := by
  have hmore : asked.2.next ≠ 0 - 1 := by decide +kernel
  refine ⟨⟨upkeep_asked, hmore, by decide +kernel⟩, upkeep_repeated _ _, by decide +kernel⟩

end Upkeep

end NonAxiomatic
