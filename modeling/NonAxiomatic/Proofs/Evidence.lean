import NonAxiomatic.Inference.Rules
import NonAxiomatic.Proofs.Utterances

/-!
# Evidence

Which identities a supply has given out (`IdSupply.HasGiven`), what is left of two bases when they
are merged (`EvidenceBase.ids_merge`), and that bases stay grounded: nonempty, short enough, and
made up of identities that have been given out (`Sentence.Grounded`).

* `grounded_fresh`: a sentence that was read is grounded.
* `grounded_number`: a conclusion on grounded bases is grounded.
* `mem_collect`: the sentences derived together are numbered conclusions.
-/

namespace NonAxiomatic

/-! ## Identities that were given out -/

namespace IdSupply

/-- Whether the supply has come to its end, from where it gives out one identity only. -/
def IsExhausted (ids : IdSupply) : Prop := ids.next = 0 - 1

/-- Whether an identity has been given out. Nothing is known of it when the supply is exhausted. -/
def HasGiven (ids : IdSupply) (id : SentenceId) : Prop := ids.IsExhausted ∨ id.number < ids.next

/-- Whether a supply comes from another one by giving out identities. -/
def IsBefore (ids ids' : IdSupply) : Prop := ids.next ≤ ids'.next

variable {ids ids' ids'' : IdSupply} {id : SentenceId}

theorem isBefore_refl (ids : IdSupply) : ids.IsBefore ids := UInt64.le_refl _

theorem IsBefore.trans (h : ids.IsBefore ids') (h' : ids'.IsBefore ids'') :
    ids.IsBefore ids'' := UInt64.le_trans h h'

theorem isBefore_advance (ids : IdSupply) : ids.IsBefore ids.advance := by
  by_cases h : ids.next = 0 - 1
  · simp only [IsBefore, advance, h, if_true]
    exact UInt64.le_refl _
  · exact UInt64.le_of_lt (ids.next_lt h)

theorem next_advance_le (ids : IdSupply) : ids.advance.next.toNat ≤ ids.next.toNat + 1 := by
  have hone : UInt64.toNat 1 = 1 := rfl
  simp only [advance]
  split
  · omega
  · rw [UInt64.toNat_add, hone]
    exact Nat.mod_le _ _

theorem IsExhausted.of_isBefore (h : ids.IsExhausted) (hb : ids.IsBefore ids') :
    ids'.IsExhausted := by
  have hmax : ids'.next ≤ 0 - 1 := by
    rw [UInt64.le_iff_toNat_le]
    exact Nat.le_of_lt_succ ids'.next.toNat_lt
  exact UInt64.le_antisymm hmax (h ▸ hb)

theorem HasGiven.of_isBefore (h : ids.HasGiven id) (hb : ids.IsBefore ids') :
    ids'.HasGiven id := by
  rcases h with h | h
  · exact .inl (h.of_isBefore hb)
  · exact .inr (UInt64.lt_of_lt_of_le h hb)

theorem hasGiven_advance (ids : IdSupply) : ids.advance.HasGiven ids.peek := by
  by_cases h : ids.next = 0 - 1
  · exact .inl (IsExhausted.of_isBefore h ids.isBefore_advance)
  · exact .inr (ids.next_lt h)

theorem HasGiven.ne_peek (h : ids.HasGiven id) (hx : ¬ids.IsExhausted) (hb : ids.IsBefore ids') :
    id ≠ ids'.peek := by
  rcases h with h | h
  · exact absurd h hx
  · rintro rfl
    exact absurd (UInt64.lt_of_lt_of_le h hb) (UInt64.lt_irrefl _)

end IdSupply

/-! ## Merged bases -/

namespace EvidenceBase

theorem lastOf_append (n : Nat) (xs ys : List SentenceId) :
    lastOf n (xs ++ ys) = lastOf (n - ys.length) xs ++ lastOf n ys := by
  simp only [lastOf, List.length_append, List.drop_append]
  congr 1
  · by_cases h : n ≤ ys.length
    · rw [List.drop_of_length_le (by omega), List.drop_of_length_le (by omega)]
    · congr 1
      omega
  · congr 1
    omega

/-- Cutting a list before another one is appended makes no difference. -/
theorem lastOf_lastOf_append (n : Nat) (xs ys : List SentenceId) :
    lastOf n (lastOf n xs ++ ys) = lastOf n (xs ++ ys) := by
  rw [lastOf_append, lastOf_append n xs]
  congr 1
  simp only [lastOf, List.length_drop, List.drop_drop]
  congr 1
  omega

theorem lastOf_of_length_le {n : Nat} {xs : List SentenceId} (h : xs.length ≤ n) :
    lastOf n xs = xs := by
  simp only [lastOf, Nat.sub_eq_zero_of_le h, List.drop_zero]

theorem getLast_mem_lastOf {n : Nat} (hn : 0 < n) {xs : List SentenceId} (h : xs ≠ []) :
    xs.getLast h ∈ lastOf n xs := by
  have hne : xs.drop (xs.length - n) ≠ [] := by
    have := List.length_pos_iff.2 h
    simp only [ne_eq, List.drop_eq_nil_iff]
    omega
  rw [← List.getLast_drop hne]
  exact List.getLast_mem hne

variable {b other : EvidenceBase}

theorem ids_merge (h : other.ids.length ≤ maxLength) :
    (b.merge other).ids = lastOf (maxLength - other.ids.length) b.ids ++ other.ids := by
  simp only [merge, lastOf_append, lastOf_of_length_le h]

theorem merge_of_full (h : other.ids.length = maxLength) : b.merge other = other := by
  have hids := ids_merge (b := b) (Nat.le_of_eq h)
  simp only [h, Nat.sub_self, lastOf, Nat.sub_zero, List.drop_length, List.nil_append] at hids
  cases other
  exact congrArg EvidenceBase.mk hids

theorem overlaps_merge_right (h : other.ids.length ≤ maxLength) (hne : other.ids ≠ []) :
    (b.merge other).overlaps other = true := by
  refine overlaps_iff.2 ⟨other.ids.getLast hne, ?_, List.getLast_mem hne⟩
  rw [ids_merge h]
  exact List.mem_append_right _ (List.getLast_mem hne)

/-- The last identity of a base survives as long as the other one is not full. -/
theorem getLast_mem_merge (h : other.ids.length < maxLength) (hne : b.ids ≠ []) :
    b.ids.getLast hne ∈ (b.merge other).ids := by
  rw [ids_merge (Nat.le_of_lt h)]
  exact List.mem_append_left _ (getLast_mem_lastOf (by omega) hne)

/-- A base that was merged in still shows after another one has been, unless that one is full. -/
theorem overlaps_merge_left {b' : EvidenceBase} (hb : b.ids.length ≤ maxLength) (hne : b.ids ≠ [])
    (h : other.ids.length < maxLength) : ((b'.merge b).merge other).overlaps b = true := by
  have hids := ids_merge (b := b') hb
  have hne' : (b'.merge b).ids ≠ [] := by
    rw [hids]
    exact List.append_ne_nil_of_right_ne_nil _ hne
  refine overlaps_iff.2 ⟨_, getLast_mem_merge h hne', ?_⟩
  simp only [hids, List.getLast_append_of_ne_nil _ hne]
  exact List.getLast_mem hne

end EvidenceBase

/-! ## Grounded sentences -/

/-- A base is nonempty and short enough, and what is in it has been given out. -/
structure EvidenceBase.Grounded (ids : IdSupply) (b : EvidenceBase) : Prop where
  /-- Something is in the base. -/
  nonempty : b.ids ≠ []
  /-- The base has room for what is in it. -/
  short : b.ids.length ≤ maxLength
  /-- The identities have been given out. -/
  given : ∀ id ∈ b.ids, ids.HasGiven id

/-- The base of a sentence is grounded, and its identity has been given out. -/
structure Sentence.Grounded (ids : IdSupply) (s : Sentence) : Prop where
  /-- The identity has been given out. -/
  given : ids.HasGiven s.id
  /-- The base is grounded. -/
  base : s.base.Grounded ids

namespace EvidenceBase.Grounded

variable {ids ids' : IdSupply} {b other : EvidenceBase}

theorem of_isBefore (h : b.Grounded ids) (hb : ids.IsBefore ids') : b.Grounded ids' :=
  ⟨h.nonempty, h.short, fun id hid => (h.given id hid).of_isBefore hb⟩

theorem own (ids : IdSupply) : (EvidenceBase.own ids.peek).Grounded ids.advance := by
  refine ⟨List.cons_ne_nil _ _, show 1 ≤ maxLength by decide, ?_⟩
  intro id hid
  obtain rfl := List.mem_singleton.1 hid
  exact ids.hasGiven_advance

theorem merge (h : b.Grounded ids) (h' : other.Grounded ids) : (b.merge other).Grounded ids := by
  refine ⟨?_, length_merge_le b other, ?_⟩
  · rw [ids_merge h'.short]
    exact List.append_ne_nil_of_right_ne_nil _ h'.nonempty
  · intro id hid
    rcases mem_of_mem_merge hid with hid | hid
    · exact h.given id hid
    · exact h'.given id hid

theorem foldl_merge {others : List EvidenceBase} (h : b.Grounded ids)
    (h' : ∀ other ∈ others, other.Grounded ids) :
    (others.foldl EvidenceBase.merge b).Grounded ids := by
  induction others generalizing b with
  | nil => exact h
  | cons other others ih =>
    exact ih (h.merge (h' other (by simp))) fun o ho => h' o (by simp [ho])

end EvidenceBase.Grounded

section Grounded

variable {ids ids' : IdSupply} {s : Sentence}

theorem Sentence.Grounded.of_isBefore (h : s.Grounded ids) (hb : ids.IsBefore ids') :
    s.Grounded ids' :=
  ⟨h.given.of_isBefore hb, h.base.of_isBefore hb⟩

theorem grounded_fresh (statement : Term) (kind : SentenceKind) (occurrence : Option Cycle) :
    (Sentence.fresh statement kind ids.peek occurrence).Grounded ids.advance :=
  ⟨ids.hasGiven_advance, EvidenceBase.Grounded.own ids⟩

theorem grounded_number {c : Conclusion} (hb : ids.IsBefore ids')
    (h : ∀ b ∈ c.grounds, b.Grounded ids) : (c.number ids'.peek).Grounded ids'.advance :=
  ⟨ids'.hasGiven_advance, (EvidenceBase.Grounded.own ids').foldl_merge fun b hmem =>
    (h b hmem).of_isBefore (hb.trans ids'.isBefore_advance)⟩

/-! ## Numbered conclusions -/

theorem isBefore_numberAll (ids : IdSupply) (cs : List Conclusion) :
    ids.IsBefore (Conclusion.numberAll ids cs).2 := by
  induction cs generalizing ids with
  | nil => exact ids.isBefore_refl
  | cons c cs ih => exact ids.isBefore_advance.trans (ih _)

theorem mem_numberAll {cs : List Conclusion} (h : s ∈ (Conclusion.numberAll ids cs).1) :
    ∃ c ∈ cs, ∃ ids', ids.IsBefore ids' ∧
      ids'.advance.IsBefore (Conclusion.numberAll ids cs).2 ∧ s = c.number ids'.peek := by
  induction cs generalizing ids with
  | nil => exact absurd h (by simp [Conclusion.numberAll])
  | cons c cs ih =>
    rcases List.mem_cons.1 h with rfl | h
    · exact ⟨c, by simp, ids, ids.isBefore_refl, isBefore_numberAll _ _, rfl⟩
    · obtain ⟨d, hd, ids', hb, hb', hs⟩ := ih h
      exact ⟨d, by simp [hd], ids', ids.isBefore_advance.trans hb, hb', hs⟩

theorem mem_collect {cs : List Conclusion} (h : s ∈ (Conclusion.collect ids cs).1) :
    ∃ c ∈ cs, ∃ ids', ids.IsBefore ids' ∧
      ids'.advance.IsBefore (Conclusion.collect ids cs).2 ∧ s = c.number ids'.peek :=
  mem_numberAll (List.mem_filter.1 h).1

theorem derive_eq_ok {p : Standpoint} {s t : Sentence} {rs : List Sentence} :
    p.derive ids s t = .ok (rs, ids') ↔
      ∃ cs, p.infer s t = .ok cs ∧ Conclusion.collect ids cs = (rs, ids') := by
  simp only [Standpoint.derive, Functor.map, Except.map]
  split <;> simp [*]

end Grounded

end NonAxiomatic
