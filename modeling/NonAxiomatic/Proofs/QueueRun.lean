import NonAxiomatic.Proofs.Commuting
import NonAxiomatic.Proofs.Fading
import NonAxiomatic.Proofs.Precedence

/-!
# Runs of a priority queue

A queue should give out the value of the greatest priority first and, among equal ones, the one that
came first; a value that there is no room for is the last in this order. Priorities are compared as
numbers here, after they have been moved into their range (`PriorityQueue.clamp`).

The queue compares words. The word of a double without a sign is ordered as its number is, but the
negative zero, which is not moved, has the greatest word of all and is the least number
(`toNat_rank`, `clamp_lt_iff`).

* `Traffic`: a queue whose values are numbered as they come, with an account of where they went. The
  numbers have no influence on the queue (`map_queue_after`).
* `Traffic.Orderly`: what every run keeps of the accounts and of the order.
* `Entrant.Before.precedes_iff`: the queue's order is the right one, but for the negative zero.

**Theorem (`Traffic.leaves_in_order_iff`).** In every run, each value that was put in has been given
out, or dropped, or is still there, once. What is given out next is the first one, and what is
dropped is the last one, unless a negative zero comes before a value that should come before it.
-/

namespace NonAxiomatic

open Double

namespace PriorityQueue

/-! ## Priorities as numbers -/

section Priorities

open Float.Model Float.Model.UnpackedFloat

/-- The zero with a sign. -/
def negativeZero : Double := ⟨signMask⟩

/-- A priority, moved into its range. -/
def clamp (priority : Double) : Double :=
  if priority.isNaN then 0.0
  else if priority < 0.0 then 0.0
  else if Budget.ceiling < priority then Budget.ceiling
  else priority

/-- What a priority counts as: the word of its number without a sign. -/
def worth (priority : Double) : Nat :=
  if priority = negativeZero then 0 else (clamp priority).bits.toNat

/-- A number between zero and the ceiling has no sign, unless it is the negative zero. -/
theorem unsigned_of_not_lt {p : Double} (hnumber : ¬ p.isNaN = true) (hzero : ¬ p < 0.0)
    (hceiling : ¬ Budget.ceiling < p) (hp : p ≠ negativeZero) : p.Unsigned := by
  have h0 : UnpackedFloat.unpack Format.binary64 (0.0 : Double).bits.toBitVec =
    .zero .positive := by rfl
  have h1 : UnpackedFloat.unpack Format.binary64 (1.0 : Double).bits.toBitVec =
    .finite .positive (2 ^ 52) (-52) (by decide) := by rfl
  have hc : UnpackedFloat.unpack Format.binary64 Budget.ceiling.bits.toBitVec =
    .finite .positive 9007199164668999 (-53) (by decide) := by rfl
  have hread : UnpackedFloat.unpack Format.binary64 p.bits.toBitVec ≠ .notANumber := fun h =>
    hnumber (unpack_eq_notANumber_iff.1 h)
  have hword := pack_unpack_of_ne hread
  rw [lt_iff_compare, h0] at hzero
  rw [lt_iff_compare, hc] at hceiling
  -- The tests before have excluded all words but positive numbers below the ceiling.
  cases hunpack : UnpackedFloat.unpack Format.binary64 p.bits.toBitVec with
  | notANumber => exact absurd hunpack hread
  | infinity sign =>
    rw [hunpack] at hzero hceiling
    cases sign with
    | positive => exact absurd rfl hceiling
    | negative => exact absurd rfl hzero
  | zero sign =>
    rw [hunpack] at hword
    have hbits := congrArg UInt64.ofBitVec hword
    cases sign with
    | positive =>
      have hzero : p = 0.0 := Double.ext hbits.symm
      rw [hzero]
      decide
    | negative => exact absurd (Double.ext hbits.symm) hp
  | finite sign m e hpos =>
    rw [hunpack] at hzero hceiling
    cases sign with
    | negative => exact absurd rfl hzero
    | positive =>
      have hlow : 0.0 < p := by
        rw [lt_iff_compare, h0, hunpack]
        rfl
      have hhigh : p < 1.0 := by
        rw [lt_iff_compare, h1, hunpack]
        simp only [UnpackedFloat.compare, Option.some.injEq, Ordering.then_eq_lt,
          Nat.compare_eq_lt, Int.compare_eq_lt, Int.compare_eq_eq] at hceiling ⊢
        omega
      exact (inUnit_of_lt hlow hhigh).unsigned

/-- A priority is compared as a double without a sign is. -/
theorem exists_unsigned (p : Double) : ∃ x : Double, x.Unsigned ∧ x.bits.toNat = worth p ∧
    ∀ y, UnpackedFloat.compare (UnpackedFloat.unpack Format.binary64 (clamp p).bits.toBitVec) y =
        UnpackedFloat.compare (UnpackedFloat.unpack Format.binary64 x.bits.toBitVec) y ∧
      UnpackedFloat.compare y (UnpackedFloat.unpack Format.binary64 (clamp p).bits.toBitVec) =
        UnpackedFloat.compare y (UnpackedFloat.unpack Format.binary64 x.bits.toBitVec) := by
  by_cases hp : p = negativeZero
  · subst hp
    refine ⟨0.0, by decide, rfl, fun y => ?_⟩
    have hclamp : UnpackedFloat.unpack Format.binary64 (clamp negativeZero).bits.toBitVec =
      .zero .negative := by rfl
    have h0 : UnpackedFloat.unpack Format.binary64 (0.0 : Double).bits.toBitVec =
      .zero .positive := by rfl
    rw [hclamp, h0]
    cases y with
    | infinity sign => cases sign <;> exact ⟨rfl, rfl⟩
    | notANumber => exact ⟨rfl, rfl⟩
    | zero sign => exact ⟨rfl, rfl⟩
    | finite sign m e hpos => cases sign <;> exact ⟨rfl, rfl⟩
  · refine ⟨clamp p, ?_, (if_neg hp).symm, fun _ => ⟨rfl, rfl⟩⟩
    unfold clamp
    split_ifs with hnumber hzero hceiling
    · decide
    · decide
    · decide
    · exact unsigned_of_not_lt hnumber hzero hceiling hp

theorem compare_clamp (p p' : Double) :
    UnpackedFloat.compare (UnpackedFloat.unpack Format.binary64 (clamp p).bits.toBitVec)
      (UnpackedFloat.unpack Format.binary64 (clamp p').bits.toBitVec) =
        some (compare (worth p) (worth p')) := by
  obtain ⟨x, hx, hworth, hcompare⟩ := exists_unsigned p
  obtain ⟨x', hx', hworth', hcompare'⟩ := exists_unsigned p'
  rw [(hcompare _).1, (hcompare' _).2, hx.compare_unpack hx', hworth, hworth']

/-- Numbers are compared as priorities are worth. -/
theorem clamp_lt_iff {p p' : Double} : clamp p < clamp p' ↔ worth p < worth p' := by
  rw [lt_iff_compare, compare_clamp, Option.some.injEq, Nat.compare_eq_lt]

theorem clamp_beq_iff {p p' : Double} : (clamp p == clamp p') = true ↔ worth p = worth p' := by
  rw [beq_iff_compare, compare_clamp, Option.some.injEq, Nat.compare_eq_eq]

theorem zero_lt_clamp_iff {p : Double} : 0.0 < clamp p ↔ 0 < worth p :=
  clamp_lt_iff (p := 0.0)

theorem worth_lt (p : Double) : worth p < 2 ^ 63 := by
  obtain ⟨x, hx, hworth, _⟩ := exists_unsigned p
  rw [Unsigned] at hx
  omega

/-- The rank is what a priority is worth, and the negative zero ranks above everything. -/
theorem toNat_rank (p : Double) :
    (rank p).toNat = if p = negativeZero then 2 ^ 63 else worth p := by
  split_ifs with hp
  · rw [hp]
    decide
  · exact (if_neg hp).symm

end Priorities

end PriorityQueue

open PriorityQueue (clamp rank worth negativeZero insertByRank)

variable {α β : Type}

/-! ## Arrivals -/

/-- A value that has come to a queue. -/
structure Entrant (α : Type) where
  /-- How many values had come before. -/
  serial : Nat
  priority : Double
  value : α

namespace Entrant

/-- Whether a value should be given out before another one: its priority is the greater number, or
the same and it came earlier. -/
def Precedes (a b : Entrant α) : Prop :=
  clamp b.priority < clamp a.priority ∨
    (clamp a.priority == clamp b.priority) = true ∧ a.serial < b.serial

/-- Whether a value is given out before another one. -/
def Before (a b : Entrant α) : Prop :=
  rank b.priority < rank a.priority ∨ rank a.priority = rank b.priority ∧ a.serial < b.serial

/-- Whether the sign of its zero puts a value before another one, which is worth more than nothing
or came earlier. -/
def Misleads (a b : Entrant α) : Prop :=
  a.priority = negativeZero ∧ (0.0 < clamp b.priority ∨ b.serial < a.serial)

/-- Whether a value should be the first of some. -/
def IsFirst (a : Entrant α) (held : List (Entrant α)) : Prop :=
  a ∈ held ∧ ∀ b ∈ held, b.serial ≠ a.serial → a.Precedes b

/-- Whether a value should be the last of some. -/
def IsLast (a : Entrant α) (held : List (Entrant α)) : Prop :=
  a ∈ held ∧ ∀ b ∈ held, b.serial ≠ a.serial → b.Precedes a

variable {a b c : Entrant α}

theorem Before.trans (h : a.Before b) (h' : b.Before c) : a.Before c := by
  simp only [Before, UInt64.lt_iff_toNat_lt, ← UInt64.toNat_inj] at h h' ⊢
  omega

theorem not_misleads_self : ¬ a.Misleads a := by
  rintro ⟨hzero, hlt | hlt⟩
  · rw [PriorityQueue.zero_lt_clamp_iff, worth, if_pos hzero] at hlt
    exact Nat.lt_irrefl _ hlt
  · exact Nat.lt_irrefl _ hlt

/-- Words are in the order of the numbers, but for the negative zero. -/
theorem Before.precedes_iff (h : a.Before b) (hne : b.serial ≠ a.serial) :
    a.Precedes b ↔ ¬ a.Misleads b := by
  have ha := PriorityQueue.worth_lt a.priority
  have hb := PriorityQueue.worth_lt b.priority
  rw [Before, UInt64.lt_iff_toNat_lt, ← UInt64.toNat_inj, PriorityQueue.toNat_rank,
    PriorityQueue.toNat_rank] at h
  rw [Precedes, Misleads, PriorityQueue.clamp_lt_iff, PriorityQueue.clamp_beq_iff,
    PriorityQueue.zero_lt_clamp_iff]
  have hzero : ∀ p, p = negativeZero → worth p = 0 := fun p hp => if_pos hp
  -- Only where the first value alone is a negative zero do the two orders differ.
  split_ifs at h with hb' ha' ha'
  · have hbzero := hzero _ hb'
    have hazero := hzero _ ha'
    rw [eq_true ha', true_and]
    omega
  · omega
  · have hazero := hzero _ ha'
    rw [eq_true ha', true_and]
    omega
  · exact iff_of_true h fun hmisleads => ha' hmisleads.1

variable {held : List (Entrant α)}

theorem isFirst_iff (ha : a ∈ held)
    (h : ∀ b ∈ held, b = a ∨ a.Before b ∧ b.serial ≠ a.serial) :
    a.IsFirst held ↔ ∀ b ∈ held, ¬ a.Misleads b := by
  rw [IsFirst, and_iff_right ha]
  refine forall₂_congr fun b hb => ?_
  obtain rfl | ⟨hbefore, hne⟩ := h b hb
  · exact iff_of_true (absurd rfl) not_misleads_self
  · rw [imp_iff_right hne, hbefore.precedes_iff hne]

theorem isLast_iff (ha : a ∈ held)
    (h : ∀ b ∈ held, b = a ∨ b.Before a ∧ a.serial ≠ b.serial) :
    a.IsLast held ↔ ∀ b ∈ held, ¬ b.Misleads a := by
  rw [IsLast, and_iff_right ha]
  refine forall₂_congr fun b hb => ?_
  obtain rfl | ⟨hbefore, hne⟩ := h b hb
  · exact iff_of_true (absurd rfl) not_misleads_self
  · rw [imp_iff_right hne.symm, hbefore.precedes_iff hne]

end Entrant

/-! ## Moves -/

/-- What is done with a queue. -/
inductive Move (α : Type) where
  /-- A value is put in. -/
  | put (value : α) (priority : Double)
  /-- The next value is given out. -/
  | take

namespace Move

/-- The value that is put in, with its priority. -/
def arriving? : Move α → Option (α × Double)
  | put value priority => some (value, priority)
  | take => none

end Move

namespace PriorityQueue

/-- Make a move. The value that leaves the queue with it is given, too. -/
def perform (q : PriorityQueue α) : Move α → Option α × PriorityQueue α
  | .put value priority => q.put value priority
  | .take =>
    match q.take? with
    | none => (none, q)
    | some (value, q) => (some value, q)

/-- The queue after some moves. -/
def after (capacity : Nat) (moves : List (Move α)) : PriorityQueue α :=
  moves.foldl (fun q m => (q.perform m).2) (.empty capacity)

/-- Change the values, but nothing else. -/
def map (f : α → β) (q : PriorityQueue α) : PriorityQueue β :=
  ⟨q.capacity, q.entries.map (Prod.map id f)⟩

theorem map_insertByRank (f : α → β) (e : UInt64 × α) (es : List (UInt64 × α)) :
    (insertByRank e es).map (Prod.map id f) =
      insertByRank (Prod.map id f e) (es.map (Prod.map id f)) := by
  induction es with
  | nil => rfl
  | cons d ds ih =>
    rw [List.map_cons, insertByRank, insertByRank]
    dsimp only [Prod.map_fst, id]
    split
    · rw [List.map_cons, ih]
    · rw [List.map_cons, List.map_cons]

@[simp] theorem capacity_map (f : α → β) (q : PriorityQueue α) :
    (q.map f).capacity = q.capacity := rfl

theorem map_put (f : α → β) (q : PriorityQueue α) (value : α) (priority : Double) :
    (q.map f).put (f value) priority = (q.put value priority).map (Option.map f) (map f) := by
  have hinsert : insertByRank (rank priority, f value) (q.map f).entries =
      (insertByRank (rank priority, value) q.entries).map (Prod.map id f) :=
    (map_insertByRank f (rank priority, value) q.entries).symm
  simp only [put, hinsert, List.length_map, capacity_map]
  split
  · simp only [map, Prod.map_apply, List.getLast?_map, List.map_dropLast, Option.map_map]
    rfl
  · rfl

theorem map_take? (f : α → β) (q : PriorityQueue α) :
    (q.map f).take? = q.take?.map (Prod.map f (map f)) := by
  obtain ⟨capacity, entries⟩ := q
  cases entries <;> rfl

end PriorityQueue

/-! ## Traffic -/

/-- A queue, and what has become of the values that came to it. -/
structure Traffic (α : Type) where
  queue : PriorityQueue (Entrant α)
  arrived : List (Entrant α) := []
  taken : List (Entrant α) := []
  dropped : List (Entrant α) := []

namespace Traffic

/-- What is still in the queue. -/
def held (t : Traffic α) : List (Entrant α) := t.queue.toList

/-- A value that comes now. -/
def arrival (t : Traffic α) (value : α) (priority : Double) : Entrant α :=
  ⟨t.arrived.length, priority, value⟩

/-- Make a move, and write down what leaves the queue. -/
def perform (t : Traffic α) : Move α → Traffic α
  | .put value priority =>
    let a := t.arrival value priority
    let (left, queue) := t.queue.put a priority
    { t with queue, arrived := t.arrived ++ [a], dropped := t.dropped ++ left.toList }
  | .take =>
    match t.queue.take? with
    | none => t
    | some (a, queue) => { t with queue, taken := t.taken ++ [a] }

/-- The traffic of some moves. -/
def after (capacity : Nat) (moves : List (Move α)) : Traffic α :=
  moves.foldl perform { queue := .empty capacity }

/-! ## The order of the entries -/

/-- Whether entries have the ranks of their priorities, and stand in the order of the queue. -/
structure InOrder (entries : List (UInt64 × Entrant α)) : Prop where
  ranked : ∀ e ∈ entries, e.1 = rank e.2.priority
  ordered : entries.Pairwise fun d e => d.2.Before e.2
  distinct : entries.Pairwise fun d e => e.2.serial ≠ d.2.serial

namespace InOrder

variable {e : UInt64 × Entrant α} {entries ds : List (UInt64 × Entrant α)}

theorem sublist (h : InOrder entries) (hsub : ds.Sublist entries) : InOrder ds :=
  ⟨fun d hd => h.ranked d (hsub.subset hd), h.ordered.sublist hsub, h.distinct.sublist hsub⟩

/-- Where the latest value goes, it is in order. -/
theorem insertByRank (h : InOrder entries) (he : e.1 = rank e.2.priority)
    (hlatest : ∀ d ∈ entries, d.2.serial < e.2.serial) : InOrder (insertByRank e entries) := by
  induction entries with
  | nil =>
    exact ⟨List.forall_mem_singleton.2 he, List.pairwise_singleton _ _,
      List.pairwise_singleton _ _⟩
  -- An entry goes behind those of the same rank, and its serial number is the largest.
  | cons d ds ih =>
    have hds := h.sublist (List.sublist_cons_self d ds)
    have hserial := hlatest d (by simp)
    have hrank := h.ranked d (by simp)
    obtain ⟨hbefore, _⟩ := List.pairwise_cons.1 h.ordered
    obtain ⟨hne, _⟩ := List.pairwise_cons.1 h.distinct
    rw [PriorityQueue.insertByRank]
    split
    · rename_i hle
      obtain ⟨hranked, hordered, hdistinct⟩ := ih hds fun d' hd' => hlatest d' (by simp [hd'])
      have hmem : ∀ d' ∈ PriorityQueue.insertByRank e ds, d' = e ∨ d' ∈ ds := fun d' hd' =>
        List.mem_cons.1 ((PriorityQueue.insertByRank_perm e ds).mem_iff.1 hd')
      refine ⟨?_, List.pairwise_cons.2 ⟨fun d' hd' => ?_, hordered⟩,
        List.pairwise_cons.2 ⟨fun d' hd' => ?_, hdistinct⟩⟩
      · simpa [hrank] using hranked
      · rcases hmem d' hd' with rfl | hd'
        · rw [he, hrank] at hle
          simp only [Entrant.Before, UInt64.lt_iff_toNat_lt, UInt64.le_iff_toNat_le,
            ← UInt64.toNat_inj] at hle ⊢
          omega
        · exact hbefore d' hd'
      · rcases hmem d' hd' with rfl | hd'
        · omega
        · exact hne d' hd'
    · rename_i hlt
      rw [UInt64.not_le, he, hrank] at hlt
      have hfirst : e.2.Before d.2 := .inl hlt
      refine ⟨List.forall_mem_cons.2 ⟨he, h.ranked⟩,
        List.pairwise_cons.2 ⟨List.forall_mem_cons.2 ⟨hfirst, fun d' hd' => ?_⟩, h.ordered⟩,
        List.pairwise_cons.2 ⟨fun d' hd' => ?_, h.distinct⟩⟩
      · exact hfirst.trans (hbefore d' hd')
      · have := hlatest d' hd'
        omega

/-- The first entry should be the first, unless it misleads. -/
theorem isFirst_iff (h : InOrder (e :: entries)) :
    e.2.IsFirst ((e :: entries).map Prod.snd) ↔
      ∀ b ∈ (e :: entries).map Prod.snd, ¬ e.2.Misleads b := by
  obtain ⟨hbefore, _⟩ := List.pairwise_cons.1 h.ordered
  obtain ⟨hne, _⟩ := List.pairwise_cons.1 h.distinct
  refine Entrant.isFirst_iff (by simp) fun b hb => ?_
  obtain ⟨d, hd, rfl⟩ := List.mem_map.1 hb
  rcases List.mem_cons.1 hd with rfl | hd
  · exact .inl rfl
  · exact .inr ⟨hbefore d hd, hne d hd⟩

/-- The last entry should be the last, unless it is misled. -/
theorem isLast_iff (h : InOrder (entries ++ [e])) :
    e.2.IsLast ((entries ++ [e]).map Prod.snd) ↔
      ∀ b ∈ (entries ++ [e]).map Prod.snd, ¬ b.Misleads e.2 := by
  obtain ⟨_, _, hbefore⟩ := List.pairwise_append.1 h.ordered
  obtain ⟨_, _, hne⟩ := List.pairwise_append.1 h.distinct
  refine Entrant.isLast_iff (by simp) fun b hb => ?_
  obtain ⟨d, hd, rfl⟩ := List.mem_map.1 hb
  rcases List.mem_append.1 hd with hd | hd
  · exact .inr ⟨hbefore d hd e (by simp), hne d hd e (by simp)⟩
  · rw [List.mem_singleton.1 hd]
    exact .inl rfl

end InOrder

/-- What every run keeps: the accounts, and the order of the queue. -/
structure Orderly (t : Traffic α) (capacity : Nat) : Prop where
  capacity_eq : t.queue.capacity = max capacity 1
  size_le : t.queue.size ≤ t.queue.capacity
  numbered : t.arrived.map Entrant.serial = List.range t.arrived.length
  accounted : (t.taken ++ t.dropped ++ t.held).Perm t.arrived
  inOrder : InOrder t.queue.entries

namespace Orderly

open scoped List

variable {t : Traffic α} {capacity : Nat}

theorem start (capacity : Nat) :
    Orderly (α := α) { queue := .empty capacity } capacity where
  capacity_eq := rfl
  size_le := Nat.zero_le _
  numbered := rfl
  accounted := .refl _
  inOrder := ⟨by simp [PriorityQueue.empty], .nil, .nil⟩

theorem serial_lt (h : t.Orderly capacity) {a : Entrant α} (ha : a ∈ t.held) :
    a.serial < t.arrived.length := by
  have harrived : a ∈ t.arrived := h.accounted.mem_iff.1 (by simp [ha])
  have hserial := List.mem_map_of_mem (f := Entrant.serial) harrived
  rwa [h.numbered, List.mem_range] at hserial

/-- The new value and the others, in order, are what the queue holds then, or all of it but the
last. -/
theorem put_cases (h : t.Orderly capacity) (value : α) (priority : Double) :
    let a := t.arrival value priority
    ∃ entries e, InOrder (entries ++ [e]) ∧
      ((entries ++ [e]).map Prod.snd).Perm (a :: t.held) ∧
      ((t.held.length < max capacity 1 ∧
          t.queue.put a priority = (none, { t.queue with entries := entries ++ [e] })) ∨
        (t.held.length = max capacity 1 ∧
          t.queue.put a priority = (some e.2, { t.queue with entries }))) := by
  intro a
  have hlatest : ∀ d ∈ t.queue.entries, d.2.serial < a.serial := fun d hd =>
    h.serial_lt (List.mem_map_of_mem hd)
  have horder := h.inOrder.insertByRank (e := (rank priority, a)) rfl hlatest
  have hperm := PriorityQueue.insertByRank_perm (rank priority, a) t.queue.entries
  have hlength : t.held.length = t.queue.entries.length := List.length_map _
  have hsize := h.size_le
  rw [PriorityQueue.size, h.capacity_eq] at hsize
  obtain hnil | ⟨entries, e, hsplit⟩ :=
    List.eq_nil_or_concat' (insertByRank (rank priority, a) t.queue.entries)
  · exact absurd (hnil ▸ hperm).nil_eq.symm (List.cons_ne_nil _ _)
  · rw [hsplit] at horder hperm
    have hcount := hperm.length_eq
    rw [List.length_cons] at hcount
    refine ⟨entries, e, horder, hperm.map Prod.snd, ?_⟩
    rcases PriorityQueue.put_cases (by simp) hsplit with ⟨hroom, hput⟩ | ⟨hfull, hput⟩
    · rw [h.capacity_eq] at hroom
      exact .inl ⟨by omega, hput⟩
    · rw [h.capacity_eq] at hfull
      exact .inr ⟨by omega, by simpa using hput⟩

/-- What leaves with a new value, and what is held then, keep the accounts. -/
theorem accounted_put (h : t.Orderly capacity) {a : Entrant α} {left held : List (Entrant α)}
    (hperm : (left ++ held).Perm (a :: t.held)) :
    (t.taken ++ (t.dropped ++ left) ++ held).Perm (t.arrived ++ [a]) :=
  calc t.taken ++ (t.dropped ++ left) ++ held
    _ = (t.taken ++ t.dropped) ++ (left ++ held) := by simp only [List.append_assoc]
    _ ~ (t.taken ++ t.dropped) ++ (a :: t.held) := hperm.append_left _
    _ ~ a :: (t.taken ++ t.dropped ++ t.held) := List.perm_middle
    _ ~ a :: t.arrived := h.accounted.cons a
    _ ~ t.arrived ++ [a] := (List.perm_append_singleton a _).symm

theorem perform_put (h : t.Orderly capacity) (value : α) (priority : Double) :
    (t.perform (.put value priority)).Orderly capacity := by
  have hcapacity := (PriorityQueue.capacity_put t.queue (t.arrival value priority) priority).trans
    h.capacity_eq
  have hsize := PriorityQueue.length_put_le t.queue (t.arrival value priority) priority h.size_le
  have hnumbered : (t.arrived ++ [t.arrival value priority]).map Entrant.serial =
      List.range (t.arrived ++ [t.arrival value priority]).length := by
    rw [List.map_append, h.numbered, List.length_append, List.length_singleton, List.range_succ]
    rfl
  rw [← PriorityQueue.capacity_put t.queue (t.arrival value priority) priority] at hsize
  obtain ⟨entries, e, horder, hperm, ⟨_, hput⟩ | ⟨_, hput⟩⟩ := h.put_cases value priority
  all_goals
    rw [Traffic.perform, hput]
    rw [hput] at hcapacity hsize
  · exact ⟨hcapacity, hsize, hnumbered, h.accounted_put hperm, horder⟩
  · refine ⟨hcapacity, hsize, hnumbered, h.accounted_put ?_,
      horder.sublist (List.sublist_append_left _ _)⟩
    rw [List.map_append] at hperm
    exact List.perm_append_comm.trans hperm

theorem perform_take (h : t.Orderly capacity) : (t.perform .take).Orderly capacity := by
  have hsize := h.size_le
  have haccounted := h.accounted
  have horder := h.inOrder
  rw [Traffic.perform]
  rw [PriorityQueue.size] at hsize
  rw [held, PriorityQueue.toList] at haccounted
  cases hentries : t.queue.entries with
  | nil =>
    rw [PriorityQueue.take?, hentries]
    exact h
  | cons e entries =>
    rw [PriorityQueue.take?, hentries]
    rw [hentries] at hsize haccounted horder
    refine ⟨h.capacity_eq, (Nat.le_succ _).trans hsize, h.numbered, ?_,
      horder.sublist (List.sublist_cons_self e entries)⟩
    calc t.taken ++ [e.2] ++ t.dropped ++ entries.map Prod.snd
      _ = t.taken ++ e.2 :: (t.dropped ++ entries.map Prod.snd) := by simp
      _ ~ e.2 :: (t.taken ++ (t.dropped ++ entries.map Prod.snd)) := List.perm_middle
      _ = e.2 :: (t.taken ++ t.dropped ++ entries.map Prod.snd) := by simp
      _ ~ t.taken ++ t.dropped ++ e.2 :: entries.map Prod.snd := List.perm_middle.symm
      _ ~ t.arrived := haccounted

theorem perform (h : t.Orderly capacity) (m : Move α) : (t.perform m).Orderly capacity :=
  match m with
  | .put value priority => h.perform_put value priority
  | .take => h.perform_take

end Orderly

/-- Every run is orderly. -/
theorem orderly_after (capacity : Nat) (moves : List (Move α)) :
    (after capacity moves).Orderly capacity :=
  List.foldlRecOn (motive := fun t => Orderly t capacity) moves perform (.start capacity)
    fun _ h m _ => h.perform m

/-- Exactly the values that are put in arrive. -/
theorem arrived_after (capacity : Nat) (moves : List (Move α)) :
    (after capacity moves).arrived.map (fun a => (a.value, a.priority)) =
      moves.filterMap Move.arriving? := by
  induction moves using List.reverseRecOn with
  | nil => rfl
  | append_singleton moves m ih =>
    rw [after, List.foldl_append, List.foldl_cons, List.foldl_nil, ← after, List.filterMap_append,
      ← ih]
    cases m with
    | put value priority =>
      rw [perform, List.map_append]
      rfl
    | take =>
      rw [perform]
      split <;> simp [Move.arriving?]

/-- The queue holds the same values without their numbers. -/
theorem map_queue_after (capacity : Nat) (moves : List (Move α)) :
    (after capacity moves).queue.map Entrant.value = PriorityQueue.after capacity moves := by
  induction moves using List.reverseRecOn with
  | nil => rfl
  | append_singleton moves m ih =>
    rw [after, List.foldl_append, List.foldl_cons, List.foldl_nil, ← after, PriorityQueue.after,
      List.foldl_append, List.foldl_cons, List.foldl_nil, ← PriorityQueue.after, ← ih]
    generalize after capacity moves = t
    cases m with
    | put value priority =>
      have hput := PriorityQueue.map_put Entrant.value t.queue (t.arrival value priority) priority
      exact (congrArg Prod.snd hput).symm
    | take =>
      rw [perform, PriorityQueue.perform, PriorityQueue.map_take?]
      cases t.queue.take? <;> rfl

/-- **Main theorem.** A queue works on its values alone, and every value that was put in has been
given out, or dropped, or is still held, once. There is no value to give out only if there is none,
and none is dropped only if there is room. Otherwise, the one that is given out next should be the
first one, unless it misleads another one, and the one that is dropped should be the last one,
unless another one misleads it. -/
theorem leaves_in_order_iff (capacity : Nat) (moves : List (Move α)) :
    let t := after capacity moves
    t.queue.map Entrant.value = PriorityQueue.after capacity moves ∧
    (t.arrived.map (fun a => (a.value, a.priority)) = moves.filterMap Move.arriving? ∧
      t.arrived.map Entrant.serial = List.range t.arrived.length ∧
      (t.taken ++ t.dropped ++ t.held).Perm t.arrived) ∧
    (match t.queue.take? with
      | none => t.held = []
      | some (a, _) => a.IsFirst t.held ↔ ∀ b ∈ t.held, ¬ a.Misleads b) ∧
    ∀ value priority,
      let a := t.arrival value priority
      match t.queue.put a priority with
      | (none, _) => t.held.length < max capacity 1
      | (some d, _) => t.held.length = max capacity 1 ∧
        (d.IsLast (a :: t.held) ↔ ∀ b ∈ a :: t.held, ¬ b.Misleads d) := by
  intro t
  have horderly : t.Orderly capacity := orderly_after capacity moves
  refine ⟨map_queue_after capacity moves,
    ⟨arrived_after capacity moves, horderly.numbered, horderly.accounted⟩, ?_, ?_⟩
  · have horder := horderly.inOrder
    rw [held, PriorityQueue.toList, PriorityQueue.take?]
    cases hentries : t.queue.entries with
    | nil => rfl
    | cons e entries =>
      rw [hentries] at horder
      exact horder.isFirst_iff
  · intro value priority a
    obtain ⟨entries, e, horder, hperm, ⟨hroom, hput⟩ | ⟨hfull, hput⟩⟩ :=
      horderly.put_cases value priority
    · rw [hput]
      exact hroom
    · rw [hput]
      have hlast := horder.isLast_iff
      simp only [Entrant.IsLast, hperm.mem_iff] at hlast ⊢
      exact ⟨hfull, hlast⟩

/-- A half has to wait for a negative zero. -/
example : (PriorityQueue.after 10 [.put "a" 0.5, .put "b" negativeZero]).peek? = some "b" := by
  decide +kernel

end Traffic

end NonAxiomatic
