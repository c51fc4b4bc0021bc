import Mathlib.Algebra.BigOperators.Group.List.Basic
import Mathlib.Algebra.GroupWithZero.Nat
import NonAxiomatic.Proofs.Filing

/-!
# Runs of a bag

Whatever is done to a new bag, with whatever keys, budgets and draws, its items and its two rows of
buckets stay in step.

**Theorem (`accounted_after`).** After every run a bag holds no more items than its capacity; every
key with an item lies once in all buckets of either row, in the one its current budget says; no
bucket holds a key without an item; and putting an item under a new key into a full bag takes out
one other item, which is the one given back.
-/

namespace NonAxiomatic

/-! ## All keys of a row -/

namespace Buckets

/-- The keys of all buckets. -/
def keys (b : Buckets) : Array String := b.rows.flatten

theorem sum_single (levels level : Nat) :
    ((List.range levels).map fun i => if i = level then 1 else 0).sum =
      if level < levels then 1 else 0 := by
  induction levels with
  | zero => rfl
  | succ levels ih =>
    rw [List.range_succ, List.map_append, List.sum_append, ih]
    by_cases h : level < levels
    · simp [h, Nat.lt_succ_of_lt h, Nat.ne_of_gt h]
    · by_cases he : levels = level
      · simp [he]
      · have hlt : ¬level < levels + 1 := by omega
        simp [h, he, hlt]

theorem count_keys (b : Buckets) (key : String) :
    b.keys.count key = ((List.range b.rows.size).map fun level => (b.row level).count key).sum := by
  rw [keys, Array.count_flatten, ← Array.sum_toList, Array.toList_map]
  congr 1
  apply List.ext_getElem (by simp)
  intro level h₁ h₂
  simp only [List.length_map, Array.length_toList] at h₁
  simp [row, h₁]

namespace Files

variable {b : Buckets} {levels level : Nat} {place : String → Option Nat} {key : String}

theorem count_keys_of_none (h : b.Files levels place) (hp : place key = none) :
    b.keys.count key = 0 := by
  rw [b.count_keys]
  simp [h.count_row, hp]

theorem count_keys_of_some (h : b.Files levels place) (hp : place key = some level) :
    b.keys.count key = 1 := by
  rw [b.count_keys]
  simp only [h.count_row, hp, Option.some.injEq, eq_comm (a := level)]
  rw [sum_single, h.size_rows, if_pos (h.place_lt hp)]

end Files

end Buckets

namespace Bag

variable {α σ : Type} {b : Bag α}

/-! ## Accounts -/

/-- The items of a bag and its buckets are in step. -/
structure Accounted (b : Bag α) : Prop where
  /-- The capacity is kept to. -/
  size_le : b.size ≤ b.capacity
  /-- A key with an item lies in one bucket by its priority. -/
  priority : ∀ key item, b.get? key = some item →
    b.byPriority.keys.count key = 1 ∧ key ∈ b.byPriority.row (b.priorityLevel item.budget)
  /-- A key with an item lies in one bucket by what its quality lacks. -/
  lack : ∀ key item, b.get? key = some item →
    b.byLack.keys.count key = 1 ∧ key ∈ b.byLack.row (b.lackLevel item.budget)
  /-- A key in a bucket has an item. -/
  stored : ∀ key, key ∈ b.byPriority.keys ∨ key ∈ b.byLack.keys → b.contains key = true

theorem Filed.accounted (h : b.Filed) (hsize : b.size ≤ b.capacity) : b.Accounted := by
  refine ⟨hsize, ?_, ?_, ?_⟩
  · intro key item hget
    have hp : (b.get? key).map (fun item => b.priorityLevel item.budget) =
        some (b.priorityLevel item.budget) := by rw [hget]; rfl
    exact ⟨h.byPriority.count_keys_of_some hp, h.byPriority.mem_row_iff.2 hp⟩
  · intro key item hget
    have hl : (b.get? key).map (fun item => b.lackLevel item.budget) =
        some (b.lackLevel item.budget) := by rw [hget]; rfl
    exact ⟨h.byLack.count_keys_of_some hl, h.byLack.mem_row_iff.2 hl⟩
  · intro key hmem
    rw [contains_eq_isSome]
    by_contra hnone
    have hget : b.get? key = none := by simpa using hnone
    have hp : (b.get? key).map (fun item => b.priorityLevel item.budget) = none := by
      rw [hget]
      rfl
    have hl : (b.get? key).map (fun item => b.lackLevel item.budget) = none := by
      rw [hget]
      rfl
    rcases hmem with hmem | hmem
    · exact Nat.ne_of_gt (Array.count_pos_iff.2 hmem) (h.byPriority.count_keys_of_none hp)
    · exact Nat.ne_of_gt (Array.count_pos_iff.2 hmem) (h.byLack.count_keys_of_none hl)

/-! ## Displacement -/

/-- Putting an item under a new key into a full bag takes out one other item and gives it back. -/
def Displaces [DrawSource σ] (b : Bag α) (key : String) (value : α) (budget : Budget) (s : σ) :
    Prop :=
  ∃ other item, other ≠ key ∧ b.get? other = some item ∧
    (b.put key value budget s).1 = some (other, item) ∧
    ∀ k, (b.put key value budget s).2.1.get? k =
      if k = key then some ⟨value, budget⟩ else if k = other then none else b.get? k

theorem Filed.displaces [DrawSource σ] (h : b.Filed) (hpos : 0 < b.capacity)
    (hfull : b.size = b.capacity) {key : String} (hnew : b.contains key = false) (value : α)
    (budget : Budget) (s : σ) : b.Displaces key value budget s := by
  have hne : b.isEmpty = false := isEmpty_eq_false_of_size (by omega)
  obtain ⟨other, item, s', hget, htake⟩ := h.takeMin_eq hne s
  have hput : b.put key value budget s =
      (some (other, item), (b.erase other).add key ⟨value, budget⟩, s') := by
    simp [Bag.put, hnew, hfull, htake]
  refine ⟨other, item, ?_, hget, by rw [hput], ?_⟩
  · rintro rfl
    rw [get?_eq_none_of_contains hnew] at hget
    exact absurd hget (by simp)
  · intro k
    rw [hput, get?_add, get?_erase]

/-! ## Runs -/

/-- What can be done to a bag. -/
inductive Change (α : Type) where
  /-- Put an item under a key, with the budget of new items unless another one is given. -/
  | put (key : String) (value : α) (budget : Budget := .default)
  /-- Take out the item under a key. -/
  | take (key : String)
  /-- Take out an item drawn by what its quality lacks. -/
  | takeMin
  | setPriority (key : String) (priority : Double)
  | setQuality (key : String) (quality : Double)
  | strengthenPriority (key : String) (share : Double)
  | strengthenQuality (key : String)
  | decay (key : String) (share : Double)

/-- Make a change, with the draws it needs. -/
def perform [DrawSource σ] : Bag α × σ → Change α → Bag α × σ
  | (b, s), .put key value budget => (b.put key value budget s).2
  | (b, s), .take key => (b.erase key, s)
  | (b, s), .takeMin => (b.takeMin s).2
  | (b, s), .setPriority key priority => (b.setPriority key priority, s)
  | (b, s), .setQuality key quality => (b.setQuality key quality, s)
  | (b, s), .strengthenPriority key share => (b.strengthenPriority key share, s)
  | (b, s), .strengthenQuality key => (b.strengthenQuality key, s)
  | (b, s), .decay key share => (b.decay key share, s)

/-- A new bag after a number of changes. -/
def after [DrawSource σ] (capacity levels : Nat) (draws : σ) (changes : List (Change α)) : Bag α :=
  (changes.foldl perform (empty capacity levels, draws)).1

theorem Holds.perform [DrawSource σ] {capacity : Nat} {may : String → α → Prop}
    (h : b.Holds capacity may) (hpos : 0 < capacity) (hmay : ∀ key value, may key value) (s : σ)
    (change : Change α) : (Bag.perform (b, s) change).1.Holds capacity may := by
  cases change with
  | put key value budget => exact h.put hpos (hmay key value) budget s
  | take key => exact h.erase key
  | takeMin => exact h.takeMin s
  | setPriority key priority => exact h.rebudget key (·.withPriority priority)
  | setQuality key quality => exact h.rebudget key (·.withQuality quality)
  | strengthenPriority key share => exact h.rebudget key (·.strengthenPriority share)
  | strengthenQuality key => exact h.rebudget key (·.strengthenQuality)
  | decay key share => exact h.rebudget key (·.decay share)

theorem holds_after [DrawSource σ] (capacity levels : Nat) (draws : σ) (changes : List (Change α)) :
    (after capacity levels draws changes).Holds (max capacity 1) fun _ _ => True := by
  have hpos : 0 < max capacity 1 := by omega
  have h : (empty capacity levels : Bag α).Holds (max capacity 1) fun _ _ => True :=
    Holds.empty capacity levels _
  unfold after
  generalize (empty capacity levels : Bag α) = b at h
  induction changes generalizing b draws with
  | nil => exact h
  | cons change changes ih =>
    have hstep := h.perform hpos (fun _ _ => trivial) draws change
    exact ih _ _ hstep

/-- After every run the items and the buckets are in step, within the capacity that was asked for
(one at least), and a full bag makes room for a new key by one other item. -/
theorem accounted_after [DrawSource σ] (capacity levels : Nat) (draws : σ)
    (changes : List (Change α)) :
    let b := after capacity levels draws changes
    b.capacity = max capacity 1 ∧ b.Accounted ∧
      ∀ key value budget (s : σ), b.size = b.capacity → b.contains key = false →
        b.Displaces key value budget s := by
  have h := holds_after capacity levels draws changes
  have hpos : 0 < (after capacity levels draws changes).capacity := by
    rw [h.capacity_eq]
    omega
  refine ⟨h.capacity_eq, h.filed.accounted (h.capacity_eq ▸ h.size_le), ?_⟩
  intro key value budget s hfull hnew
  exact h.filed.displaces hpos hfull hnew value budget s

theorem displaces_after_put :
    let b := after 1 4 (⟨[]⟩ : Script) [.put "a" true]
    b.size = b.capacity ∧ b.contains "b" = false ∧
      b.Displaces "b" false .default (⟨[]⟩ : Script) := by
  have hb : after 1 4 (⟨[]⟩ : Script) [.put "a" true] =
      (empty 1 4).add "a" ⟨true, .default⟩ := by
    have hnew : (empty 1 4 : Bag Bool).contains "a" = false := by simp [contains_eq_isSome]
    have hroom : ¬(empty 1 4 : Bag Bool).capacity ≤ (empty 1 4 : Bag Bool).size :=
      Nat.not_succ_le_zero 0
    simp only [after, List.foldl_cons, List.foldl_nil, perform, put, hnew, hroom, if_false,
      Bool.false_eq_true]
  have hfull : (after 1 4 (⟨[]⟩ : Script) [.put "a" true]).size =
      (after 1 4 (⟨[]⟩ : Script) [.put "a" true]).capacity := by
    rw [hb]
    exact Std.TreeMap.size_insert
  have hnew : (after 1 4 (⟨[]⟩ : Script) [.put "a" true]).contains "b" = false := by
    rw [hb, contains_eq_isSome, get?_add]
    simp
  exact ⟨hfull, hnew, (accounted_after 1 4 (⟨[]⟩ : Script) [.put "a" true]).2.2 _ _ _ _ hfull hnew⟩

end Bag

end NonAxiomatic
