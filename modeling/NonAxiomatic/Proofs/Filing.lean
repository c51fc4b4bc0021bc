import Mathlib.Tactic.ByContra
import NonAxiomatic.Bag

/-!
# Keys in their buckets

The representation of a bag: every key with an item lies once in the bucket of its current
priority and once in the bucket of what its current quality lacks, and no bucket holds any other
key (`Bag.Filed`). All operations of a bag keep to this, whatever is drawn.

* `Bag.Filed.takeMin_eq`: something is taken out of every bag that is not empty.
* `Bag.Filed.size_put_le`: a bag never grows beyond its capacity.
* `Bag.get?_put`, `Bag.get?_modify`, `Bag.get?_rebudget`: what is under a key after an operation.
* `Bag.Holds`: what an operation has to keep to for what is said of all items to stay true.
-/

namespace NonAxiomatic

/-! ## Buckets -/

namespace Buckets

/-- Every key lies once in the bucket that is its place, and in no other one. -/
structure Files (b : Buckets) (levels : Nat) (place : String → Option Nat) : Prop where
  /-- There are as many buckets as levels. -/
  size_rows : b.rows.size = levels
  /-- How often a key lies in a bucket. -/
  count_row : ∀ level key, (b.row level).count key = if place key = some level then 1 else 0

variable {b : Buckets} {levels level : Nat} {place : String → Option Nat} {key : String}

theorem row_of_le (h : b.rows.size ≤ level) : b.row level = #[] := by
  simp [row, Array.getElem?_eq_none h]

theorem files_empty (levels : Nat) : (empty levels).Files levels fun _ => none := by
  refine ⟨by simp [empty], ?_⟩
  intro level key
  by_cases h : level < levels <;> simp [row, empty, h]

namespace Files

theorem mem_row_iff (h : b.Files levels place) : key ∈ b.row level ↔ place key = some level := by
  rw [← Array.count_pos_iff, h.count_row]
  by_cases hp : place key = some level <;> simp [hp]

theorem place_lt (h : b.Files levels place) (hp : place key = some level) : level < levels := by
  have hmem := h.mem_row_iff.2 hp
  by_cases hl : level < b.rows.size
  · rw [← h.size_rows]
    exact hl
  · rw [row_of_le (Nat.le_of_not_lt hl)] at hmem
    exact absurd hmem (by simp)

theorem insert (h : b.Files levels place) (hp : place key = none) (hl : level < levels) :
    (b.insert level key).Files levels fun k => if k = key then some level else place k := by
  refine ⟨by rw [size_insert, h.size_rows], ?_⟩
  intro i k
  rw [row_insert, h.size_rows]
  by_cases hi : level = i
  · subst hi
    by_cases hk : k = key
    · subst hk
      simp [hl, h.count_row, hp]
    · simp [hl, h.count_row, hk, Array.count_push_of_ne (Ne.symm hk)]
  · by_cases hk : k = key
    · subst hk
      simp [hi, h.count_row, hp]
    · simp [hi, h.count_row, hk]

theorem erase (h : b.Files levels place) (hp : place key = some level) :
    (b.erase level key).Files levels fun k => if k = key then none else place k := by
  refine ⟨by rw [size_erase, h.size_rows], ?_⟩
  intro i k
  rw [row_erase, h.size_rows]
  by_cases hi : level = i
  · subst hi
    by_cases hk : k = key
    · subst hk
      simp [h.place_lt hp, h.count_row, hp]
    · simp [h.place_lt hp, h.count_row, hk]
  · by_cases hk : k = key
    · subst hk
      simp [hi, h.count_row, hp]
    · simp [hi, h.count_row, hk]

end Files

/-! ## Drawing -/

section Drawing

variable {σ : Type} [DrawSource σ]

theorem isEmpty_row_of_walk {steps start : Nat} {s s' : σ}
    (h : b.walk steps start s = (some level, s')) : (b.row level).isEmpty = false := by
  induction steps generalizing start s with
  | zero => exact absurd h (by simp [walk])
  | succ steps ih =>
    simp only [walk] at h
    split at h
    · exact ih h
    · rename_i hrow
      split at h
      · simp only [Prod.mk.injEq, Option.some.injEq] at h
        rw [← h.1]
        simpa using hrow
      · exact ih h

theorem isEmpty_row_highest (h : (b.row level).isEmpty = false) :
    (b.row b.highest).isEmpty = false := by
  have hl : level < b.rows.size := by
    by_contra hl
    rw [row_of_le (Nat.le_of_not_lt hl)] at h
    exact absurd h (by simp)
  cases hf : (List.range b.rows.size).reverse.find? fun level => !(b.row level).isEmpty with
  | none =>
    have := List.find?_eq_none.1 hf level (by simpa using hl)
    simp [h] at this
  | some found =>
    have := List.find?_some hf
    simpa [highest, hf] using this

theorem isEmpty_row_getD {stop : Option Nat} (h : (b.row level).isEmpty = false)
    (hs : ∀ l, stop = some l → (b.row l).isEmpty = false) :
    (b.row (stop.getD b.highest)).isEmpty = false := by
  cases stop with
  | none => exact isEmpty_row_highest h
  | some l => exact hs l rfl

/-- Something is drawn unless all buckets are empty. -/
theorem draw_mem (h : (b.row level).isEmpty = false) (s : σ) :
    ∃ found, ∃ key ∈ b.row found, (b.draw s).1 = some key := by
  unfold draw
  obtain ⟨start, s₁⟩ := DrawSource.below b.bound s
  -- The walk is named, since its number of steps must not be evaluated.
  cases hw : b.walk b.maxSteps start s₁ with
  | mk stop s₂ =>
    have hne := isEmpty_row_getD h fun l (hl : stop = some l) =>
      isEmpty_row_of_walk (hw.trans (by rw [hl]))
    have hpos : 0 < (b.row (stop.getD b.highest)).size := by
      rw [Array.isEmpty_eq_false_iff] at hne
      exact Array.size_pos_iff.2 hne
    have hlt := DrawSource.below_lt _ s₂ hpos
    exact ⟨_, _, Array.getElem_mem hlt, by simp [hw, hlt]⟩

end Drawing

end Buckets

namespace Bag

variable {α σ : Type} {b : Bag α} {key : String}

/-! ## What is under a key -/

theorem compare_eq_iff (key k : String) : compare key k = .eq ↔ k = key := by
  rw [Std.LawfulEqCmp.compare_eq_iff_eq, eq_comm]

theorem contains_eq_isSome (b : Bag α) (key : String) : b.contains key = (b.get? key).isSome :=
  Std.TreeMap.contains_eq_isSome_getElem?

theorem contains_of_get? {item : Item α} (h : b.get? key = some item) :
    b.items.contains key = true := by
  show b.contains key = true
  rw [contains_eq_isSome, h]
  rfl

theorem isEmpty_eq_false_of_get? {item : Item α} (h : b.get? key = some item) :
    b.isEmpty = false :=
  Std.TreeMap.isEmpty_eq_false_iff_exists_contains_eq_true.2 ⟨key, contains_of_get? h⟩

@[simp] theorem get?_empty (capacity levels : Nat) (k : String) :
    (empty capacity levels : Bag α).get? k = none :=
  Std.TreeMap.getElem?_emptyc

theorem get?_add (b : Bag α) (key : String) (item : Item α) (k : String) :
    (b.add key item).get? k = if k = key then some item else b.get? k := by
  show (b.items.insert key item)[k]? = _
  simp only [Std.TreeMap.getElem?_insert, compare_eq_iff]
  rfl

theorem get?_erase (b : Bag α) (key k : String) :
    (b.erase key).get? k = if k = key then none else b.get? k := by
  unfold erase
  split
  · rename_i h
    by_cases hk : k = key <;> simp [hk, h]
  · show (b.items.erase key)[k]? = _
    simp only [Std.TreeMap.getElem?_erase, compare_eq_iff]
    rfl

theorem get?_modify (b : Bag α) (key : String) (f : α → α) (k : String) :
    (b.modify key f).get? k =
      if k = key then (b.get? k).map fun item => { item with value := f item.value }
      else b.get? k := by
  show (b.items.modify key _)[k]? = _
  simp only [Std.TreeMap.getElem?_modify, compare_eq_iff]
  by_cases h : k = key
  · rw [if_pos h, if_pos h, h]
    rfl
  · rw [if_neg h, if_neg h]
    rfl

theorem get?_rebudget (b : Bag α) (key : String) (f : Budget → Budget) (k : String) :
    (b.rebudget key f).get? k =
      if k = key then (b.get? k).map fun item => { item with budget := f item.budget }
      else b.get? k := by
  unfold rebudget
  split
  · rename_i h
    by_cases hk : k = key <;> simp [hk, h]
  · rename_i item h
    show (b.items.insert key { item with budget := f item.budget })[k]? = _
    simp only [Std.TreeMap.getElem?_insert, compare_eq_iff]
    by_cases hk : k = key
    · rw [if_pos hk, if_pos hk, hk, h]
      rfl
    · rw [if_neg hk, if_neg hk]
      rfl

/-! ## Size -/

theorem size_add_le (b : Bag α) (key : String) (item : Item α) :
    (b.add key item).size ≤ b.size + 1 := Std.TreeMap.size_insert_le

theorem size_erase_of_get? {item : Item α} (h : b.get? key = some item) :
    (b.erase key).size + 1 = b.size := by
  have hpos : b.items.size ≠ 0 := by
    intro h0
    have hempty := isEmpty_eq_false_of_get? h
    rw [isEmpty, Std.TreeMap.isEmpty_eq_size_eq_zero, h0] at hempty
    exact absurd hempty (by decide)
  have hsize : (b.items.erase key).size = b.items.size - 1 := by
    rw [Std.TreeMap.size_erase, if_pos (contains_of_get? h)]
  simp only [erase, h]
  show (b.items.erase key).size + 1 = b.items.size
  omega

theorem isEmpty_eq_false_of_size (h : 0 < b.size) : b.isEmpty = false := by
  have hb : b.items.size ≠ 0 := Nat.ne_of_gt h
  rw [isEmpty, Std.TreeMap.isEmpty_eq_size_eq_zero]
  simpa using hb

theorem size_erase_le (b : Bag α) (key : String) : (b.erase key).size ≤ b.size := by
  cases h : b.get? key with
  | none => simp [erase, h]
  | some item =>
    have := size_erase_of_get? h
    omega

@[simp] theorem size_modify (b : Bag α) (key : String) (f : α → α) :
    (b.modify key f).size = b.size := Std.TreeMap.size_modify

@[simp] theorem size_rebudget (b : Bag α) (key : String) (f : Budget → Budget) :
    (b.rebudget key f).size = b.size := by
  unfold rebudget
  split
  · rfl
  · rename_i item h
    show (b.items.insert key _).size = b.items.size
    rw [Std.TreeMap.size_insert, if_pos (contains_of_get? h)]

/-! ## The representation -/

/-- Every key with an item lies where the budget of the item says, and nowhere else. -/
structure Filed (b : Bag α) : Prop where
  /-- There is a level. -/
  levels_pos : 0 < b.levels
  /-- The keys lie in the buckets of their priorities. -/
  byPriority : b.byPriority.Files b.levels fun k =>
    (b.get? k).map fun item => b.priorityLevel item.budget
  /-- The keys lie in the buckets of what their qualities lack. -/
  byLack : b.byLack.Files b.levels fun k => (b.get? k).map fun item => b.lackLevel item.budget

theorem filed_empty (capacity levels : Nat) : (empty capacity levels : Bag α).Filed := by
  refine ⟨?_, ?_, ?_⟩
  · show 0 < max levels 1
    omega
  · simp only [get?_empty, Option.map_none]
    exact Buckets.files_empty _
  · simp only [get?_empty, Option.map_none]
    exact Buckets.files_empty _

namespace Filed

theorem add (h : b.Filed) (hk : b.get? key = none) (item : Item α) : (b.add key item).Filed := by
  have hplace : ∀ level : Item α → Nat,
      (fun k => ((b.add key item).get? k).map level) =
        fun k => if k = key then some (level item) else (b.get? k).map level := by
    intro level
    funext k
    rw [get?_add]
    by_cases h : k = key <;> simp [h]
  refine ⟨h.levels_pos, ?_, ?_⟩
  · refine (hplace _).symm ▸ h.byPriority.insert (by rw [hk]; rfl) ?_
    exact Buckets.levelOf_lt h.levels_pos _
  · refine (hplace _).symm ▸ h.byLack.insert (by rw [hk]; rfl) ?_
    exact Buckets.levelOf_lt h.levels_pos _

theorem erase (h : b.Filed) (key : String) : (b.erase key).Filed := by
  have hplace : ∀ level : Item α → Nat,
      (fun k => ((b.erase key).get? k).map level) =
        fun k => if k = key then none else (b.get? k).map level := by
    intro level
    funext k
    rw [get?_erase]
    by_cases h : k = key <;> simp [h]
  cases hk : b.get? key with
  | none =>
    have : b.erase key = b := by simp [Bag.erase, hk]
    rw [this]
    exact h
  | some item =>
    have hp := hplace fun item => b.priorityLevel item.budget
    have hl := hplace fun item => b.lackLevel item.budget
    simp only [Bag.erase, hk] at hp hl ⊢
    exact ⟨h.levels_pos, hp.symm ▸ h.byPriority.erase (by rw [hk]; rfl),
      hl.symm ▸ h.byLack.erase (by rw [hk]; rfl)⟩

theorem modify (h : b.Filed) (key : String) (f : α → α) : (b.modify key f).Filed := by
  have hplace : ∀ level : Budget → Nat,
      (fun k => ((b.modify key f).get? k).map fun item => level item.budget) =
        fun k => (b.get? k).map fun item => level item.budget := by
    intro level
    funext k
    rw [get?_modify]
    by_cases hk : k = key
    · rw [if_pos hk, Option.map_map]
      rfl
    · rw [if_neg hk]
  exact ⟨h.levels_pos, (hplace _).symm ▸ h.byPriority, (hplace _).symm ▸ h.byLack⟩

theorem rebudget (h : b.Filed) (key : String) (f : Budget → Budget) :
    (b.rebudget key f).Filed := by
  cases hk : b.get? key with
  | none =>
    have : b.rebudget key f = b := by simp [Bag.rebudget, hk]
    rw [this]
    exact h
  | some item =>
    -- Erasing the key and filing it again is the same as changing its level.
    have hplace : ∀ level : Budget → Nat,
        (fun k => ((b.rebudget key f).get? k).map fun item => level item.budget) =
          fun k => if k = key then some (level (f item.budget))
            else if k = key then none else (b.get? k).map fun item => level item.budget := by
      intro level
      funext k
      rw [get?_rebudget]
      by_cases h : k = key <;> simp [h, hk]
    have hp := hplace b.priorityLevel
    have hl := hplace b.lackLevel
    simp only [Bag.rebudget, hk] at hp hl ⊢
    refine ⟨h.levels_pos, ?_, ?_⟩
    · refine hp.symm ▸ (h.byPriority.erase (by rw [hk]; rfl)).insert (by simp) ?_
      exact Buckets.levelOf_lt h.levels_pos _
    · refine hl.symm ▸ (h.byLack.erase (by rw [hk]; rfl)).insert (by simp) ?_
      exact Buckets.levelOf_lt h.levels_pos _

variable [DrawSource σ]

/-- Something is drawn from the buckets of a bag that is not empty, and it is in the bag. -/
theorem drawFrom_eq {buckets : Buckets} {place : String → Option Nat}
    (hf : buckets.Files b.levels place) (hp : ∀ k, (place k).isSome = (b.get? k).isSome)
    (hne : b.isEmpty = false) (s : σ) :
    ∃ key item, b.get? key = some item ∧ (b.drawFrom buckets s).1 = some (key, item) := by
  obtain ⟨k, hk⟩ := Std.TreeMap.isEmpty_eq_false_iff_exists_contains_eq_true.1 hne
  have hplace : (place k).isSome = true := by
    rw [hp, ← contains_eq_isSome]
    exact hk
  obtain ⟨level, hlevel⟩ := Option.isSome_iff_exists.1 hplace
  have hrow : (buckets.row level).isEmpty = false := by
    rw [Array.isEmpty_eq_false_iff]
    exact Array.ne_empty_of_mem (hf.mem_row_iff.2 hlevel)
  obtain ⟨found, key, hmem, hdraw⟩ := Buckets.draw_mem hrow s
  have hget : (b.get? key).isSome = true := by
    rw [← hp, hf.mem_row_iff.1 hmem]
    rfl
  obtain ⟨item, hitem⟩ := Option.isSome_iff_exists.1 hget
  exact ⟨key, item, hitem, by simp [drawFrom, hne, hdraw, hitem]⟩

/-- Something is taken out of a bag that is not empty. -/
theorem takeMin_eq (h : b.Filed) (hne : b.isEmpty = false) (s : σ) :
    ∃ key item s', b.get? key = some item ∧
      b.takeMin s = (some (key, item), b.erase key, s') := by
  obtain ⟨key, item, hget, hdraw⟩ := drawFrom_eq h.byLack (by simp) hne s
  refine ⟨key, item, (b.drawFrom b.byLack s).2, hget, ?_⟩
  cases hd : b.drawFrom b.byLack s with
  | mk found s' =>
    rw [hd] at hdraw
    obtain rfl : found = some (key, item) := hdraw
    simp only [takeMin, hd]

end Filed

section Drawing

variable [DrawSource σ]

/-- What is drawn from a bag is in it. -/
theorem get?_of_drawFrom {buckets : Buckets} {s : σ} {item : Item α}
    (h : (b.drawFrom buckets s).1 = some (key, item)) : b.get? key = some item := by
  unfold drawFrom at h
  split at h
  · exact absurd h (by simp)
  · simp only [Option.bind_eq_some_iff, Option.map_eq_some_iff, Prod.mk.injEq] at h
    obtain ⟨k, _, x, hget, rfl, rfl⟩ := h
    exact hget

theorem takeMin_cases (b : Bag α) (s : σ) :
    (b.takeMin s).2.1 = b ∨ ∃ key, (b.takeMin s).2.1 = b.erase key := by
  unfold takeMin
  split
  · exact .inr ⟨_, rfl⟩
  · exact .inl rfl

/-- What `put` does to a bag: nothing when the key is there, and otherwise it adds the new item,
after another one has been taken out if there is no room. -/
theorem put_cases (b : Bag α) (key : String) (value : α) (budget : Budget) (s : σ) :
    (b.contains key = true ∧ (b.put key value budget s).2.1 = b) ∨
    (b.contains key = false ∧ ∃ b', (b.put key value budget s).2.1 = b'.add key ⟨value, budget⟩ ∧
      (b' = b ∧ b.size < b.capacity ∨ b' = (b.takeMin s).2.1 ∧ b.capacity ≤ b.size)) := by
  unfold put
  by_cases hk : b.contains key = true
  · exact .inl ⟨hk, by simp [hk]⟩
  · refine .inr ⟨by simpa using hk, ?_⟩
    by_cases hfull : b.capacity ≤ b.size
    · exact ⟨(b.takeMin s).2.1, by simp [hk, hfull], .inr ⟨rfl, hfull⟩⟩
    · exact ⟨b, by simp [hk, hfull], .inl ⟨rfl, by omega⟩⟩

theorem get?_takeMin (b : Bag α) {s : σ} {item : Item α}
    (h : (b.takeMin s).2.1.get? key = some item) : b.get? key = some item := by
  rcases b.takeMin_cases s with ht | ⟨taken, ht⟩
  · rwa [ht] at h
  · rw [ht, get?_erase] at h
    by_cases hk : key = taken
    · rw [if_pos hk] at h
      exact absurd h (by simp)
    · rwa [if_neg hk] at h

theorem get?_takeMin_of_none (b : Bag α) (s : σ) (h : b.get? key = none) :
    (b.takeMin s).2.1.get? key = none := by
  cases ht : (b.takeMin s).2.1.get? key with
  | none => rfl
  | some item =>
    rw [b.get?_takeMin ht] at h
    exact absurd h (by simp)

theorem get?_eq_none_of_contains (h : b.contains key = false) : b.get? key = none := by
  rw [contains_eq_isSome] at h
  simpa using h

/-- After `put`, there is what was there before, and the new item under its key. -/
theorem get?_put {k : String} {value : α} {budget : Budget} {s : σ} {item : Item α}
    (h : (b.put key value budget s).2.1.get? k = some item) :
    b.get? k = some item ∨ k = key ∧ item = ⟨value, budget⟩ := by
  rcases b.put_cases key value budget s with ⟨_, hput⟩ | ⟨_, b', hput, hb'⟩
  · rw [hput] at h
    exact .inl h
  · rw [hput, get?_add] at h
    by_cases hk : k = key
    · rw [if_pos hk] at h
      exact .inr ⟨hk, (Option.some.inj h).symm⟩
    · rw [if_neg hk] at h
      rcases hb' with ⟨rfl, _⟩ | ⟨rfl, _⟩
      · exact .inl h
      · exact .inl (b.get?_takeMin h)

theorem Filed.takeMin (h : b.Filed) (s : σ) : (b.takeMin s).2.1.Filed := by
  rcases b.takeMin_cases s with ht | ⟨taken, ht⟩
  · rwa [ht]
  · rw [ht]
    exact h.erase taken

theorem Filed.put (h : b.Filed) (key : String) (value : α) (budget : Budget) (s : σ) :
    (b.put key value budget s).2.1.Filed := by
  rcases b.put_cases key value budget s with ⟨_, hput⟩ | ⟨hk, b', hput, hb'⟩
  · rwa [hput]
  · rw [hput]
    rcases hb' with ⟨rfl, _⟩ | ⟨rfl, _⟩
    · exact h.add (get?_eq_none_of_contains hk) _
    · exact (h.takeMin s).add (b.get?_takeMin_of_none s (get?_eq_none_of_contains hk)) _

@[simp] theorem capacity_erase (b : Bag α) (key : String) :
    (b.erase key).capacity = b.capacity := by
  unfold erase
  split <;> rfl

@[simp] theorem capacity_rebudget (b : Bag α) (key : String) (f : Budget → Budget) :
    (b.rebudget key f).capacity = b.capacity := by
  unfold rebudget
  split <;> rfl

theorem capacity_put (b : Bag α) (key : String) (value : α) (budget : Budget) (s : σ) :
    (b.put key value budget s).2.1.capacity = b.capacity := by
  rcases b.put_cases key value budget s with ⟨_, hput⟩ | ⟨_, b', hput, hb'⟩
  · rw [hput]
  · rw [hput]
    show b'.capacity = b.capacity
    rcases hb' with ⟨rfl, _⟩ | ⟨rfl, _⟩
    · rfl
    · rcases b.takeMin_cases s with ht | ⟨taken, ht⟩
      · rw [ht]
      · rw [ht, capacity_erase]

/-- A bag with room for one item at least does not grow beyond its capacity. -/
theorem Filed.size_put_le (h : b.Filed) (hpos : 0 < b.capacity) (hsize : b.size ≤ b.capacity)
    (key : String) (value : α) (budget : Budget) (s : σ) :
    (b.put key value budget s).2.1.size ≤ b.capacity := by
  rcases b.put_cases key value budget s with ⟨_, hput⟩ | ⟨_, b', hput, hb'⟩
  · rwa [hput]
  · rw [hput]
    apply Nat.le_trans (size_add_le b' key _)
    rcases hb' with ⟨rfl, hroom⟩ | ⟨rfl, hfull⟩
    · omega
    · have hne : b.isEmpty = false := isEmpty_eq_false_of_size (by omega)
      obtain ⟨taken, item, s', hget, ht⟩ := h.takeMin_eq hne s
      have := size_erase_of_get? hget
      rw [ht]
      show (b.erase taken).size + 1 ≤ b.capacity
      omega

end Drawing

/-! ## What a bag holds -/

/-- A bag in good order, of a given capacity, with only such items as may be under their keys. -/
structure Holds (b : Bag α) (capacity : Nat) (may : String → α → Prop) : Prop where
  /-- The keys lie in their buckets. -/
  filed : b.Filed
  /-- The capacity is the given one. -/
  capacity_eq : b.capacity = capacity
  /-- The capacity is kept to. -/
  size_le : b.size ≤ capacity
  /-- Every value may be under its key. -/
  all : ∀ key item, b.get? key = some item → may key item.value

namespace Holds

variable {capacity : Nat} {may : String → α → Prop}

theorem empty (capacity levels : Nat) (may : String → α → Prop) :
    (Bag.empty capacity levels).Holds (max capacity 1) may := by
  refine ⟨filed_empty capacity levels, rfl, Nat.zero_le _, ?_⟩
  intro key item h
  rw [get?_empty] at h
  exact absurd h (by simp)

theorem rebudget (h : b.Holds capacity may) (key : String) (f : Budget → Budget) :
    (b.rebudget key f).Holds capacity may := by
  refine ⟨h.filed.rebudget key f, by simpa using h.capacity_eq, by simpa using h.size_le,
    fun k item hk => ?_⟩
  rw [get?_rebudget] at hk
  by_cases hkey : k = key
  · rw [if_pos hkey] at hk
    obtain ⟨old, hold, rfl⟩ := Option.map_eq_some_iff.1 hk
    exact h.all _ old hold
  · rw [if_neg hkey] at hk
    exact h.all _ _ hk

theorem erase (h : b.Holds capacity may) (key : String) : (b.erase key).Holds capacity may := by
  refine ⟨h.filed.erase key, by simpa using h.capacity_eq,
    Nat.le_trans (b.size_erase_le key) h.size_le, fun k item hk => ?_⟩
  rw [get?_erase] at hk
  by_cases hkey : k = key
  · rw [if_pos hkey] at hk
    exact absurd hk (by simp)
  · rw [if_neg hkey] at hk
    exact h.all _ _ hk

theorem takeMin [DrawSource σ] (h : b.Holds capacity may) (s : σ) :
    (b.takeMin s).2.1.Holds capacity may := by
  rcases b.takeMin_cases s with ht | ⟨taken, ht⟩
  · rwa [ht]
  · rw [ht]
    exact h.erase taken

theorem put [DrawSource σ] (h : b.Holds capacity may) (hpos : 0 < capacity) {value : α}
    (hv : may key value) (budget : Budget) (s : σ) :
    (b.put key value budget s).2.1.Holds capacity may := by
  have hcap := h.capacity_eq
  refine ⟨h.filed.put key value budget s, by rw [capacity_put, hcap], ?_, ?_⟩
  · have hsize := h.size_le
    rw [← hcap] at hpos hsize ⊢
    exact h.filed.size_put_le hpos hsize key value budget s
  · intro k item hk
    rcases get?_put hk with hk | ⟨rfl, rfl⟩
    · exact h.all _ _ hk
    · exact hv

end Holds

end Bag

end NonAxiomatic
