import NonAxiomatic.Proofs.BagRun

/-!
# What can be drawn from a bag

A walk over the levels starts anywhere below the highest one, and no draw exceeds the level right
below that. So a walk never gets past this level while there are keys at it, and the highest level
is out of reach. Every other level can be where a walk starts and stops.

**Theorem (`drawable_iff`).** After every run, there are draws on which a given item is looked at,
and draws on which it is taken out, unless it lies at the highest level and another item lies right
below it; then it is never drawn, whatever the draws come from.
-/

namespace NonAxiomatic

/-! ## Walking -/

namespace Buckets

variable {b : Buckets} {level stop start steps : Nat} {key : String}

theorem bound_pos (b : Buckets) : 0 < b.bound := by
  unfold bound
  omega

theorem lt_size_of_row (h : (b.row level).isEmpty = false) : level < b.rows.size := by
  by_contra hlt
  rw [row_of_le (Nat.le_of_not_lt hlt)] at h
  exact absurd h (by simp)

section Walking

variable {σ : Type} [DrawSource σ] {s s₁ s₂ : σ}

/-- A walk stops at keys whose level the draw does not exceed. -/
theorem walk_of_le (hrow : (b.row level).isEmpty = false)
    (hdraw : (DrawSource.below b.bound s).1 ≤ level) :
    b.walk (steps + 1) level s = (some level, (DrawSource.below b.bound s).2) := by
  simp [walk, hrow, hdraw]

/-- A walk passes a level without keys, and draws nothing there. -/
theorem walk_of_isEmpty (hrow : (b.row level).isEmpty = true) (hnext : level + 1 < b.rows.size) :
    b.walk (steps + 1) level s = b.walk steps (level + 1) s := by
  simp [walk, hrow, Nat.mod_eq_of_lt hnext]

/-- No walk gets past keys at a level that no draw exceeds. -/
theorem walk_le (hrow : (b.row stop).isEmpty = false) (hbound : b.bound ≤ stop + 1)
    (hstart : start ≤ stop) (hsteps : stop < start + steps) (s : σ) :
    ∃ level ≤ stop, (b.walk steps start s).1 = some level := by
  induction steps generalizing start s with
  | zero => omega
  | succ steps ih =>
    have hsize := lt_size_of_row hrow
    -- Moving on from a level below the one that is wanted does not skip it.
    have onward : start ≠ stop → ∀ s : σ,
        ∃ level ≤ stop, (b.walk steps ((start + 1) % b.rows.size) s).1 = some level := by
      intro hne s
      rw [Nat.mod_eq_of_lt (by omega)]
      exact ih (by omega) (by omega) s
    simp only [walk]
    split
    · rename_i hempty
      refine onward ?_ s
      rintro rfl
      exact absurd (hrow.symm.trans hempty) (by decide)
    · split
      · exact ⟨start, hstart, rfl⟩
      · rename_i hexceeds
        refine onward ?_ _
        rintro rfl
        have hlt := DrawSource.below_lt b.bound s b.bound_pos
        omega

/-! ## Drawing -/

theorem draw_eq (hstart : DrawSource.below b.bound s = (start, s₁))
    (hwalk : b.walk b.maxSteps start s₁ = (some level, s₂)) :
    b.draw s = ((b.row level)[(DrawSource.below (b.row level).size s₂).1]?,
      (DrawSource.below (b.row level).size s₂).2) := by
  simp [draw, hstart, hwalk]

/-- Whatever is drawn lies below the highest level if there are keys right below that. -/
theorem exists_le_of_draw (hrow : (b.row stop).isEmpty = false) (hsize : stop + 2 = b.rows.size)
    (h : (b.draw s).1 = some key) : ∃ level ≤ stop, key ∈ b.row level := by
  have hlt := DrawSource.below_lt b.bound s b.bound_pos
  cases hstart : DrawSource.below b.bound s with
  | mk start s₁ =>
    rw [hstart] at hlt
    have hbound : b.bound = stop + 1 := by
      unfold bound
      omega
    have hsteps : stop < start + b.maxSteps := by
      unfold maxSteps
      omega
    obtain ⟨level, hle, hlevel⟩ := walk_le hrow (Nat.le_of_eq hbound)
      (show start ≤ stop by omega) hsteps s₁
    have hwalk : b.walk b.maxSteps start s₁ = (some level, (b.walk b.maxSteps start s₁).2) :=
      Prod.ext hlevel rfl
    rw [draw_eq hstart hwalk] at h
    exact ⟨level, hle, Array.mem_of_getElem? h⟩

end Walking

/-- A key is drawn on some numbers if a walk may start at its level, or right below it where no
key stops the walk. Whatever comes after these numbers is left. -/
theorem exists_draw (h : key ∈ b.row level)
    (hreach : level < b.bound ∨ (b.row (level - 1)).isEmpty = true) :
    ∃ values, ∀ rest, b.draw (⟨values ++ rest⟩ : Script) = (some key, ⟨rest⟩) := by
  obtain ⟨i, hi, rfl⟩ := Array.mem_iff_getElem.1 h
  have hrow : (b.row level).isEmpty = false := by
    rw [Array.isEmpty_eq_false_iff]
    exact Array.ne_empty_of_mem h
  have hsize := lt_size_of_row hrow
  obtain ⟨steps, hsteps⟩ : ∃ steps, b.maxSteps = steps + 2 := by
    refine ⟨b.maxSteps - 2, ?_⟩
    unfold maxSteps
    omega
  have hindex : i % (b.row level).size = i := Nat.mod_eq_of_lt hi
  by_cases hlevel : level < b.bound
  · refine ⟨[level, 0, i], fun rest => ?_⟩
    have hstart : DrawSource.below b.bound (⟨[level, 0, i] ++ rest⟩ : Script) =
        (level, ⟨0 :: i :: rest⟩) :=
      Prod.ext (Nat.mod_eq_of_lt hlevel) rfl
    have hwalk : b.walk b.maxSteps level (⟨0 :: i :: rest⟩ : Script) =
        (some level, ⟨i :: rest⟩) := by
      rw [hsteps]
      refine (walk_of_le hrow ?_).trans rfl
      exact Nat.le_trans (Nat.le_of_eq (Nat.zero_mod _)) (Nat.zero_le _)
    rw [draw_eq hstart hwalk]
    show ((b.row level)[i % (b.row level).size]?, (⟨rest⟩ : Script)) = _
    rw [hindex, Array.getElem?_eq_getElem hi]
  · -- Only the highest of several levels is left: the walk starts below it and moves on.
    have hempty := hreach.resolve_left hlevel
    unfold bound at hlevel
    refine ⟨[level - 1, 0, i], fun rest => ?_⟩
    have hstart : DrawSource.below b.bound (⟨[level - 1, 0, i] ++ rest⟩ : Script) =
        (level - 1, ⟨0 :: i :: rest⟩) := by
      refine Prod.ext (Nat.mod_eq_of_lt ?_) rfl
      show level - 1 < b.bound
      unfold bound
      omega
    have hwalk : b.walk b.maxSteps (level - 1) (⟨0 :: i :: rest⟩ : Script) =
        (some level, ⟨i :: rest⟩) := by
      rw [hsteps, walk_of_isEmpty hempty (by omega), Nat.sub_add_cancel (by omega)]
      refine (walk_of_le hrow ?_).trans rfl
      exact Nat.le_trans (Nat.le_of_eq (Nat.zero_mod _)) (Nat.zero_le _)
    rw [draw_eq hstart hwalk]
    show ((b.row level)[i % (b.row level).size]?, (⟨rest⟩ : Script)) = _
    rw [hindex, Array.getElem?_eq_getElem hi]

end Buckets

/-! ## Items out of reach -/

namespace Bag

variable {α σ : Type} {b : Bag α} {key : String} {item : Item α} {buckets : Buckets}
  {level : Budget → Nat}

/-- Whether an item is kept from being drawn: it lies at the highest level, and another item lies
right below it. -/
def IsCovered (b : Bag α) (level : Budget → Nat) (item : Item α) : Prop :=
  level item.budget + 1 = b.levels ∧
    ∃ key other, b.get? key = some other ∧ level other.budget + 1 = level item.budget

theorem drawFrom_eq_some_iff [DrawSource σ] (hget : b.get? key = some item) (s : σ) :
    (b.drawFrom buckets s).1 = some (key, item) ↔ (buckets.draw s).1 = some key := by
  unfold drawFrom
  rw [isEmpty_eq_false_of_get? hget, if_neg Bool.false_ne_true]
  constructor
  · intro h
    obtain ⟨k, hk, h⟩ := Option.bind_eq_some_iff.1 h
    obtain ⟨_, _, heq⟩ := Option.map_eq_some_iff.1 h
    obtain ⟨rfl, _⟩ := Prod.mk.inj heq
    exact hk
  · intro h
    simp [h, hget]

section Files

variable (files : buckets.Files b.levels fun k => (b.get? k).map fun item => level item.budget)
include files

/-- What is covered is not drawn, whatever the draws come from. -/
theorem drawFrom_ne_of_isCovered [DrawSource σ] (hget : b.get? key = some item)
    (h : b.IsCovered level item) (s : σ) : (b.drawFrom buckets s).1 ≠ some (key, item) := by
  obtain ⟨hlevels, k, other, hother, hbelow⟩ := h
  rw [ne_eq, drawFrom_eq_some_iff hget]
  intro hdraw
  have hmem : k ∈ buckets.row (level other.budget) := files.mem_row_iff.2 (by rw [hother]; rfl)
  have hrow : (buckets.row (level other.budget)).isEmpty = false := by
    rw [Array.isEmpty_eq_false_iff]
    exact Array.ne_empty_of_mem hmem
  have hsize := files.size_rows
  obtain ⟨found, hle, hmem⟩ := Buckets.exists_le_of_draw hrow (by omega) hdraw
  -- A key lies at one level only.
  have hplace := files.mem_row_iff.1 hmem
  rw [hget, Option.map_some, Option.some.injEq] at hplace
  omega

/-- What is not covered is drawn on some numbers, whatever comes after them. -/
theorem exists_drawFrom (hget : b.get? key = some item) (hfree : ¬b.IsCovered level item) :
    ∃ values, ∀ rest, b.drawFrom buckets (⟨values ++ rest⟩ : Script) =
      (some (key, item), ⟨rest⟩) := by
  have hplace : (b.get? key).map (fun item => level item.budget) = some (level item.budget) := by
    rw [hget]
    rfl
  have hlt := files.place_lt hplace
  obtain ⟨values, hdraw⟩ : ∃ values, ∀ rest,
      buckets.draw (⟨values ++ rest⟩ : Script) = (some key, ⟨rest⟩) := by
    refine Buckets.exists_draw (files.mem_row_iff.2 hplace) ?_
    by_contra hnot
    rw [not_or, Bool.not_eq_true] at hnot
    obtain ⟨hhigh, hbelow⟩ := hnot
    unfold Buckets.bound at hhigh
    rw [files.size_rows] at hhigh
    obtain ⟨k, hk⟩ := Array.exists_mem_of_ne_empty _ (Array.isEmpty_eq_false_iff.1 hbelow)
    obtain ⟨other, hother, hlevel⟩ := Option.map_eq_some_iff.1 (files.mem_row_iff.1 hk)
    exact hfree ⟨by omega, k, other, hother, by omega⟩
  refine ⟨values, fun rest => ?_⟩
  simp [drawFrom, isEmpty_eq_false_of_get? hget, hdraw, hget]

theorem exists_drawFrom_iff (hget : b.get? key = some item) :
    (∃ values, (b.drawFrom buckets (⟨values⟩ : Script)).1 = some (key, item)) ↔
      ¬b.IsCovered level item := by
  constructor
  · rintro ⟨values, hdraw⟩ hcovered
    exact drawFrom_ne_of_isCovered files hget hcovered _ hdraw
  · intro hfree
    obtain ⟨values, hdraw⟩ := exists_drawFrom files hget hfree
    refine ⟨values, ?_⟩
    have hall := hdraw []
    rw [List.append_nil] at hall
    rw [hall]

end Files

theorem takeMin_fst [DrawSource σ] (b : Bag α) (s : σ) :
    (b.takeMin s).1 = (b.drawFrom b.byLack s).1 := by
  unfold takeMin
  split <;> simp_all

theorem takeMin_of_drawFrom [DrawSource σ] {s : σ}
    (h : (b.takeMin s).1 = some (key, item)) : (b.takeMin s).2.1 = b.erase key := by
  unfold takeMin at h ⊢
  split
  · rename_i heq
    rw [heq] at h
    obtain ⟨rfl, rfl⟩ := Prod.mk.inj (Option.some.inj h)
    rfl
  · rename_i heq
    rw [heq] at h
    exact absurd h (by simp)

/-- After every run, an item is looked at on some draws, and taken out on some, exactly if it is not
covered by another one at the levels of priority, and at those of what quality lacks. -/
theorem drawable_iff [DrawSource σ] (capacity levels : Nat) (draws : σ)
    (changes : List (Change α)) {key : String} {item : Item α}
    (hget : (after capacity levels draws changes).get? key = some item) :
    let b := after capacity levels draws changes
    ((∃ values, (b.peek (⟨values⟩ : Script)).1 = some (key, item)) ↔
      ¬b.IsCovered b.priorityLevel item) ∧
    ((∃ values, (b.takeMin (⟨values⟩ : Script)).1 = some (key, item) ∧
        (b.takeMin (⟨values⟩ : Script)).2.1 = b.erase key) ↔
      ¬b.IsCovered b.lackLevel item) := by
  have hfiled := (holds_after capacity levels draws changes).filed
  refine ⟨exists_drawFrom_iff hfiled.byPriority hget, ?_⟩
  rw [← exists_drawFrom_iff hfiled.byLack hget]
  refine exists_congr fun values => ?_
  rw [← takeMin_fst]
  exact ⟨fun h => h.1, fun h => ⟨h, takeMin_of_drawFrom h⟩⟩

/-- Of two levels, the higher one is never looked at while there is an item at the lower one. -/
theorem not_drawable_two_levels :
    let b := after 4 2 (⟨[]⟩ : Script) [.put "a" true (.of 0.9 0.1), .put "b" false (.of 0.1 0.9)]
    b.get? "a" = some ⟨true, .of 0.9 0.1⟩ ∧ b.IsCovered b.priorityLevel ⟨true, .of 0.9 0.1⟩ ∧
      ¬∃ values, (b.peek (⟨values⟩ : Script)).1 = some ("a", ⟨true, .of 0.9 0.1⟩) := by
  intro b
  have hget : b.get? "a" = some ⟨true, .of 0.9 0.1⟩ := rfl
  have hcovered : b.IsCovered b.priorityLevel ⟨true, .of 0.9 0.1⟩ :=
    ⟨by decide +kernel, "b", ⟨false, .of 0.1 0.9⟩, rfl, by decide +kernel⟩
  have hdrawable := (drawable_iff 4 2 (⟨[]⟩ : Script) _ hget).1
  exact ⟨hget, hcovered, fun hdrawn => hdrawable.1 hdrawn hcovered⟩

end Bag

end NonAxiomatic
