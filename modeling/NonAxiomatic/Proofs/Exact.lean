import Mathlib.Algebra.Order.BigOperators.GroupWithZero.List
import Mathlib.Algebra.Order.Field.Basic
import Mathlib.Analysis.SpecialFunctions.Pow.Real
import Mathlib.Data.Nat.NthRoot.Defs
import Mathlib.Data.Rat.Sqrt
import NonAxiomatic.Truth

/-!
# Exact numbers

The numbers of an ordered field as a scale, so that the formulas of the truth functions can be read
without rounding. A field need not have roots; what is taken for them is left open (`Roots`), and
where it matters they have to be roots (`LawfulRoots`). Fractions and real numbers are such fields.

A value that can come about by `TruthValue.of` is proper (`TruthValue.Proper`), and moving proper
numbers into their ranges leaves them as they are.

* `Scale.and_mem_Icc`: a product of numbers of the unit interval is at most each of them.
* `TruthValue.of_eq`: proper numbers are kept.
-/

/-- A field with a linear order, the numbers that formulas are read over. (Within `NonAxiomatic`, a
`Field` is a field of the body of a request.) -/
class OrderedField (K : Type) extends Field K, LinearOrder K, IsStrictOrderedRing K

instance : OrderedField ℚ where

noncomputable instance : OrderedField ℝ where

namespace NonAxiomatic

/-- What is taken for the roots of exact numbers. -/
class Roots (K : Type) where
  /-- The number without a sign whose square is a given one. -/
  sqrt : K → K
  /-- The number whose `n`-th power is a given one. -/
  root : (n : Nat) → K → K

/-- The second roots are roots, of all numbers that have one. -/
class LawfulRoots (K : Type) [OrderedField K] [Roots K] : Prop where
  sqrt_nonneg (x : K) : 0 ≤ Roots.sqrt x
  sqrt_mul_sqrt {x : K} (h : 0 ≤ x) : Roots.sqrt x * Roots.sqrt x = x

/-- The root of a fraction is that of its two parts, rounded down where these have none. -/
instance : Roots ℚ where
  sqrt := Rat.sqrt
  root n x := Nat.nthRoot n x.num.toNat / Nat.nthRoot n x.den

noncomputable instance : Roots ℝ where
  sqrt := Real.sqrt
  root n x := x ^ (1 / n : ℝ)

instance : LawfulRoots ℝ where
  sqrt_nonneg := Real.sqrt_nonneg
  sqrt_mul_sqrt := Real.mul_self_sqrt

variable {K : Type} [OrderedField K] [Roots K]

instance (priority := low) exactScale : Scale K where
  zero := 0
  one := 1
  half := 1 / 2
  minConfidence := 1 / 10000
  maxConfidence := 9999 / 10000
  le x y := decide (x ≤ y)
  lt x y := decide (x < y)
  eq x y := decide (x = y)
  sqrt := Roots.sqrt
  root := Roots.root

/-- A frequency of the unit interval, and a confidence inside of it. -/
structure TruthValue.Proper (v : TruthValue K) : Prop where
  frequency_mem : v.frequency ∈ Set.Icc 0 1
  confidence_mem : v.confidence ∈ Set.Ioo 0 1

namespace Scale

theorem and_eq_prod (xs : List K) : and xs = xs.prod := List.prod_eq_foldl.symm

theorem mean_eq (x y : K) : mean x y = Roots.sqrt (x * y) := by
  simp [mean, and_eq_prod, sqrt]

theorem clampUnit_eq (x : K) :
    clampUnit x = if 1 < (if x < 0 then 0 else x) then 1 else if x < 0 then 0 else x := by
  simp [clampUnit, lt, zero, one]

theorem clampConfidence_eq (c : K) :
    clampConfidence c =
      if 1 ≤ c then maxConfidence else if c ≤ 0 then minConfidence else c := by
  simp [clampConfidence, le, zero, one]

theorem clampUnit_of_mem {x : K} (h : x ∈ Set.Icc 0 1) : clampUnit x = x := by
  rw [clampUnit_eq, if_neg (not_lt.2 h.1), if_neg (not_lt.2 h.2)]

theorem clampConfidence_of_mem {c : K} (h : c ∈ Set.Ioo 0 1) : clampConfidence c = c := by
  rw [clampConfidence_eq, if_neg (not_le.2 h.2), if_neg (not_le.2 h.1)]

/-! ## Ranges -/

variable {x y : K} {xs : List K}

theorem clampUnit_mem (x : K) : clampUnit x ∈ Set.Icc 0 1 := by
  rw [clampUnit_eq, Set.mem_Icc]
  split_ifs with hbelow habove
  · exact ⟨zero_le_one, le_rfl⟩
  · exact ⟨le_rfl, zero_le_one⟩
  · exact ⟨zero_le_one, le_rfl⟩
  · exact ⟨not_lt.1 hbelow, not_lt.1 ‹¬1 < x›⟩

/-- The least confidence takes the place of none, so that a bound has to be at least as great. -/
theorem clampConfidence_mem (hle : x ≤ y) (hone : y < 1)
    (hleast : minConfidence ≤ y) : clampConfidence x ∈ Set.Ioo 0 1 ∧ clampConfidence x ≤ y := by
  rw [clampConfidence_eq, if_neg (not_le.2 (hle.trans_lt hone))]
  split_ifs with hzero
  · have hpos : (0 : K) < minConfidence := by
      show (0 : K) < 1 / 10000
      positivity
    exact ⟨⟨hpos, hleast.trans_lt hone⟩, hleast⟩
  · exact ⟨⟨not_le.1 hzero, hle.trans_lt hone⟩, hle⟩

theorem and_mem_Icc (h : ∀ x ∈ xs, x ∈ Set.Icc 0 1) : and xs ∈ Set.Icc 0 1 := by
  rw [and_eq_prod]
  induction xs with
  | nil => exact ⟨zero_le_one, le_rfl⟩
  | cons x xs ih =>
    obtain ⟨hx, hrest⟩ := List.forall_mem_cons.1 h
    rw [List.prod_cons]
    exact ⟨mul_nonneg hx.1 (ih hrest).1, mul_le_one₀ hx.2 (ih hrest).1 (ih hrest).2⟩

/-- A product of numbers of the unit interval is at most each of them. -/
theorem and_le (h : ∀ x ∈ xs, x ∈ Set.Icc 0 1) (hx : x ∈ xs) : and xs ≤ x := by
  have hrest : and (xs.erase x) ∈ Set.Icc 0 1 :=
    and_mem_Icc fun y hy => h y (List.mem_of_mem_erase hy)
  have hprod := List.prod_erase hx
  rw [and_eq_prod] at hrest ⊢
  rw [← hprod]
  exact mul_le_of_le_one_right (h x hx).1 hrest.2

theorem not_mem_Icc (h : x ∈ Set.Icc 0 1) : not x ∈ Set.Icc 0 1 :=
  ⟨sub_nonneg.2 h.2, sub_le_self 1 h.1⟩

theorem or_mem_Icc (h : ∀ x ∈ xs, x ∈ Set.Icc 0 1) : or xs ∈ Set.Icc 0 1 := by
  have hprod : and (xs.map fun x => 1 - x) ∈ Set.Icc 0 1 := by
    refine and_mem_Icc fun y hy => ?_
    obtain ⟨x, hx, rfl⟩ := List.mem_map.1 hy
    exact not_mem_Icc (h x hx)
  exact not_mem_Icc hprod

end Scale

theorem TruthValue.of_eq {f c : K} (hf : f ∈ Set.Icc 0 1) (hc : c ∈ Set.Ioo 0 1) :
    of f c = ⟨f, c⟩ := by
  rw [of, Scale.clampUnit_of_mem hf, Scale.clampConfidence_of_mem hc]

end NonAxiomatic
