import Mathlib.Algebra.Order.BigOperators.Group.Finset
import Mathlib.Tactic.Abel
import Mathlib.Tactic.Ring

/-!
# Sums over aligned blocks

The sums of a sequence over the blocks `[i * 2 ^ k, (i + 1) * 2 ^ k)`: what the nodes of a complete
binary tree hold when the leaves hold the sequence and each inner node the sum of its two children.

Nothing here names a program. The rules are the one of the children (`blockSum_succ`), the one for a
single changed term (`blockSum_update`), and the two by which a position among the prefix sums is
followed down the tree (`prefixSum_left`, `prefixSum_right`).
-/

namespace BlockSums

open Finset

variable {M : Type*} [AddCommGroup M]

/-- The sum of the first `m` terms. -/
def prefixSum (w : ℕ → M) (m : ℕ) : M := ∑ j ∈ range m, w j

/-- The sum over the `i`-th block of `2 ^ k` terms. -/
def blockSum (w : ℕ → M) (k i : ℕ) : M := ∑ j ∈ range (2 ^ k), w (i * 2 ^ k + j)

variable (w : ℕ → M) (k i : ℕ)

@[simp] theorem prefixSum_zero : prefixSum w 0 = 0 := rfl

theorem prefixSum_succ (m : ℕ) : prefixSum w (m + 1) = prefixSum w m + w m := sum_range_succ w m

@[simp] theorem blockSum_zero : blockSum w 0 i = w i := by
  simp [blockSum]

theorem blockSum_succ : blockSum w (k + 1) i = blockSum w k (2 * i) + blockSum w k (2 * i + 1) := by
  rw [blockSum, pow_succ, Nat.mul_two, sum_range_add]
  congr 1
  · exact sum_congr rfl fun j _ ↦ congrArg w (by ring)
  · exact sum_congr rfl fun j _ ↦ congrArg w (by ring)

/-- A block ends where the next one starts. -/
theorem prefixSum_block :
    prefixSum w ((i + 1) * 2 ^ k) = prefixSum w (i * 2 ^ k) + blockSum w k i := by
  rw [prefixSum, Nat.add_one_mul, sum_range_add]
  rfl

/-- The block at the root holds the whole sum. -/
theorem blockSum_root : blockSum w k 0 = prefixSum w (2 ^ k) := by
  simp [blockSum, prefixSum]

/-- The left half of a block starts where the block does. -/
theorem prefixSum_left : prefixSum w (2 * i * 2 ^ k) = prefixSum w (i * 2 ^ (k + 1)) :=
  congrArg _ (by ring)

/-- The right half of a block starts behind the left one. -/
theorem prefixSum_right :
    prefixSum w ((2 * i + 1) * 2 ^ k) = prefixSum w (i * 2 ^ (k + 1)) + blockSum w k (2 * i) := by
  rw [prefixSum_block, prefixSum_left]

/-- Changing one term changes the blocks that it lies in by the difference. -/
theorem blockSum_update (index : ℕ) (x : M) :
    blockSum (Function.update w index x) k i =
      blockSum w k i + if index / 2 ^ k = i then x - w index else 0 := by
  induction k generalizing i with
  | zero => by_cases h : index = i <;> simp [h, eq_comm (a := i)]
  | succ k ih =>
    have hdiv : index / 2 ^ (k + 1) = index / 2 ^ k / 2 := by rw [pow_succ, Nat.div_div_eq_div_mul]
    rw [blockSum_succ, blockSum_succ, ih, ih, hdiv]
    -- The term lies in the left half, in the right half or in neither.
    rcases Nat.lt_trichotomy (index / 2 ^ k / 2) i with hlt | heq | hgt
    · rw [if_neg (by omega), if_neg (by omega), if_neg (by omega)]
      abel
    · rcases Nat.mod_two_eq_zero_or_one (index / 2 ^ k) with hleft | hright
      · rw [if_pos (by omega), if_neg (by omega), if_pos heq]
        abel
      · rw [if_neg (by omega), if_pos (by omega), if_pos heq]
        abel
    · rw [if_neg (by omega), if_neg (by omega), if_neg (by omega)]
      abel

section Order

variable {w} [PartialOrder M] [IsOrderedAddMonoid M] (hw : ∀ j, 0 ≤ w j)
include hw

theorem prefixSum_mono {m n : ℕ} (h : m ≤ n) : prefixSum w m ≤ prefixSum w n :=
  sum_le_sum_of_subset_of_nonneg (range_mono h) fun j _ _ ↦ hw j

theorem prefixSum_nonneg (m : ℕ) : 0 ≤ prefixSum w m := sum_nonneg fun j _ ↦ hw j

theorem blockSum_nonneg (k i : ℕ) : 0 ≤ blockSum w k i := sum_nonneg fun _ _ ↦ hw _

/-- The terms from some place on being zero, the sums up to there or further are the whole sum. -/
theorem prefixSum_le_of_zero {n : ℕ} (hz : ∀ j, n ≤ j → w j = 0) (m : ℕ) :
    prefixSum w m ≤ prefixSum w n := by
  rcases Nat.le_total m n with h | h
  · exact prefixSum_mono hw h
  · have heq : prefixSum w n = prefixSum w m :=
      sum_subset (range_mono h) fun j _ hj ↦ hz j (by simpa using hj)
    exact heq.ge

theorem blockSum_le_of_zero {n : ℕ} (hz : ∀ j, n ≤ j → w j = 0) (k i : ℕ) :
    blockSum w k i ≤ prefixSum w n :=
  calc blockSum w k i ≤ prefixSum w (i * 2 ^ k) + blockSum w k i :=
        le_add_of_nonneg_left (prefixSum_nonneg hw _)
    _ = prefixSum w ((i + 1) * 2 ^ k) := (prefixSum_block w k i).symm
    _ ≤ prefixSum w n := prefixSum_le_of_zero hw hz _

end Order

/-- Among the partial sums of terms that are not negative, a value lies between at most one pair of
neighbours. -/
theorem prefixSum_unique [LinearOrder M] [IsOrderedAddMonoid M] {w : ℕ → M} (hw : ∀ j, 0 ≤ w j)
    {v : M} {i j : ℕ} (hi : prefixSum w i ≤ v) (hi' : v < prefixSum w (i + 1))
    (hj : prefixSum w j ≤ v) (hj' : v < prefixSum w (j + 1)) : i = j := by
  refine le_antisymm (not_lt.mp fun h ↦ ?_) (not_lt.mp fun h ↦ ?_)
  · exact (hj'.trans_le ((prefixSum_mono hw h).trans hi)).false
  · exact (hi'.trans_le ((prefixSum_mono hw h).trans hj)).false

end BlockSums
