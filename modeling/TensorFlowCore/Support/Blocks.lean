import Mathlib.Data.List.Pairwise
import Mathlib.Tactic.Linarith

/-!
# A range cut into blocks

`blocks size total` is `[0, total)` cut into blocks of `size`, of which the last one may be smaller.
They cover the range and are disjoint; there are as many as `size` goes into `total`, rounded up.
-/

namespace Blocks

variable {size total : ℤ}

/-- The number of blocks. -/
def numBlocks (size total : ℤ) : ℕ := ((total + size - 1) / size).toNat

/-- The `k`-th block, as a half-open range. -/
def block (size total : ℤ) (k : ℕ) : ℤ × ℤ := (size * k, min (size * k + size) total)

def blocks (size total : ℤ) : List (ℤ × ℤ) :=
  (List.range (numBlocks size total)).map (block size total)

/-- The blocks are those that begin before the end. -/
theorem lt_numBlocks_iff (hsize : 0 < size) (htotal : 0 ≤ total) (k : ℕ) :
    k < numBlocks size total ↔ size * k < total := by
  have hnonneg : 0 ≤ (total + size - 1) / size := Int.ediv_nonneg (by omega) hsize.le
  have hcast : k < numBlocks size total ↔ (k : ℤ) + 1 ≤ (total + size - 1) / size := by
    rw [numBlocks]
    omega
  rw [hcast, Int.le_ediv_iff_mul_le hsize, add_mul, one_mul, mul_comm]
  omega

theorem length_blocks : (blocks size total).length = numBlocks size total := by
  rw [blocks, List.length_map, List.length_range]

theorem mem_blocks {r : ℤ × ℤ} :
    r ∈ blocks size total ↔ ∃ k < numBlocks size total, block size total k = r := by
  simp [blocks]

theorem nonempty_of_mem_blocks (hsize : 0 < size) (htotal : 0 ≤ total) {r : ℤ × ℤ}
    (hr : r ∈ blocks size total) : r.1 < r.2 := by
  obtain ⟨k, hk, rfl⟩ := mem_blocks.1 hr
  rw [lt_numBlocks_iff hsize htotal] at hk
  exact lt_min (lt_add_of_pos_right _ hsize) hk

/-- A block ends where the next one begins, or before. -/
theorem pairwise_blocks (hsize : 0 < size) : (blocks size total).Pairwise fun r t ↦ r.2 ≤ t.1 := by
  rw [blocks, List.pairwise_map]
  refine List.pairwise_lt_range.imp fun {j k} hjk ↦ ?_
  have hmul : size * (j + 1 : ℤ) ≤ size * k := mul_le_mul_of_nonneg_left (by omega) hsize.le
  rw [mul_add, mul_one] at hmul
  exact (min_le_left _ _).trans hmul

theorem exists_mem_blocks_iff (hsize : 0 < size) (htotal : 0 ≤ total) (i : ℤ) :
    (∃ r ∈ blocks size total, r.1 ≤ i ∧ i < r.2) ↔ 0 ≤ i ∧ i < total := by
  constructor
  · rintro ⟨r, hr, hlo, hhi⟩
    obtain ⟨k, -, rfl⟩ := mem_blocks.1 hr
    have hk : 0 ≤ size * (k : ℤ) := mul_nonneg hsize.le (Int.natCast_nonneg k)
    exact ⟨hk.trans hlo, hhi.trans_le (min_le_right _ _)⟩
  · rintro ⟨hlo, hhi⟩
    have hq : ((i / size).toNat : ℤ) = i / size :=
      Int.toNat_of_nonneg (Int.ediv_nonneg hlo hsize.le)
    have hdiv : size * (i / size) + i % size = i := Int.mul_ediv_add_emod i size
    have hmod : 0 ≤ i % size := Int.emod_nonneg i hsize.ne'
    have hlt : i % size < size := Int.emod_lt_of_pos i hsize
    refine ⟨block size total (i / size).toNat, mem_blocks.2 ⟨_, ?_, rfl⟩, ?_, ?_⟩
    · rw [lt_numBlocks_iff hsize htotal, hq]
      omega
    · rw [block, hq]
      omega
    · rw [block, hq]
      exact lt_min (by omega) hhi

/-- The blocks of the size that makes so many of them are not more than that. -/
theorem numBlocks_le {n : ℤ} (hn : 0 < n) (htotal : 0 ≤ total) (hsize : 0 < (total + n - 1) / n) :
    (numBlocks ((total + n - 1) / n) total : ℤ) ≤ n := by
  by_contra! hlt
  have hbefore := (lt_numBlocks_iff hsize htotal n.toNat).1 (by omega)
  have hmul : total + n - 1 < n * ((total + n - 1) / n + 1) := by
    have := Int.lt_mul_ediv_self_add (x := total + n - 1) hn
    rw [mul_add, mul_one]
    exact this
  rw [Int.toNat_of_nonneg hn.le, mul_comm] at hbefore
  rw [mul_add, mul_one] at hmul
  omega

end Blocks
