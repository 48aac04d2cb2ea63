import Mathlib.Algebra.BigOperators.Group.List.Basic
import Mathlib.Tactic.Ring

/-!
# A range cut evenly

`n` items are cut into `k` slices, one after the other, whose sizes differ by at most one: the first
`n % k` slices have one item more than the others. `index` and `offset` say in which slice an item
is, and where.
-/

namespace EvenSlices

open List

variable {n k s d : ℕ}

def size (n k s : ℕ) : ℕ := if s < n % k then n / k + 1 else n / k

def start (n k s : ℕ) : ℕ := s * (n / k) + min s (n % k)

/-- The slice of an item. -/
def index (n k d : ℕ) : ℕ :=
  if d < n % k * (n / k + 1) then d / (n / k + 1) else n % k + (d - n % k * (n / k + 1)) / (n / k)

/-- Where an item is in its slice. -/
def offset (n k d : ℕ) : ℕ :=
  if d < n % k * (n / k + 1) then d % (n / k + 1) else (d - n % k * (n / k + 1)) % (n / k)

theorem start_zero (n k : ℕ) : start n k 0 = 0 := by rw [start, Nat.zero_mul, Nat.zero_min]

theorem start_succ (n k s : ℕ) : start n k (s + 1) = start n k s + size n k s := by
  rw [start, start, size, Nat.succ_mul]
  split
  · omega
  · omega

theorem start_le {s' : ℕ} (h : s ≤ s') : start n k s ≤ start n k s' := by
  induction s', h using Nat.le_induction with
  | base => exact Nat.le_refl _
  | succ s' _ ih =>
    rw [start_succ]
    exact ih.trans (Nat.le_add_right _ _)

/-- The slices are as large as the range. -/
theorem start_self (hk : 0 < k) : start n k k = n := by
  rw [start, Nat.min_eq_right (Nat.mod_lt n hk).le, Nat.div_add_mod]

theorem sum_size (n k s : ℕ) : ((List.range s).map (size n k)).sum = start n k s := by
  induction s with
  | zero => exact (start_zero n k).symm
  | succ s ih =>
    rw [range_succ, map_append, sum_append, ih, start_succ, map_singleton, sum_singleton]

theorem size_le_succ (s s' : ℕ) : size n k s ≤ size n k s' + 1 := by
  rw [size, size]
  split
  · split
    · omega
    · omega
  · split
    · omega
    · omega

/-- What the large slices hold. -/
theorem mod_mul_le (hk : 0 < k) : n % k * (n / k + 1) ≤ n := by
  have hmul : n % k * (n / k) ≤ k * (n / k) := Nat.mul_le_mul_right _ (Nat.mod_lt n hk).le
  have hdiv := Nat.div_add_mod n k
  rw [Nat.mul_succ]
  omega

theorem index_lt (hk : 0 < k) (hle : k ≤ n) (hd : d < n) : index n k d < k := by
  have hpos : 0 < n / k := Nat.div_pos hle hk
  have hmod := Nat.mod_lt n hk
  rw [index]
  split
  · next hlarge =>
    have hlt : d / (n / k + 1) < n % k := Nat.div_lt_of_lt_mul (by rwa [Nat.mul_comm])
    omega
  · next hsmall =>
    have hlt : (d - n % k * (n / k + 1)) / (n / k) < k - n % k := by
      rw [Nat.div_lt_iff_lt_mul hpos, Nat.sub_mul]
      have hdiv := Nat.div_add_mod n k
      rw [Nat.mul_succ] at hsmall ⊢
      omega
    omega

/-- An item is in its slice. -/
theorem offset_lt (hk : 0 < k) (hle : k ≤ n) : offset n k d < size n k (index n k d) := by
  have hpos : 0 < n / k := Nat.div_pos hle hk
  rw [offset, size, index]
  split
  · next hlarge =>
    have hlt : d / (n / k + 1) < n % k := Nat.div_lt_of_lt_mul (by rwa [Nat.mul_comm])
    rw [if_pos hlt]
    exact Nat.mod_lt _ (Nat.succ_pos _)
  · rw [if_neg (Nat.not_lt.2 (Nat.le_add_right _ _))]
    exact Nat.mod_lt _ hpos

theorem start_index_add_offset (n k d : ℕ) : start n k (index n k d) + offset n k d = d := by
  rw [start, index, offset]
  split
  · next hlarge =>
    have hlt : d / (n / k + 1) < n % k := Nat.div_lt_of_lt_mul (by rwa [Nat.mul_comm])
    have hdiv := Nat.div_add_mod d (n / k + 1)
    rw [Nat.min_eq_left hlt.le, ← Nat.mul_succ, Nat.mul_comm, Nat.succ_eq_add_one, hdiv]
  · next hsmall =>
    have hdiv := Nat.div_add_mod (d - n % k * (n / k + 1)) (n / k)
    rw [Nat.min_eq_right (Nat.le_add_right _ _), Nat.add_mul, Nat.mul_comm ((d - _) / _)]
    rw [Nat.mul_succ] at hdiv hsmall ⊢
    omega

/-- The slice that an item is in is the only one. -/
theorem eq_index (hk : 0 < k) (hle : k ≤ n) (hlo : start n k s ≤ d)
    (hhi : d < start n k s + size n k s) : s = index n k d := by
  have hin := offset_lt hk hle (d := d)
  have hsum := start_index_add_offset n k d
  rw [← start_succ] at hhi
  obtain hlt | heq | hgt := Nat.lt_trichotomy s (index n k d)
  · have hnext : start n k (s + 1) ≤ start n k (index n k d) := start_le hlt
    omega
  · exact heq
  · have hnext : start n k (index n k d + 1) ≤ start n k s := start_le hgt
    rw [start_succ] at hnext
    omega

/-! ### Items sorted into slices -/

/-- Items that are sorted into slices are the same items, in another order. -/
theorem flatMap_filter_perm {α : Type*} {f : α → ℕ} {l : List α} (k : ℕ) :
    ((List.range k).flatMap fun s ↦ l.filter fun a ↦ f a = s).Perm (l.filter fun a ↦ f a < k) := by
  induction k with
  | zero => simp
  | succ k ih =>
    rw [range_succ, flatMap_append, flatMap_singleton]
    have hbelow : (l.filter fun a ↦ f a < k) = (l.filter fun a ↦ f a < k + 1).filter fun a ↦
        f a < k := by
      rw [filter_filter]
      exact filter_congr fun a _ ↦ by
        rw [Bool.eq_iff_iff]
        simp only [Bool.and_eq_true, decide_eq_true_iff]
        omega
    have hat : (l.filter fun a ↦ f a = k) = (l.filter fun a ↦ f a < k + 1).filter fun a ↦
        !decide (f a < k) := by
      rw [filter_filter]
      exact filter_congr fun a _ ↦ by
        rw [Bool.eq_iff_iff]
        simp only [Bool.and_eq_true, Bool.not_eq_true', decide_eq_true_iff, decide_eq_false_iff_not]
        omega
    refine (ih.append_right _).trans ?_
    rw [hbelow, hat]
    exact filter_append_perm _ _

end EvenSlices
