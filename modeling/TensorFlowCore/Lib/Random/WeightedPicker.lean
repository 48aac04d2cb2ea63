import Mathlib.Algebra.Order.Ring.Int
import TensorFlowCore.Support.BlockSums
import TensorFlowCore.Support.GuardedRun

/-!
# Picking by weight

`WeightedPicker` of `tensorflow/core/lib/random/weighted_picker.cc`: a complete binary tree with the
weights in its leaves, in which every inner node is to hold the sum of its two children. Weights are
`int32`, whose sums wrap around. What the heap holds where a level is allocated is given with each
operation. An operation has no outcome when a check or an assertion fails or an expression that it
evaluates is undefined.

`Weights` is what a picker is for: a finite sequence of weights, on which each operation says what
it does. A tree `Represents` such a sequence when each node holds the sum of the block of leaves
below it, which every operation keeps (`exists_step`), and then picks by the prefix sums
(`Represents.picksByPrefixSums`). The constructor has no levels for more than `2 ^ 30` elements, and
this is all that can go wrong (`runPicks_iff`).
-/

namespace TensorFlowCore.WeightedPicker

open BlockSums Function Option

variable {p : Picker} {a : Weights}

/-- The value of a sum in an `int32`. -/
def int32 (x : ℤ) : ℤ := x.bmod (2 ^ 32)

theorem int32_eq {x : ℤ} (h : -2 ^ 31 ≤ x) (h' : x < 2 ^ 31) : int32 x = x :=
  Int.bmod_eq_of_le (by omega) (by omega)

/-- `LevelSize`. Shifting a one by 31 places gives the smallest `int`, further is undefined. -/
def levelSize (level : ℕ) : Option ℤ :=
  if level < 31 then some (2 ^ level) else if level = 31 then some (-2 ^ 31) else none

theorem levelSize_of_lt {level : ℕ} (h : level < 31) :
    levelSize level = some (2 ^ level) := if_pos h

/-- The nodes, level by level with the root at level 0. -/
abbrev Levels := ℕ → ℕ → ℤ

/-- Stores into a node. -/
def Levels.store (level : Levels) (l i : ℕ) (x : ℤ) : Levels :=
  Function.update level l (Function.update (level l) i x)

/-- The members of `WeightedPicker`. -/
structure Picker where
  /-- `N_`. -/
  n : ℕ
  /-- `num_levels_`. -/
  numLevels : ℕ
  /-- `level_`. -/
  level : Levels

namespace Picker

/-- `get_weight`. -/
def getWeight (p : Picker) (index : ℕ) : ℤ := p.level (p.numLevels - 1) index

/-- `total_weight`. -/
def totalWeight (p : Picker) : ℤ := p.level 0 0

/-- The outer loop of `RebuildTreeWeights`, below a level. -/
def rebuildBelow : ℕ → Levels → Levels
  | 0, level => level
  | l + 1, level =>
    rebuildBelow l <| Function.update level l fun i ↦
      if i < 2 ^ l then int32 (level (l + 1) (2 * i) + level (l + 1) (2 * i + 1)) else level l i

/-- `RebuildTreeWeights`. -/
def rebuildTreeWeights (p : Picker) : Picker :=
  { p with level := rebuildBelow (p.numLevels - 1) p.level }

/-- Stores into all leaves. -/
def storeLeaves (p : Picker) (leaves : ℕ → ℤ) : Picker :=
  { p with level := Function.update p.level (p.numLevels - 1) leaves }

@[simp] theorem getWeight_storeLeaves (p : Picker) (leaves : ℕ → ℤ) (i : ℕ) :
    (p.storeLeaves leaves).getWeight i = leaves i := by
  simp [getWeight, storeLeaves]

/-- What the bulk operations store in the leaves before they sum up towards the root. -/
def initializeLeaves (p : Picker) (weight : ℕ → ℤ) : Picker :=
  p.storeLeaves fun i ↦
    if i < p.n then weight i else if i < 2 ^ (p.numLevels - 1) then 0 else p.getWeight i

/-- `SetAllWeights`. -/
def setAllWeights (p : Picker) (weight : ℤ) : Picker :=
  (p.initializeLeaves fun _ ↦ weight).rebuildTreeWeights

/-- The loop of the constructor that finds the number of levels. -/
def findLevels (N : ℤ) (level : ℕ) : Option ℕ :=
  match h : levelSize level with
  | none => none
  | some size => if size < N then findLevels N (level + 1) else some (level + 1)
termination_by 32 - level
decreasing_by
  simp only [levelSize] at h
  split_ifs at h <;> omega

/-- The constructor. -/
def new (heap : Levels) (N : ℤ) : Option Picker :=
  if N < 0 then none
  else (findLevels N 0).map fun numLevels ↦
    setAllWeights { n := N.toNat, numLevels := numLevels, level := heap } 1

/-- The loop of `set_weight`, which goes from a level up to the root. -/
def addUpward (delta : ℤ) : ℕ → ℕ → Levels → Levels
  | 0, _, level => level
  | l + 1, index, level =>
    addUpward delta l (index / 2) (level.store l index (int32 (level l index + delta)))

/-- `set_weight`. -/
def setWeight (p : Picker) (index : ℕ) (weight : ℤ) : Option Picker :=
  if index < p.n then
    some { p with level := addUpward (int32 (weight - p.getWeight index)) p.numLevels index p.level
      }
  else none

/-- The loop of `Resize` that zeroes the weights that are dropped. -/
def zeroWeights : List ℕ → Picker → Option Picker
  | [], p => some p
  | i :: is, p => (p.setWeight i 0).bind (zeroWeights is)

/-- `Resize`. -/
def resize (heap : Levels) (p : Picker) (newSize : ℤ) : Option Picker :=
  if newSize < 0 then none
  else (levelSize (p.numLevels - 1)).bind fun size ↦
    if newSize ≤ size then
      (zeroWeights (List.range' newSize.toNat (p.n - newSize.toNat)) p).map fun q ↦
        { q with n := newSize.toNat }
    else if newSize ≤ p.n then none
    else (new heap newSize).map fun newPicker ↦
      -- `memcpy` of the old leaves, then `memset` up to the new size.
      rebuildTreeWeights <| newPicker.storeLeaves fun i ↦
        if i < p.n then p.getWeight i else if i < newSize.toNat then 0 else newPicker.getWeight i

/-- `SetWeightsFromArray`. -/
def setWeightsFromArray (heap : Levels) (p : Picker) (N : ℤ) (weights : ℕ → ℤ) : Option Picker :=
  (p.resize heap N).map fun p ↦ (p.initializeLeaves weights).rebuildTreeWeights

/-- `Append`. -/
def append (heap : Levels) (p : Picker) (weight : ℤ) : Option Picker :=
  (p.resize heap (p.n + 1)).bind fun p ↦ p.setWeight (p.n - 1) weight

/-- The loop of `PickAt`, which goes down from a level. -/
def descend (p : Picker) (l index : ℕ) (position : ℤ) : ℕ × ℤ :=
  if l < p.numLevels then
    let leftWeight := p.level l (2 * index)
    if position < leftWeight then p.descend (l + 1) (2 * index) position
    else p.descend (l + 1) (2 * index + 1) (int32 (position - leftWeight))
  else (index, position)
termination_by p.numLevels - l

/-- `PickAt`. -/
def pickAt (p : Picker) (weightIndex : ℤ) : Option ℤ :=
  if weightIndex < 0 ∨ p.totalWeight ≤ weightIndex then some (-1)
  else
    let (index, position) := p.descend 1 0 weightIndex
    if index < p.n ∧ position ≤ p.level (p.numLevels - 1) index then some index else none

end Picker

/-- The operations that change a picker. An array of weights is given by its values. -/
inductive Op where
  | setWeight (index : ℕ) (weight : ℤ)
  | setAllWeights (weight : ℤ)
  | setWeightsFromArray (N : ℕ) (weights : ℕ → ℤ)
  | append (weight : ℤ)
  | resize (newSize : ℕ)

/-- One operation, with what the heap holds where it allocates. -/
def step (p : Picker) : Op × Levels → Option Picker
  | (.setWeight index weight, _) => p.setWeight index weight
  | (.setAllWeights weight, _) => some (p.setAllWeights weight)
  | (.setWeightsFromArray N weights, heap) => p.setWeightsFromArray heap N weights
  | (.append weight, heap) => p.append heap weight
  | (.resize newSize, heap) => p.resize heap newSize

/-- A picker that is built for `N` elements and then changed. -/
def run (heap : Levels) (N : ℕ) (ops : List (Op × Levels)) : Option Picker :=
  (Picker.new heap N).bind fun p ↦ GuardedRun.run step p ops

/-! ### Weights without a tree -/

/-- A finite sequence of weights, continued by zeros. -/
structure Weights where
  /-- The number of elements. -/
  n : ℕ
  /-- The weight of each element. -/
  weight : ℕ → ℤ
  /-- There is no weight beyond the elements. -/
  zero_of_le : ∀ i, n ≤ i → weight i = 0

namespace Weights

/-- The first `n` terms of a sequence. -/
def ofFun (n : ℕ) (f : ℕ → ℤ) : Weights where
  n := n
  weight i := if i < n then f i else 0
  zero_of_le _ h := if_neg (by omega)

@[simp] theorem ofFun_n (n : ℕ) (f : ℕ → ℤ) : (ofFun n f).n = n := rfl

theorem ofFun_weight (n : ℕ) (f : ℕ → ℤ) (i : ℕ) :
    (ofFun n f).weight i = if i < n then f i else 0 := rfl

/-- What an operation is for. -/
def apply (a : Weights) : Op → Weights
  | .setWeight index weight => ofFun a.n (Function.update a.weight index weight)
  | .setAllWeights weight => ofFun a.n fun _ ↦ weight
  | .setWeightsFromArray N weights => ofFun N weights
  | .append weight => ofFun (a.n + 1) (Function.update a.weight a.n weight)
  | .resize newSize => ofFun newSize a.weight

/-- What a sequence of operations is for, from `N` elements of weight one on. -/
def ofRun (N : ℕ) (ops : List (Op × Levels)) : Weights :=
  ops.foldl (fun a op ↦ a.apply op.1) (ofFun N fun _ ↦ 1)

/-- No weight is negative and the total fits in an `int32`. -/
structure Fits (a : Weights) : Prop where
  nonneg : ∀ i, 0 ≤ a.weight i
  total_lt : prefixSum a.weight a.n < 2 ^ 31

/-- What the header of the class requires of an operation: an index in range, and weights that are
not negative and whose total fits. -/
def Valid (a : Weights) (op : Op) : Prop :=
  (∀ index weight, op = .setWeight index weight → index < a.n) ∧ (a.apply op).Fits

variable {a : Weights}

/-- Setting an element leaves nothing beyond the elements. -/
theorem apply_setWeight_weight {index : ℕ} (h : index < a.n) (x : ℤ) :
    (a.apply (.setWeight index x)).weight = Function.update a.weight index x := by
  funext i
  by_cases hi : i < a.n
  · exact if_pos hi
  · rw [update_of_ne (by omega), a.zero_of_le i (by omega)]
    exact if_neg hi

/-- Resizing keeps the weights that are not dropped. -/
theorem apply_resize_weight (m i : ℕ) :
    (a.apply (.resize m)).weight i = if i < m then a.weight i else 0 := rfl

/-- Appending is what the code makes it: one more element, then its weight. -/
theorem apply_append (x : ℤ) :
    a.apply (.append x) = (a.apply (.resize (a.n + 1))).apply (.setWeight a.n x) := by
  have hweight : (a.apply (.resize (a.n + 1))).weight = a.weight := funext fun i ↦ by
    have hz := a.zero_of_le i
    rw [apply_resize_weight]
    split_ifs <;> omega
  rw [apply, apply, hweight]
  rfl

namespace Fits

variable (ha : a.Fits)
include ha

theorem blockSum_lt (k i : ℕ) : blockSum a.weight k i < 2 ^ 31 :=
  (blockSum_le_of_zero ha.nonneg a.zero_of_le k i).trans_lt ha.total_lt

theorem weight_lt (i : ℕ) : a.weight i < 2 ^ 31 := by
  simpa using ha.blockSum_lt 0 i

/-- Making weights smaller keeps them in range. -/
theorem of_le {b : Weights} (hn : b.n = a.n) (h0 : ∀ i, 0 ≤ b.weight i)
    (hle : ∀ i, b.weight i ≤ a.weight i) : b.Fits where
  nonneg := h0
  total_lt := hn ▸ (Finset.sum_le_sum fun i _ ↦ hle i).trans_lt ha.total_lt

end Fits

/-- Elements of weight one fit as long as their number does. -/
theorem fits_ones {n : ℕ} (h : n < 2 ^ 31) : (ofFun n fun _ ↦ 1).Fits where
  nonneg i := by
    rw [ofFun_weight]
    split_ifs <;> omega
  total_lt := by
    have hsum : prefixSum (ofFun n fun _ ↦ 1).weight n = n := by
      have hone : ∀ i ∈ Finset.range n, (ofFun n fun _ ↦ 1).weight i = 1 :=
        fun i hi ↦ if_pos (Finset.mem_range.mp hi)
      rw [prefixSum, Finset.sum_congr rfl hone]
      simp
    rw [ofFun_n, hsum]
    exact_mod_cast h

end Weights

/-! ### A tree and the weights it holds -/

/-- The tree holds the weights: each node the sum over the block of leaves below it. -/
structure Represents (p : Picker) (a : Weights) : Prop where
  n_eq : p.n = a.n
  numLevels_pos : 0 < p.numLevels
  numLevels_le : p.numLevels ≤ 31
  n_le : a.n ≤ 2 ^ (p.numLevels - 1)
  node : ∀ l < p.numLevels, ∀ i < 2 ^ l, p.level l i = blockSum a.weight (p.numLevels - 1 - l) i

namespace Represents

variable {p : Picker} {a : Weights} (h : Represents p a)
include h

theorem levelSize_eq : levelSize (p.numLevels - 1) = some (2 ^ (p.numLevels - 1)) :=
  levelSize_of_lt (by have := h.numLevels_le; have := h.numLevels_pos; omega)

theorem getWeight_eq {i : ℕ} (hi : i < 2 ^ (p.numLevels - 1)) : p.getWeight i = a.weight i := by
  have hpos := h.numLevels_pos
  rw [Picker.getWeight, h.node _ (by omega) i hi, Nat.sub_self, blockSum_zero]

theorem totalWeight_eq : p.totalWeight = prefixSum a.weight a.n := by
  rw [Picker.totalWeight, h.node 0 h.numLevels_pos 0 (by simp), blockSum_root]
  -- Beyond the elements there is nothing to add.
  exact (Finset.sum_subset (Finset.range_mono h.n_le) fun i _ hi ↦
    a.zero_of_le i (by simpa using hi)).symm

end Represents

/-- Summing up from the leaves towards the root. -/
theorem rebuildBelow_eq {a : Weights} (ha : a.Fits) (K : ℕ) : ∀ (L : ℕ) (level : Levels), L ≤ K →
    (∀ l, L ≤ l → l ≤ K → ∀ i < 2 ^ l, level l i = blockSum a.weight (K - l) i) →
    ∀ l ≤ K, ∀ i < 2 ^ l, Picker.rebuildBelow L level l i = blockSum a.weight (K - l) i
  | 0, level, _, h => fun l hl i hi ↦ h l (Nat.zero_le l) hl i hi
  | L + 1, level, hL, h => by
    refine rebuildBelow_eq ha K L _ (by omega) fun l hl hlK i hi ↦ ?_
    rcases Nat.eq_or_lt_of_le hl with rfl | hlt
    · have hk : K - L = K - (L + 1) + 1 := by omega
      have hpow : 2 ^ (L + 1) = 2 * 2 ^ L := pow_succ' 2 L
      rw [update_self, if_pos hi, h _ le_rfl hL _ (by omega), h _ le_rfl hL _ (by omega),
        ← blockSum_succ, ← hk]
      have h0 := blockSum_nonneg ha.nonneg (K - L) i
      exact int32_eq (by omega) (ha.blockSum_lt _ _)
    · rw [update_of_ne (by omega)]
      exact h l hlt hlK i hi

theorem represents_rebuildTreeWeights (ha : a.Fits) (hn : p.n = a.n) (hpos : 0 < p.numLevels)
    (hle : p.numLevels ≤ 31) (hfit : a.n ≤ 2 ^ (p.numLevels - 1))
    (hleaf : ∀ i < 2 ^ (p.numLevels - 1), p.getWeight i = a.weight i) :
    Represents p.rebuildTreeWeights a where
  n_eq := hn
  numLevels_pos := hpos
  numLevels_le := hle
  n_le := hfit
  node l hl i hi := by
    refine rebuildBelow_eq ha _ _ p.level le_rfl ?_ l (Nat.le_sub_one_of_lt hl) i hi
    rintro l hl hlK i hi
    obtain rfl := le_antisymm hlK hl
    rw [Nat.sub_self, blockSum_zero]
    exact hleaf i hi

/-- The bulk operations, on a tree whatever it holds. -/
theorem represents_initializeLeaves {f : ℕ → ℤ} (ha : (Weights.ofFun p.n f).Fits)
    (hpos : 0 < p.numLevels) (hle : p.numLevels ≤ 31) (hfit : p.n ≤ 2 ^ (p.numLevels - 1)) :
    Represents (p.initializeLeaves f).rebuildTreeWeights (Weights.ofFun p.n f) := by
  refine represents_rebuildTreeWeights ha rfl hpos hle hfit fun i hi ↦ ?_
  rw [Picker.initializeLeaves, Picker.getWeight_storeLeaves, Weights.ofFun_weight]
  exact if_congr Iff.rfl rfl (if_pos hi)

/-! ### The constructor -/

theorem findLevels_of_lt {N : ℤ} {level : ℕ} (h : level < 31) :
    Picker.findLevels N level =
      if 2 ^ level < N then Picker.findLevels N (level + 1) else some (level + 1) := by
  rw [Picker.findLevels]
  split
  next hnone => simp [levelSize_of_lt h] at hnone
  next size hsize =>
    obtain rfl : 2 ^ level = size := some.inj ((levelSize_of_lt h).symm.trans hsize)
    rfl

theorem findLevels_of_le {N : ℤ} (hN : N ≤ 2 ^ 30) (level : ℕ) (hlevel : level ≤ 30) :
    ∃ L, Picker.findLevels N level = some L ∧ 0 < L ∧ L ≤ 31 ∧ N ≤ 2 ^ (L - 1) := by
  induction hk : 30 - level generalizing level with
  | zero =>
    obtain rfl : level = 30 := by omega
    refine ⟨31, ?_, by omega, le_rfl, hN⟩
    rw [findLevels_of_lt (by omega), if_neg (by omega)]
  | succ k ih =>
    rw [findLevels_of_lt (by omega)]
    by_cases h : 2 ^ level < N
    · rw [if_pos h]
      exact ih (level + 1) (by omega) (by omega)
    · rw [if_neg h]
      exact ⟨level + 1, rfl, by omega, by omega, not_lt.mp h⟩

/-- Beyond `2 ^ 30` elements no level is large enough before the shift runs out of places. -/
theorem findLevels_of_gt {N : ℤ} (hN : 2 ^ 30 < N) (level : ℕ) (hlevel : level ≤ 31) :
    Picker.findLevels N level = none := by
  induction hk : 31 - level generalizing level with
  | zero =>
    obtain rfl : level = 31 := by omega
    -- The size of level 31 is negative, and that of level 32 is undefined.
    have h32 : Picker.findLevels N 32 = none := by
      rw [Picker.findLevels]
      rfl
    rw [Picker.findLevels]
    exact (if_pos (by omega)).trans h32
  | succ k ih =>
    have hle : (2 : ℤ) ^ level ≤ 2 ^ 30 := pow_le_pow_right₀ (by omega) (by omega)
    rw [findLevels_of_lt (by omega), if_pos (by omega)]
    exact ih (level + 1) (by omega) (by omega)

theorem exists_new (heap : Levels) {N : ℕ} (hN : N ≤ 2 ^ 30) :
    ∃ p, Picker.new heap N = some p ∧ Represents p (Weights.ofFun N fun _ ↦ 1) := by
  obtain ⟨L, hL, hpos, hle, hfit⟩ := findLevels_of_le (N := N) (by exact_mod_cast hN) 0 (by omega)
  refine ⟨_, by rw [Picker.new, if_neg (by omega), hL]; rfl, ?_⟩
  refine represents_initializeLeaves (p := ⟨(N : ℤ).toNat, L, heap⟩) ?_ hpos hle ?_
  · exact Weights.fits_ones (by simp; omega)
  · exact_mod_cast hfit

theorem new_of_gt {heap : Levels} {N : ℤ} (hN : 2 ^ 30 < N) : Picker.new heap N = none := by
  rw [Picker.new, if_neg (by omega), findLevels_of_gt hN 0 (by omega)]
  rfl

/-! ### Changing one weight -/

/-- Every node between a level and the root that lies above the index gets the difference. -/
theorem addUpward_apply (delta : ℤ) : ∀ (L index : ℕ) (level : Levels) (l i : ℕ),
    Picker.addUpward delta L index level l i =
      if l < L ∧ index / 2 ^ (L - 1 - l) = i then int32 (level l i + delta) else level l i
  | 0, _, _, _, _ => rfl
  | L + 1, index, level, l, i => by
    rw [Picker.addUpward, addUpward_apply delta L, Levels.store]
    rcases Nat.lt_trichotomy l L with hlt | rfl | hgt
    · have hk : L + 1 - 1 - l = L - 1 - l + 1 := by omega
      rw [update_of_ne hlt.ne, hk, pow_succ', ← Nat.div_div_eq_div_mul]
      exact if_congr (by simp [hlt, Nat.lt_succ_of_lt hlt]) rfl rfl
    · rw [if_neg (by simp), update_self]
      rcases eq_or_ne i index with rfl | hi
      · rw [update_self, if_pos (by simp)]
      · rw [update_of_ne hi, if_neg (by simp [hi.symm])]
    · rw [if_neg (by omega), if_neg (by omega), update_of_ne hgt.ne']

/-- A weight is added along the path from its leaf to the root. -/
theorem exists_setWeight (h : Represents p a) (ha : a.Fits) {index : ℕ} (hindex : index < a.n)
    {x : ℤ} (ha' : (a.apply (.setWeight index x)).Fits) :
    ∃ q, p.setWeight index x = some q ∧ Represents q (a.apply (.setWeight index x)) := by
  have hw := Weights.apply_setWeight_weight hindex x
  have hold := h.getWeight_eq (hindex.trans_le h.n_le)
  have hdelta : int32 (x - p.getWeight index) = x - a.weight index := by
    have hx0 := ha'.nonneg index
    have hx := ha'.weight_lt index
    rw [hw, update_self] at hx0 hx
    have h0 := ha.nonneg index
    have hlt := ha.weight_lt index
    rw [hold]
    exact int32_eq (by omega) (by omega)
  refine ⟨_, if_pos (h.n_eq ▸ hindex), h.n_eq, h.numLevels_pos, h.numLevels_le, h.n_le,
    fun l (hl : l < p.numLevels) i hi ↦ ?_⟩
  change Picker.addUpward _ p.numLevels index p.level l i = blockSum _ (p.numLevels - 1 - l) i
  rw [addUpward_apply, hdelta, h.node l hl i hi, hw, blockSum_update]
  -- The new sum is in range, whatever the difference is.
  have h0 := blockSum_nonneg ha'.nonneg (p.numLevels - 1 - l) i
  have hlt := ha'.blockSum_lt (p.numLevels - 1 - l) i
  rw [hw, blockSum_update] at h0 hlt
  by_cases hcov : index / 2 ^ (p.numLevels - 1 - l) = i
  · rw [if_pos hcov] at h0 hlt
    rw [if_pos ⟨hl, hcov⟩, if_pos hcov]
    exact int32_eq (by omega) hlt
  · rw [if_neg (fun hand ↦ hcov hand.2), if_neg hcov, add_zero]

theorem numLevels_of_setWeight {p q : Picker} {index : ℕ} {x : ℤ}
    (h : p.setWeight index x = some q) : q.numLevels = p.numLevels := by
  obtain ⟨-, hq⟩ := ite_none_right_eq_some.mp h
  cases hq
  rfl

/-! ### Resizing -/

theorem exists_zeroWeights : ∀ (is : List ℕ) {p : Picker} {a : Weights}, Represents p a → a.Fits →
    (∀ i ∈ is, i < a.n) → ∃ q b, Picker.zeroWeights is p = some q ∧ q.numLevels = p.numLevels ∧
      Represents q b ∧ b.n = a.n ∧ ∀ i, b.weight i = if i ∈ is then 0 else a.weight i
  | [], p, a, h, _, _ => ⟨p, a, rfl, rfl, h, rfl, fun _ ↦ by simp⟩
  | i :: is, p, a, h, ha, his => by
    have hi := his i List.mem_cons_self
    have hw := Weights.apply_setWeight_weight hi 0
    have ha' : (a.apply (.setWeight i 0)).Fits := by
      refine ha.of_le rfl (fun j ↦ ?_) fun j ↦ ?_
      all_goals
        have h0 := ha.nonneg j
        rw [hw, update_apply]
        split_ifs <;> omega
    obtain ⟨q, hq, hrep⟩ := exists_setWeight h ha hi ha'
    obtain ⟨r, b, hr, hlevels, hrepb, hn, hb⟩ :=
      exists_zeroWeights is hrep ha' fun j hj ↦ his j (List.mem_cons_of_mem i hj)
    refine ⟨r, b, by rw [Picker.zeroWeights, hq]; exact hr,
      hlevels.trans (numLevels_of_setWeight hq), hrepb, hn, fun j ↦ ?_⟩
    rw [hb, hw, update_apply]
    rcases eq_or_ne j i with rfl | hne
    · simp
    · simp [hne]

/-- A resize that stays in the levels: the weights that are dropped are zeroed first. -/
theorem exists_resize_within (h : Represents p a) (ha : a.Fits) {m : ℕ}
    (hm : m ≤ 2 ^ (p.numLevels - 1)) (heap : Levels) :
    ∃ q, p.resize heap m = some q ∧ Represents q (a.apply (.resize m)) := by
  have hsize : (m : ℤ) ≤ 2 ^ (p.numLevels - 1) := by exact_mod_cast hm
  obtain ⟨q, b, hq, hlevels, hrep, -, hb⟩ :=
    exists_zeroWeights (List.range' m (p.n - m)) h ha fun i hi ↦ by
      have hi := List.mem_range'_1.mp hi
      have := h.n_eq
      omega
  have hweight : b.weight = (a.apply (.resize m)).weight := funext fun i ↦ by
    have hmem : i ∈ List.range' m (p.n - m) ↔ m ≤ i ∧ i < m + (a.n - m) := by
      rw [List.mem_range'_1, h.n_eq]
    rw [hb, Weights.apply_resize_weight, if_congr hmem rfl rfl]
    have hz := a.zero_of_le i
    split_ifs
    all_goals first | rfl | omega
  refine ⟨{ q with n := m }, ?_, rfl, hrep.numLevels_pos, hrep.numLevels_le, ?_, hweight ▸
    hrep.node⟩
  · rw [Picker.resize, if_neg (by omega), h.levelSize_eq, bind_some, if_pos hsize,
      Int.toNat_natCast, hq]
    rfl
  · rw [hlevels]
    exact hm

/-- A resize that needs more levels: the old leaves are copied into a new tree. -/
theorem exists_resize_beyond (h : Represents p a) {m : ℕ} (hm : 2 ^ (p.numLevels - 1) < m)
    (hm' : m ≤ 2 ^ 30) (ha' : (a.apply (.resize m)).Fits) (heap : Levels) :
    ∃ q, p.resize heap m = some q ∧ Represents q (a.apply (.resize m)) := by
  have hsize : (2 : ℤ) ^ (p.numLevels - 1) < m := by exact_mod_cast hm
  obtain ⟨new, hnew, hrep⟩ := exists_new heap hm'
  have hn : p.n < m := h.n_eq ▸ h.n_le.trans_lt hm
  refine ⟨_, by rw [Picker.resize, if_neg (by omega), h.levelSize_eq, bind_some, if_neg (by omega),
    if_neg (by omega), hnew, map_some], ?_⟩
  refine represents_rebuildTreeWeights ha' hrep.n_eq hrep.numLevels_pos hrep.numLevels_le hrep.n_le
    fun i hi ↦ ?_
  rw [Picker.getWeight_storeLeaves, Int.toNat_natCast, Weights.apply_resize_weight]
  by_cases hin : i < p.n
  · rw [if_pos hin, if_pos (hin.trans hn), h.getWeight_eq (hin.trans_le (h.n_eq ▸ h.n_le))]
  · rw [if_neg hin, hrep.getWeight_eq hi, Weights.ofFun_weight,
      a.zero_of_le i (h.n_eq ▸ not_lt.mp hin)]
    split_ifs <;> rfl

/-! ### Runs -/

/-- The number of elements that the operation asks for is within the levels that there can be. -/
def Weights.Within (a : Weights) (op : Op) : Prop := (a.apply op).n ≤ 2 ^ 30

theorem exists_resize (h : Represents p a) (ha : a.Fits) {m : ℕ} (hm : m ≤ 2 ^ 30)
    (ha' : (a.apply (.resize m)).Fits) (heap : Levels) :
    ∃ q, p.resize heap m = some q ∧ Represents q (a.apply (.resize m)) := by
  rcases Nat.lt_or_ge (2 ^ (p.numLevels - 1)) m with hlt | hle
  · exact exists_resize_beyond h hlt hm ha' heap
  · exact exists_resize_within h ha hle heap

theorem resize_of_gt (h : Represents p a) {m : ℕ} (hm : 2 ^ 30 < m) (heap : Levels) :
    p.resize heap m = none := by
  have hcap : (2 : ℤ) ^ (p.numLevels - 1) ≤ 2 ^ 30 :=
    pow_le_pow_right₀ (by omega) (by have := h.numLevels_le; omega)
  have hn : (p.n : ℤ) ≤ 2 ^ (p.numLevels - 1) := by exact_mod_cast h.n_eq ▸ h.n_le
  rw [Picker.resize, if_neg (by omega), h.levelSize_eq, bind_some, if_neg (by omega),
    if_neg (by omega), new_of_gt (by omega)]
  rfl

/-- Dropping the weights that are overwritten keeps the rest in range. -/
theorem Weights.Fits.resize (ha : a.Fits) (m : ℕ) : (a.apply (.resize m)).Fits := by
  have hle : ∀ i, (a.apply (.resize m)).weight i ≤ a.weight i := fun i ↦ by
    rw [apply_resize_weight]
    split_ifs
    exacts [le_rfl, ha.nonneg i]
  refine ⟨fun i ↦ ?_, ?_⟩
  · rw [apply_resize_weight]
    split_ifs
    exacts [ha.nonneg i, le_rfl]
  · calc prefixSum (a.apply (.resize m)).weight m ≤ prefixSum a.weight m :=
        Finset.sum_le_sum fun i _ ↦ hle i
      _ ≤ prefixSum a.weight a.n := prefixSum_le_of_zero ha.nonneg a.zero_of_le m
      _ < 2 ^ 31 := ha.total_lt

/-- One operation does on the tree what it is for on the weights. -/
theorem exists_step (h : Represents p a) (ha : a.Fits) {op : Op} (hvalid : a.Valid op)
    (hwithin : a.Within op) (heap : Levels) :
    ∃ q, step p (op, heap) = some q ∧ Represents q (a.apply op) := by
  obtain ⟨hindex, ha'⟩ := hvalid
  cases op with
  | setWeight index x => exact exists_setWeight h ha (hindex index x rfl) ha'
  | setAllWeights x =>
    have hn : p.n ≤ 2 ^ (p.numLevels - 1) := h.n_eq ▸ h.n_le
    refine ⟨_, rfl, ?_⟩
    rw [Weights.apply, ← h.n_eq] at ha' ⊢
    exact represents_initializeLeaves ha' h.numLevels_pos h.numLevels_le hn
  | setWeightsFromArray N weights =>
    have hN : N ≤ 2 ^ 30 := hwithin
    obtain ⟨q, hq, hrep⟩ := exists_resize h ha hN (ha.resize N) heap
    have hn : q.n = N := hrep.n_eq
    subst hn
    refine ⟨_, by rw [step, Picker.setWeightsFromArray, hq, map_some], ?_⟩
    exact represents_initializeLeaves ha' hrep.numLevels_pos hrep.numLevels_le hrep.n_le
  | append x =>
    have hn : a.n + 1 ≤ 2 ^ 30 := hwithin
    obtain ⟨q, hq, hrep⟩ := exists_resize h ha hn (ha.resize (a.n + 1)) heap
    rw [Weights.apply_append] at ha' ⊢
    have hlast : q.n - 1 = a.n := by simp [hrep.n_eq, Weights.apply]
    have hsize : (p.n : ℤ) + 1 = ↑(a.n + 1) := by simp [h.n_eq]
    rw [step, Picker.append, hsize, hq, bind_some, hlast]
    exact exists_setWeight hrep (ha.resize _) (Nat.lt_succ_self a.n) ha'
  | resize m => exact exists_resize h ha hwithin ha' heap

/-- An operation that asks for more elements than the levels can have does not end. -/
theorem step_of_not_within (h : Represents p a) {op : Op} (hop : ¬ a.Within op) (heap : Levels) :
    step p (op, heap) = none := by
  have hgt : 2 ^ 30 < (a.apply op).n := not_le.mp hop
  have hn : a.n ≤ 2 ^ 30 :=
    h.n_le.trans (Nat.pow_le_pow_right (by omega) (by have := h.numLevels_le; omega))
  cases op with
  | setWeight index x => exact absurd hgt hn.not_gt
  | setAllWeights x => exact absurd hgt hn.not_gt
  | setWeightsFromArray N weights =>
    rw [step, Picker.setWeightsFromArray, resize_of_gt (m := N) h hgt heap]
    rfl
  | append x =>
    have hsize : (p.n : ℤ) + 1 = ↑(a.n + 1) := by simp [h.n_eq]
    rw [step, Picker.append, hsize, resize_of_gt (m := a.n + 1) h hgt heap]
    rfl
  | resize m => exact resize_of_gt h hgt heap

/-- The operations on the weights alone, as steps that are always taken. -/
def specStep (a : Weights) (op : Op × Levels) : Option Weights := some (a.apply op.1)

/-- Each operation meets what the header requires, on the weights that the ones before it leave. -/
def ValidRun (N : ℕ) (ops : List (Op × Levels)) : Prop :=
  (Weights.ofFun N fun _ ↦ 1).Fits ∧
    GuardedRun.Along specStep (fun a op ↦ a.Valid op.1) (Weights.ofFun N fun _ ↦ 1) ops

/-- No size that is asked for is above `2 ^ 30`. -/
def WithinRun (N : ℕ) (ops : List (Op × Levels)) : Prop :=
  N ≤ 2 ^ 30 ∧ GuardedRun.Along specStep (fun a op ↦ a.Within op.1) (Weights.ofFun N fun _ ↦ 1) ops

theorem exists_run (ha : a.Fits) {ops : List (Op × Levels)}
    (hvalid : GuardedRun.Along specStep (fun a op ↦ a.Valid op.1) a ops) (h : Represents p a) :
    (GuardedRun.Along specStep (fun a op ↦ a.Within op.1) a ops → ∃ q,
      GuardedRun.run step p ops = some q ∧ Represents q (ops.foldl (fun a op ↦ a.apply op.1) a)) ∧
    (¬ GuardedRun.Along specStep (fun a op ↦ a.Within op.1) a ops →
      GuardedRun.run step p ops = none) := by
  induction ops generalizing p a with
  | nil => exact ⟨fun _ ↦ ⟨p, rfl, h⟩, fun hnot ↦ absurd (GuardedRun.along_nil a) hnot⟩
  | cons op ops ih =>
    rw [GuardedRun.along_cons_of_step (show specStep a op =
      some (a.apply op.1) from rfl)] at hvalid ⊢
    obtain ⟨hop, hvalid⟩ := hvalid
    by_cases hwithin : a.Within op.1
    · obtain ⟨q, hq, hrep⟩ := exists_step h ha hop hwithin op.2
      have hrun : GuardedRun.run step p (op :: ops) = GuardedRun.run step q ops := by
        rw [GuardedRun.run_cons, hq, bind_some]
      rw [hrun, List.foldl_cons]
      obtain ⟨hin, hout⟩ := ih hop.2 hvalid hrep
      exact ⟨fun hall ↦ hin hall.2, fun hnot ↦ hout fun hall ↦ hnot ⟨hwithin, hall⟩⟩
    · refine ⟨fun hall ↦ absurd hall.1 hwithin, fun _ ↦ ?_⟩
      rw [GuardedRun.run_cons, step_of_not_within h hwithin op.2]
      rfl

/-! ### Picking -/

/-- Going down keeps the position among the prefix sums. -/
theorem descend_spec (h : Represents p a) (ha : a.Fits) (l index : ℕ) (position : ℤ)
    (hl : l < p.numLevels) (hindex : index < 2 ^ l) (h0 : 0 ≤ position)
    (hlt : position < blockSum a.weight (p.numLevels - 1 - l) index) :
    (p.descend (l + 1) index position).1 < 2 ^ (p.numLevels - 1) ∧
    0 ≤ (p.descend (l + 1) index position).2 ∧
    (p.descend (l + 1) index position).2 < a.weight (p.descend (l + 1) index position).1 ∧
    prefixSum a.weight (p.descend (l + 1) index position).1 + (p.descend (l + 1) index position).2 =
      prefixSum a.weight (index * 2 ^ (p.numLevels - 1 - l)) + position := by
  induction hk : p.numLevels - 1 - l generalizing l index position with
  | zero =>
    rw [hk, blockSum_zero] at hlt
    have hlast : l = p.numLevels - 1 := by omega
    rw [Picker.descend, if_neg (by omega), ← hlast]
    exact ⟨hindex, h0, hlt, by simp⟩
  | succ k ih =>
    have hk' : p.numLevels - 1 - (l + 1) = k := by omega
    have hpow : 2 ^ (l + 1) = 2 * 2 ^ l := pow_succ' 2 l
    rw [hk, blockSum_succ] at hlt
    rw [Picker.descend, if_pos (by omega), h.node (l + 1) (by omega) _ (by omega), hk']
    by_cases hleft : position < blockSum a.weight k (2 * index)
    · rw [if_pos hleft, ← prefixSum_left]
      exact ih (l + 1) (2 * index) position (by omega) (by omega) h0 (by rwa [hk']) hk'
    · have hnonneg := blockSum_nonneg ha.nonneg k (2 * index)
      have hbound := ha.blockSum_lt k (2 * index + 1)
      have hint : int32 (position - blockSum a.weight k (2 * index)) =
          position - blockSum a.weight k (2 * index) := int32_eq (by omega) (by omega)
      obtain ⟨h1, h2, h3, h4⟩ := ih (l + 1) (2 * index + 1)
        (position - blockSum a.weight k (2 * index)) (by omega) (by omega) (by omega)
        (by rw [hk']; omega) hk'
      rw [if_neg hleft, hint]
      refine ⟨h1, h2, h3, h4.trans ?_⟩
      rw [prefixSum_right]
      omega

/-- What is asked of a picker: each inner node is the sum of its children, the leaves beyond the
elements are zero, and every position is looked up among the prefix sums. -/
structure PicksByPrefixSums (p : Picker) : Prop where
  sum : ∀ l, l + 1 < p.numLevels → ∀ i < 2 ^ l,
    p.level l i = p.level (l + 1) (2 * i) + p.level (l + 1) (2 * i + 1)
  zero : ∀ i, p.n ≤ i → i < 2 ^ (p.numLevels - 1) → p.getWeight i = 0
  total : p.totalWeight = prefixSum p.getWeight p.n
  pick : ∀ v : ℤ, ∃ r, p.pickAt v = some r ∧ (r = -1 ↔ v < 0 ∨ p.totalWeight ≤ v) ∧
    (r ≠ -1 → ∃ i < p.n, r = i ∧ p.getWeight i ≠ 0 ∧
      prefixSum p.getWeight i ≤ v ∧ v < prefixSum p.getWeight (i + 1) ∧
      ∀ j < p.n, prefixSum p.getWeight j ≤ v → v < prefixSum p.getWeight (j + 1) → j = i)

namespace Represents

variable {p : Picker} {a : Weights} (h : Represents p a)
include h

/-- The prefix sums of the leaves, up to the last element. -/
theorem prefixSum_eq {m : ℕ} (hm : m ≤ p.n) : prefixSum p.getWeight m = prefixSum a.weight m :=
  Finset.sum_congr rfl fun i hi ↦ h.getWeight_eq <| by
    have hi := Finset.mem_range.mp hi
    have := h.n_eq
    have := h.n_le
    omega

/-- A position in range is looked up in the element whose weight covers it. -/
theorem pickAt_of_lt (ha : a.Fits) {v : ℤ} (h0 : 0 ≤ v) (hv : v < p.totalWeight) :
    ∃ i < p.n, p.pickAt v = some (i : ℤ) ∧ a.weight i ≠ 0 ∧
      prefixSum a.weight i ≤ v ∧ v < prefixSum a.weight (i + 1) := by
  have hroot : v < blockSum a.weight (p.numLevels - 1 - 0) 0 := by
    rwa [← h.node 0 h.numLevels_pos 0 (by simp)]
  have hspec := descend_spec h ha 0 0 v h.numLevels_pos (by simp) h0 hroot
  rw [Nat.zero_add, Nat.zero_mul, prefixSum_zero, zero_add] at hspec
  obtain ⟨h1, h2, h3, h4⟩ := hspec
  have hn : (p.descend 1 0 v).1 < p.n := by
    by_contra hge
    have := a.zero_of_le _ (h.n_eq ▸ not_lt.mp hge)
    omega
  refine ⟨(p.descend 1 0 v).1, hn, ?_, by omega, by omega, ?_⟩
  · have hleaf := h.getWeight_eq h1
    rw [Picker.getWeight] at hleaf
    rw [Picker.pickAt, if_neg (by omega)]
    exact if_pos ⟨hn, by rw [hleaf]; exact h3.le⟩
  · rw [prefixSum_succ]
    omega

/-- Going down the tree compares the number with the sum of the left subtree. -/
theorem picksByPrefixSums (ha : a.Fits) : PicksByPrefixSums p where
  sum l hl i hi := by
    have hpow : 2 ^ (l + 1) = 2 * 2 ^ l := pow_succ' 2 l
    have hk : p.numLevels - 1 - l = p.numLevels - 1 - (l + 1) + 1 := by omega
    rw [h.node l (by omega) i hi, h.node (l + 1) hl _ (by omega), h.node (l + 1) hl _ (by omega),
      hk, blockSum_succ]
  zero i hi hi' := by
    rw [h.getWeight_eq hi', a.zero_of_le i (h.n_eq ▸ hi)]
  total := by
    rw [h.totalWeight_eq, h.prefixSum_eq le_rfl, h.n_eq]
  pick v := by
    by_cases hout : v < 0 ∨ p.totalWeight ≤ v
    · exact ⟨-1, if_pos hout, ⟨fun _ ↦ hout, fun _ ↦ rfl⟩, fun hne ↦ absurd rfl hne⟩
    · obtain ⟨i, hi, hpick, hne, hle, hlt⟩ := h.pickAt_of_lt ha (v := v) (by omega) (by omega)
      have hiw : p.getWeight i = a.weight i := h.getWeight_eq (by
        have := h.n_eq
        have := h.n_le
        omega)
      refine ⟨i, hpick, ⟨fun hneg ↦ by omega, fun hin ↦ absurd hin hout⟩,
        fun _ ↦ ⟨i, hi, rfl, ?_, ?_⟩⟩
      · rwa [hiw]
      · rw [h.prefixSum_eq hi.le, h.prefixSum_eq hi]
        refine ⟨hle, hlt, fun j hj hj1 hj2 ↦ ?_⟩
        rw [h.prefixSum_eq hj.le] at hj1
        rw [h.prefixSum_eq hj] at hj2
        exact prefixSum_unique ha.nonneg hj1 hj2 hle hlt

end Represents

/-- The run ends in a picker that holds the weights that the operations are for and picks by
them. -/
def RunPicks (heap : Levels) (N : ℕ) (ops : List (Op × Levels)) : Prop :=
  ∃ p, run heap N ops = some p ∧ p.n = (Weights.ofRun N ops).n ∧
    (∀ i < p.n, p.getWeight i = (Weights.ofRun N ops).weight i) ∧ PicksByPrefixSums p

/-- The weights stay in range in a run that meets the requirements. -/
theorem fits_of_valid (ha : a.Fits) {ops : List (Op × Levels)}
    (hvalid : GuardedRun.Along specStep (fun a op ↦ a.Valid op.1) a ops) :
    (ops.foldl (fun a op ↦ a.apply op.1) a).Fits := by
  induction ops generalizing a with
  | nil => exact ha
  | cons op ops ih => exact ih hvalid.1.2 (hvalid.2 _ rfl)

/-- **Picking by prefix sums**, after any history that asks for no more than `2 ^ 30` elements. -/
theorem runPicks_iff (heap : Levels) (N : ℕ) (ops : List (Op × Levels)) (hvalid : ValidRun N ops) :
    RunPicks heap N ops ↔ WithinRun N ops := by
  obtain ⟨hones, hvalid⟩ := hvalid
  by_cases hN : N ≤ 2 ^ 30
  · obtain ⟨p, hp, hrep⟩ := exists_new heap hN
    have hrun : run heap N ops = GuardedRun.run step p ops := by rw [run, hp, bind_some]
    obtain ⟨hin, hout⟩ := exists_run hones hvalid hrep
    refine ⟨fun ⟨q, hq, _⟩ ↦ ⟨hN, ?_⟩, fun hwithin ↦ ?_⟩
    · by_contra hnot
      rw [hrun, hout hnot] at hq
      exact nomatch hq
    · obtain ⟨q, hq, hrepq⟩ := hin hwithin.2
      refine ⟨q, hrun.trans hq, hrepq.n_eq, fun i hi ↦ hrepq.getWeight_eq ?_,
        hrepq.picksByPrefixSums (fits_of_valid hones hvalid)⟩
      exact hi.trans_le (hrepq.n_eq ▸ hrepq.n_le)
  · refine ⟨fun ⟨q, hq, _⟩ ↦ ?_, fun hwithin ↦ absurd hwithin.1 hN⟩
    rw [run, new_of_gt (by exact_mod_cast not_le.mp hN)] at hq
    exact nomatch hq

/-- Three elements, of which the second gets weight five. -/
theorem runPicks_three : RunPicks (fun _ _ ↦ 7) 3 [(.setWeight 1 5, fun _ _ ↦ 0)] := by
  have hfits : ((Weights.ofFun 3 fun _ ↦ 1).apply (.setWeight 1 5)).Fits := by
    refine ⟨fun i ↦ ?_, by decide⟩
    rw [Weights.apply, Weights.ofFun_weight, update_apply, Weights.ofFun_weight]
    split_ifs <;> omega
  have hindex : ∀ index x, Op.setWeight 1 5 = .setWeight index x → index < 3 := by
    rintro index x ⟨⟩
    decide
  have hwithin : (Weights.ofFun 3 fun _ ↦ 1).Within (.setWeight 1 5) := Nat.le_of_ble_eq_true rfl
  have hvalid : ValidRun 3 [(.setWeight 1 5, fun _ _ ↦ 0)] :=
    ⟨Weights.fits_ones (by omega), ⟨hindex, hfits⟩, fun _ _ ↦ trivial⟩
  exact (runPicks_iff _ 3 _ hvalid).mpr ⟨by omega, hwithin, fun _ _ ↦ trivial⟩

/-- One element more than `2 ^ 30`, all of weight one: the constructor has no number of levels. -/
theorem not_runPicks_large :
    ValidRun (2 ^ 30 + 1) [] ∧ ¬ RunPicks (fun _ _ ↦ 0) (2 ^ 30 + 1) [] := by
  refine ⟨⟨Weights.fits_ones (by omega), trivial⟩, fun ⟨p, hp, _⟩ ↦ ?_⟩
  rw [run, new_of_gt (by omega)] at hp
  exact nomatch hp

end TensorFlowCore.WeightedPicker
