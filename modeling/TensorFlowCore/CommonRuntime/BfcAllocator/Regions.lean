import TensorFlowCore.CommonRuntime.BfcAllocator.Model
import TensorFlowCore.Support.ExceptPost

/-!
# Sizes and regions

What the arithmetic of the allocator computes when nothing wraps around, and what the region manager
does on a list of regions that is sorted and in the address space: `set_handle` and `get_handle` go
to the region that contains the address, and a new region that is disjoint from the others keeps the
list sorted.

`slot_of_size_le` is where the cast to `int` in `IndexFor` matters: only in a region of at most
`2 ^ 39` bytes is the entry of an address always the one its offset asks for.
-/

namespace TensorFlowCore.BfcAllocator

open List

variable {n : ℕ}

/-! ### Sizes -/

theorem sizeT_of_lt (h : n < 2 ^ 64) : sizeT n = n := Nat.mod_eq_of_lt h

theorem subSizeT_of_le {a b : ℕ} (h : b ≤ a) (ha : a < 2 ^ 64) : subSizeT a b = a - b := by
  rw [subSizeT]
  omega

theorem dvd_roundedBytes (n : ℕ) : kMinAllocationSize ∣ roundedBytes n := by
  simp only [roundedBytes, sizeT, kMinAllocationSize]
  omega

theorem roundedBytes_of_le (h : n ≤ 2 ^ 64 - 256) : roundedBytes n = 256 * ((n + 255) / 256) := by
  simp only [roundedBytes, sizeT, kMinAllocationSize]
  omega

theorem le_roundedBytes (h : n ≤ 2 ^ 64 - 256) : n ≤ roundedBytes n := by
  rw [roundedBytes_of_le h]
  omega

theorem roundedBytes_pos (hpos : 0 < n) (h : n ≤ 2 ^ 64 - 256) : 0 < roundedBytes n :=
  hpos.trans_le (le_roundedBytes h)

theorem roundedBytes_le {n b : ℕ} (h : n ≤ b) (hb : b < 2 ^ 64) (hdvd : kMinAllocationSize ∣ b) :
    roundedBytes n ≤ b := by
  obtain ⟨k, rfl⟩ := hdvd
  simp only [roundedBytes, sizeT, kMinAllocationSize] at *
  omega

theorem roundedBytes_lt (n : ℕ) : roundedBytes n < 2 ^ 64 := Nat.mod_lt _ (by norm_num)

theorem binNumForSize_lt (n : ℕ) : binNumForSize n < kNumBins := by
  simp only [binNumForSize, kNumBins]
  omega

/-! ### The back-pedal factor -/

/-- Rounding to 24 bits adds one part in `2 ^ 24` at most. -/
theorem roundToFloat_bounds (n : ℕ) : n / 2 ≤ roundToFloat n ∧ roundToFloat n ≤ n + n / 2 ^ 24 := by
  simp only [roundToFloat]
  set e := n.log2 - 23 with he
  have hdm := Nat.div_add_mod n (2 ^ e)
  have hlt := Nat.mod_lt n (Nat.two_pow_pos e)
  rcases Nat.eq_zero_or_pos e with h0 | hpos
  · have hone : 2 ^ e = 1 := by rw [h0, Nat.pow_zero]
    rw [hone] at hdm hlt ⊢
    have hr : n % 1 = 0 := Nat.mod_one n
    have hcond : ¬ (1 < 2 * (n % 1) ∨ 1 = 2 * (n % 1) ∧ n / 1 % 2 = 1) := by omega
    rw [if_neg hcond, Nat.div_one, Nat.mul_one]
    omega
  · -- A number that is rounded has a bit above the 24 that are kept.
    have hne : n ≠ 0 := by
      rintro rfl
      simp at he
      omega
    have hn : 2 ^ (e + 23) ≤ n := by
      have := Nat.log2_self_le hne
      rwa [show n.log2 = e + 23 by omega] at this
    obtain ⟨d, hd⟩ : ∃ d, e = d + 1 := ⟨e - 1, by omega⟩
    have h2 : 2 ^ e = 2 * 2 ^ d := by rw [hd, Nat.pow_succ, Nat.mul_comm]
    have h23 : 2 ^ (e + 23) = 2 ^ 24 * 2 ^ d := by
      rw [hd, ← Nat.pow_add]
      congr 1
      omega
    rw [h23] at hn
    have hdiv : 2 ^ d ≤ n / 2 ^ 24 := (Nat.le_div_iff_mul_le (by norm_num)).2 (by linarith)
    rw [h2] at hdm hlt ⊢
    split_ifs with hc
    · have hr : 2 ^ d ≤ n % (2 * 2 ^ d) := by omega
      rw [Nat.add_mul, Nat.mul_comm]
      omega
    · rw [Nat.mul_comm]
      omega

theorem scaleByBackpedalFactor_le (n : ℕ) : scaleByBackpedalFactor n ≤ n := by
  have h₁ := (roundToFloat_bounds n).2
  have h₂ := (roundToFloat_bounds (roundToFloat n * 15099494)).2
  rw [scaleByBackpedalFactor]
  omega

theorem scaleByBackpedalFactor_pos (h : 256 ≤ n) : 0 < scaleByBackpedalFactor n := by
  have h₁ := (roundToFloat_bounds n).1
  have h₂ := (roundToFloat_bounds (roundToFloat n * 15099494)).1
  rw [scaleByBackpedalFactor]
  omega

/-! ### Regions -/

namespace AllocationRegion

/-- The region is a non-empty range of the address space, no larger than an object can be. -/
structure InSpace (r : AllocationRegion) : Prop where
  ptr_pos : 0 < r.ptr
  size_pos : 0 < r.memorySize
  size_lt : r.memorySize < 2 ^ 63
  end_lt : r.ptr + r.memorySize < 2 ^ 64

/-- `p` is an address of the region. -/
def Contains (r : AllocationRegion) (p : ℕ) : Prop := r.ptr ≤ p ∧ p < r.ptr + r.memorySize

/-- The region at `base` with entry `i` of `handles_` overwritten; other regions are left alone. -/
def setEntry (base i : ℕ) (h : Option ChunkHandle) (r : AllocationRegion) : AllocationRegion :=
  if r.ptr = base then { r with handles := Function.update r.handles i h } else r

variable {r : AllocationRegion} {base i : ℕ} {h : Option ChunkHandle}

@[simp] theorem setEntry_ptr : (setEntry base i h r).ptr = r.ptr := by
  rw [setEntry]
  split <;> rfl

@[simp] theorem setEntry_memorySize : (setEntry base i h r).memorySize = r.memorySize := by
  rw [setEntry]
  split <;> rfl

@[simp] theorem slot_setEntry (p : ℕ) : (setEntry base i h r).slot p = r.slot p := by
  unfold slot
  rw [setEntry]
  split <;> rfl

theorem setEntry_of_ne (hr : r.ptr ≠ base) : setEntry base i h r = r := if_neg hr

theorem setEntry_self : (setEntry r.ptr i h r).handles = Function.update r.handles i h := by
  simp [setEntry]

theorem InSpace.endPtr (hr : r.InSpace) : r.endPtr = r.ptr + r.memorySize := by
  rw [AllocationRegion.endPtr, sizeT_of_lt hr.end_lt]

/-- The cast to `int` of a value that is one. -/
theorem int_of_lt (h : n < 2 ^ 31) : Int.bmod (n : ℤ) (2 ^ 32) = n := by
  refine Int.bmod_eq_of_le ?_ ?_ <;> norm_num
  exact h

theorem slot_of_size_le (hr : r.InSpace) (hsize : r.memorySize ≤ 2 ^ 39) {p : ℕ}
    (hp : r.Contains p) : r.slot p = .ok ((p - r.ptr) / 256) := by
  have hend := hr.end_lt
  obtain ⟨hp₁, hp₂⟩ := hp
  have hsub : subSizeT p r.ptr = p - r.ptr := subSizeT_of_le hp₁ (by omega)
  have hidx : r.indexFor p = ((p - r.ptr) / 256 : ℕ) := by
    unfold indexFor kMinAllocationSize
    rw [hsub]
    apply int_of_lt
    omega
  have hn : r.nHandles = (r.memorySize + 255) / 256 := by
    rw [nHandles, kMinAllocationSize, sizeT_of_lt (by omega)]
    rfl
  unfold slot
  rw [hidx, if_pos, Int.toNat_natCast]
  rw [hn]
  omega

end AllocationRegion

open AllocationRegion ExceptPost

/-- The regions are in order of address and do not overlap. -/
def SortedRegions (regions : List AllocationRegion) : Prop :=
  regions.Pairwise fun r r' ↦ r.ptr + r.memorySize ≤ r'.ptr

variable {regions : List AllocationRegion} {r : AllocationRegion} {p : ℕ}

/-- The address of a region identifies it. -/
theorem SortedRegions.ptr_inj (hs : SortedRegions regions) (hin : ∀ r ∈ regions, r.InSpace)
    {r' : AllocationRegion} (hr : r ∈ regions) (hr' : r' ∈ regions) (h : r.ptr = r'.ptr) :
    r = r' := by
  by_contra hne
  have hsymm : Std.Symm fun r r' : AllocationRegion ↦
      r.ptr + r.memorySize ≤ r'.ptr ∨ r'.ptr + r'.memorySize ≤ r.ptr := ⟨fun _ _ ↦ Or.symm⟩
  have hpair : regions.Pairwise fun r r' ↦
      r.ptr + r.memorySize ≤ r'.ptr ∨ r'.ptr + r'.memorySize ≤ r.ptr := Pairwise.imp Or.inl hs
  have := (hin r hr).size_pos
  have := (hin r' hr').size_pos
  rcases hpair.forall hr hr' hne with h' | h' <;> omega

theorem SortedRegions.map_setEntry (hs : SortedRegions regions) (base i : ℕ)
    (h : Option ChunkHandle) : SortedRegions (regions.map (setEntry base i h)) := by
  rw [SortedRegions, pairwise_map]
  simpa [SortedRegions] using hs

/-- Before the region that contains `p`, no region ends after `p`. -/
theorem not_lt_endPtr_of_sorted {r' : AllocationRegion} (hin' : r'.InSpace) (hp : r.Contains p)
    (h : r'.ptr + r'.memorySize ≤ r.ptr) : ¬ p < r'.endPtr := by
  rw [hin'.endPtr]
  have := hp.1
  omega

theorem getHandle_eq (hs : SortedRegions regions) (hin : ∀ r ∈ regions, r.InSpace)
    (hr : r ∈ regions) (hp : r.Contains p) : getHandle p regions = (r.slot p).map r.handles := by
  induction regions with
  | nil => simp at hr
  | cons r' rs ih =>
    obtain ⟨hr', hs'⟩ := pairwise_cons.1 hs
    rcases mem_cons.1 hr with rfl | hr
    · have : p < r.endPtr := (hin r mem_cons_self).endPtr ▸ hp.2
      simp only [getHandle, this, if_true]
    · have := not_lt_endPtr_of_sorted (hin r' mem_cons_self) hp (hr' r hr)
      simp only [getHandle, this, if_false]
      exact ih hs' (fun r hr ↦ hin r (mem_cons_of_mem _ hr)) hr

theorem exists_of_getHandle {h : ChunkHandle} (hget : getHandle p regions = .ok (some h)) :
    ∃ r ∈ regions, ∃ i, r.handles i = some h := by
  induction regions with
  | nil => cases hget
  | cons r rs ih =>
    by_cases hp : p < r.endPtr
    · simp only [getHandle, hp, if_true] at hget
      generalize r.slot p = s at hget
      cases s with
      | error e => cases hget
      | ok i => exact ⟨r, mem_cons_self, i, Except.ok.inj hget⟩
    · simp only [getHandle, hp, if_false] at hget
      obtain ⟨r', hr', hi⟩ := ih hget
      exact ⟨r', mem_cons_of_mem _ hr', hi⟩

/-- Of several regions the binary search finds the one that contains the pointer. -/
theorem setHandle_eq (hs : SortedRegions regions) (hin : ∀ r ∈ regions, r.InSpace)
    (hr : r ∈ regions) (hp : r.Contains p) (h : Option ChunkHandle) :
    setHandle p h regions = (r.slot p).map fun i ↦ regions.map (setEntry r.ptr i h) := by
  induction regions with
  | nil => simp at hr
  | cons r' rs ih =>
    obtain ⟨hr', hs'⟩ := pairwise_cons.1 hs
    rcases mem_cons.1 hr with rfl | hr
    · have hlt : p < r.endPtr := (hin r mem_cons_self).endPtr ▸ hp.2
      have hrest : ∀ i, rs.map (setEntry r.ptr i h) = rs := by
        intro i
        conv_rhs => rw [← map_id rs]
        refine map_congr_left fun r' hmem ↦ setEntry_of_ne ?_
        have := hr' r' hmem
        have := (hin r mem_cons_self).size_pos
        omega
      simp only [setHandle, hlt, if_true, map_cons, hrest]
      simp [setEntry]
    · have hlt := not_lt_endPtr_of_sorted (hin r' mem_cons_self) hp (hr' r hr)
      have hne : r'.ptr ≠ r.ptr := by
        have := hr' r hr
        have := (hin r' mem_cons_self).size_pos
        omega
      simp only [setHandle, hlt, if_false, map_cons, setEntry_of_ne hne]
      rw [ih hs' (fun r hr ↦ hin r (mem_cons_of_mem _ hr)) hr]
      cases r.slot p <;> rfl

theorem addAllocationRegion_perm (ptr memorySize : ℕ) (regions : List AllocationRegion) :
    (addAllocationRegion ptr memorySize regions).Perm (.new ptr memorySize :: regions) := by
  induction regions with
  | nil => exact Perm.refl _
  | cons r rs ih =>
    rw [addAllocationRegion]
    split
    · exact Perm.refl _
    · exact (ih.cons r).trans (Perm.swap _ _ _)

/-- A region that is disjoint from all others is added in order. -/
theorem SortedRegions.addAllocationRegion {ptr memorySize : ℕ} (hs : SortedRegions regions)
    (hin : ∀ r ∈ regions, r.InSpace)
    (hdisj : ∀ r ∈ regions, ptr + memorySize ≤ r.ptr ∨ r.ptr + r.memorySize ≤ ptr) :
    SortedRegions (addAllocationRegion ptr memorySize regions) := by
  induction regions with
  | nil => exact pairwise_singleton _ _
  | cons r rs ih =>
    obtain ⟨hr, hs'⟩ := pairwise_cons.1 hs
    have hrin := hin r mem_cons_self
    rw [BfcAllocator.addAllocationRegion]
    split
    · rename_i hlt
      rw [hrin.endPtr] at hlt
      have hle := (hdisj r mem_cons_self).resolve_right (by omega)
      refine pairwise_cons.2 ⟨fun r' hr' ↦ ?_, hs⟩
      rcases mem_cons.1 hr' with rfl | hr'
      · exact hle
      · have := hr r' hr'
        change ptr + memorySize ≤ r'.ptr
        omega
    · rename_i hlt
      rw [hrin.endPtr] at hlt
      refine pairwise_cons.2 ⟨fun r' hr' ↦ ?_,
        ih hs' (fun r hr ↦ hin r (mem_cons_of_mem _ hr))
          fun r hr ↦ hdisj r (mem_cons_of_mem _ hr)⟩
      rcases mem_cons.1 ((addAllocationRegion_perm _ _ _).mem_iff.1 hr') with rfl | hr'
      · change r.ptr + r.memorySize ≤ ptr
        omega
      · exact hr r' hr'

end TensorFlowCore.BfcAllocator
