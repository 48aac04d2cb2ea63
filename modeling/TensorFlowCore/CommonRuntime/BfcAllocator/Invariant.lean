import TensorFlowCore.CommonRuntime.BfcAllocator.Regions
import TensorFlowCore.Support.DoublyLinked
import TensorFlowCore.Support.Tiling

/-!
# The invariant of the chunk structure

The chunks of a region are one doubly linked list. `rows` names these lists, by the address of the
region, and `free` is the list of recycled handles; both are ghosts that the code does not have.
`Core a rows free` says how the state of the allocator spells them out, in parts that each look at
few fields of a chunk:

* `Geometry`: each row tiles its region and is doubly linked;
* `HandlesOk`: `handles_` maps chunk addresses to chunks;
* `BinsOk`: each bin is sorted and holds the chunks that say they are in it;
* `Accounts`: the sizes of the regions add up to what `Extend` has counted.

`Core` holds between any two steps of an operation, so it does not ask that free chunks be in a bin
or that free neighbours be merged; `Rest` adds this for the states between calls.

`HandlesOk.complete` is conditional on the memory limit: beyond `2 ^ 39` bytes the entries of two
chunks of one region can be the same. Everything else holds at any size.
-/

namespace TensorFlowCore.BfcAllocator

open AllocationRegion DoublyLinked Function List Tiling

/-- The chunks of all regions. -/
def live (regions : List AllocationRegion) (rows : ℕ → List ChunkHandle) : List ChunkHandle :=
  regions.flatMap fun r ↦ rows r.ptr

/-- Each row tiles its region and is doubly linked. -/
structure Geometry (regions : List AllocationRegion) (rows : ℕ → List ChunkHandle)
    (chunks : ChunkHandle → Chunk) : Prop where
  sorted : SortedRegions regions
  inSpace : ∀ r ∈ regions, r.InSpace
  tiles : ∀ r ∈ regions, Tiles kMinAllocationSize (Chunk.ptr ∘ chunks) (Chunk.size ∘ chunks)
    r.ptr (rows r.ptr) (r.ptr + r.memorySize)
  linked : ∀ r ∈ regions, Linked (Chunk.next ∘ chunks) (Chunk.prev ∘ chunks) (rows r.ptr)

/-- `handles_` maps chunk addresses to chunks. -/
structure HandlesOk (bounded : Prop) (regions : List AllocationRegion)
    (rows : ℕ → List ChunkHandle) (ptr : ChunkHandle → ℕ) : Prop where
  sound : ∀ r ∈ regions, ∀ i h, r.handles i = some h → h ∈ rows r.ptr ∧ r.slot (ptr h) = .ok i
  complete : bounded → ∀ r ∈ regions, ∀ h ∈ rows r.ptr,
    ∃ i, r.slot (ptr h) = .ok i ∧ r.handles i = some h

/-- The bins hold the chunks that say they are in them, in order. -/
structure BinsOk (chunks : ChunkHandle → Chunk) (bins : ℕ → List ChunkHandle) : Prop where
  sorted : ∀ k, (bins k).Pairwise (ChunkLt chunks)
  mem : ∀ k h, h ∈ bins k ↔ (chunks h).binNum = some k
  binned : ∀ h k, (chunks h).binNum = some k →
    ¬ (chunks h).InUse ∧ k = binNumForSize (chunks h).size

/-- What a chunk adds to `stats_.bytes_in_use`. -/
def usedSize (c : Chunk) : ℤ := if c.InUse then c.size else 0

variable {sub : SubAllocator}

/-- The counters of `Extend`, and the memory that the regions lie in. -/
structure Accounts (a : BFCAllocator sub) : Prop where
  granted : ∀ r ∈ a.regions, ∃ n, (r.ptr, n) ∈ sub.granted a.suballocator ∧ r.memorySize ≤ n
  total : a.totalRegionAllocatedBytes = (a.regions.map (·.memorySize)).sum
  total_le : a.totalRegionAllocatedBytes ≤ a.memoryLimit
  limit_lt : a.memoryLimit < 2 ^ 64
  curr_lt : a.currRegionAllocationBytes < 2 ^ 64
  curr_dvd : kMinAllocationSize ∣ a.currRegionAllocationBytes

/-- The memory limit up to which every index into `handles_` is an `int`. -/
def Bounded (a : BFCAllocator sub) : Prop := a.memoryLimit < 2 ^ 39

/-- The state spells out the rows and the recycled handles. -/
structure Core (a : BFCAllocator sub) (rows : ℕ → List ChunkHandle) (free : List ChunkHandle) :
    Prop where
  geometry : Geometry a.regions rows a.chunks
  handles : HandlesOk (Bounded a) a.regions rows (Chunk.ptr ∘ a.chunks)
  recycled : Follows (Chunk.next ∘ a.chunks) a.freeChunksList free
  /-- Every handle is in exactly one row or recycled, exactly once. -/
  perm : (live a.regions rows ++ free).Perm (List.range a.chunksSize)
  idle : ∀ h, h ∉ live a.regions rows → ¬ (a.chunks h).InUse ∧ (a.chunks h).binNum = none
  bins : BinsOk a.chunks a.bins
  accounts : Accounts a
  id_pos : 0 < a.nextAllocationId
  bytesInUse : a.stats.bytesInUse = ∑ h ∈ Finset.range a.chunksSize, usedSize (a.chunks h)

/-! ### Rows -/

section Rows

variable {regions : List AllocationRegion} {rows : ℕ → List ChunkHandle} {r : AllocationRegion}

theorem mem_live : h ∈ live regions rows ↔ ∃ r ∈ regions, h ∈ rows r.ptr :=
  mem_flatMap

@[simp] theorem live_map_setEntry (base i : ℕ) (h : Option ChunkHandle) :
    live (regions.map (setEntry base i h)) rows = live regions rows := by
  simp [live, flatMap_map]

variable (hs : SortedRegions regions) (hin : ∀ r ∈ regions, r.InSpace) (hr : r ∈ regions)
include hs hin hr

/-- Replacing the row of one region leaves the other rows, `rest`, as they are. -/
theorem exists_rest (rows : ℕ → List ChunkHandle) :
    ∃ rest, (∀ row, (live regions (Function.update rows r.ptr row)).Perm (row ++ rest)) ∧
      ∀ r' ∈ regions, r'.ptr ≠ r.ptr → ∀ h ∈ rows r'.ptr, h ∈ rest := by
  obtain ⟨rs₁, rs₂, rfl⟩ := append_of_mem hr
  have hne : ∀ r' ∈ rs₁ ++ rs₂, r'.ptr ≠ r.ptr := by
    intro r' hr' heq
    have hnodup : (rs₁ ++ r :: rs₂).Nodup := by
      refine Pairwise.imp_of_mem (fun {r₁ r₂} h₁ h₂ hle heq ↦ ?_) hs
      have := (hin r₁ h₁).size_pos
      rw [heq] at hle this
      omega
    have hmem : r' ∈ rs₁ ++ r :: rs₂ := by
      rcases mem_append.1 hr' with h | h <;> simp [h]
    obtain rfl := hs.ptr_inj hin hmem hr heq
    rw [nodup_middle] at hnodup
    exact (nodup_cons.1 hnodup).1 hr'
  have hcongr : ∀ rs : List AllocationRegion, (∀ r' ∈ rs, r' ∈ rs₁ ++ rs₂) → ∀ row,
      (rs.flatMap fun r' ↦ update rows r.ptr row r'.ptr) =
        rs.flatMap fun r' ↦ rows r'.ptr := fun rs h row ↦
    flatMap_congr fun r' hr' ↦ update_of_ne (hne r' (h r' hr')) _ _
  refine ⟨rs₁.flatMap (fun r' ↦ rows r'.ptr) ++ rs₂.flatMap (fun r' ↦ rows r'.ptr),
    fun row ↦ ?_, fun r' hr' hne' h hh ↦ ?_⟩
  · rw [live, flatMap_append, flatMap_cons, update_self, hcongr rs₁ (fun _ h ↦ mem_append_left _ h),
      hcongr rs₂ fun _ h ↦ mem_append_right _ h]
    rw [← append_assoc, ← append_assoc]
    exact Perm.append_right _ perm_append_comm
  · rw [← flatMap_append]
    refine mem_flatMap.2 ⟨r', ?_, hh⟩
    have hmem := hr'
    rw [mem_append, mem_cons] at hmem
    rcases hmem with h | rfl | h
    · exact mem_append_left _ h
    · exact absurd rfl hne'
    · exact mem_append_right _ h

/-- A row that gains a chunk. -/
theorem live_update_perm {row : List ChunkHandle} (hrow : row.Perm (h :: rows r.ptr)) :
    (live regions (Function.update rows r.ptr row)).Perm (h :: live regions rows) := by
  obtain ⟨rest, hrest, -⟩ := exists_rest hs hin hr rows
  have hold := hrest (rows r.ptr)
  rw [update_eq_self] at hold
  exact (hrest row).trans ((hrow.append_right rest).trans (hold.symm.cons h))

/-- A row that loses a chunk. -/
theorem live_perm_update {row : List ChunkHandle} (hrow : (rows r.ptr).Perm (h :: row)) :
    (live regions rows).Perm (h :: live regions (Function.update rows r.ptr row)) := by
  obtain ⟨rest, hrest, -⟩ := exists_rest hs hin hr rows
  have hold := hrest (rows r.ptr)
  rw [update_eq_self] at hold
  exact hold.trans ((hrow.append_right rest).trans ((hrest row).symm.cons h))

end Rows

theorem Accounts.map_setEntry {a a' : BFCAllocator sub} (ha : Accounts a) {base i : ℕ}
    {h : Option ChunkHandle} (hregions : a'.regions = a.regions.map (setEntry base i h))
    (hsub : a'.suballocator = a.suballocator) (hlimit : a'.memoryLimit = a.memoryLimit)
    (htotal : a'.totalRegionAllocatedBytes = a.totalRegionAllocatedBytes)
    (hcurr : a'.currRegionAllocationBytes = a.currRegionAllocationBytes) : Accounts a' := by
  refine ⟨fun r₀ hr₀ ↦ ?_, ?_, ?_, hlimit ▸ ha.limit_lt, hcurr ▸ ha.curr_lt, hcurr ▸ ha.curr_dvd⟩
  · rw [hregions] at hr₀
    obtain ⟨r, hr, rfl⟩ := mem_map.1 hr₀
    obtain ⟨n, hn, hle⟩ := ha.granted r hr
    rw [setEntry_ptr, setEntry_memorySize, hsub]
    exact ⟨n, hn, hle⟩
  · rw [htotal, ha.total, hregions, map_map]
    simp [comp_def]
  · rw [htotal, hlimit]
    exact ha.total_le

/-! ### Consequences -/

namespace Core

variable {a : BFCAllocator sub} {rows : ℕ → List ChunkHandle} {free : List ChunkHandle}

variable (hc : Core a rows free)
include hc

theorem nodup : (live a.regions rows ++ free).Nodup :=
  hc.perm.nodup_iff.2 nodup_range

/-- Chunks of different regions are disjoint, and so are chunks of one region. -/
theorem disjoint {h h' : ChunkHandle} (hh : h ∈ live a.regions rows)
    (hh' : h' ∈ live a.regions rows) (hne : h ≠ h') :
    (a.chunks h).ptr + (a.chunks h).size ≤ (a.chunks h').ptr ∨
      (a.chunks h').ptr + (a.chunks h').size ≤ (a.chunks h).ptr := by
  obtain ⟨r, hr, hrow⟩ := mem_live.1 hh
  obtain ⟨r', hr', hrow'⟩ := mem_live.1 hh'
  have htiles := hc.geometry.tiles r hr
  by_cases heq : r = r'
  · subst heq
    exact htiles.disjoint hrow hrow' hne
  · have hsymm : Std.Symm fun r r' : AllocationRegion ↦
        r.ptr + r.memorySize ≤ r'.ptr ∨ r'.ptr + r'.memorySize ≤ r.ptr := ⟨fun _ _ ↦ Or.symm⟩
    have hpair : a.regions.Pairwise fun r r' ↦
        r.ptr + r.memorySize ≤ r'.ptr ∨ r'.ptr + r'.memorySize ≤ r.ptr :=
      Pairwise.imp Or.inl hc.geometry.sorted
    have hb := htiles.bounds hrow
    have hb' := (hc.geometry.tiles r' hr').bounds hrow'
    simp only [comp_apply] at hb hb'
    rcases hpair.forall hr hr' heq with hle | hle
    · left
      omega
    · right
      omega

theorem size_pos (hh : h ∈ live a.regions rows) : 0 < (a.chunks h).size := by
  obtain ⟨r, hr, hrow⟩ := mem_live.1 hh
  exact ((hc.geometry.tiles r hr).bounds hrow).2.2.2.1

theorem contains (hr : r ∈ a.regions) (hh : h ∈ rows r.ptr) : r.Contains (a.chunks h).ptr := by
  obtain ⟨h₁, h₂, -, h₃, -⟩ := (hc.geometry.tiles r hr).bounds hh
  simp only [comp_apply] at h₁ h₂ h₃
  exact ⟨h₁, by omega⟩

theorem ptr_inj {h h' : ChunkHandle} (hh : h ∈ live a.regions rows) (hh' : h' ∈ live a.regions rows)
    (heq : (a.chunks h).ptr = (a.chunks h').ptr) : h = h' := by
  by_contra hne
  have := hc.size_pos hh
  have := hc.size_pos hh'
  rcases hc.disjoint hh hh' hne with hle | hle <;> omega

theorem lt_chunksSize (hh : h ∈ live a.regions rows) : h < a.chunksSize :=
  mem_range.1 (hc.perm.mem_iff.1 (mem_append_left _ hh))

theorem live_of_binned {k : ℕ} (hk : (a.chunks h).binNum = some k) : h ∈ live a.regions rows := by
  by_contra hh
  rw [(hc.idle h hh).2] at hk
  cases hk

theorem memorySize_le (hr : r ∈ a.regions) : r.memorySize ≤ a.totalRegionAllocatedBytes := by
  rw [hc.accounts.total]
  exact single_le_sum (by simp) _ (mem_map_of_mem hr)

theorem dvd_memorySize (hr : r ∈ a.regions) : kMinAllocationSize ∣ r.memorySize := by
  simpa using (hc.geometry.tiles r hr).dvd_sub

theorem memorySize_le_of_bounded (hb : Bounded a) (hr : r ∈ a.regions) : r.memorySize ≤ 2 ^ 39 := by
  have h₁ := hc.memorySize_le hr
  have h₂ := hc.accounts.total_le
  obtain ⟨k, hk⟩ := hc.dvd_memorySize hr
  rw [Bounded] at hb
  rw [kMinAllocationSize] at hk
  omega

/-- Within the memory limit, the entry of an address of a region is the one its offset asks for. -/
theorem slot_eq (hb : Bounded a) (hr : r ∈ a.regions) {p : ℕ} (hp : r.Contains p) :
    r.slot p = .ok ((p - r.ptr) / 256) :=
  slot_of_size_le (hc.geometry.inSpace r hr) (hc.memorySize_le_of_bounded hb hr) hp

/-- Two chunks whose addresses are a multiple of the grain apart have different entries. -/
theorem slot_inj (hb : Bounded a) (hr : r ∈ a.regions) {p p' i : ℕ} (hp : r.Contains p)
    (hp' : r.Contains p') (hdvd : kMinAllocationSize ∣ p - r.ptr)
    (hdvd' : kMinAllocationSize ∣ p' - r.ptr) (hi : r.slot p = .ok i) (hi' : r.slot p' = .ok i) :
    p = p' := by
  rw [hc.slot_eq hb hr hp] at hi
  rw [hc.slot_eq hb hr hp'] at hi'
  have h₁ := Except.ok.inj hi
  have h₂ := Except.ok.inj hi'
  obtain ⟨k, hk⟩ := hdvd
  obtain ⟨k', hk'⟩ := hdvd'
  have := hp.1
  have := hp'.1
  rw [kMinAllocationSize] at hk hk'
  omega

theorem row_length_le (hr : r ∈ a.regions) : 256 * (rows r.ptr).length ≤ r.memorySize := by
  have := (hc.geometry.tiles r hr).length_le
  rw [kMinAllocationSize] at this
  omega

theorem sum_rows_le {rs : List AllocationRegion} (hrs : ∀ r ∈ rs, r ∈ a.regions) :
    256 * (live rs rows).length ≤ (rs.map (·.memorySize)).sum := by
  induction rs with
  | nil => simp [live]
  | cons r rs ih =>
    have hr := hc.row_length_le (hrs r mem_cons_self)
    have hrest := ih fun r' hr' ↦ hrs r' (mem_cons_of_mem _ hr')
    rw [live, flatMap_cons, length_append, map_cons, sum_cons]
    rw [live] at hrest
    omega

/-- Every chunk takes at least 256 bytes of the regions. -/
theorem length_live_le : 256 * (live a.regions rows).length ≤ a.totalRegionAllocatedBytes := by
  rw [hc.accounts.total]
  exact hc.sum_rows_le fun _ hr ↦ hr

/-- Where a chunk can be cut, there is room for one more. -/
theorem length_live_lt (hr : r ∈ a.regions) (hh : h ∈ rows r.ptr)
    (hsize : 512 ≤ (a.chunks h).size) :
    256 * ((live a.regions rows).length + 1) ≤ a.totalRegionAllocatedBytes := by
  have hlt := (hc.geometry.tiles r hr).length_lt hh hsize
  obtain ⟨rs₁, rs₂, heq⟩ := append_of_mem hr
  have h₁ := hc.sum_rows_le (show ∀ r' ∈ rs₁, r' ∈ a.regions from fun r' hr' ↦ by simp [heq, hr'])
  have h₂ := hc.sum_rows_le (show ∀ r' ∈ rs₂, r' ∈ a.regions from fun r' hr' ↦ by simp [heq, hr'])
  rw [hc.accounts.total, heq, live, flatMap_append, flatMap_cons, length_append, length_append,
    map_append, map_cons, sum_append, sum_cons]
  rw [live] at h₁ h₂
  rw [kMinAllocationSize] at hlt
  omega

/-- Within the memory limit, a handle that is not recycled is an `int`. -/
theorem room (hb : Bounded a) (hfree : free = []) {n : ℕ}
    (hn : 256 * ((live a.regions rows).length + 1) ≤ n) (hle : n ≤ a.memoryLimit) :
    a.chunksSize + 1 < 2 ^ 31 := by
  have hlen := hc.perm.length_eq
  rw [hfree, append_nil, length_range] at hlen
  rw [Bounded] at hb
  omega

end Core

end TensorFlowCore.BfcAllocator
