import TensorFlowCore.CommonRuntime.BfcAllocator.Invariant

/-!
# Edits of the chunk structure

One lemma for each kind of write: a chunk enters or leaves a bin, a chunk is handed out or taken
back, a chunk is cut in two, two chunks are joined, a region is added. Each says that `Core` holds
again, with what rows, and what becomes of `allocIds` and `binNums`, which decide whether a chunk is
in use and where it is filed. Nothing else about a chunk is needed to follow an operation.

A failure is `Excused` when it is not fatal or the memory limit is beyond `Bounded`.
-/

namespace TensorFlowCore.BfcAllocator

open AllocationRegion DoublyLinked ExceptPost Function Tiling

variable {sub : SubAllocator}

/-- The allocation ids, `-1` for a chunk that is not in use. -/
def allocIds (a : BFCAllocator sub) : ChunkHandle → ℤ := Chunk.allocationId ∘ a.chunks

/-- The bins that the chunks say they are in. -/
def binNums (a : BFCAllocator sub) : ChunkHandle → Option ℕ := Chunk.binNum ∘ a.chunks

/-- A failure that the invariant does not rule out. -/
def Excused (a : BFCAllocator sub) (e : Failure) : Prop := e = .fatal → ¬ Bounded a

/-- The two states differ at most in ids, requested sizes, bins and statistics. -/
structure SameShape (a a' : BFCAllocator sub) : Prop where
  regions : a'.regions = a.regions
  suballocator : a'.suballocator = a.suballocator
  memoryLimit : a'.memoryLimit = a.memoryLimit
  curr : a'.currRegionAllocationBytes = a.currRegionAllocationBytes
  total : a'.totalRegionAllocatedBytes = a.totalRegionAllocatedBytes
  chunksSize : a'.chunksSize = a.chunksSize
  freeChunksList : a'.freeChunksList = a.freeChunksList
  ptr : Chunk.ptr ∘ a'.chunks = Chunk.ptr ∘ a.chunks
  size : Chunk.size ∘ a'.chunks = Chunk.size ∘ a.chunks
  next : Chunk.next ∘ a'.chunks = Chunk.next ∘ a.chunks
  prev : Chunk.prev ∘ a'.chunks = Chunk.prev ∘ a.chunks

theorem check_of {p : Prop} [Decidable p] (hp : p) : check p = .ok () := if_pos hp

/-- A write to a chunk that keeps a field keeps that field of all chunks. -/
theorem comp_update_self {β : Type*} {π : Chunk → β} {c : ChunkHandle → Chunk} {h : ChunkHandle}
    {x : Chunk} (hx : π x = π (c h)) : π ∘ Function.update c h x = π ∘ c := by
  rw [comp_update, hx]
  exact update_eq_self h (π ∘ c)

theorem chunkLt_congr {c c' : ChunkHandle → Chunk} {h h' : ChunkHandle}
    (hs : (c' h).size = (c h).size) (hs' : (c' h').size = (c h').size) (hp : (c' h).ptr = (c h).ptr)
    (hp' : (c' h').ptr = (c h').ptr) : ChunkLt c' h h' ↔ ChunkLt c h h' := by
  rw [ChunkLt, ChunkLt, hs, hs', hp, hp']

instance (c : ChunkHandle → Chunk) : IsStrictOrder ChunkHandle (ChunkLt c) where
  irrefl h := by simp [ChunkLt]
  trans h₁ h₂ h₃ := by
    simp only [ChunkLt]
    split_ifs <;> omega

/-! ### Parts -/

section Parts

variable {regions : List AllocationRegion} {rows : ℕ → List ChunkHandle} {r : AllocationRegion}
  {chunks chunks' : ChunkHandle → Chunk} {bins : ℕ → List ChunkHandle}

/-- The fields that `Geometry` reads are the same. -/
structure SameLinks (c c' : Chunk) : Prop where
  ptr : c'.ptr = c.ptr
  size : c'.size = c.size
  next : c'.next = c.next
  prev : c'.prev = c.prev

theorem Tiles.of_sameLinks {p q : ℕ}
    (h : Tiles kMinAllocationSize (Chunk.ptr ∘ chunks) (Chunk.size ∘ chunks) p row q)
    (hsame : ∀ x ∈ row, SameLinks (chunks x) (chunks' x)) :
    Tiles kMinAllocationSize (Chunk.ptr ∘ chunks') (Chunk.size ∘ chunks') p row q :=
  h.congr (fun x hx ↦ (hsame x hx).ptr) fun x hx ↦ (hsame x hx).size

theorem Linked.of_sameLinks (h : Linked (Chunk.next ∘ chunks) (Chunk.prev ∘ chunks) row)
    (hsame : ∀ x ∈ row, SameLinks (chunks x) (chunks' x)) :
    Linked (Chunk.next ∘ chunks') (Chunk.prev ∘ chunks') row :=
  h.congr (fun x hx ↦ (hsame x hx).next) fun x hx ↦ (hsame x hx).prev

/-- Replace the row of one region. -/
theorem Geometry.edit (hg : Geometry regions rows chunks) {i : ℕ} {h : Option ChunkHandle}
    (hother : ∀ r' ∈ regions, r'.ptr ≠ r.ptr → ∀ x ∈ rows r'.ptr, SameLinks (chunks x) (chunks' x))
    (htiles : Tiles kMinAllocationSize (Chunk.ptr ∘ chunks') (Chunk.size ∘ chunks') r.ptr row
      (r.ptr + r.memorySize)) (hlinked : Linked (Chunk.next ∘ chunks') (Chunk.prev ∘ chunks') row)
    (hr : r ∈ regions) :
    Geometry (regions.map (setEntry r.ptr i h)) (Function.update rows r.ptr row) chunks' := by
  have hrow : ∀ r' ∈ regions, (r'.ptr = r.ptr → r' = r) := fun r' hr' ↦
    hg.sorted.ptr_inj hg.inSpace hr' hr
  refine ⟨hg.sorted.map_setEntry _ _ _, fun r₀ hr₀ ↦ ?_, fun r₀ hr₀ ↦ ?_, fun r₀ hr₀ ↦ ?_⟩
  · obtain ⟨r', hr', rfl⟩ := List.mem_map.1 hr₀
    have := hg.inSpace r' hr'
    exact ⟨by simpa using this.ptr_pos, by simpa using this.size_pos, by simpa using this.size_lt,
      by simpa using this.end_lt⟩
  · obtain ⟨r', hr', rfl⟩ := List.mem_map.1 hr₀
    rw [setEntry_ptr, setEntry_memorySize]
    by_cases hp : r'.ptr = r.ptr
    · obtain rfl := hrow r' hr' hp
      rwa [update_self]
    · rw [update_of_ne hp]
      exact Tiles.of_sameLinks (hg.tiles r' hr') (hother r' hr' hp)
  · obtain ⟨r', hr', rfl⟩ := List.mem_map.1 hr₀
    rw [setEntry_ptr]
    by_cases hp : r'.ptr = r.ptr
    · rwa [hp, update_self]
    · rw [update_of_ne hp]
      exact Linked.of_sameLinks (hg.linked r' hr') (hother r' hr' hp)

section Handles

variable {B : Prop} {ptr ptr' : ChunkHandle → ℕ} {row : List ChunkHandle} {i : ℕ}
  (hh : HandlesOk B regions rows ptr) (hinj : ∀ r' ∈ regions, r'.ptr = r.ptr → r' = r)
  (hptr : ∀ x ∈ live regions rows, ptr' x = ptr x)

include hh hinj hptr

/-- A new chunk is entered under its address. -/
theorem HandlesOk.insert {hNew : ChunkHandle} (hrow : ∀ x, x ∈ row ↔ x = hNew ∨ x ∈ rows r.ptr)
    (hi : r.slot (ptr' hNew) = .ok i) (hfresh : B → ∀ x ∈ rows r.ptr, r.slot (ptr x) ≠ .ok i) :
    HandlesOk B (regions.map (setEntry r.ptr i (some hNew))) (Function.update rows r.ptr row)
      ptr' := by
  refine ⟨fun r₀ hr₀ j x hx ↦ ?_, fun hB r₀ hr₀ x hx ↦ ?_⟩
  · obtain ⟨r', hr', rfl⟩ := List.mem_map.1 hr₀
    rw [setEntry_ptr, slot_setEntry]
    have hold : ∀ x, r'.handles j = some x → x ∈ rows r'.ptr ∧ r'.slot (ptr' x) = .ok j := by
      intro x hx
      obtain ⟨hmem, hslot⟩ := hh.sound r' hr' j x hx
      exact ⟨hmem, by rw [hptr x (mem_live.2 ⟨r', hr', hmem⟩), hslot]⟩
    by_cases hp : r'.ptr = r.ptr
    · obtain rfl := hinj r' hr' hp
      rw [setEntry_self] at hx
      rw [update_self]
      by_cases hj : j = i
      · subst hj
        rw [update_self] at hx
        cases hx
        exact ⟨(hrow _).2 (Or.inl rfl), hi⟩
      · rw [update_of_ne hj] at hx
        exact ⟨(hrow x).2 (Or.inr (hold x hx).1), (hold x hx).2⟩
    · rw [setEntry_of_ne hp] at hx
      rw [update_of_ne hp]
      exact hold x hx
  · obtain ⟨r', hr', rfl⟩ := List.mem_map.1 hr₀
    rw [setEntry_ptr] at hx
    simp only [slot_setEntry]
    have hold : ∀ x ∈ rows r'.ptr, ∃ j, r'.slot (ptr' x) = .ok j ∧ r'.handles j = some x := by
      intro x hx
      obtain ⟨j, hslot, hj⟩ := hh.complete hB r' hr' x hx
      exact ⟨j, by rw [hptr x (mem_live.2 ⟨r', hr', hx⟩), hslot], hj⟩
    by_cases hp : r'.ptr = r.ptr
    · obtain rfl := hinj r' hr' hp
      rw [update_self, hrow] at hx
      rw [setEntry_self]
      rcases hx with rfl | hx
      · exact ⟨i, hi, update_self _ _ _⟩
      · obtain ⟨j, hslot, hj⟩ := hold x hx
        refine ⟨j, hslot, ?_⟩
        rw [update_of_ne, hj]
        rintro rfl
        rw [hptr x (mem_live.2 ⟨r', hr', hx⟩)] at hslot
        exact hfresh hB x hx hslot
    · rw [update_of_ne hp] at hx
      rw [setEntry_of_ne hp]
      exact hold x hx

/-- The entry of a chunk is erased. -/
theorem HandlesOk.erase {hOld : ChunkHandle} (hrow : ∀ x, x ∈ row ↔ x ∈ rows r.ptr ∧ x ≠ hOld)
    (hi : r.slot (ptr hOld) = .ok i)
    (hinj' : B → ∀ x ∈ rows r.ptr, r.slot (ptr x) = .ok i → x = hOld) :
    HandlesOk B (regions.map (setEntry r.ptr i none)) (Function.update rows r.ptr row) ptr' := by
  refine ⟨fun r₀ hr₀ j x hx ↦ ?_, fun hB r₀ hr₀ x hx ↦ ?_⟩
  · obtain ⟨r', hr', rfl⟩ := List.mem_map.1 hr₀
    rw [setEntry_ptr, slot_setEntry]
    by_cases hp : r'.ptr = r.ptr
    · obtain rfl := hinj r' hr' hp
      rw [setEntry_self] at hx
      rw [update_self]
      have hj : j ≠ i := by
        rintro rfl
        simp at hx
      rw [update_of_ne hj] at hx
      obtain ⟨hmem, hslot⟩ := hh.sound r' hr' j x hx
      refine ⟨(hrow x).2 ⟨hmem, ?_⟩, by rw [hptr x (mem_live.2 ⟨r', hr', hmem⟩), hslot]⟩
      rintro rfl
      exact hj (Except.ok.inj (hslot.symm.trans hi))
    · rw [setEntry_of_ne hp] at hx
      rw [update_of_ne hp]
      obtain ⟨hmem, hslot⟩ := hh.sound r' hr' j x hx
      exact ⟨hmem, by rw [hptr x (mem_live.2 ⟨r', hr', hmem⟩), hslot]⟩
  · obtain ⟨r', hr', rfl⟩ := List.mem_map.1 hr₀
    rw [setEntry_ptr] at hx
    simp only [slot_setEntry]
    by_cases hp : r'.ptr = r.ptr
    · obtain rfl := hinj r' hr' hp
      rw [update_self, hrow] at hx
      rw [setEntry_self]
      obtain ⟨j, hslot, hj⟩ := hh.complete hB r' hr' x hx.1
      refine ⟨j, by rw [hptr x (mem_live.2 ⟨r', hr', hx.1⟩), hslot], ?_⟩
      rw [update_of_ne, hj]
      rintro rfl
      exact hx.2 (hinj' hB x hx.1 hslot)
    · rw [update_of_ne hp] at hx
      rw [setEntry_of_ne hp]
      obtain ⟨j, hslot, hj⟩ := hh.complete hB r' hr' x hx
      exact ⟨j, by rw [hptr x (mem_live.2 ⟨r', hr', hx⟩), hslot], hj⟩

end Handles

/-- Writes to chunks that are in no bin. -/
theorem BinsOk.congr (hb : BinsOk chunks bins)
    (hbin : Chunk.binNum ∘ chunks' = Chunk.binNum ∘ chunks)
    (hsame : ∀ x, (chunks x).binNum ≠ none → (chunks' x).size = (chunks x).size ∧
      (chunks' x).ptr = (chunks x).ptr ∧ (chunks' x).allocationId = (chunks x).allocationId) :
    BinsOk chunks' bins := by
  have hbin : ∀ x, (chunks' x).binNum = (chunks x).binNum := fun x ↦ congrFun hbin x
  have hmem : ∀ k, ∀ x ∈ bins k, (chunks x).binNum ≠ none := fun k x hx ↦ by
    simp [(hb.mem k x).1 hx]
  refine ⟨fun k ↦ OrderedSet.sorted_congr (fun x hx y hy hlt ↦ ?_) (hb.sorted k),
    fun k x ↦ by rw [hb.mem, hbin], fun x k hk ↦ ?_⟩
  · obtain ⟨hs, hp, -⟩ := hsame x (hmem k x hx)
    obtain ⟨hs', hp', -⟩ := hsame y (hmem k y hy)
    exact (chunkLt_congr hs hs' hp hp').2 hlt
  · rw [hbin] at hk
    obtain ⟨hs, -, hid⟩ := hsame x (by simp [hk])
    obtain ⟨huse, hnum⟩ := hb.binned x k hk
    exact ⟨by rwa [Chunk.InUse, hid], by rw [hs, hnum]⟩

/-- A chunk leaves its bin. -/
theorem BinsOk.unbin (hb : BinsOk chunks bins) {h : ChunkHandle} {k : ℕ}
    (hk : (chunks h).binNum = some k) {l : List ChunkHandle} (hl : l.Pairwise (ChunkLt chunks))
    (hmem : ∀ x, x ∈ l ↔ x ∈ bins k ∧ x ≠ h) :
    BinsOk (Function.update chunks h { chunks h with binNum := none })
      (Function.update bins k l) := by
  have hlt : ChunkLt (update chunks h { chunks h with binNum := none }) =
      ChunkLt chunks := by
    funext x y
    have hs : ∀ x, (update chunks h { chunks h with binNum := none } x).size =
        (chunks x).size := congrFun (comp_update_self rfl)
    have hp : ∀ x, (update chunks h { chunks h with binNum := none } x).ptr =
        (chunks x).ptr := congrFun (comp_update_self rfl)
    exact propext (chunkLt_congr (hs x) (hs y) (hp x) (hp y))
  refine ⟨fun k' ↦ ?_, fun k' x ↦ ?_, fun x k' hk' ↦ ?_⟩
  · rw [hlt]
    by_cases hkk : k' = k
    · rwa [hkk, update_self]
    · rw [update_of_ne hkk]
      exact hb.sorted k'
  · by_cases hkk : k' = k <;> by_cases hx : x = h
    · subst hkk hx
      simp [hmem]
    · subst hkk
      rw [update_self, hmem, update_of_ne hx, hb.mem]
      exact and_iff_left hx
    · subst hx
      rw [update_of_ne hkk, update_self, hb.mem, hk]
      simp only [Option.some.injEq, reduceCtorEq, iff_false]
      exact fun h ↦ hkk h.symm
    · rw [update_of_ne hkk, update_of_ne hx, hb.mem]
  · by_cases hx : x = h
    · subst hx
      simp at hk'
    · rw [update_of_ne hx] at hk' ⊢
      exact hb.binned x k' hk'

/-- A free chunk whose address no other chunk has enters the bin of its size. -/
theorem BinsOk.bin (hb : BinsOk chunks bins) {h : ChunkHandle} (hfree : ¬ (chunks h).InUse)
    (hnone : (chunks h).binNum = none)
    (hptr : ∀ x, (chunks x).binNum ≠ none → (chunks x).ptr ≠ (chunks h).ptr) :
    BinsOk (Function.update chunks h
        { chunks h with binNum := some (binNumForSize (chunks h).size) })
      (Function.update bins (binNumForSize (chunks h).size)
        (OrderedSet.insert (ChunkLt (Function.update chunks h
          { chunks h with binNum := some (binNumForSize (chunks h).size) })) h
          (bins (binNumForSize (chunks h).size)))) := by
  set k := binNumForSize (chunks h).size with hkdef
  set chunks' := update chunks h { chunks h with binNum := some k } with hchunks'
  have hs : ∀ x, (chunks' x).size = (chunks x).size := congrFun (comp_update_self rfl)
  have hp : ∀ x, (chunks' x).ptr = (chunks x).ptr := congrFun (comp_update_self rfl)
  have hlt : ChunkLt chunks' = ChunkLt chunks := by
    funext x y
    exact propext (chunkLt_congr (hs x) (hs y) (hp x) (hp y))
  have hfresh : ∀ x ∈ bins k, ChunkLt chunks' h x ∨ ChunkLt chunks' x h := by
    intro x hx
    have := hptr x (by simp [(hb.mem k x).1 hx])
    rw [hlt]
    simp only [ChunkLt]
    split_ifs <;> omega
  refine ⟨fun k' ↦ ?_, fun k' x ↦ ?_, fun x k' hk' ↦ ?_⟩
  · by_cases hkk : k' = k
    · rw [hkk, update_self]
      exact OrderedSet.sorted_insert (by rw [hlt]; exact hb.sorted k) hfresh
    · rw [update_of_ne hkk, hlt]
      exact hb.sorted k'
  · by_cases hkk : k' = k <;> by_cases hx : x = h
    · subst hx
      rw [hkk, update_self, OrderedSet.mem_insert hfresh, hchunks', update_self]
      simp
    · rw [hkk, update_self, OrderedSet.mem_insert hfresh, hchunks', update_of_ne hx, hb.mem]
      exact or_iff_right hx
    · subst hx
      rw [update_of_ne hkk, hchunks', update_self, hb.mem, hnone]
      simp only [reduceCtorEq, Option.some.injEq, false_iff]
      exact fun h ↦ hkk h.symm
    · rw [update_of_ne hkk, hchunks', update_of_ne hx, hb.mem]
  · by_cases hx : x = h
    · subst hx
      rw [hchunks', update_self] at hk' ⊢
      exact ⟨hfree, (Option.some.inj hk').symm⟩
    · rw [hchunks', update_of_ne hx] at hk' ⊢
      exact hb.binned x k' hk'

end Parts

end TensorFlowCore.BfcAllocator
