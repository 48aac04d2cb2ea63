import Mathlib
import TensorFlowCore.Support.GuardedRun
import TensorFlowCore.Support.OrderedSet

/-!
# `BFCAllocator`

The best-fit-with-coalescing allocator of `tensorflow/core/common_runtime/bfc_allocator.{h,cc}`,
function by function and under the source's names.

* A `ChunkHandle` is an index into `chunks`, `none` standing for `kInvalidChunkHandle`; likewise
  for bin numbers. The vector `chunks_` is a total function with its size beside it.
* `size_t` values and addresses are natural numbers, and every operation that can leave the range
  is written modulo `2 ^ 64`. `IndexFor` casts to a 32-bit `int`, so it has its wrap-around too,
  and an index outside `handles_` is a failure.
* A failed `CHECK`, a `LOG(FATAL)` and an access outside an array end the process: `Failure.fatal`.
* The two loops of `Extend` need not end. `growRegion` doubles a 64-bit value, so 64 rounds decide
  it; the back-pedal loop runs on `fuel`.
* `next_allocation_id_` and the counters of `stats_` are unbounded integers.

The sub-allocator is a parameter. Logging, the region visitors and the retry loop around
`AllocateRawInternal` do not touch the state and are left out.
-/

namespace TensorFlowCore.BfcAllocator

/-- Why a call does not return. -/
inductive Failure where
  | fatal
  | outOfFuel
  deriving DecidableEq

/-- `CHECK(p)`. -/
def check (p : Prop) [Decidable p] : Except Failure Unit :=
  if p then .ok () else .error .fatal

def kMinAllocationSize : ℕ := 256

def kNumBins : ℕ := 21

/-- Reduction of a sum or product to `size_t`. -/
def sizeT (n : ℕ) : ℕ := n % 2 ^ 64

/-- `a - b` in `size_t`. -/
def subSizeT (a b : ℕ) : ℕ := (a + 2 ^ 64 - b) % 2 ^ 64

/-- `RoundedBytes`: round up to a multiple of `kMinAllocationSize`, in `size_t`. -/
def roundedBytes (bytes : ℕ) : ℕ :=
  sizeT (kMinAllocationSize * (sizeT (bytes + kMinAllocationSize - 1) / kMinAllocationSize))

/-- `BinNumForSize`. -/
def binNumForSize (bytes : ℕ) : ℕ :=
  min (kNumBins - 1) (Nat.log2 (max bytes 256 / kMinAllocationSize))

/-- The `float` nearest to a natural number, ties to even. -/
def roundToFloat (n : ℕ) : ℕ :=
  let e := n.log2 - 23
  let q := n / 2 ^ e
  let r := n % 2 ^ e
  (if 2 ^ e < 2 * r ∨ (2 ^ e = 2 * r ∧ q % 2 = 1) then q + 1 else q) * 2 ^ e

/-- `bytes * kBackpedalFactor` as a `size_t`: the `float` nearest to 0.9 is `15099494 / 2 ^ 24`, the
product is a `float` again, and the conversion back truncates. -/
def scaleByBackpedalFactor (bytes : ℕ) : ℕ :=
  roundToFloat (roundToFloat bytes * 15099494) / 2 ^ 24

/-! ### Chunks -/

abbrev ChunkHandle := ℕ

/-- `BFCAllocator::Chunk`. -/
structure Chunk where
  size : ℕ := 0
  requestedSize : ℕ := 0
  allocationId : ℤ := -1
  ptr : ℕ := 0
  prev : Option ChunkHandle := none
  next : Option ChunkHandle := none
  binNum : Option ℕ := none

/-- `Chunk::in_use`. -/
def Chunk.InUse (c : Chunk) : Prop := c.allocationId ≠ -1

instance : DecidablePred Chunk.InUse :=
  fun c ↦ inferInstanceAs (Decidable (c.allocationId ≠ -1))

/-- `ChunkComparator`: by size, then by address. -/
def ChunkLt (chunks : ChunkHandle → Chunk) (ha hb : ChunkHandle) : Prop :=
  if (chunks ha).size ≠ (chunks hb).size then (chunks ha).size < (chunks hb).size
  else (chunks ha).ptr < (chunks hb).ptr

instance (chunks : ChunkHandle → Chunk) : DecidableRel (ChunkLt chunks) :=
  fun _ _ ↦ inferInstanceAs (Decidable (ite _ _ _))

/-! ### Regions -/

/-- `AllocationRegion`, with the array `handles_` as a function. -/
structure AllocationRegion where
  ptr : ℕ
  memorySize : ℕ
  handles : ℕ → Option ChunkHandle

namespace AllocationRegion

/-- The constructor: all handles are invalid. -/
def new (ptr memorySize : ℕ) : AllocationRegion := ⟨ptr, memorySize, fun _ ↦ none⟩

def endPtr (r : AllocationRegion) : ℕ := sizeT (r.ptr + r.memorySize)

/-- The length of `handles_`. -/
def nHandles (r : AllocationRegion) : ℕ :=
  sizeT (r.memorySize + kMinAllocationSize - 1) / kMinAllocationSize

/-- `IndexFor`: `static_cast<int>((p_int - base_int) >> kMinAllocationBits)`. -/
def indexFor (r : AllocationRegion) (p : ℕ) : ℤ :=
  Int.bmod ((subSizeT p r.ptr / kMinAllocationSize : ℕ) : ℤ) (2 ^ 32)

/-- The entry of `handles_` that `p` is looked up in. -/
@[irreducible] def slot (r : AllocationRegion) (p : ℕ) : Except Failure ℕ :=
  if 0 ≤ r.indexFor p ∧ r.indexFor p < r.nHandles then .ok (r.indexFor p).toNat
  else .error .fatal

end AllocationRegion

/-! `RegionManager`. The regions are sorted by end address, and `std::upper_bound` finds the first
one that ends after `p`. -/

/-- `RegionManager::AddAllocationRegion`. -/
def addAllocationRegion (ptr memorySize : ℕ) : List AllocationRegion → List AllocationRegion
  | [] => [.new ptr memorySize]
  | r :: rs =>
    if ptr < r.endPtr then .new ptr memorySize :: r :: rs
    else r :: addAllocationRegion ptr memorySize rs

/-- `RegionManager::get_handle`. -/
def getHandle (p : ℕ) : List AllocationRegion → Except Failure (Option ChunkHandle)
  | [] => .error .fatal
  | r :: rs => if p < r.endPtr then (r.slot p).map r.handles else getHandle p rs

/-- `RegionManager::set_handle`; `erase` sets the invalid handle. -/
def setHandle (p : ℕ) (h : Option ChunkHandle) :
    List AllocationRegion → Except Failure (List AllocationRegion)
  | [] => .error .fatal
  | r :: rs =>
    if p < r.endPtr then
      (r.slot p).map fun i ↦ { r with handles := Function.update r.handles i h } :: rs
    else (setHandle p h rs).map (r :: ·)

/-! ### The allocator -/

/-- A `SubAllocator` returns null or a fresh region: within the address space, no larger than an
object can be, and disjoint from everything it `granted` before. -/
structure SubAllocator where
  State : Type
  init : State
  /-- `Alloc(32, num_bytes)`. -/
  alloc : State → ℕ → Option ℕ × State
  /-- The address ranges handed out so far. -/
  granted : State → List (ℕ × ℕ)
  granted_init : granted init = []
  granted_of_null : ∀ {σ n σ'}, alloc σ n = (none, σ') → granted σ' = granted σ
  granted_of_alloc : ∀ {σ n p σ'}, alloc σ n = (some p, σ') → granted σ' = (p, n) :: granted σ
  alloc_bounds : ∀ {σ n p σ'}, alloc σ n = (some p, σ') → 0 < p ∧ n < 2 ^ 63 ∧ p + n < 2 ^ 64
  alloc_fresh : ∀ {σ n p σ'}, alloc σ n = (some p, σ') →
    ∀ g ∈ granted σ, p + n ≤ g.1 ∨ g.1 + g.2 ≤ p

/-- The part of `AllocatorStats` that the allocator updates. -/
structure AllocatorStats where
  numAllocs : ℤ := 0
  bytesInUse : ℤ := 0
  maxBytesInUse : ℤ := 0
  maxAllocSize : ℤ := 0

/-- The state of a `BFCAllocator`. -/
structure BFCAllocator (sub : SubAllocator) where
  suballocator : sub.State
  memoryLimit : ℕ
  currRegionAllocationBytes : ℕ
  totalRegionAllocatedBytes : ℕ := 0
  startedBackpedal : Bool := false
  regions : List AllocationRegion := []
  chunks : ChunkHandle → Chunk := fun _ ↦ {}
  chunksSize : ℕ := 0
  freeChunksList : Option ChunkHandle := none
  bins : ℕ → List ChunkHandle := fun _ ↦ []
  nextAllocationId : ℤ := 1
  stats : AllocatorStats := {}

namespace BFCAllocator

variable {sub : SubAllocator}

/-- The constructor. -/
def init (sub : SubAllocator) (totalMemory : ℕ) (allowGrowth : Bool) : BFCAllocator sub where
  suballocator := sub.init
  memoryLimit := totalMemory
  currRegionAllocationBytes :=
    if allowGrowth then roundedBytes (min totalMemory 1048576) else roundedBytes totalMemory

/-- A write through the `Chunk*` of a handle. -/
def modifyChunk (a : BFCAllocator sub) (h : ChunkHandle) (f : Chunk → Chunk) : BFCAllocator sub :=
  { a with chunks := Function.update a.chunks h (f (a.chunks h)) }

/-- `AllocateChunk`. The new size of the vector is an `int`, and one that is none is fatal. -/
def allocateChunk (a : BFCAllocator sub) : Except Failure (ChunkHandle × BFCAllocator sub) :=
  match a.freeChunksList with
  | some h => .ok (h, { a with freeChunksList := (a.chunks h).next })
  | none =>
    if a.chunksSize + 1 < 2 ^ 31 then
      .ok (a.chunksSize,
        { a with
          chunks := Function.update a.chunks a.chunksSize {}
          chunksSize := a.chunksSize + 1 })
    else .error .fatal

/-- `DeallocateChunk`. -/
def deallocateChunk (a : BFCAllocator sub) (h : ChunkHandle) : BFCAllocator sub :=
  { a.modifyChunk h fun c ↦ { c with next := a.freeChunksList } with freeChunksList := some h }

/-- `InsertFreeChunkIntoBin`. -/
def insertFreeChunkIntoBin (a : BFCAllocator sub) (h : ChunkHandle) :
    Except Failure (BFCAllocator sub) := do
  check (¬ (a.chunks h).InUse ∧ (a.chunks h).binNum = none)
  let binNum := binNumForSize (a.chunks h).size
  let a := a.modifyChunk h fun c ↦ { c with binNum := some binNum }
  return { a with
    bins := Function.update a.bins binNum
      (OrderedSet.insert (ChunkLt a.chunks) h (a.bins binNum)) }

/-- `RemoveFreeChunkIterFromBin`, for the iterator that points at `h` in bin `k`. -/
def removeFreeChunkIterFromBin (a : BFCAllocator sub) (k : ℕ) (h : ChunkHandle) :
    Except Failure (BFCAllocator sub) := do
  check (¬ (a.chunks h).InUse ∧ (a.chunks h).binNum ≠ none)
  let a := { a with bins := Function.update a.bins k ((a.bins k).erase h) }
  return a.modifyChunk h fun c ↦ { c with binNum := none }

/-- `RemoveFreeChunkFromBin`. -/
def removeFreeChunkFromBin (a : BFCAllocator sub) (h : ChunkHandle) :
    Except Failure (BFCAllocator sub) := do
  check (¬ (a.chunks h).InUse)
  match (a.chunks h).binNum with
  | none => .error .fatal
  | some k =>
    match OrderedSet.erase (ChunkLt a.chunks) h (a.bins k) with
    | none => .error .fatal
    | some freeChunks =>
      let a := { a with bins := Function.update a.bins k freeChunks }
      return a.modifyChunk h fun c ↦ { c with binNum := none }

/-- `c_neighbor->prev = h`, when there is a neighbour. -/
def setPrev (a : BFCAllocator sub) (neighbor : Option ChunkHandle) (h : ChunkHandle) :
    BFCAllocator sub :=
  { a with
    chunks := neighbor.elim a.chunks fun n ↦
      Function.update a.chunks n { a.chunks n with prev := some h } }

/-- The writes of `SplitChunk` to the chunk `h`, to the chunk `hNew` that takes the rest of it, and
to the neighbour after them: `c <-> c_neighbor` becomes `c <-> new_chunk <-> c_neighbor`. -/
def linkNewChunk (a : BFCAllocator sub) (h hNew : ChunkHandle) (newPtr numBytes : ℕ) :
    BFCAllocator sub :=
  let newSize := subSizeT (a.chunks h).size numBytes
  let hNeighbor := (a.chunks h).next
  let a := a.modifyChunk hNew fun c ↦
    { c with ptr := newPtr, size := newSize, allocationId := -1, prev := some h, next := hNeighbor }
  let a := a.modifyChunk h fun c ↦ { c with size := numBytes, next := some hNew }
  a.setPrev hNeighbor hNew

/-- `SplitChunk`. -/
def splitChunk (a : BFCAllocator sub) (h : ChunkHandle) (numBytes : ℕ) :
    Except Failure (BFCAllocator sub) := do
  let (hNew, a) ← a.allocateChunk
  check (¬ (a.chunks h).InUse ∧ (a.chunks h).binNum = none)
  let newPtr := sizeT ((a.chunks h).ptr + numBytes)
  let regions ← setHandle newPtr (some hNew) a.regions
  let a := { a with regions := regions }
  (a.linkNewChunk h hNew newPtr numBytes).insertFreeChunkIntoBin hNew

/-- `DeleteChunk`. -/
def deleteChunk (a : BFCAllocator sub) (h : ChunkHandle) : Except Failure (BFCAllocator sub) := do
  let regions ← setHandle (a.chunks h).ptr none a.regions
  return { a with regions := regions }.deallocateChunk h

/-- `Merge`: `c1 <-> c2 <-> c3` becomes `c1 <-> c3`. -/
def merge (a : BFCAllocator sub) (h₁ h₂ : ChunkHandle) : Except Failure (BFCAllocator sub) := do
  check (¬ (a.chunks h₁).InUse ∧ ¬ (a.chunks h₂).InUse)
  check ((a.chunks h₂).prev = some h₁)
  let h₃ := (a.chunks h₂).next
  let size := sizeT ((a.chunks h₁).size + (a.chunks h₂).size)
  let a := a.modifyChunk h₁ fun c ↦ { c with next := h₃, size := size }
  (a.setPrev h₃ h₁).deleteChunk h₂

/-- The chunk that the two loops of `FindChunkPtr` stop at, with its bin: bins in order, and in each
bin the chunks in order. -/
def firstFit (a : BFCAllocator sub) (binNum roundedBytes : ℕ) : Option (ℕ × ChunkHandle) :=
  (List.range' binNum (kNumBins - binNum)).findSome? fun k ↦
    ((a.bins k).find? fun h ↦ decide (roundedBytes ≤ (a.chunks h).size)).map (k, ·)

/-- The updates of `FindChunkPtr` that hand out the chunk `h`. -/
def handOut (a : BFCAllocator sub) (h : ChunkHandle) (numBytes : ℕ) : BFCAllocator sub :=
  let size := (a.chunks h).size
  let bytesInUse := a.stats.bytesInUse + size
  { a.modifyChunk h fun c ↦
      { c with requestedSize := numBytes, allocationId := a.nextAllocationId } with
    nextAllocationId := a.nextAllocationId + 1
    stats :=
      { numAllocs := a.stats.numAllocs + 1
        bytesInUse := bytesInUse
        maxBytesInUse := max a.stats.maxBytesInUse bytesInUse
        maxAllocSize := max a.stats.maxAllocSize size } }

/-- `FindChunkPtr`. -/
def findChunkPtr (a : BFCAllocator sub) (binNum roundedBytes numBytes : ℕ) :
    Except Failure (Option ℕ × BFCAllocator sub) :=
  match a.firstFit binNum roundedBytes with
  | none => .ok (none, a)
  | some (k, h) => do
    let a ← a.removeFreeChunkIterFromBin k h
    let a ← if sizeT (roundedBytes * 2) ≤ (a.chunks h).size then a.splitChunk h roundedBytes
      else .ok a
    return (some (a.chunks h).ptr, a.handOut h numBytes)

/-- The loop that doubles `curr_region_allocation_bytes_` until it covers the request. After 64
rounds a value that is still too small is 0, and the loop goes on for ever. -/
def growRegion (roundedBytes : ℕ) : ℕ → ℕ → Except Failure ℕ
  | 0, curr => if curr < roundedBytes then .error .outOfFuel else .ok curr
  | rounds + 1, curr =>
    if curr < roundedBytes then growRegion roundedBytes rounds (sizeT (curr * 2)) else .ok curr

/-- The back-pedal loop: ask for less and less, down to the request itself. As in the source,
`bytes` is scaled down once more after the call of `Alloc` that succeeds. -/
def backpedal (scale : ℕ → ℕ) (rounded : ℕ) :
    ℕ → sub.State → ℕ → Except Failure (Option ℕ × ℕ × sub.State)
  | 0, σ, bytes => if rounded < bytes then .error .outOfFuel else .ok (none, bytes, σ)
  | fuel + 1, σ, bytes =>
    if rounded < bytes then
      match sub.alloc σ bytes with
      | (some p, σ') => .ok (some p, roundedBytes (scale bytes), σ')
      | (none, σ') => backpedal scale rounded fuel σ' (roundedBytes (scale bytes))
    else .ok (none, bytes, σ)

/-- The part of `Extend` that obtains memory: the address, if any, and the size registered for
it. -/
def obtainRegion (a : BFCAllocator sub) (fuel rounded bytes : ℕ) :
    Except Failure (Option ℕ × ℕ × BFCAllocator sub) :=
  match sub.alloc a.suballocator bytes with
  | (some p, σ) => .ok (some p, bytes, { a with suballocator := σ })
  | (none, σ) =>
    if a.startedBackpedal then .ok (none, bytes, { a with suballocator := σ })
    else do
      let (mem, bytes, σ) ←
        backpedal scaleByBackpedalFactor rounded fuel σ
        (roundedBytes (scaleByBackpedalFactor bytes))
      return (mem, bytes, { a with suballocator := σ, startedBackpedal := true })

/-- The end of `Extend`: one free chunk for the whole of a new region. -/
def addRegion (a : BFCAllocator sub) (memAddr bytes : ℕ) : Except Failure (BFCAllocator sub) := do
  let a := { a with
    totalRegionAllocatedBytes := sizeT (a.totalRegionAllocatedBytes + bytes)
    regions := addAllocationRegion memAddr bytes a.regions }
  let (h, a) ← a.allocateChunk
  let a := a.modifyChunk h fun c ↦
    { c with ptr := memAddr, size := bytes, allocationId := -1, prev := none, next := none }
  let regions ← setHandle memAddr (some h) a.regions
  { a with regions := regions }.insertFreeChunkIntoBin h

/-- `Extend`. -/
def extend (a : BFCAllocator sub) (fuel rounded : ℕ) :
    Except Failure (Bool × BFCAllocator sub) := do
  let availableBytes := subSizeT a.memoryLimit a.totalRegionAllocatedBytes
  let availableBytes := availableBytes / kMinAllocationSize * kMinAllocationSize
  if availableBytes < rounded then return (false, a)
  let increasedAllocation := decide (a.currRegionAllocationBytes < rounded)
  let curr ← growRegion rounded 64 a.currRegionAllocationBytes
  let a := { a with currRegionAllocationBytes := curr }
  let (mem, bytes, a) ← a.obtainRegion fuel rounded (min curr availableBytes)
  match mem with
  | none => return (false, a)
  | some memAddr =>
    let a := if increasedAllocation then a
      else { a with currRegionAllocationBytes := sizeT (a.currRegionAllocationBytes * 2) }
    let a ← a.addRegion memAddr bytes
    return (true, a)

/-- `AllocateRawInternal`. -/
def allocateRawInternal (a : BFCAllocator sub) (fuel numBytes : ℕ) :
    Except Failure (Option ℕ × BFCAllocator sub) :=
  if numBytes = 0 then .ok (none, a)
  else do
    let rounded := roundedBytes numBytes
    let binNum := binNumForSize rounded
    let (ptr, a) ← a.findChunkPtr binNum rounded numBytes
    match ptr with
    | some ptr => return (some ptr, a)
    | none =>
      let (extended, a) ← a.extend fuel rounded
      if extended then a.findChunkPtr binNum rounded numBytes
      else return (none, a)

/-- The part of `FreeAndMaybeCoalesce` that merges a free chunk after `h` into it. -/
def coalesceNext (a : BFCAllocator sub) (h : ChunkHandle) : Except Failure (BFCAllocator sub) :=
  match (a.chunks h).next with
  | none => .ok a
  | some n =>
    if (a.chunks n).InUse then .ok a
    else do
      let a ← a.removeFreeChunkFromBin n
      a.merge h n

/-- The part of `FreeAndMaybeCoalesce` that merges `h` into a free chunk before it. The handle is
`chunk_to_reassign`. -/
def coalescePrev (a : BFCAllocator sub) (h : ChunkHandle) :
    Except Failure (ChunkHandle × BFCAllocator sub) :=
  match (a.chunks h).prev with
  | none => .ok (h, a)
  | some p =>
    if (a.chunks p).InUse then .ok (h, a)
    else do
      let a ← a.removeFreeChunkFromBin p
      let a ← a.merge p h
      return (p, a)

/-- The updates of `FreeAndMaybeCoalesce` that take the chunk `h` back. -/
def takeBack (a : BFCAllocator sub) (h : ChunkHandle) : BFCAllocator sub :=
  { a.modifyChunk h fun c ↦ { c with allocationId := -1 } with
    stats := { a.stats with bytesInUse := a.stats.bytesInUse - (a.chunks h).size } }

/-- `FreeAndMaybeCoalesce`. -/
def freeAndMaybeCoalesce (a : BFCAllocator sub) (h : ChunkHandle) :
    Except Failure (BFCAllocator sub) := do
  check ((a.chunks h).InUse ∧ (a.chunks h).binNum = none)
  let a ← (a.takeBack h).coalesceNext h
  let (chunkToReassign, a) ← a.coalescePrev h
  a.insertFreeChunkIntoBin chunkToReassign

/-- `DeallocateRawInternal`. -/
def deallocateRawInternal (a : BFCAllocator sub) (ptr : ℕ) : Except Failure (BFCAllocator sub) :=
  if ptr = 0 then .ok a
  else do
    match ← getHandle ptr a.regions with
    | none => .error .fatal
    | some h => a.freeAndMaybeCoalesce h

end BFCAllocator

/-! ### Clients -/

/-- A call of a client. -/
inductive Call where
  | allocateRaw (numBytes : ℕ)
  | deallocateRaw (ptr : ℕ)

/-- An allocator with the pointers it has handed out and not got back. -/
structure Client (sub : SubAllocator) where
  allocator : BFCAllocator sub
  live : List ℕ

namespace Client

variable {sub : SubAllocator}

/-- A new allocator. -/
def init (sub : SubAllocator) (totalMemory : ℕ) (allowGrowth : Bool) : Client sub :=
  ⟨.init sub totalMemory allowGrowth, []⟩

/-- A call that a client may make: it asks for a `size_t` of bytes, or gives back a live pointer. -/
def MayCall (s : Client sub) : Call → Prop
  | .allocateRaw numBytes => numBytes < 2 ^ 64
  | .deallocateRaw ptr => ptr ∈ s.live

instance (s : Client sub) : DecidablePred s.MayCall := fun c ↦
  match c with
  | .allocateRaw numBytes => inferInstanceAs (Decidable (numBytes < 2 ^ 64))
  | .deallocateRaw ptr => inferInstanceAs (Decidable (ptr ∈ s.live))

/-- What a call does. -/
def exec (fuel : ℕ) (s : Client sub) : Call → Except Failure (Client sub)
  | .allocateRaw numBytes => do
    let (ptr, a) ← s.allocator.allocateRawInternal fuel numBytes
    return ⟨a, ptr.toList ++ s.live⟩
  | .deallocateRaw ptr => do
    let a ← s.allocator.deallocateRawInternal ptr
    return ⟨a, s.live.erase ptr⟩

/-- A call that may be made and returns. -/
def step (fuel : ℕ) (s : Client sub) (c : Call) : Option (Client sub) :=
  if s.MayCall c then (s.exec fuel c).toOption else none

end Client

end TensorFlowCore.BfcAllocator
