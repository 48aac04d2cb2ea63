import Mathlib.Data.Nat.Log
import TensorFlowCore.Support.Rounds
import TensorFlowCore.Support.WordMemory

/-!
# `PoolAllocator`

`tensorflow/core/common_runtime/gpu/pool_allocator.cc`: a pool of the chunks that have been freed,
by size, and a list of them from the one that was freed last to the one that is evicted first.
Addresses and sizes are numbers below `2 ^ 64`, the prefixes of the chunks are in a memory of bytes,
and a `PtrRecord` is known by the number it was made with. A failed `CHECK`, or following a pointer
that is null or has been deleted, ends the process; a function that can come to one returns an
`Option`. What is passed to `Free` of the `SubAllocator` is returned.
-/

namespace TensorFlowCore.PoolAllocator

open WordMemory

/-- What the allocator is made with: the arguments of its constructor, and the arithmetic with
`double`s by which it decides to raise the limit and to how much. -/
structure Config where
  poolSizeLimit : ℕ
  autoResize : Bool
  roundUp : ℕ → ℕ
  /-- `kIncreaseFactor * limit`. -/
  increased : ℕ → ℕ
  /-- `count / static_cast<double>(total) > kTolerable`. -/
  exceedsTolerable : ℤ → ℤ → Bool
  /-- The `CHECK` of the constructor. -/
  limit_pos : autoResize = true → 0 < poolSizeLimit
  /-- A `RoundUpInterface` rounds up. -/
  le_roundUp : ∀ n, n ≤ roundUp n
  /-- A product with a factor that is more than `1`. -/
  le_increased : ∀ n, n ≤ increased n

/-- `has_size_limit_`. -/
def Config.hasSizeLimit (cfg : Config) : Bool := decide (0 < cfg.poolSizeLimit)

/-- `Pow2Rounder::RoundUp`. -/
def pow2Rounder (numBytes : ℕ) : ℕ := 2 ^ Nat.clog 2 numBytes

theorem le_pow2Rounder (n : ℕ) : n ≤ pow2Rounder n := Nat.le_pow_clog (by decide) n

/-! ## Prefixes -/

/-- `sizeof(ChunkPrefix)`: a size, and eight bytes behind it the address of the chunk. -/
def prefixSize : ℕ := 16

/-- `kPoolAlignment`. -/
def kPoolAlignment : ℕ := prefixSize

/-- `PrepareChunk`, with the address for the user. -/
def prepareChunk (mem : Memory) (chunk alignment numBytes : ℕ) : Option (Memory × ℕ) :=
  let mem := writeWord (writeWord mem chunk numBytes) (chunk + 8) chunk
  let userPtr := chunk + prefixSize
  if kPoolAlignment < alignment then
    let alignedPtr := alignDown ((userPtr + alignment) % 2 ^ 64) alignment
    if chunk + prefixSize ≤ alignedPtr then some (writeWord mem (alignedPtr - prefixSize + 8) chunk,
      alignedPtr) else none
  else some (mem, userPtr)

/-- `FindPrefix`. -/
def findPrefix (mem : Memory) (userPtr : ℕ) : ℕ := readWord mem (userPtr - prefixSize + 8)

/-! ## The pool and the list -/

/-- `PtrRecord`. -/
structure PtrRecord where
  ptr : ℕ
  numBytes : ℕ
  prev : Option ℕ
  next : Option ℕ

/-- The chunk that it is for. -/
def PtrRecord.chunk (pr : PtrRecord) : ℕ × ℕ := (pr.ptr, pr.numBytes)

/-- The fields that change. The elements of `pool_` are in the order of the `multimap`. -/
structure State where
  poolSizeLimit : ℕ
  pool : List (ℕ × ℕ) := []
  records : ℕ → Option PtrRecord := fun _ ↦ none
  nextRecord : ℕ := 0
  lruHead : Option ℕ := none
  lruTail : Option ℕ := none
  getFromPoolCount : ℤ := 0
  putCount : ℤ := 0
  allocatedCount : ℤ := 0
  evictedCount : ℤ := 0

namespace State

/-- A change of a record. -/
def modify (s : State) (pr : ℕ) (f : PtrRecord → PtrRecord) : Option State :=
  (s.records pr).map fun record ↦
    { s with records := Function.update s.records pr (some (f record)) }

/-- `pr->next = next`. -/
def setNext (s : State) (pr : ℕ) (next : Option ℕ) : Option State := s.modify pr ({ · with next })

/-- `pr->prev = prev`. -/
def setPrev (s : State) (pr : ℕ) (prev : Option ℕ) : Option State := s.modify pr ({ · with prev })

/-- The first half of `RemoveFromList`, which is about the record before `pr`. -/
def linkPrev (s : State) (prev next : Option ℕ) : Option State :=
  match prev with
  | none => some { s with lruHead := none }
  | some before => s.setNext before next

/-- The second half, which is about the record after it. -/
def linkNext (s : State) (prev next : Option ℕ) : Option State :=
  match next with
  | none => some { s with lruTail := prev }
  | some after =>
    (s.setPrev after prev).map fun s ↦ if s.lruHead =
      none then { s with lruHead := some after } else s

/-- `RemoveFromList`. -/
def removeFromList (s : State) (pr : ℕ) : Option State :=
  (s.records pr).bind fun record ↦ (s.linkPrev record.prev record.next).bind
    (·.linkNext record.prev record.next)

/-- `AddToList`. -/
def addToList (s : State) (pr : ℕ) : Option State :=
  (s.setPrev pr none).bind fun s ↦
    match s.lruHead with
      | none =>
        if s.lruTail = none then
          (s.setNext pr none).map fun s ↦ { s with lruTail := some pr, lruHead := some pr }
        else none
      | some head =>
        ((s.setNext pr (some head)).bind (·.setPrev head (some pr))).map fun s ↦
          { s with lruHead := some pr }

/-- `delete pr`. -/
def delete (s : State) (pr : ℕ) : State := { s with records := Function.update s.records pr none }

/-- `pool_.find(numBytes)`, as the elements from the one that is found. -/
def find (s : State) (numBytes : ℕ) : List (ℕ × ℕ) := s.pool.dropWhile (·.1 ≠ numBytes)

/-- `pool_.erase(iter)`. -/
def erase (s : State) (element : ℕ × ℕ) : State := { s with pool := s.pool.erase element }

/-- `pool_.insert`. It comes behind the elements with the same key. -/
def insert (s : State) (numBytes pr : ℕ) : State :=
  { s with pool := s.pool.takeWhile (·.1 ≤ numBytes) ++ (numBytes, pr) ::
    s.pool.dropWhile (·.1 ≤ numBytes) }

/-- The end of `EvictOne`, where the limit may be raised. -/
def resize (cfg : Config) (s : State) : State :=
  let allocRequestCount := s.allocatedCount + s.getFromPoolCount
  if s.evictedCount % 1000 = 0 ∧ cfg.autoResize ∧ cfg.exceedsTolerable s.evictedCount s.putCount ∧
      allocRequestCount ≠ 0 ∧ cfg.exceedsTolerable s.allocatedCount allocRequestCount then
    { s with
      poolSizeLimit := if s.poolSizeLimit < 100 then 100 else cfg.increased s.poolSizeLimit
      putCount := 0
      allocatedCount := 0
      evictedCount := 0
      getFromPoolCount := 0 }
  else s

/-- `EvictOne`, with what is passed to `Free`. -/
def evictOne (cfg : Config) (s : State) : Option (State × (ℕ × ℕ)) := do
  let prec ← s.lruTail
  let record ← s.records prec
  let s ← s.removeFromList prec
  let element ← ((s.find record.numBytes).dropWhile (·.2 ≠ prec)).head?
  let s := { (s.erase element).delete prec with evictedCount := s.evictedCount + 1 }
  some (s.resize cfg, record.chunk)

/-- One round of the loop of `DeallocateRaw`, with what has been passed to `Free`. -/
def evictRound (cfg : Config) (s : State × List (ℕ × ℕ)) :
    (State × List (ℕ × ℕ)) ⊕ Option (State × List (ℕ × ℕ)) :=
  if s.1.poolSizeLimit ≤ s.1.pool.length then
    match s.1.evictOne cfg with
    | none => .inr none
    | some (s', freed) => .inl (s', s.2 ++ [freed])
  else .inr (some s)

/-- The loop. The pool gets smaller in each round. -/
def evict (cfg : Config) (s : State) : Option (State × List (ℕ × ℕ)) :=
  (Rounds.loop (evictRound cfg) (s.pool.length + 1) (s, [])).join

/-- A new record for a chunk, in the list and in the pool. -/
def put (s : State) (chunk numBytes : ℕ) : Option State :=
  let pr := s.nextRecord
  let s := { s with
    records := Function.update s.records pr (some ⟨chunk, numBytes, none, none⟩)
    nextRecord := pr + 1 }
  (s.addToList pr).map (·.insert numBytes pr)

end State

/-! ## The calls -/

/-- What `AllocateRaw` returns and changes, and the chunk it has used. -/
structure Allocation where
  state : State
  mem : Memory
  ptr : ℕ
  chunk : ℕ := 0
  size : ℕ := 0
  fromPool : Bool := true

/-- The size of the chunk for a request. -/
def chunkSize (cfg : Config) (alignment numBytes : ℕ) : ℕ :=
  let numBytes := if kPoolAlignment < alignment then (numBytes + alignment) % 2 ^ 64 else numBytes
  cfg.roundUp ((numBytes + prefixSize) % 2 ^ 64)

/-- The chunk, from the pool if there is one of its size, and `fresh` from the `SubAllocator`
otherwise. -/
def takeChunk (cfg : Config) (s : State) (numBytes fresh : ℕ) : Option (State × ℕ × Bool) :=
  if cfg.hasSizeLimit then
    match (s.find numBytes).head? with
    | none => some ({ s with allocatedCount := s.allocatedCount + 1 }, fresh, false)
    | some element => do
      let s ← { s with getFromPoolCount := s.getFromPoolCount + 1 }.removeFromList element.2
      let record ← s.records element.2
      some ((s.erase element).delete element.2, record.ptr, true)
  else some (s, fresh, false)

/-- `AllocateRaw`. -/
def allocateRaw (cfg : Config) (s : State) (mem : Memory) (alignment numBytes fresh : ℕ) :
    Option Allocation :=
  if numBytes = 0 then some { state := s, mem, ptr := 0 }
  else do
    let size := chunkSize cfg alignment numBytes
    let (state, chunk, fromPool) ← takeChunk cfg s size fresh
    let (mem, ptr) ← prepareChunk mem chunk alignment size
    some { state, mem, ptr, chunk, size, fromPool }

/-- `DeallocateRaw`, with what is passed to `Free`. -/
def deallocateRaw (cfg : Config) (s : State) (mem : Memory) (ptr : ℕ) :
    Option (State × List (ℕ × ℕ)) :=
  if ptr = 0 then some (s, [])
  else
    let cp := findPrefix mem ptr
    if cp ≤ ptr then
      if cfg.hasSizeLimit = false ∧ cfg.autoResize = false then some (s, [(cp, readWord mem cp)])
      else do
        let (s, freed) ← { s with putCount := s.putCount + 1 }.evict cfg
        let s ← s.put cp (readWord mem cp)
        some (s, freed)
    else none

/-- `Clear`. -/
def clear (cfg : Config) (s : State) : State × List (ℕ × ℕ) :=
  if cfg.hasSizeLimit then
    ({ s with
        pool := []
        records := fun pr ↦ if pr ∈ s.pool.map Prod.snd then none else s.records pr
        lruHead := none
        lruTail := none
        getFromPoolCount := 0
        putCount := 0
        allocatedCount := 0
        evictedCount := 0 },
      s.pool.filterMap fun element ↦ (s.records element.2).map PtrRecord.chunk)
  else (s, [])

/-! ## Programs that use it -/

/-- A pointer that has been returned and not passed back, with the request and the chunk. -/
structure Live where
  ptr : ℕ
  alignment : ℕ
  numBytes : ℕ
  chunk : ℕ
  size : ℕ
deriving DecidableEq

/-- The allocator in a program, with the chunks that the `SubAllocator` has given and not got
back. -/
structure System where
  state : State
  mem : Memory
  live : List Live := []
  held : List (ℕ × ℕ) := []

/-- Two ranges of addresses do not overlap. -/
def Separate (c d : ℕ × ℕ) : Prop := c.1 + c.2 ≤ d.1 ∨ d.1 + d.2 ≤ c.1

/-- What the `SubAllocator` gives: a new chunk, aligned to `kPoolAlignment`. -/
def Fresh (held : List (ℕ × ℕ)) (c : ℕ × ℕ) : Prop :=
  kPoolAlignment ∣ c.1 ∧ 0 < c.1 ∧ c.1 + c.2 ≤ 2 ^ 64 ∧ ∀ d ∈ held, Separate c d

/-- The bytes of a chunk that its user must leave as they are: all but those that were asked for. -/
def KeepsPrefix (mem mem' : Memory) (a : Live) : Prop :=
  AgreeOn mem mem' a.chunk (a.ptr - a.chunk) ∧
    AgreeOn mem mem' (a.ptr + a.numBytes) (a.chunk + a.size - (a.ptr + a.numBytes))

/-- A request for which no sum overflows. -/
def Fits (cfg : Config) (alignment numBytes : ℕ) : Prop :=
  let total := numBytes + (if kPoolAlignment < alignment then alignment else 0) + prefixSize
  (∃ k, alignment = 2 ^ k) ∧ 0 < numBytes ∧ total < 2 ^ 64 ∧ cfg.roundUp total < 2 ^ 64

/-- The steps of a program. -/
inductive Step (cfg : Config) : System → System → Prop
  | allocate {s : System} {alignment numBytes fresh : ℕ} {a : Allocation}
      (hfits : Fits cfg alignment numBytes)
      (ha : allocateRaw cfg s.state s.mem alignment numBytes fresh = some a)
      (hfresh : a.fromPool = false → Fresh s.held (fresh, a.size)) :
      Step cfg s {
        state := a.state
        mem := a.mem
        live := ⟨a.ptr, alignment, numBytes, a.chunk, a.size⟩ :: s.live
        held := if a.fromPool then s.held else (fresh, a.size) :: s.held }
  | deallocate {s : System} {a : Live} {state : State} {freed : List (ℕ × ℕ)} (ha : a ∈ s.live)
      (hstate : deallocateRaw cfg s.state s.mem a.ptr = some (state, freed)) :
      Step cfg s { s with state, live := s.live.erase a, held := s.held.diff freed }
  | clear {s : System} :
      Step cfg s { s with state := (clear cfg s.state).1, held := s.held.diff (clear cfg
      s.state).2 }
  | write {s : System} {mem : Memory} (hmem : ∀ a ∈ s.live, KeepsPrefix s.mem mem a) : Step cfg s
      { s with mem }

/-- The states that a program can come to. -/
inductive Reachable (cfg : Config) : System → Prop
  | init (mem : Memory) : Reachable cfg { state := { poolSizeLimit := cfg.poolSizeLimit }, mem }
  | step {s s' : System} : Reachable cfg s → Step cfg s s' → Reachable cfg s'

end TensorFlowCore.PoolAllocator
