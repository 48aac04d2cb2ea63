import TensorFlowCore.Core.Status
import TensorFlowCore.Support.Rounds

/-!
# `PresizedCuckooMap`

The hash table of `tensorflow/core/util/presized_cuckoo_map.h`: buckets of four slots, and two
buckets for each key. Where both are full, `CuckooInsert` looks for a free slot breadth-first, from
a bucket to the other buckets of its keys, and then moves the keys on the path one place on.

The arrays of the queue and of the visited buckets stay with the table and are used again for the
next search; `overrun` records a write behind the end of one of them. The number of entries divided
by `kLoadFactor` is a parameter.
-/

namespace TensorFlowCore

/-- `CuckooPathEntry`. -/
structure CuckooPathEntry where
  bucket : ℕ := 0
  depth : ℕ := 0
  /-- To index in the visited array. -/
  parent : ℕ := 0
  parentSlot : Fin 4 := 0
  deriving DecidableEq

/-- What the constructor of an entry leaves. -/
def CuckooPathEntry.blank : CuckooPathEntry := {}

/-- `CuckooPathQueue`, "a trivial circular queue for path entries". -/
structure CuckooPathQueue where
  queue : ℕ → CuckooPathEntry
  head : ℕ
  tail : ℕ

/-- A slot of a bucket. -/
abbrev Cell : Type := ℕ × Fin 4

structure PresizedCuckooMap (α : Type) where
  numBuckets : ℕ
  keys : Cell → UInt64
  values : Cell → α
  cpq : CuckooPathQueue
  visited : ℕ → CuckooPathEntry

namespace PresizedCuckooMap

def kMaxBFSPathLen : ℕ := 5

def kMaxQueueSize : ℕ := 682

def kVisitedListSize : ℕ := 170

def kUnusedSlot : UInt64 := ~~~0

end PresizedCuckooMap

namespace CuckooPathQueue

open PresizedCuckooMap

def pushBack (q : CuckooPathQueue) (e : CuckooPathEntry) : CuckooPathQueue :=
  { q with queue := Function.update q.queue q.tail e, tail := (q.tail + 1) % kMaxQueueSize }

/-- `pop_front`: the entry, and the queue without it. -/
def popFront (q : CuckooPathQueue) : CuckooPathEntry × CuckooPathQueue :=
  (q.queue q.head, { q with head := (q.head + 1) % kMaxQueueSize })

def isEmpty (q : CuckooPathQueue) : Bool := q.head = q.tail

def isFull (q : CuckooPathQueue) : Bool := (q.tail + 1) % kMaxQueueSize = q.head

def reset (q : CuckooPathQueue) : CuckooPathQueue := { q with head := 0, tail := 0 }

end CuckooPathQueue

namespace PresizedCuckooMap

variable {α : Type}

/-! ## The buckets of a key -/

/-- `multiply_high_u64`. -/
def multiplyHighU64 (x : UInt64) (y : ℕ) : ℕ := x.toNat * y / 2 ^ 64

/-- `key_transform`. -/
def keyTransform (k : UInt64) : UInt64 := if k = kUnusedSlot then k + 1 else k

/-- `h2`. -/
def h2 (h : UInt64) : UInt64 := hash64Mul * (h >>> 32 ||| h <<< 32)

def fastMapToBuckets (m : PresizedCuckooMap α) (x : UInt64) : ℕ := multiplyHighU64 x m.numBuckets

/-- The other bucket for the key. -/
def altBucket (m : PresizedCuckooMap α) (k : UInt64) (b : ℕ) : ℕ :=
  if m.fastMapToBuckets k ≠ b then m.fastMapToBuckets k else m.fastMapToBuckets (h2 k)

/-! ## Reading and writing slots -/

/-- `Clear`, with the number of entries divided by the load factor. -/
def clear [Inhabited α] (m : PresizedCuckooMap α) (loaded : UInt64) : PresizedCuckooMap α where
  numBuckets := loaded.toNat / 4 + 32
  keys _ := kUnusedSlot
  values _ := default
  cpq := ⟨fun _ ↦ {}, 0, 0⟩
  visited := m.visited

/-- `InsertInternal`. -/
def insertInternal (m : PresizedCuckooMap α) (k : UInt64) (v : α) (c : Cell) :
    PresizedCuckooMap α :=
  { m with keys := Function.update m.keys c k, values := Function.update m.values c v }

/-- `CopyItem`. -/
def copyItem (m : PresizedCuckooMap α) (src dst : Cell) : PresizedCuckooMap α :=
  { m with
    keys := Function.update m.keys dst (m.keys src)
    values := Function.update m.values dst (m.values src) }

/-- `FindInBucket`. -/
def findInBucket (m : PresizedCuckooMap α) (k : UInt64) (b : ℕ) : Option α :=
  ((List.finRange 4).find? fun slot ↦ m.keys (b, slot) = k).map fun slot ↦ m.values (b, slot)

/-- `SpaceAvailable`. -/
def spaceAvailable (m : PresizedCuckooMap α) (b : ℕ) : Option (Fin 4) :=
  (List.finRange 4).find? fun slot ↦ m.keys (b, slot) = kUnusedSlot

/-- `Find`. -/
def find (m : PresizedCuckooMap α) (k : UInt64) : Option α :=
  (m.findInBucket k (m.fastMapToBuckets (keyTransform k))).or
    (m.findInBucket k (m.fastMapToBuckets (h2 (keyTransform k))))

/-! ## The path search -/

/-- The state of the search. -/
structure Search where
  cpq : CuckooPathQueue
  visited : ℕ → CuckooPathEntry
  visitedEnd : ℕ
  overrun : Bool

/-- The search ends at an entry with a free slot, or nowhere. -/
structure Found where
  search : Search
  free : Option (CuckooPathEntry × Fin 4)

/-- `cpq_->push_back(e)`. -/
def Search.pushBack (s : Search) (e : CuckooPathEntry) : Search :=
  { s with cpq := s.cpq.pushBack e, overrun := s.overrun || s.cpq.isFull }

/-- `visited_[visited_end] = e`. -/
def Search.visit (s : Search) (e : CuckooPathEntry) : Search :=
  { s with
    visited := Function.update s.visited s.visitedEnd e
    visitedEnd := s.visitedEnd + 1
    overrun := s.overrun || decide (kVisitedListSize ≤ s.visitedEnd) }

/-- The two roots. -/
def startSearch (m : PresizedCuckooMap α) (b1 b2 : ℕ) : Search :=
  ((⟨m.cpq.reset, m.visited, 0, false⟩ : Search).pushBack ⟨b1, 1, 0, 0⟩).pushBack ⟨b2, 1, 0, 0⟩

/-- The bucket that is reached from a slot of the bucket of `e`, unless that is the bucket of the
parent of `e`. -/
def pushChild (m : PresizedCuckooMap α) (e : CuckooPathEntry) (parentIndex : ℕ) (s : Search)
    (slot : Fin 4) :
    Search :=
  let nextBucket := m.altBucket (m.keys (e.bucket, slot)) e.bucket
  if nextBucket ≠ (s.visited e.parent).bucket then s.pushBack ⟨nextBucket, e.depth + 1, parentIndex,
    slot⟩ else s

/-- The slots, from `start_slot` on. -/
def slotsFrom (k : UInt64) (b : ℕ) : List (Fin 4) :=
  (List.finRange 4).map fun i ↦ Fin.ofNat 4 ((k + b.toUInt64).toNat % 4 + i)

/-- One round of the loop. -/
def searchRound (m : PresizedCuckooMap α) (k : UInt64) (s : Search) : Search ⊕ Found :=
  if s.cpq.isEmpty then .inr ⟨s, none⟩
  else
    let (e, cpq) := s.cpq.popFront
    let s := { s with cpq }
    match m.spaceAvailable e.bucket with
    | some freeSlot => .inr ⟨s, some (e, freeSlot)⟩
    | none =>
      if e.depth < kMaxBFSPathLen then
        .inl ((slotsFrom k e.bucket).foldl (pushChild m e s.visitedEnd) (s.visit e))
      else .inl s

/-- The search. Each round takes an entry from the queue, and no more than `kMaxQueueSize` are put
there. -/
def search (m : PresizedCuckooMap α) (k : UInt64) (b1 b2 : ℕ) : Option Found :=
  Rounds.loop (searchRound m k) (kMaxQueueSize + 1) (startSearch m b1 b2)

/-! ## Insertion -/

/-- The keys on the path are copied to where the next one was, from the free slot back to the root:
the slot that can be written to in the end. -/
def moveBack (visited : ℕ → CuckooPathEntry) :
    ℕ → PresizedCuckooMap α → CuckooPathEntry → Fin 4 → PresizedCuckooMap α × Cell
  | 0, m, e, freeSlot => (m, e.bucket, freeSlot)
  | rounds + 1, m, e, freeSlot =>
    if 1 < e.depth then
      let parent := visited e.parent
      moveBack visited rounds (m.copyItem (parent.bucket, e.parentSlot) (e.bucket, freeSlot)) parent
      e.parentSlot
    else (m, e.bucket, freeSlot)

/-- `CuckooInsert`. -/
def cuckooInsert (m : PresizedCuckooMap α) (k : UInt64) (v : α) (b1 b2 : ℕ) :
    Bool × PresizedCuckooMap α :=
  match m.search k b1 b2 with
  | none => (false, m)
  | some ⟨s, none⟩ => (false, { m with cpq := s.cpq, visited := s.visited })
  | some ⟨s, some (e, freeSlot)⟩ =>
    let moved := moveBack s.visited e.depth { m with cpq := s.cpq, visited := s.visited } e freeSlot
    (true, moved.1.insertInternal k v moved.2)

/-- The slots of the two buckets, in the order in which `InsertUnique` looks at them. -/
def slotsOf (b1 b2 : ℕ) : List Cell :=
  (List.finRange 4).map (b1, ·) ++ (List.finRange 4).map (b2, ·)

/-- `InsertUnique`. -/
def insertUnique (m : PresizedCuckooMap α) (k : UInt64) (v : α) : Bool × PresizedCuckooMap α :=
  let tk := keyTransform k
  let b1 := m.fastMapToBuckets tk
  let b2 := m.fastMapToBuckets (h2 tk)
  -- a slot that holds `k` ends the loop, and otherwise the first one that is free is taken
  if (slotsOf b1 b2).any fun c ↦ m.keys c = k then (false, m)
  else
    match (slotsOf b1 b2).find? fun c ↦ m.keys c = kUnusedSlot with
    | some target => (true, m.insertInternal tk v target)
    | none => m.cuckooInsert tk v b1 b2

end PresizedCuckooMap

end TensorFlowCore
