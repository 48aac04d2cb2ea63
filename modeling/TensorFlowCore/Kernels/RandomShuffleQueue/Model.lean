import TensorFlowCore.Kernels.QueueBase.Model

/-!
# `RandomShuffleQueue`

The queue of `tensorflow/core/kernels/random_shuffle_queue_op.cc`. Each component has a vector of
its own in `queues_`, and a dequeue fills the hole that it leaves at a random index with the last
element. No copy of a tensor fails.

The sizes are an `int32` in the source. They stay below the capacity, or below the number of
elements that a dequeue has requested, which are `int32` values too.
-/

namespace TensorFlowCore

/-- What `RandomShuffleQueue` adds to `QueueBase`, for elements of `n` components. The vectors have
the same size. -/
structure RandomShuffleQueue (n : ℕ) [NeZero n] (β : Type) where
  minAfterDequeue : ℕ
  /-- The samples that `generator_` is going to return. -/
  generator : ℕ → UInt32
  queues : Fin n → List β
  aligned : ∀ i, (queues i).length = (queues 0).length

namespace RandomShuffleQueue

variable {n : ℕ} [NeZero n] {β : Type}

/-- `queues_[0].size()`. -/
def size (c : RandomShuffleQueue n β) : ℕ := (c.queues 0).length

/-- A new queue. -/
def empty (minAfterDequeue : ℕ) (generator : ℕ → UInt32) : RandomShuffleQueue n β where
  minAfterDequeue
  generator
  queues _ := []
  aligned _ := rfl

/-- Push an element, component by component. -/
def push (c : RandomShuffleQueue n β) (tuple : Fin n → β) : RandomShuffleQueue n β :=
  { c with
    queues := fun i ↦ c.queues i ++ [tuple i]
    aligned := fun i ↦ by rw [List.length_append, List.length_append, c.aligned i]; rfl }

/-- `queues_[i][index] = queues_[i].back()` and `queues_[i].pop_back()`. -/
def fillHole (index : ℕ) (queue : List β) : List β :=
  match queue.getLast? with
  | none => []
  | some back => (queue.set index back).dropLast

theorem length_fillHole (index : ℕ) (queue : List β) :
    (fillHole index queue).length = queue.length - 1 := by
  unfold fillHole
  split
  next h => rw [List.getLast?_eq_none_iff.1 h]; rfl
  next => rw [List.length_dropLast, List.length_set]

/-- `DequeueLocked`, which needs an element. -/
def dequeueLocked (c : RandomShuffleQueue n β) : Option ((Fin n → β) × RandomShuffleQueue n β) :=
  if h : 0 < c.size then
    let index := (c.generator 0).toNat % c.size
    have hindex (i : Fin n) : index < (c.queues i).length := (c.aligned i).symm ▸ Nat.mod_lt _ h
    some (fun i ↦ (c.queues i).get ⟨index, hindex i⟩, { c with
      generator := fun k ↦ c.generator (k + 1)
      queues := fun i ↦ fillHole index (c.queues i)
      aligned := fun i ↦ by rw [length_fillHole, length_fillHole, c.aligned i] })
  else none

/-- "Restore already-dequeued elements to the queue": push the slots below `k`, the last one first.
The copies leave the status as it is. -/
def restore (slots : List (Option (Fin n → β))) :
    ℕ → RandomShuffleQueue n β → Status → RandomShuffleQueue n β × Status
  | 0, c, status => (c, status)
  | k + 1, c, status =>
    match slots[k]? with
    | some (some tuple) => restore slots k (c.push tuple) status
    | _ => restore slots k c status

def queueOps : QueueOps (RandomShuffleQueue n β) (Fin n → β) where
  className := ascii "RandomShuffleQueue"
  size := size
  reserve c := c.minAfterDequeue
  indexType := .int
  push tuple c := (c.push tuple, .ok)
  pushFrom tuple _ c := (c.push tuple, .ok)
  dequeueLocked := dequeueLocked
  copyToSlice _ _ status := some status
  unspecifiedShapes := invalidArgument [
    ascii "RandomShuffleQueue's DequeueMany and DequeueUpTo require the ",
    ascii "components to have specified shapes."]

/-- The closures of `RandomShuffleQueue`. -/
def queueClass : QueueClass (RandomShuffleQueue n β) (Fin n → β) where
  toQueueOps := queueOps
  runDequeueMany := QueueBase.runDequeueMany queueOps restore

end RandomShuffleQueue

end TensorFlowCore
