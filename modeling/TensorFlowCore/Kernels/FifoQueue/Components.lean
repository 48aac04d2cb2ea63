import Mathlib.Data.List.FinRange
import TensorFlowCore.Kernels.QueueBase.Model

/-!
# The component queues of `FIFOQueue`

`FIFOQueue` of `tensorflow/core/kernels/fifo_queue.cc` with a deque for each component of its
elements, and with copies that can fail: `allocate_persistent` at any element of a batch and any
component of it, and the copies for the data types that they do not handle. (In `FIFOQueue` itself
the elements are pushed as a whole, and no copy fails.)

The closures push and pop the components one by one. An error returns from the middle of the loop
over the components when a batch is enqueued; when a batch is put back it does not, and the deque
gets a tensor that is not initialized.
-/

namespace TensorFlowCore

open QueueBase

/-- The deques `queues_`. A `PersistentTensor` has a tensor, or is not initialized. -/
structure ComponentQueues (n : ℕ) (β : Type) where
  componentDtypes : Fin n → DataType
  queues : Fin n → List (Option β)

/-- The tensors of an element. -/
abbrev ComponentTuple (n : ℕ) (β : Type) : Type := Fin n → Option β

namespace ComponentQueues

variable {n : ℕ} [NeZero n] {β : Type}

/-- A new queue. -/
def empty (componentDtypes : Fin n → DataType) : ComponentQueues n β :=
  ⟨componentDtypes, fun _ ↦ []⟩

/-- `queues_[0].size()`. -/
def size (c : ComponentQueues n β) : ℕ := (c.queues 0).length

/-- `queues_[i].push_back(element)`. -/
def pushBack (c : ComponentQueues n β) (i : Fin n) (element : Option β) : ComponentQueues n β :=
  { c with queues := Function.update c.queues i (c.queues i ++ [element]) }

/-- `queues_[i].push_front(element)`. -/
def pushFront (c : ComponentQueues n β) (i : Fin n) (element : Option β) : ComponentQueues n β :=
  { c with queues := Function.update c.queues i (element :: c.queues i) }

/-- `DequeueLocked`. The front of an empty deque is undefined. -/
def dequeueLocked (c : ComponentQueues n β) : Option (ComponentTuple n β × ComponentQueues n β) :=
  if h : ∀ i, c.queues i ≠ [] then
    some (fun i ↦ (c.queues i).head (h i), { c with queues := fun i ↦ (c.queues i).tail })
  else none

/-- `OpKernelContext::SetStatus`, which keeps the first error. -/
def setStatus (status update : Status) : Status := if status = .ok then update else status

/-- The loop over the components in the closure of `TryEnqueue`. -/
def pushAll (tuple : ComponentTuple n β) : List (Fin n) → ComponentQueues n β → ComponentQueues n β
  | [], c => c
  | i :: components, c => pushAll tuple components (c.pushBack i (tuple i))

section

-- what `allocate_persistent` answers for a component at an index of a batch
variable (allocate : ℕ → Fin n → Status)

/-- The status of `GetElementComponentFromBatch`. -/
def componentStatus (c : ComponentQueues n β) (index : ℕ) (i : Fin n) : Status :=
  elementStatus (allocate index i) (c.componentDtypes i)

/-- The loop over the components in the closure of `TryEnqueueMany`. -/
def copyAll (tuple : ComponentTuple n β) (index : ℕ) :
    List (Fin n) → ComponentQueues n β → ComponentQueues n β × Status
  | [], c => (c, .ok)
  | i :: components, c =>
    let status := c.componentStatus allocate index i
    if status ≠ .ok then (c, status)
    else copyAll tuple index components (c.pushBack i (tuple i))

/-- `errors::DataLoss` of a component that cannot be put back. -/
def restoreStatus (s : Status) : Status :=
  .error .dataLoss [ascii "Failed to restore element from partially-dequeued batch to FIFOQueue: ",
    s.errorMessage].flatten

/-- The loop over the components that puts an element back. What cannot be copied is pushed as it
is. -/
def restoreElement (tuple : ComponentTuple n β) (index : ℕ) :
    List (Fin n) → ComponentQueues n β → Status → ComponentQueues n β × Status
  | [], c, status => (c, status)
  | i :: components, c, status =>
    let copied := c.componentStatus allocate index i
    if copied ≠ .ok then
      restoreElement tuple index components (c.pushFront i none)
        (setStatus status (restoreStatus copied))
    else restoreElement tuple index components (c.pushFront i (tuple i)) status

/-- "Restore already-dequeued elements to the front of the queue": put the slots below `k` back, the
last one first. A slot that has not been filled has no tensors. -/
def restore (slots : List (Option (ComponentTuple n β))) :
    ℕ → ComponentQueues n β → Status → ComponentQueues n β × Status
  | 0, c, status => (c, status)
  | k + 1, c, status =>
    let tuple := (slots[k]?.getD none).getD fun _ ↦ none
    let (c, status) := c.restoreElement allocate tuple k (List.finRange n) status
    restore slots k c status

/-- The copies of the components of an element to a slot, with the status of the context after them.
What the copy of a tensor that is not initialized does is left open. -/
def copyToSlot (c : ComponentQueues n β) (tuple : ComponentTuple n β) : List (Fin n) → Status →
    Option Status
  | [], status => some status
  | i :: components, status =>
    (tuple i).bind fun _ ↦
      let status := setStatus status
        ((copyError (ascii "CopyElementToSlice") (c.componentDtypes i)).getD .ok)
      if status = .ok then copyToSlot c tuple components status else some status

def queueOps : QueueOps (ComponentQueues n β) (ComponentTuple n β) where
  className := ascii "FIFOQueue"
  size := size
  reserve _ := 0
  indexType := .int64
  push tuple c := (c.pushAll tuple (List.finRange n), .ok)
  pushFrom tuple index c := c.copyAll allocate tuple index (List.finRange n)
  dequeueLocked := dequeueLocked
  copyToSlice c tuple := c.copyToSlot tuple (List.finRange n)
  unspecifiedShapes := invalidArgument [
    ascii "FIFOQueue's DequeueMany and DequeueUpTo require the ",
    ascii "components to have specified shapes."]

/-- The closures of `FIFOQueue`. -/
def queueClass : QueueClass (ComponentQueues n β) (ComponentTuple n β) where
  toQueueOps := queueOps allocate
  runDequeueMany := runDequeueMany (queueOps allocate) (restore allocate)

end

abbrev System (n : ℕ) (β : Type) : Type :=
  QueueBase.System (ComponentQueues n β) (ComponentTuple n β)

/-- What a client or a thread does, with what the allocations in it answer. -/
abbrev Step (n : ℕ) (β : Type) : Type :=
  (ℕ → Fin n → Status) × QueueBase.System.Action (ComponentTuple n β)

/-- A step of the queue. -/
def step (s : System n β) (action : Step n β) : Option (System n β) :=
  QueueBase.System.step (queueClass action.1) s action.2

/-- A new queue. -/
def init (capacity : ℕ) (name : ByteString) (specifiedShapes : Bool) (componentDtypes : Fin n →
    DataType) :
    System n β :=
  QueueBase.System.init capacity name specifiedShapes (empty componentDtypes)

end ComponentQueues

end TensorFlowCore
