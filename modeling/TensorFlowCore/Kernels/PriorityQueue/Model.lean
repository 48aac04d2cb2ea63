import Mathlib.Data.List.FinRange
import TensorFlowCore.Kernels.QueueBase.Model
import TensorFlowCore.Support.PriorityHeap

/-!
# `PriorityQueue`

The queue of `tensorflow/core/kernels/priority_queue.cc`. Each component has a `std::priority_queue`
of its own in `queues_`, whose elements are pairs with the priority of the element; component 0
holds the priority.

`scalar` reads a component as a scalar: its value, or the `DebugString` of its shape if it is no
scalar. A priority is an `int64`, of which only the order matters.

The closure of `TryEnqueueMany` copies the components out of the batch one by one, component 0
twice, since its first copy is what the priority is read from. A copy fails if `allocate_persistent`
does, or for the data types that it does not handle, and then the components before are in the queue
already. The closures of the dequeues do not look at the status of `allocate_temp`, which succeeds
here.
-/

namespace TensorFlowCore

open QueueBase

/-- What `PriorityQueue` adds to `QueueBase`, for elements of `n` components. -/
structure PriorityQueue (n : ℕ) (β : Type) where
  componentDtypes : Fin n → DataType
  queues : Fin n → List (ℤ × β)

namespace PriorityQueue

/-- What `allocate_persistent` answers in `GetElementComponentFromBatch` for an index of a batch:
for `priority_element`, and for the element of each component. -/
structure Allocations (n : ℕ) where
  priorityElement : ℕ → Status
  element : ℕ → Fin n → Status

/-- Every allocation succeeds. -/
def Allocations.ok {n : ℕ} : Allocations n := ⟨fun _ ↦ .ok, fun _ _ ↦ .ok⟩

variable {n : ℕ} [NeZero n] {β : Type}

/-- `queues_[0].size()`. -/
def size (c : PriorityQueue n β) : ℕ := (c.queues 0).length

/-- A new queue. -/
def empty (componentDtypes : Fin n → DataType) : PriorityQueue n β := ⟨componentDtypes, fun _ ↦ []⟩

section

variable (H : PriorityHeap ℤ) (scalar : β → Except ByteString ℤ) (allocate : Allocations n)

/-- `queues_[i].emplace(priority, element)`. -/
def emplace (c : PriorityQueue n β) (priority : ℤ) (i : Fin n) (element : β) : PriorityQueue n β :=
  { c with queues := Function.update c.queues i (H.push (priority, element) (c.queues i)) }

/-- `DequeueLocked`. The top of an empty heap is undefined. -/
def dequeueLocked (c : PriorityQueue n β) : Option ((Fin n → β) × PriorityQueue n β) :=
  if h : ∀ i, (H.pop (c.queues i)).isSome then
    some (fun i ↦ ((H.pop (c.queues i)).get (h i)).1.2,
      { c with queues := fun i ↦ ((H.pop (c.queues i)).get (h i)).2 })
  else none

/-- `errors::InvalidArgument` of an element whose priority is no scalar. -/
def notScalarStatus (shape : ByteString) : Status :=
  invalidArgument
    [ascii "Expected the priority element to be a scalar, but received shape: ", shape]

/-- The loop over the components in the closure of `TryEnqueue`. -/
def emplaceAll (tuple : Fin n → β) (priority : ℤ) :
    List (Fin n) → PriorityQueue n β → PriorityQueue n β
  | [], c => c
  | i :: components, c => emplaceAll tuple priority components (c.emplace H priority i (tuple i))

/-- The closure of `TryEnqueue`, for a queue that is open and not full. -/
def push (tuple : Fin n → β) (c : PriorityQueue n β) : PriorityQueue n β × Status :=
  match scalar (tuple 0) with
  | .error shape => (c, notScalarStatus shape)
  | .ok priority => (c.emplaceAll H tuple priority (List.finRange n), .ok)

/-- The status of `GetElementComponentFromBatch` for `priority_element`. -/
def priorityStatus (componentDtypes : Fin n → DataType) (index : ℕ) : Status :=
  elementStatus (allocate.priorityElement index) (componentDtypes 0)

/-- The status of `GetElementComponentFromBatch` for the element of a component. -/
def componentStatus (componentDtypes : Fin n → DataType) (index : ℕ) (i : Fin n) : Status :=
  elementStatus (allocate.element index i) (componentDtypes i)

/-- The loop over the components in the closure of `TryEnqueueMany`. -/
def copyAll (tuple : Fin n → β) (priority : ℤ) (index : ℕ) :
    List (Fin n) → PriorityQueue n β → PriorityQueue n β × Status
  | [], c => (c, .ok)
  | i :: components, c =>
    let status := componentStatus allocate c.componentDtypes index i
    if status ≠ .ok then (c, status)
    else copyAll tuple priority index components (c.emplace H priority i (tuple i))

/-- The body of the loop in the closure of `TryEnqueueMany`. -/
def pushFrom (tuple : Fin n → β) (index : ℕ) (c : PriorityQueue n β) : PriorityQueue n β × Status :=
  let status := priorityStatus allocate c.componentDtypes index
  if status ≠ .ok then (c, status)
  else
    match scalar (tuple 0) with
    | .error shape => (c, notScalarStatus shape)
    | .ok priority => c.copyAll H allocate tuple priority index (List.finRange n)

/-- The error of the copies of the components of an element to a slot, if one is not handled. -/
def copyToSliceError (componentDtypes : Fin n → DataType) : Option Status :=
  (List.finRange n).findSome? fun i ↦
    copyError (ascii "CopyElementToSlice") (componentDtypes i)

def queueOps : QueueOps (PriorityQueue n β) (Fin n → β) where
  className := ascii "PriorityQueue"
  size := size
  reserve _ := 0
  indexType := .int
  push := push H scalar
  pushFrom tuple index c := c.pushFrom H scalar allocate tuple index
  dequeueLocked := dequeueLocked H
  copyToSlice c _ status :=
    some (if status = .ok then (copyToSliceError c.componentDtypes).getD .ok else status)
  unspecifiedShapes := invalidArgument [ascii "PriorityQueue's DequeueMany requires the ",
    ascii "components to have specified shapes."]

/-- The closure of `TryDequeueMany`. -/
def runDequeueMany (q : QueueBase (PriorityQueue n β) (Fin n → β)) (a : DequeueAttempt (Fin n → β))
    (allowSmallBatch : Bool) : Option (DequeueRun (PriorityQueue n β) (Fin n → β)) :=
  let ops := queueOps H scalar allocate
  let s := q.queues.size
  if q.closed ∧ (s = 0 ∨ ¬ allowSmallBatch ∧ (s : ℤ) < a.elementsRequested) then
    some ⟨.complete, q.queues, a.setStatus (insufficient ops q.name a.elementsRequested s),
      (collected a).map .lost⟩
  -- "The PriorityQueue is expected to always return a sorted set of entries."
  else if (s : ℤ) < a.elementsRequested ∧ (s = 0 ∨ ¬ (q.closed ∧ allowSmallBatch)) then
    some ⟨.noProgress, q.queues, a, []⟩
  else dequeueLoop ops s q.queues a .noProgress

/-- The closures of `PriorityQueue`. -/
def queueClass : QueueClass (PriorityQueue n β) (Fin n → β) where
  toQueueOps := queueOps H scalar allocate
  runDequeueMany := runDequeueMany H scalar allocate

end

abbrev System (n : ℕ) (β : Type) : Type := QueueBase.System (PriorityQueue n β) (Fin n → β)

/-- What a client or a thread does, with what the allocations in it answer. -/
abbrev Step (n : ℕ) (β : Type) : Type := Allocations n × QueueBase.System.Action (Fin n → β)

/-- A step of the queue. -/
def step (H : PriorityHeap ℤ) (scalar : β → Except ByteString ℤ) (s : System n β)
    (action : Step n β) :
    Option (System n β) :=
  QueueBase.System.step (queueClass H scalar action.1) s action.2

/-- A new queue. -/
def init (capacity : ℕ) (name : ByteString) (specifiedShapes : Bool) (componentDtypes : Fin n →
    DataType) :
    System n β :=
  QueueBase.System.init capacity name specifiedShapes (empty componentDtypes)

end PriorityQueue

end TensorFlowCore
