import TensorFlowCore.Kernels.QueueBase.Model

/-!
# `FIFOQueue`

The queue of `tensorflow/core/kernels/fifo_queue.cc`: what it does with the contents, on top of
`QueueBase`.

An element is a tuple with one tensor for each component. The components are pushed and popped
together, so `queues_` is one list of elements here, whatever their number. Copies of tensors and
allocations succeed; only an index beyond a batch, which the narrowing of a batch size to `int32`
can lead to, is a failed copy.
-/

namespace TensorFlowCore

namespace FIFOQueue

variable {α : Type}

/-- `DequeueLocked`, which needs an element. -/
def dequeueLocked : List α → Option (α × List α)
  | [] => none
  | tuple :: queues => some (tuple, queues)

/-- Push the slots below `k` back "to the front of the queue", the last one first. The copies leave
the status as it is. -/
def restore (slots : List (Option α)) : ℕ → List α → Status → List α × Status
  | 0, queues, status => (queues, status)
  | k + 1, queues, status =>
    match slots[k]? with
    | some (some tuple) => restore slots k (tuple :: queues) status
    | _ => restore slots k queues status

def queueOps : QueueOps (List α) α where
  className := ascii "FIFOQueue"
  size := List.length
  reserve _ := 0
  indexType := .int64
  push tuple queues := (queues ++ [tuple], .ok)
  pushFrom tuple _ queues := (queues ++ [tuple], .ok)
  dequeueLocked := dequeueLocked
  copyToSlice _ _ status := some status
  unspecifiedShapes := invalidArgument [
    ascii "FIFOQueue's DequeueMany and DequeueUpTo require the ",
    ascii "components to have specified shapes."]

/-- The closures of `FIFOQueue`. -/
def queueClass : QueueClass (List α) α where
  toQueueOps := queueOps
  runDequeueMany := QueueBase.runDequeueMany queueOps restore

abbrev System (α : Type) : Type := QueueBase.System (List α) α

abbrev Action (α : Type) : Type := QueueBase.System.Action α

/-- A step of the queue. -/
def step : System α → Action α → Option (System α) := QueueBase.System.step queueClass

/-- A new queue. -/
def init (capacity : ℕ) (name : ByteString) (specifiedShapes : Bool) : System α :=
  QueueBase.System.init capacity name specifiedShapes []

end FIFOQueue

end TensorFlowCore
