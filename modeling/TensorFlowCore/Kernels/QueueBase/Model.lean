import TensorFlowCore.Framework.Types

/-!
# `QueueBase`

The queues of `tensorflow/core/kernels`: what `queue_base.cc` has, and the closures of their
attempts, which are the same in `fifo_queue.cc`, `random_shuffle_queue_op.cc` and
`priority_queue.cc` but for what a `QueueClass` says. An operation leaves an attempt in one of two
deques; whoever holds the mutex runs the attempts at their fronts, enqueues and dequeues in turn,
until neither makes progress (`FlushUnlocked`).

An element is a tuple with one tensor for each component, and a batch is a list of elements: what
the source reads or writes at an index of a batch is one component of the element there.

`System` puts the critical sections of any number of clients together. The loop of `FlushUnlocked`
is taken attempt by attempt, and holds the mutex until it is over; a callback that has been taken
out of an attempt runs in a step of its own, later. `history` and `completed` record what happened;
no step reads them.
-/

namespace TensorFlowCore

/-- `QueueBase::RunResult`. -/
inductive RunResult where
  | noProgress
  | progress
  | complete
  deriving DecidableEq

/-- The closures that enqueue attempts run. -/
inductive EnqueueKind (α : Type) where
  | one (tuple : α)
  | many (batch : List α)
  | close

/-- The closures that dequeue attempts run. -/
inductive DequeueKind where
  | one
  | many (allowSmallBatch : Bool)

/-- `QueueBase::Attempt`, of the operation `op`. The status is that of its context. -/
structure Attempt (κ α : Type) where
  op : ℕ
  /-- The cancellation manager and token, unless they are null. -/
  token : Option ℕ
  kind : κ
  /-- An `int32`. -/
  elementsRequested : ℤ
  isCancelled : Bool := false
  status : Status := .ok
  /-- `tuple`, slot by slot, once it is allocated. -/
  tuple : Option (List (Option α)) := none
  /-- The elements that `done_callback` passes on; none for the callback with an empty tuple. -/
  handed : Option (List α) := none

abbrev EnqueueAttempt (α : Type) : Type := Attempt (EnqueueKind α) α

abbrev DequeueAttempt (α : Type) : Type := Attempt DequeueKind α

/-- A done callback that has been taken out of its attempt. -/
structure Callback (α : Type) where
  op : ℕ
  status : Status
  tuple : Option (List α)

/-- `done_callback`. -/
def Attempt.doneCallback {κ α : Type} (a : Attempt κ α) : Callback α := ⟨a.op, a.status, a.handed⟩

/-- `OpKernelContext::SetStatus`, which keeps the first error. -/
def Attempt.setStatus {κ α : Type} (a : Attempt κ α) (status : Status) : Attempt κ α :=
  { a with status := if a.status = .ok then status else a.status }

/-- What has happened to an element, which the operation `op` has put in. One that is `lost` has
been taken out of the queue by a dequeue that completes without it. -/
inductive QueueEvent (α : Type) where
  | enqueued (op : ℕ) (element : α)
  | dequeued (element : α)
  | lost (element : α)

namespace QueueEvent

variable {α : Type}

/-- The element of an event that puts it in. -/
def enqueued? : QueueEvent α → Option α
  | enqueued _ x => some x
  | _ => none

/-- The element of an event in which the operation `op` puts it in. -/
def enqueuedBy? (op : ℕ) : QueueEvent α → Option α
  | enqueued op' x => if op' = op then some x else none
  | _ => none

def dequeued? : QueueEvent α → Option α
  | dequeued x => some x
  | _ => none

def lost? : QueueEvent α → Option α
  | lost x => some x
  | _ => none

end QueueEvent

/-- A queue whose contents are `queues`. -/
structure QueueBase (Q α : Type) where
  capacity : ℕ
  name : ByteString
  specifiedShapes : Bool
  closed : Bool
  queues : Q
  enqueueAttempts : List (EnqueueAttempt α)
  dequeueAttempts : List (DequeueAttempt α)

/-- What a `run_callback` does. -/
structure QueueRun (Q κ α : Type) where
  result : RunResult
  queues : Q
  attempt : Attempt κ α
  events : List (QueueEvent α)

abbrev EnqueueRun (Q α : Type) : Type := QueueRun Q (EnqueueKind α) α

abbrev DequeueRun (Q α : Type) : Type := QueueRun Q DequeueKind α

/-- The types that a class has for the index of an element in a batch. -/
inductive IndexType where
  | int
  | int64

/-- A number as an `int`. -/
def int (i : ℤ) : ℤ := i.bmod (2 ^ 32)

/-- The index that a number is stored as. -/
def IndexType.narrow : IndexType → ℤ → ℤ
  | .int, i => TensorFlowCore.int i
  | .int64, i => i

/-- What the closures of a class of queues do with the contents. -/
structure QueueOps (Q α : Type) where
  className : ByteString
  /-- `queues_[0].size()`. -/
  size : Q → ℕ
  /-- The elements that an open queue keeps. -/
  reserve : Q → ℕ
  /-- The type of `index` in the loop of an enqueue. -/
  indexType : IndexType
  /-- Push the element of `TryEnqueue`; an error says why not. -/
  push : α → Q → Q × Status
  /-- Push the element of a batch that is at an index, component by component. -/
  pushFrom : α → ℕ → Q → Q × Status
  /-- `DequeueLocked`, which needs an element. -/
  dequeueLocked : Q → Option (α × Q)
  /-- The status after `CopyElementToSlice` of the components of an element, where it is defined. -/
  copyToSlice : Q → α → Status → Option Status
  /-- The error for a batch of elements whose shapes are not specified. -/
  unspecifiedShapes : Status

/-- A class of queues, with the closure of its `TryDequeueMany`. There is no run of it where its
behaviour is undefined. -/
structure QueueClass (Q α : Type) extends QueueOps Q α where
  runDequeueMany : QueueBase Q α → DequeueAttempt α → Bool → Option (DequeueRun Q α)

namespace QueueBase

variable {Q α : Type}

/-- `errors::Cancelled`. -/
def cancelled (parts : List ByteString) : Status := .error .cancelled parts.flatten

/-- The data types that `CopySliceToElement` and `CopyElementToSlice` handle. -/
def copyHandles (dtype : DataType) : Bool :=
  [1, 19, 2, 3, 4, 5, 6, 7, 8, 18, 9, 10, 11, 12, 13, 15, 16].contains dtype

/-- The error of `CopySliceToElement` or `CopyElementToSlice`, if it does not handle the type. -/
def copyError (function : ByteString) (dtype : DataType) : Option Status :=
  if copyHandles dtype then none
  else some (.error .unimplemented [function, ascii " Unhandled data type: ",
  decimal dtype].flatten)

/-- The status of `GetElementComponentFromBatch`, after that of `allocate_persistent`. -/
def elementStatus (allocated : Status) (dtype : DataType) : Status :=
  if allocated ≠ .ok then allocated else (copyError (ascii "CopySliceToElement") dtype).getD .ok

/-! ### The closures -/

section Closures

variable (ops : QueueOps Q α)

/-- `errors::Cancelled` of an enqueue to a closed queue. -/
def closedStatus (name : ByteString) : Status :=
  cancelled [ops.className, ascii " '", name, ascii "' is closed."]

/-- The closure of `TryEnqueue`. -/
def runEnqueueOne (q : QueueBase Q α) (a : EnqueueAttempt α) (tuple : α) : EnqueueRun Q α :=
  if q.closed then ⟨.complete, q.queues, a.setStatus (closedStatus ops q.name), []⟩
  else if ops.size q.queues < q.capacity then
    let pushed := ops.push tuple q.queues
    if pushed.2 ≠ .ok then ⟨.complete, pushed.1, a.setStatus pushed.2, []⟩
    else ⟨.complete, pushed.1, a, [.enqueued a.op tuple]⟩
  else ⟨.noProgress, q.queues, a, []⟩

/-- The index `tuple[0].dim_size(0) - elements_requested` of a batch, and the element there. Outside
the batch the read is undefined, which counts as a failed copy here. -/
def batchElement (type : IndexType) (batch : List α) (elementsRequested : ℤ) : Option (ℕ × α) :=
  let index := type.narrow (batch.length - elementsRequested)
  if index < 0 then none else batch[index.toNat]?.map (index.toNat, ·)

/-- The loop of the closure of `TryEnqueueMany`, with room for `room` more elements. -/
def enqueueLoop (batch : List α) : ℕ → Q → EnqueueAttempt α → RunResult → EnqueueRun Q α
  | 0, c, a, result => ⟨result, c, a, []⟩
  | room + 1, c, a, _ =>
    match batchElement ops.indexType batch a.elementsRequested with
    | none => ⟨.complete, c, a.setStatus (internalError []), []⟩
    | some (index, tuple) =>
      let pushed := ops.pushFrom tuple index c
      if pushed.2 ≠ .ok then ⟨.complete, pushed.1, a.setStatus pushed.2, []⟩
      else
        let a := { a with elementsRequested := a.elementsRequested - 1 }
        if a.elementsRequested = 0 then ⟨.complete, pushed.1, a, [.enqueued a.op tuple]⟩
        else
          let r := enqueueLoop batch room pushed.1 a .progress
          { r with events := .enqueued a.op tuple :: r.events }

/-- The closure of `TryEnqueueMany`. -/
def runEnqueueMany (q : QueueBase Q α) (a : EnqueueAttempt α) (batch : List α) : EnqueueRun Q α :=
  if q.closed then ⟨.complete, q.queues, a.setStatus (closedStatus ops q.name), []⟩
  else enqueueLoop ops batch (q.capacity - ops.size q.queues) q.queues a .noProgress

/-- The status of a dequeue from a closed queue that has too few elements. -/
def insufficient (name : ByteString) (requested queueSize : ℤ) : Status :=
  .error .outOfRange [ops.className, ascii " '", name, ascii "' is closed and has ",
    ascii "insufficient elements (requested ", decimalInt requested, ascii ", current size ",
    decimalInt queueSize, ascii ")"].flatten

/-- The elements that a dequeue may take. -/
def available (q : QueueBase Q α) (queueSize : ℤ) : ℤ :=
  if q.closed then queueSize else queueSize - ops.reserve q.queues

/-- The closure of `TryDequeue`. -/
def runDequeueOne (q : QueueBase Q α) (a : DequeueAttempt α) : Option (DequeueRun Q α) :=
  let queueSize := ops.size q.queues
  if q.closed ∧ queueSize = 0 then
    some ⟨.complete, q.queues, a.setStatus (insufficient ops q.name 1 queueSize), []⟩
  else if 0 < available ops q queueSize then
    (ops.dequeueLocked q.queues).map fun (tuple, c) ↦
      ⟨.complete, c, { a with handed := some [tuple] }, [.dequeued tuple]⟩
  else some ⟨.noProgress, q.queues, a, []⟩

/-- The elements that a dequeue attempt has taken out of the queue. -/
def collected (a : DequeueAttempt α) : List α := (a.tuple.getD []).filterMap id

/-- The loop of the closure of `TryDequeueMany`. An attempt that ends without a batch loses what it
has taken. -/
def dequeueLoop : ℕ → Q → DequeueAttempt α → RunResult → Option (DequeueRun Q α)
  | 0, c, a, result => some ⟨result, c, a, []⟩
  | queueSize + 1, c, a, _ =>
    match ops.dequeueLocked c with
    | none => none
    | some (tuple, c) =>
      match ops.copyToSlice c tuple a.status with
      | none => none
      | some status =>
        if status ≠ .ok then
          some ⟨.complete, c, { a with status },
            .dequeued tuple :: (collected a ++ [tuple]).map .lost⟩
        else
          -- the slots are allocated before the element is taken
          let slots := a.tuple.getD (List.replicate a.elementsRequested.toNat none)
          let index := (slots.length : ℤ) - a.elementsRequested
          let slots := slots.set index.toNat (some tuple)
          let a := { a with tuple := some slots, elementsRequested := a.elementsRequested - 1 }
          if a.elementsRequested = 0 then
            some ⟨.complete, c, { a with handed := some (slots.filterMap id) }, [.dequeued tuple]⟩
          else
            (dequeueLoop queueSize c a .progress).map fun r ↦
              { r with events := .dequeued tuple :: r.events }

/-- The slots of an attempt that are put back: those before the ones that it still requests. -/
def filledSlots (slots : List (Option α)) (a : DequeueAttempt α) : ℕ :=
  ((slots.length : ℤ) - a.elementsRequested).toNat

/-- The closure of a `TryDequeueMany` that fills its batch over any number of runs. If the queue is
closed, it puts back what it has taken with `restore`, which also says what the status is then. -/
def runDequeueMany (restore : List (Option α) → ℕ → Q → Status → Q × Status) (q : QueueBase Q α)
    (a : DequeueAttempt α) (allowSmallBatch : Bool) : Option (DequeueRun Q α) :=
  let queueSize := ops.size q.queues
  if q.closed ∧ (queueSize : ℤ) < a.elementsRequested then
    let (c, status) := a.tuple.elim (q.queues, a.status) fun slots ↦
      restore slots (filledSlots slots a) q.queues a.status
    if allowSmallBatch ∧ 0 < ops.size c then
      -- "Request all remaining elements in the queue.", which are fewer than were requested at
      -- first, so that their number is an `int32`
      dequeueLoop ops (ops.size c) c
        { a with status, tuple := none, elementsRequested := ops.size c } .noProgress
    else if allowSmallBatch ∧ ¬ q.enqueueAttempts.isEmpty then
      some ⟨.progress, c, { a with status }, []⟩
    else
      some ⟨.complete, c, { a with
        status := if status = .ok then insufficient ops q.name a.elementsRequested queueSize
          else status }, []⟩
  else dequeueLoop ops (available ops q queueSize).toNat q.queues a .noProgress

end Closures

/-- The callback of an enqueue attempt, which takes no tuple. -/
def enqueueCallback (a : EnqueueAttempt α) : Callback α := ⟨a.op, a.status, none⟩

/-- `run_callback` of an enqueue attempt, and whether the queue is closed after it. -/
def runEnqueue (cls : QueueClass Q α) (q : QueueBase Q α) (a : EnqueueAttempt α) :
    EnqueueRun Q α × Bool :=
  match a.kind with
  | .one tuple => (runEnqueueOne cls.toQueueOps q a tuple, q.closed)
  | .many batch => (runEnqueueMany cls.toQueueOps q a batch, q.closed)
  | .close =>
    if q.closed then
      (⟨.complete, q.queues,
        a.setStatus (cancelled [ascii "Queue '", q.name, ascii "' is already closed."]), []⟩, true)
    else (⟨.complete, q.queues, a, []⟩, true)

/-- `run_callback` of a dequeue attempt. -/
def runDequeue (cls : QueueClass Q α) (q : QueueBase Q α) (a : DequeueAttempt α) :
    Option (DequeueRun Q α) :=
  match a.kind with
  | .one => runDequeueOne cls.toQueueOps q a
  | .many allowSmallBatch => cls.runDequeueMany q a allowSmallBatch

/-- The loop of `Cancel` over the attempts: the first one with the token is marked, and its callback
taken, unless it is cancelled already. -/
def cancelAttempt {κ : Type} (token : ℕ) (status : Status) :
    List (Attempt κ α) → List (Attempt κ α) × Option (Callback α)
  | [] => ([], none)
  | a :: attempts =>
    if a.token = some token then
      if a.isCancelled then (a :: attempts, none)
      else
        ({ a.setStatus status with isCancelled := true } :: attempts,
          some (a.setStatus status).doneCallback)
    else
      match cancelAttempt token status attempts with
      | (attempts', callback) => (a :: attempts', callback)

/-- The attempts that are not cancelled. -/
def live {κ : Type} (attempts : List (Attempt κ α)) : List (Attempt κ α) :=
  attempts.filter fun a ↦ ¬ a.isCancelled

/-- Which deque `TryAttemptLocked` is at. -/
inductive Pass where
  | enqueue
  | dequeue

/-- A `FlushUnlocked` that holds the mutex: the call of `TryAttemptLocked` it is in, whether that
call has made progress, whether the one before has, and `clean_up`. -/
structure Flush (α : Type) where
  pass : Pass
  progress : Bool
  changed : Bool
  cleanUp : List (Callback α)

structure System (Q α : Type) where
  q : QueueBase Q α
  flush : Option (Flush α)
  /-- The callbacks that threads are about to run. -/
  pending : List (Callback α)
  /-- The callbacks that have run. -/
  ran : List (Callback α)
  nextOp : ℕ
  /-- What has happened to elements, in that order. -/
  history : List (QueueEvent α)
  /-- Every callback that has been taken out of an attempt, or run at once, in that order. -/
  completed : List (Callback α)

namespace System

/-- A callback that is to be run. -/
def finish (s : System Q α) (c : Callback α) : System Q α :=
  { s with pending := s.pending ++ [c], completed := s.completed ++ [c] }

/-- `TryAttemptLocked` returns. -/
def endPass (s : System Q α) (f : Flush α) (progress : Bool) : System Q α :=
  match f.pass with
  | .enqueue =>
    { s with flush := some { f with pass := .dequeue, progress := false, changed := progress } }
  | .dequeue =>
    if progress || f.changed then
      { s with flush := some { f with pass := .enqueue, progress := false, changed := false } }
    else { s with flush := none, pending := s.pending ++ f.cleanUp }

/-- The callback of a completed attempt goes to `clean_up`. -/
def complete (s : System Q α) (f : Flush α) (c : Callback α) : System Q α :=
  { s with
    flush := some { f with progress := true, cleanUp := f.cleanUp ++ [c] }
    completed := s.completed ++ [c] }

/-- What the run of the enqueue attempt in front of `rest` leads to. -/
def ranEnqueue (s : System Q α) (f : Flush α) (rest : List (EnqueueAttempt α))
    (run : EnqueueRun Q α × Bool) : System Q α :=
  let s' := { s with
    q := { s.q with
      queues := run.1.queues, closed := run.2, enqueueAttempts := run.1.attempt :: rest }
    history := s.history ++ run.1.events }
  match run.1.result with
  | .noProgress => s'.endPass f f.progress
  | .progress => s'.endPass f true
  | .complete =>
    { s' with q := { s'.q with enqueueAttempts := rest } }.complete f
      (enqueueCallback run.1.attempt)

/-- One iteration of `TryAttemptLocked(kEnqueue)`. -/
def flushEnqueue (cls : QueueClass Q α) (s : System Q α) (f : Flush α) : System Q α :=
  match s.q.enqueueAttempts with
  | [] => s.endPass f f.progress
  | a :: rest =>
    if a.isCancelled then { s with q := { s.q with enqueueAttempts := rest } }
    else s.ranEnqueue f rest (s.q.runEnqueue cls a)

/-- What the run of the dequeue attempt in front of `rest` leads to. -/
def ranDequeue (s : System Q α) (f : Flush α) (rest : List (DequeueAttempt α))
    (r : DequeueRun Q α) : System Q α :=
  let s' := { s with
    q := { s.q with queues := r.queues, dequeueAttempts := r.attempt :: rest }
    history := s.history ++ r.events }
  match r.result with
  | .noProgress => s'.endPass f f.progress
  | .progress => s'.endPass f true
  | .complete =>
    { s' with q := { s'.q with dequeueAttempts := rest } }.complete f r.attempt.doneCallback

/-- One iteration of `TryAttemptLocked(kDequeue)`. -/
def flushDequeue (cls : QueueClass Q α) (s : System Q α) (f : Flush α) : Option (System Q α) :=
  match s.q.dequeueAttempts with
  | [] => some (s.endPass f f.progress)
  | a :: rest =>
    if a.isCancelled then some { s with q := { s.q with dequeueAttempts := rest } }
    else (s.q.runDequeue cls a).map (s.ranDequeue f rest)

/-- The calls that clients make, and the steps of those under way. Where an operation registers its
cancellation, `alreadyCancelled` is what the cancellation manager answers. -/
inductive Action (α : Type) where
  | tryEnqueue (tuple : α) (alreadyCancelled : Bool)
  | tryEnqueueMany (batch : List α) (alreadyCancelled : Bool)
  | tryDequeue (alreadyCancelled : Bool)
  | tryDequeueMany (numElements : ℕ) (allowSmallBatch alreadyCancelled : Bool)
  | close (cancelPendingEnqueues : Bool)
  | cancelEnqueue (token : ℕ)
  | cancelDequeue (token : ℕ)
  | beginFlush
  | flush
  | runCallback (i : ℕ)

/-- A new operation has its number. -/
def newOp (s : System Q α) : System Q α := { s with nextOp := s.nextOp + 1 }

/-- A new operation, which takes the mutex. -/
def withOp (s : System Q α) (f : System Q α → System Q α) : Option (System Q α) :=
  if s.flush.isNone then some (f s.newOp) else none

/-- The attempt of a new operation that registers its cancellation. -/
def attempt {κ : Type} (s : System Q α) (kind : κ) (elementsRequested : ℤ) : Attempt κ α :=
  { op := s.nextOp, token := some s.nextOp, kind, elementsRequested }

/-- The attempt that a `Close` leaves. -/
def closeAttempt (s : System Q α) : EnqueueAttempt α :=
  { op := s.nextOp, token := none, kind := .close, elementsRequested := 0 }

def addEnqueue (s : System Q α) (a : EnqueueAttempt α) : System Q α :=
  { s with q := { s.q with enqueueAttempts := s.q.enqueueAttempts ++ [a] } }

def addDequeue (s : System Q α) (a : DequeueAttempt α) : System Q α :=
  { s with q := { s.q with dequeueAttempts := s.q.dequeueAttempts ++ [a] } }

/-- The status of an operation whose cancellation manager has been cancelled. -/
def enqueueCancelled : Status := cancelled [ascii "Enqueue operation was cancelled"]

def dequeueCancelled : Status := cancelled [ascii "Dequeue operation was cancelled"]

/-- The attempt that `Cancel` marks, if there is one. -/
def cancelledAttempt {κ : Type} (token : ℕ) (attempts : List (Attempt κ α)) :
    Option (Attempt κ α) :=
  (attempts.find? fun a ↦ a.token = some token).filter fun a ↦ ¬ a.isCancelled

/-- The callbacks that `CloseAndCancel` takes out of the pending enqueues. -/
def cancelledCallbacks (s : System Q α) : List (Callback α) :=
  (live s.q.enqueueAttempts).map fun a ↦ enqueueCallback (a.setStatus enqueueCancelled)

/-- `CloseAndCancel`, with its loop over the enqueue attempts. -/
def closeAndCancel (s : System Q α) : System Q α :=
  { s with
    q := { s.q with
      closed := true
      enqueueAttempts := s.q.enqueueAttempts.map fun a ↦
        if a.isCancelled then a
        else { a.setStatus enqueueCancelled with isCancelled := true } }
    pending := s.pending ++ s.cancelledCallbacks
    completed := s.completed ++ s.cancelledCallbacks }

def step (cls : QueueClass Q α) (s : System Q α) : Action α → Option (System Q α)
  | .tryEnqueue tuple alreadyCancelled => s.withOp fun s' ↦
    if alreadyCancelled then s'.finish ⟨s.nextOp, enqueueCancelled, none⟩
    else s'.addEnqueue (s.attempt (.one tuple) 1)
  | .tryEnqueueMany batch alreadyCancelled =>
    if batch.isEmpty then some (s.newOp.finish ⟨s.nextOp, .ok, none⟩)
    else s.withOp fun s' ↦
      if alreadyCancelled then s'.finish ⟨s.nextOp, enqueueCancelled, none⟩
      else s'.addEnqueue (s.attempt (.many batch) (int batch.length))
  | .tryDequeue alreadyCancelled => s.withOp fun s' ↦
    if alreadyCancelled then s'.finish ⟨s.nextOp, dequeueCancelled, none⟩
    else s'.addDequeue (s.attempt .one 1)
  | .tryDequeueMany numElements allowSmallBatch alreadyCancelled =>
    if ¬ s.q.specifiedShapes then
      some (s.newOp.finish ⟨s.nextOp, cls.unspecifiedShapes, none⟩)
    else if numElements = 0 then some (s.newOp.finish ⟨s.nextOp, .ok, some []⟩)
    else s.withOp fun s' ↦
      if alreadyCancelled then s'.finish ⟨s.nextOp, dequeueCancelled, none⟩
      else s'.addDequeue (s.attempt (.many allowSmallBatch) numElements)
  | .close cancelPendingEnqueues => s.withOp fun s' ↦
    if cancelPendingEnqueues then s'.closeAndCancel.finish ⟨s.nextOp, .ok, none⟩
    else s'.addEnqueue s.closeAttempt
  | .cancelEnqueue token =>
    if s.flush.isNone then
      match cancelAttempt token enqueueCancelled s.q.enqueueAttempts with
      | (enqueueAttempts, callback) =>
        let s' := { s with q := { s.q with enqueueAttempts } }
        some (callback.elim s' fun c ↦ s'.finish { c with tuple := none })
    else none
  | .cancelDequeue token =>
    if s.flush.isNone then
      match cancelAttempt token dequeueCancelled s.q.dequeueAttempts with
      | (dequeueAttempts, callback) =>
        let s' := { s with
          q := { s.q with dequeueAttempts }
          history := s.history ++
            ((cancelledAttempt token s.q.dequeueAttempts).elim [] collected).map .lost }
        some (callback.elim s' s'.finish)
    else none
  | .beginFlush =>
    if s.flush.isNone then some { s with flush := some ⟨.enqueue, false, false, []⟩ } else none
  | .flush =>
    s.flush.bind fun f ↦
      match f.pass with
      | .enqueue => some (s.flushEnqueue cls f)
      | .dequeue => s.flushDequeue cls f
  | .runCallback i =>
    s.pending[i]?.map fun c ↦ { s with pending := s.pending.eraseIdx i, ran := s.ran ++ [c] }

/-- A new queue with empty contents. -/
def init (capacity : ℕ) (name : ByteString) (specifiedShapes : Bool) (empty : Q) : System Q α where
  q := ⟨capacity, name, specifiedShapes, false, empty, [], []⟩
  flush := none
  pending := []
  ran := []
  nextOp := 0
  history := []
  completed := []

end System

end QueueBase

end TensorFlowCore
