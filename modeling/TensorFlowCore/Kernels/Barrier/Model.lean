import TensorFlowCore.Kernels.PriorityQueue.Model
import TensorFlowCore.Kernels.QueueBase.Attempts
import TensorFlowCore.Support.KeyedList

/-!
# `Barrier`

The barrier of `tensorflow/core/kernels/barrier_ops.cc`. An insert sets one component of some keys;
a key whose components are all set leaves `incomplete_` and becomes an element of the ready queue, a
`PriorityQueue`.

Each critical section of `mu_` is one step, with the call of the ready queue's `Close` that it may
contain. An insert calls `TryEnqueueMany` after its critical section, and a take `TryDequeueMany`,
in steps of their own; in between, `inserts` and `takes` hold what they are about to pass on. The
steps of the ready queue interleave with these, and a callback that it has taken out of an attempt
of an insert continues the insert. Allocations succeed.

`log` and `dropped` record what happened; no step reads them.
-/

namespace TensorFlowCore

open QueueBase

/-- The tensors that the ready queue holds: an insertion index, a key, or a component. -/
inductive BarrierValue (γ : Type) where
  | index (i : ℤ)
  | key (k : ByteString)
  | value (x : γ)
  deriving DecidableEq

/-- A ready tuple, for keys of `n` components. -/
structure ReadyTuple (n : ℕ) (γ : Type) where
  index : ℤ
  key : ByteString
  values : Fin n → γ

/-- The element of the ready queue: "index, key, rest". -/
def ReadyTuple.element {n : ℕ} {γ : Type} (t : ReadyTuple n γ) : Fin (n + 2) → BarrierValue γ :=
  Fin.cons (.index t.index) (Fin.cons (.key t.key) fun i ↦ .value (t.values i))

/-- The components of an incomplete key that are set, and the index of its first insert. -/
structure IncompleteTuple (n : ℕ) (γ : Type) where
  index : ℤ
  components : Fin n → Option γ

/-- What has happened to a key: a component has been accepted, or the complete tuple has been
refused. -/
inductive BarrierEvent (n : ℕ) (γ : Type) where
  | accepted (key : ByteString) (component : Fin n) (value : γ) (index : ℤ)
  | refused (key : ByteString)

structure Barrier (n : ℕ) (γ : Type) where
  name : ByteString
  valueComponentTypes : Fin n → DataType
  closed : Bool
  queueClosed : Bool
  queueCancelled : Bool
  cancelPendingEnqueues : Bool
  inputIndex : ℤ
  incomplete : List (ByteString × IncompleteTuple n γ)

namespace Barrier

variable {n : ℕ} {γ : Type}

/-- How `StrCat` prints a `bool`. -/
def boolText (b : Bool) : ByteString := if b then ascii "1" else ascii "0"

/-- `std::numeric_limits<int64>::min()` and `std::numeric_limits<int64>::max()`. -/
def minIndex : ℤ := -2 ^ 63

def maxIndex : ℤ := 2 ^ 63 - 1

/-- What `InsertOneLocked` does. -/
structure InsertOne (n : ℕ) (γ : Type) where
  barrier : Barrier n γ
  newElement : Bool
  events : List (BarrierEvent n γ)
  result : Except Status (Option (ReadyTuple n γ))

section

-- what the ready queue's `ValidateTuple` says about a tuple: an error, or none
variable (validateTuple : ReadyTuple n γ → Option Status)

/-- `InsertOneLocked`, for an element that has been found or is new. -/
def insertComponent (b : Barrier n γ) (component : Fin n) (key : ByteString) (value : γ)
    (element : IncompleteTuple n γ) (newElement : Bool) : InsertOne n γ :=
  if (element.components component).isSome then
    ⟨b, newElement, [],
      .error (invalidArgument [ascii "Key ", key, ascii " already has a value for component ",
      decimal component, ascii " in barrier ", b.name])⟩
  else
    let components := Function.update element.components component (some value)
    if h : ∀ j, (components j).isSome then
      let ready : ReadyTuple n γ := ⟨element.index, key, fun j ↦ (components j).get (h j)⟩
      let b := { b with incomplete := KeyedList.erase key b.incomplete }
      match validateTuple ready with
      | some status => ⟨b, newElement, [.refused key], .error status⟩
      | none => ⟨b, newElement, [.accepted key component value b.inputIndex], .ok (some ready)⟩
    else
      ⟨{ b with incomplete := KeyedList.set key { element with components } b.incomplete },
        newElement,
        [.accepted key component value b.inputIndex], .ok none⟩

/-- `InsertOneLocked`, of the `i`th key of an insert. -/
def insertOneLocked (b : Barrier n γ) (component : Fin n) (i : ℕ) (key : ByteString) (value : γ) :
    InsertOne n γ :=
  match KeyedList.get? key b.incomplete with
  | some element => b.insertComponent validateTuple component key value element false
  | none =>
    if b.closed then
      ⟨b, false, [], .error (cancelled [ascii "Barrier ", b.name,
        ascii " is closed, but attempted to insert a brand new key: ", key,
        ascii ".  Pending enqueues cancelled: ", boolText b.cancelPendingEnqueues,
        ascii ".  Insertion index: ", decimal i, ascii ".  Number of incomplete keys: ",
        decimal b.incomplete.length, ascii "."])⟩
    else b.insertComponent validateTuple component key value ⟨b.inputIndex, fun _ ↦ none⟩ true

/-- What the loop over the keys in `TryInsertMany` does. -/
structure InsertLoop (n : ℕ) (γ : Type) where
  barrier : Barrier n γ
  newElements : Bool
  events : List (BarrierEvent n γ)
  readyTuples : List (ReadyTuple n γ)
  error : Option Status

/-- "Step 1" of `TryInsertMany`, from the `i`th key on. -/
def insertLoop (component : Fin n) : ℕ → List (ByteString × γ) → Barrier n γ → InsertLoop n γ
  | _, [], b => ⟨b, false, [], [], none⟩
  | i, (key, value) :: batch, b =>
    let one := b.insertOneLocked validateTuple component i key value
    match one.result with
    | .error status => ⟨one.barrier, one.newElement, one.events, [], some status⟩
    | .ok ready =>
      let rest := insertLoop component (i + 1) batch one.barrier
      { rest with
        newElements := one.newElement || rest.newElements
        events := one.events ++ rest.events
        readyTuples := ready.toList ++ rest.readyTuples }

/-- The error of a closed barrier that accepts no insert of `numInserted` keys. -/
def closedStatus (b : Barrier n γ) (numInserted : ℕ) : Status :=
  cancelled [ascii "Barrier ", b.name, ascii " is closed.  Pending enqueues cancelled: ",
    boolText b.cancelPendingEnqueues, ascii ".  Number of new insertions: ", decimal numInserted,
    ascii ".  Number of incomplete keys: ", decimal b.incomplete.length, ascii "."]

/-- The data types of the components of the ready queue. -/
def queueComponentTypes (b : Barrier n γ) : Fin (n + 2) → DataType :=
  Fin.cons 9 (Fin.cons 7 b.valueComponentTypes)

/-- What the critical section of `TryInsertMany` does: the error it ends with, and the tuples it is
going to enqueue. -/
structure Insert (n : ℕ) (γ : Type) where
  barrier : Barrier n γ
  events : List (BarrierEvent n γ)
  readyTuples : List (ReadyTuple n γ)
  error : Option Status

/-- The critical section of `TryInsertMany`. -/
def insertMany (b : Barrier n γ) (component : Fin n) (batch : List (ByteString × γ)) : Insert n γ :=
  if b.closed ∧ ¬ (¬ b.cancelPendingEnqueues ∧ (batch.isEmpty ∨ ¬ b.incomplete.isEmpty)) then
    ⟨b, [], [], some (b.closedStatus batch.length)⟩
  else
    let loop := insertLoop validateTuple component 0 batch b
    match loop.error with
    | some status => ⟨loop.barrier, loop.events, loop.readyTuples, some status⟩
    | none =>
      let inputIndex :=
        if loop.newElements then loop.barrier.inputIndex + 1 else loop.barrier.inputIndex
      let b := { loop.barrier with inputIndex }
      if b.inputIndex = maxIndex then
        ⟨b, loop.events, loop.readyTuples, some (internalError [ascii "Barrier has had ",
          decimalInt b.inputIndex, ascii " insertions and can no longer keep track of new ones."])⟩
      else if loop.readyTuples.isEmpty then ⟨b, loop.events, [], none⟩
      else ⟨b, loop.events, loop.readyTuples, PriorityQueue.copyToSliceError b.queueComponentTypes⟩

end

/-- The ready queue reads the priority of an element from its index. -/
def scalar : BarrierValue γ → Except ByteString ℤ
  | .index i => .ok i
  | _ => .error []

/-- The elements of the ready queue. -/
abbrev Element (n : ℕ) (γ : Type) : Type := Fin (n + 2) → BarrierValue γ

/-- The ready queue with the operations on it. -/
abbrev ReadyQueue (n : ℕ) (γ : Type) : Type :=
  QueueBase.System (PriorityQueue (n + 2) (BarrierValue γ)) (Element n γ)

/-- The elements of an enqueue attempt that are not in the queue. -/
def remaining (a : EnqueueAttempt (Element n γ)) : List (Element n γ) :=
  match a.kind with
  | .one element => [element]
  | .many batch => batch.drop (batch.length - a.elementsRequested).toNat
  | .close => []

/-- The elements of the attempts that `CloseAndCancel` is going to cancel. -/
def pendingElements (q : ReadyQueue n γ) : List (Element n γ) :=
  (live q.q.enqueueAttempts).flatMap remaining

/-- The elements that the next iteration of a flush refuses, since the queue is closed. -/
def refusedElements (q : ReadyQueue n γ) : List (Element n γ) :=
  match q.flush, q.q.enqueueAttempts with
  | some ⟨.enqueue, _, _, _⟩, a :: _ => if q.q.closed ∧ ¬ a.isCancelled then remaining a else []
  | _, _ => []

/-- A closed queue begins to fill a small batch that it cannot complete. -/
def SmallBatch (q : QueueBase (PriorityQueue (n + 2) (BarrierValue γ)) (Element n γ))
    (a : DequeueAttempt (Element n γ)) : Prop :=
  a.kind = .many true ∧ q.closed = true ∧ 0 < q.queues.size ∧
    (q.queues.size : ℤ) < a.elementsRequested

structure System (n : ℕ) (γ : Type) where
  barrier : Barrier n γ
  queue : ReadyQueue n γ
  /-- The tuples of the inserts that are about to call `TryEnqueueMany`. -/
  inserts : List (List (ReadyTuple n γ))
  /-- The takes that are about to call `TryDequeueMany`. -/
  takes : List (ℕ × Bool)
  /-- The operations on the ready queue whose callback continues an insert. -/
  insertOps : List ℕ
  /-- The callbacks of the clients, with what they are called with. -/
  callbacks : List (Status × List (Element n γ))
  log : List (BarrierEvent n γ)
  /-- The elements that have been dropped on their way to the ready queue. -/
  dropped : List (Element n γ)

namespace System

section

variable (H : PriorityHeap ℤ) (validateTuple : ReadyTuple n γ → Option Status)

/-- A step of the ready queue. -/
def queueStep (s : System n γ) (action : QueueBase.System.Action (Element n γ)) :
    Option (System n γ) :=
  (QueueBase.System.step (PriorityQueue.queueClass H scalar .ok) s.queue action).map fun queue ↦
    { s with queue }

/-- Call a callback of a client. -/
def call (s : System n γ) (status : Status) (elements : List (Element n γ)) : System n γ :=
  { s with callbacks := s.callbacks ++ [(status, elements)] }

/-- `CloseQueueLocked`. If the ready queue is closed already, nobody calls the callback. -/
def closeQueueLocked (s : System n γ) (cancelPendingEnqueues : Bool) : Option (System n γ) :=
  if ¬ cancelPendingEnqueues ∧ s.barrier.queueClosed then some (s.call .ok [])
  else if cancelPendingEnqueues ∧ s.barrier.queueCancelled then some (s.call .ok [])
  else
    let s := { s with barrier := { s.barrier with
      queueClosed := true
      queueCancelled := if cancelPendingEnqueues then true else s.barrier.queueCancelled } }
    if s.queue.q.closed then some s
    else
      queueStep H { s with dropped := s.dropped ++
        if cancelPendingEnqueues then pendingElements s.queue else [] }
        (.close cancelPendingEnqueues)

/-- `Close`. -/
def close (s : System n γ) (cancelPendingEnqueues : Bool) : Option (System n γ) :=
  if s.barrier.closed ∧ (s.barrier.cancelPendingEnqueues ∨ ¬ cancelPendingEnqueues) then
    some (s.call (cancelled [ascii "Barrier '", s.barrier.name, ascii "' is already closed."]) [])
  else
    let s := { s with barrier := { s.barrier with cancelPendingEnqueues, closed := true } }
    if cancelPendingEnqueues ∨ s.barrier.incomplete.isEmpty then
      closeQueueLocked H { s with barrier := { s.barrier with incomplete := [] } }
          cancelPendingEnqueues
    else some (s.call .ok [])

/-- `TryInsertMany`, with the `DebugString` of the shape of the values if they have no elements. -/
def tryInsertMany (s : System n γ) (component : Fin n) (batch : List (ByteString × γ))
    (noElements : Option ByteString) : System n γ :=
  match noElements.filter fun _ ↦ ¬ batch.isEmpty with
  | some shape =>
    s.call (invalidArgument [ascii "Tensors with no elements are not supported ", s.barrier.name,
      ascii ": received shape ", shape]) []
  | none =>
    let insert := s.barrier.insertMany validateTuple component batch
    let s := { s with barrier := insert.barrier, log := s.log ++ insert.events }
    match insert.error with
    | some status => s.call status []
    | none =>
      if insert.readyTuples.isEmpty then s.call .ok []
      else { s with inserts := s.inserts ++ [insert.readyTuples] }

/-- The critical section of `TryTakeMany`. The size of the ready queue is read under its mutex. -/
def tryTakeMany (s : System n γ) (numElements : ℕ) (allowSmallBatch : Bool) : Option (System n γ) :=
  if s.barrier.closed then
    if s.queue.flush.isNone then
      let ready := s.queue.q.queues.size
      let numElementsToDeliver := if allowSmallBatch then min numElements ready else numElements
      let availableElements :=
        if allowSmallBatch then ready else ready + s.barrier.incomplete.length
      if availableElements < max numElementsToDeliver 1 then
        some (s.call (.error .outOfRange [ascii "Barrier '", s.barrier.name,
          ascii "' is closed and has ",
          ascii "insufficient elements (requested ", decimal numElementsToDeliver,
          ascii ", total size ",
          decimal availableElements, ascii ")"].flatten) [])
      else some { s with takes := s.takes ++ [(numElementsToDeliver, allowSmallBatch)] }
    else none
  else some { s with takes := s.takes ++ [(numElements, allowSmallBatch)] }

/-- The callback of an insert's `TryEnqueueMany`. -/
def enqueued (s : System n γ) (status : Status) : Option (System n γ) :=
  if status ≠ .ok then some (s.call status [])
  else if s.queue.flush.isNone then
    let ready := s.queue.q.queues.size
    if s.barrier.closed ∧ s.barrier.incomplete.isEmpty ∧ s.barrier.queueClosed ∧ 0 < ready then
      closeQueueLocked H s false
    else some (s.call .ok [])
  else none

/-- The calls that clients make, and the steps of those under way. -/
inductive Action (n : ℕ) (γ : Type) where
  | tryInsertMany (component : Fin n) (batch : List (ByteString × γ))
      (noElements : Option ByteString)
  | tryEnqueueMany (i : ℕ)
  | tryTakeMany (numElements : ℕ) (allowSmallBatch : Bool)
  | tryDequeueMany (i : ℕ)
  | close (cancelPendingEnqueues : Bool)
  | beginFlush
  | flush
  | runCallback (i : ℕ)

def step (s : System n γ) : Action n γ → Option (System n γ)
  | .tryInsertMany component batch noElements =>
    some (s.tryInsertMany validateTuple component batch noElements)
  | .tryEnqueueMany i =>
    s.inserts[i]?.bind fun tuples ↦
      queueStep H { s with
        inserts := s.inserts.eraseIdx i, insertOps := s.insertOps ++ [s.queue.nextOp] }
        (.tryEnqueueMany (tuples.map ReadyTuple.element) false)
  | .tryTakeMany numElements allowSmallBatch => s.tryTakeMany numElements allowSmallBatch
  | .tryDequeueMany i =>
    s.takes[i]?.bind fun take ↦
      queueStep H { s with takes := s.takes.eraseIdx i } (.tryDequeueMany take.1 take.2 false)
  | .close cancelPendingEnqueues => close H s cancelPendingEnqueues
  | .beginFlush => queueStep H s .beginFlush
  | .flush => queueStep H { s with dropped := s.dropped ++ refusedElements s.queue } .flush
  | .runCallback i =>
    s.queue.pending[i]?.bind fun c ↦
      (queueStep H s (.runCallback i)).bind fun s ↦
        if c.op ∈ s.insertOps then enqueued H s c.status
        else some (s.call c.status (delivers c))

/-- A new barrier, whose ready queue has room for `2 ^ 31 - 1` elements. -/
def init (name : ByteString) (valueComponentTypes : Fin n → DataType) : System n γ where
  barrier := ⟨name, valueComponentTypes, false, false, false, false, minIndex, []⟩
  queue := QueueBase.System.init (2 ^ 31 - 1) (name ++ ascii "_queue") true
    (PriorityQueue.empty (Fin.cons 9 (Fin.cons 7 valueComponentTypes)))
  inserts := []
  takes := []
  insertOps := []
  callbacks := []
  log := []
  dropped := []

end

end System

end Barrier

end TensorFlowCore

/-!
## What an insert does to the incomplete keys

`insertOneLocked_effect` says what `InsertOneLocked` does to one key. A batch is a sequence of such
steps, which stops at the first error.
-/

namespace TensorFlowCore

namespace Barrier

variable {n : ℕ} {γ : Type} {validateTuple : ReadyTuple n γ → Option Status} {key : ByteString}

/-- The incomplete tuple of a key, or the one that a new key starts with. -/
def Found (b : Barrier n γ) (key : ByteString) (element : IncompleteTuple n γ) : Prop :=
  KeyedList.get? key b.incomplete = some element ∨
    KeyedList.get? key b.incomplete = none ∧ b.closed = false ∧
    element = ⟨b.inputIndex, fun _ ↦ none⟩

/-- The ready tuple has the index and the components of an incomplete tuple, with a value for the
component that it lacks. -/
structure Completes (component : Fin n) (value : γ) (key : ByteString)
    (element : IncompleteTuple n γ)
    (ready : ReadyTuple n γ) : Prop where
  lacks : ∀ j, (element.components j).isSome = true ↔ j ≠ component
  index : ready.index = element.index
  key : ready.key = key
  values : ∀ j, some (ready.values j) = Function.update element.components component (some value) j

theorem Completes.unique {component : Fin n} {value : γ} {element : IncompleteTuple n γ}
    {ready ready' : ReadyTuple n γ} (h : Completes component value key element ready)
    (h' : Completes component value key element ready') : ready = ready' := by
  have hvalues : ready.values = ready'.values :=
    funext fun j ↦ Option.some.inj ((h.values j).trans (h'.values j).symm)
  cases ready
  cases ready'
  obtain rfl := h.index.trans h'.index.symm
  obtain rfl := h.key.trans h'.key.symm
  obtain rfl := hvalues
  rfl

/-- What `InsertOneLocked` does to a key. -/
inductive InsertOneEffect (validateTuple : ReadyTuple n γ → Option Status) (b : Barrier n γ)
    (component : Fin n) (key : ByteString) (value : γ) (one : InsertOne n γ) : Prop where
  | rejected (status : Status)
      (reason : KeyedList.get? key b.incomplete = none ∧ b.closed = true ∨
        ∃ element, KeyedList.get? key b.incomplete = some element ∧
        (element.components component).isSome = true)
      (barrier_eq : one.barrier = b) (events_eq : one.events = [])
      (result_eq : one.result = .error status)
  | stored (element : IncompleteTuple n γ) (found : Found b key element)
      (lacks : element.components component = none)
      (incomplete : ∃ j, Function.update element.components component (some value) j = none)
      (barrier_eq : one.barrier = { b with
        incomplete := KeyedList.set key
          ⟨element.index, Function.update element.components component (some value)⟩ b.incomplete })
      (events_eq : one.events = [.accepted key component value b.inputIndex])
        (result_eq : one.result = .ok none)
  | completed (element : IncompleteTuple n γ) (found : Found b key element) (ready : ReadyTuple n γ)
      (completes : Completes component value key element ready) (valid : validateTuple ready = none)
      (barrier_eq : one.barrier = { b with incomplete := KeyedList.erase key b.incomplete })
      (events_eq : one.events = [.accepted key component value b.inputIndex])
      (result_eq : one.result = .ok (some ready))
  | refused (element : IncompleteTuple n γ) (found : Found b key element) (ready : ReadyTuple n γ)
      (completes : Completes component value key element ready) (status : Status)
      (invalid : validateTuple ready = some status)
      (barrier_eq : one.barrier = { b with incomplete := KeyedList.erase key b.incomplete })
      (events_eq : one.events = [.refused key]) (result_eq : one.result = .error status)

/-- The component is kept, or completes the tuple, or is refused. -/
theorem insertComponent_effect {b : Barrier n γ} (component : Fin n) (value : γ)
    {element : IncompleteTuple n γ} (hfound : Found b key element) (newElement : Bool) :
    InsertOneEffect validateTuple b component key value
      (b.insertComponent validateTuple component key value element newElement) := by
  unfold insertComponent
  split
  next hset =>
    refine .rejected _ (.inr ⟨element, hfound.resolve_right fun hnew ↦ ?_, hset⟩) rfl rfl rfl
    rw [hnew.2.2] at hset
    cases hset
  next hlacks =>
    have hnone : element.components component = none := by simpa using hlacks
    dsimp only
    split
    next hall =>
      have hcompletes : Completes component value key element ⟨element.index, key, fun j ↦
          (Function.update element.components component (some value) j).get (hall j)⟩ := by
        refine ⟨fun j ↦ ⟨?_, fun hne ↦ ?_⟩, rfl, rfl, fun j ↦ Option.some_get _⟩
        · rintro hj rfl
          exact hlacks hj
        · have := hall j
          rwa [Function.update_of_ne hne] at this
      split
      next status hvalid => exact .refused element hfound _ hcompletes status hvalid rfl rfl rfl
      next hvalid => exact .completed element hfound _ hcompletes hvalid rfl rfl rfl
    next hnot =>
      obtain ⟨j, hj⟩ := not_forall.1 hnot
      exact .stored element hfound hnone ⟨j, by simpa using hj⟩ rfl rfl rfl

theorem insertOneLocked_effect (validateTuple : ReadyTuple n γ → Option Status) (b : Barrier n γ)
    (component : Fin n) (i : ℕ) (key : ByteString) (value : γ) :
    InsertOneEffect validateTuple b component key value
      (b.insertOneLocked validateTuple component i key value) := by
  unfold insertOneLocked
  split
  next element hfound => exact insertComponent_effect component value (.inl hfound) false
  next hnone =>
    split
    next hclosed => exact .rejected _ (.inl ⟨hnone, hclosed⟩) rfl rfl rfl
    next hopen =>
      exact insertComponent_effect component value (.inr ⟨hnone, by simpa using hopen, rfl⟩) true

/-- The fields of the barrier that an insert leaves alone. -/
structure SameFlags (b b' : Barrier n γ) : Prop where
  valueComponentTypes : b'.valueComponentTypes = b.valueComponentTypes
  closed : b'.closed = b.closed
  queueClosed : b'.queueClosed = b.queueClosed
  queueCancelled : b'.queueCancelled = b.queueCancelled
  cancelPendingEnqueues : b'.cancelPendingEnqueues = b.cancelPendingEnqueues

theorem SameFlags.rfl {b : Barrier n γ} : SameFlags b b := ⟨by rfl, by rfl, by rfl, by rfl, by rfl⟩

theorem SameFlags.trans {b b' b'' : Barrier n γ} (h : SameFlags b b') (h' : SameFlags b' b'') :
    SameFlags b b'' :=
  ⟨h'.valueComponentTypes.trans h.valueComponentTypes, h'.closed.trans h.closed,
    h'.queueClosed.trans h.queueClosed, h'.queueCancelled.trans h.queueCancelled,
    h'.cancelPendingEnqueues.trans h.cancelPendingEnqueues⟩

theorem sameFlags_insertOneLocked (validateTuple : ReadyTuple n γ → Option Status) (b : Barrier n γ)
    (component : Fin n) (i : ℕ) (key : ByteString) (value : γ) :
    SameFlags b (b.insertOneLocked validateTuple component i key value).barrier := by
  cases insertOneLocked_effect validateTuple b component i key value with
  | rejected _ _ hb => rw [hb]; exact .rfl
  | stored _ _ _ _ hb => rw [hb]; exact ⟨by rfl, by rfl, by rfl, by rfl, by rfl⟩
  | completed _ _ _ _ _ hb => rw [hb]; exact ⟨by rfl, by rfl, by rfl, by rfl, by rfl⟩
  | refused _ _ _ _ _ _ hb => rw [hb]; exact ⟨by rfl, by rfl, by rfl, by rfl, by rfl⟩

/-- Where the loop goes on, and what it has done then. -/
theorem insertLoop_cons_of_ok {b : Barrier n γ} {component : Fin n} {i : ℕ} {value : γ}
    (batch : List (ByteString × γ)) {ready : Option (ReadyTuple n γ)}
    (h : (b.insertOneLocked validateTuple component i key value).result = .ok ready) :
    (insertLoop validateTuple component i ((key, value) :: batch) b).barrier =
        (insertLoop validateTuple component (i + 1) batch
          (b.insertOneLocked validateTuple component i key value).barrier).barrier ∧
      (insertLoop validateTuple component i ((key, value) :: batch) b).events =
        (b.insertOneLocked validateTuple component i key value).events ++
          (insertLoop validateTuple component (i + 1) batch
            (b.insertOneLocked validateTuple component i key value).barrier).events ∧
      (insertLoop validateTuple component i ((key, value) :: batch) b).readyTuples =
        ready.toList ++ (insertLoop validateTuple component (i + 1) batch
          (b.insertOneLocked validateTuple component i key value).barrier).readyTuples ∧
      (insertLoop validateTuple component i ((key, value) :: batch) b).error =
        (insertLoop validateTuple component (i + 1) batch
          (b.insertOneLocked validateTuple component i key value).barrier).error := by
  rw [insertLoop, h]
  exact ⟨by rfl, by rfl, by rfl, by rfl⟩

theorem insertLoop_cons_of_error {b : Barrier n γ} {component : Fin n} {i : ℕ} {value : γ}
    {batch : List (ByteString × γ)} {status : Status}
    (h : (b.insertOneLocked validateTuple component i key value).result = .error status) :
    insertLoop validateTuple component i ((key, value) :: batch) b =
      ⟨(b.insertOneLocked validateTuple component i key value).barrier,
        (b.insertOneLocked validateTuple component i key value).newElement,
        (b.insertOneLocked validateTuple component i key value).events, [], some status⟩ := by
  rw [insertLoop, h]

theorem sameFlags_insertLoop (validateTuple : ReadyTuple n γ → Option Status) (component : Fin n)
    (batch : List (ByteString × γ)) (i : ℕ) (b : Barrier n γ) :
    SameFlags b (insertLoop validateTuple component i batch b).barrier := by
  induction batch generalizing i b with
  | nil => exact .rfl
  | cons e batch ih =>
    obtain ⟨key, value⟩ := e
    have hone := sameFlags_insertOneLocked validateTuple b component i key value
    cases hresult : (b.insertOneLocked validateTuple component i key value).result with
    | error status => rwa [insertLoop_cons_of_error hresult]
    | ok ready =>
      rw [(insertLoop_cons_of_ok batch hresult).1]
      exact hone.trans (ih (i + 1) _)

/-- The ways that the critical section of an insert ends. -/
inductive InsertManyEffect (validateTuple : ReadyTuple n γ → Option Status) (b : Barrier n γ)
    (component : Fin n) (batch : List (ByteString × γ)) (insert : Insert n γ) : Prop where
  | closed (status : Status) (closed_eq : b.closed = true)
      (reason : b.cancelPendingEnqueues = true ∨ b.incomplete = [])
      (insert_eq : insert = ⟨b, [], [], some status⟩)
  | failed (status : Status) (error : (insertLoop validateTuple component 0 batch b).error =
      some status)
      (insert_eq : insert = ⟨(insertLoop validateTuple component 0 batch b).barrier,
        (insertLoop validateTuple component 0 batch b).events,
        (insertLoop validateTuple component 0 batch b).readyTuples, some status⟩)
  | tooMany (status : Status) (error : (insertLoop validateTuple component 0 batch b).error = none)
      (insert_eq : insert =
      ⟨{ (insertLoop validateTuple component 0 batch b).barrier with inputIndex := maxIndex },
        (insertLoop validateTuple component 0 batch b).events,
        (insertLoop validateTuple component 0 batch b).readyTuples, some status⟩)
  | ends (inputIndex : ℤ) (error : (insertLoop validateTuple component 0 batch b).error = none)
      (insert_eq : insert =
      ⟨{ (insertLoop validateTuple component 0 batch b).barrier with inputIndex },
        (insertLoop validateTuple component 0 batch b).events,
        (insertLoop validateTuple component 0 batch b).readyTuples,
        if (insertLoop validateTuple component 0 batch b).readyTuples = [] then none
        else PriorityQueue.copyToSliceError b.queueComponentTypes⟩)

/-- **What one insert does**, key by key. -/
theorem insertMany_effect (validateTuple : ReadyTuple n γ → Option Status) (b : Barrier n γ)
    (component : Fin n) (batch : List (ByteString × γ)) :
    InsertManyEffect validateTuple b component batch
    (b.insertMany validateTuple component batch) := by
  have htypes : (insertLoop validateTuple component 0 batch b).barrier.queueComponentTypes =
      b.queueComponentTypes := by
    unfold queueComponentTypes
    rw [(sameFlags_insertLoop validateTuple component batch 0 b).valueComponentTypes]
  unfold insertMany
  split
  next hrefused =>
    refine .closed _ hrefused.1 ?_ rfl
    by_cases hcancel : b.cancelPendingEnqueues = true
    · exact .inl hcancel
    · refine .inr (List.isEmpty_iff.1 ?_)
      by_contra hsome
      exact hrefused.2 ⟨hcancel, .inr hsome⟩
  · dsimp only
    split
    next status herror => exact .failed status herror rfl
    next herror =>
      generalize (if (insertLoop validateTuple component 0 batch b).newElements = true then
        (insertLoop validateTuple component 0 batch b).barrier.inputIndex + 1
        else (insertLoop validateTuple component 0 batch b).barrier.inputIndex) = inputIndex
      split
      next hmax =>
        subst hmax
        exact .tooMany _ herror rfl
      · split
        next hempty =>
          rw [List.isEmpty_iff] at hempty
          refine .ends inputIndex herror ?_
          rw [hempty, if_pos rfl]
        next hsome =>
          rw [List.isEmpty_iff] at hsome
          refine .ends inputIndex herror ?_
          rw [if_neg hsome]
          exact congrArg
            (fun types ↦ (⟨_, _, _, PriorityQueue.copyToSliceError types⟩ : Insert n γ)) htypes

/-- A barrier that has been cancelled takes no insert. -/
theorem insertMany_of_cancelled {b : Barrier n γ} (hclosed : b.closed = true)
    (hcancel : b.cancelPendingEnqueues = true) (component : Fin n) (batch : List (ByteString × γ)) :
    b.insertMany validateTuple component batch = ⟨b, [], [], some (b.closedStatus batch.length)⟩ :=
  if_pos ⟨hclosed, fun hopen ↦ hopen.1 hcancel⟩

/-- The loop over the keys, or nothing, and then the index of the next insert. -/
theorem insertMany_barrier (validateTuple : ReadyTuple n γ → Option Status) (b : Barrier n γ)
    (component : Fin n) (batch : List (ByteString × γ)) :
    (b.insertMany validateTuple component batch).barrier = b ∨
      ∃ inputIndex, (b.insertMany validateTuple component batch).barrier =
        { (insertLoop validateTuple component 0 batch b).barrier with inputIndex } := by
  cases insertMany_effect validateTuple b component batch with
  | closed _ _ _ heq =>
    rw [heq]
    exact .inl rfl
  | failed _ _ heq =>
    rw [heq]
    exact .inr ⟨_, rfl⟩
  | tooMany _ _ heq =>
    rw [heq]
    exact .inr ⟨_, rfl⟩
  | ends _ _ heq =>
    rw [heq]
    exact .inr ⟨_, rfl⟩

theorem sameFlags_insertMany (validateTuple : ReadyTuple n γ → Option Status) (b : Barrier n γ)
    (component : Fin n) (batch : List (ByteString × γ)) :
    SameFlags b (b.insertMany validateTuple component batch).barrier := by
  obtain heq | ⟨inputIndex, heq⟩ := insertMany_barrier validateTuple b component batch
  · rw [heq]
    exact .rfl
  · have hloop := sameFlags_insertLoop validateTuple component batch 0 b
    rw [heq]
    exact ⟨hloop.valueComponentTypes, hloop.closed, hloop.queueClosed, hloop.queueCancelled,
      hloop.cancelPendingEnqueues⟩

end Barrier

end TensorFlowCore
