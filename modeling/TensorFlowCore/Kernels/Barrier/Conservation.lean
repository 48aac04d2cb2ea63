import TensorFlowCore.Kernels.Barrier.Closing
import TensorFlowCore.Kernels.Barrier.Tally

/-!
# A barrier loses no key

A tuple that has been completed is on its way to the ready queue, in there, delivered, or dropped by
a `Close` that cancels, and in one of these places only (`KeepsKeys`). This holds in every run in
which nothing is dropped by another branch (`LosesNothing`): an insert that fails after it has
completed a key, a ready queue that has been closed without cancelling before an insert reaches it,
and a small batch that a closed queue begins to fill.
-/

namespace TensorFlowCore

open GuardedRun List PriorityQueue QueueBase QueueEvent

namespace Barrier

variable {n : ℕ} {γ : Type} {validateTuple : ReadyTuple n γ → Option Status} {H : PriorityHeap ℤ}

/-! ### Inserts that fail -/

/-- `InsertOneLocked` fails: the key is new and the barrier closed, the component is set, or the
tuple is refused. -/
def Rejects (validateTuple : ReadyTuple n γ → Option Status) (b : Barrier n γ) (component : Fin n)
    (key : ByteString) (value : γ) : Prop :=
  (KeyedList.get? key b.incomplete = none ∧ b.closed = true) ∨
    (∃ element, KeyedList.get? key b.incomplete = some element ∧
    (element.components component).isSome = true) ∨
      ∃ element ready, Found b key element ∧ Completes component value key element ready ∧
        validateTuple ready ≠ none

/-- An insert fails after it has completed a key: a later key is rejected, the barrier has had too
many inserts, or a component has a type that the copies do not handle. -/
def FailsAfterCompleting (validateTuple : ReadyTuple n γ → Option Status) (b : Barrier n γ)
    (component : Fin n) (batch : List (ByteString × γ)) : Prop :=
  (∃ first key value rest, batch = first ++ (key, value) :: rest ∧
    (insertLoop validateTuple component 0 first b).error = none ∧
    (insertLoop validateTuple component 0 first b).readyTuples ≠ [] ∧
    Rejects validateTuple (insertLoop validateTuple component 0 first b).barrier component key
    value) ∨
  (insertLoop validateTuple component 0 batch b).error = none ∧
    (insertLoop validateTuple component 0 batch b).readyTuples ≠ [] ∧
    ((b.insertMany validateTuple component batch).barrier.inputIndex = maxIndex ∨
      PriorityQueue.copyToSliceError b.queueComponentTypes ≠ none)

theorem rejects_of_error {b : Barrier n γ} {component : Fin n} {i : ℕ} {key : ByteString}
    {value : γ} {status : Status}
    (h : (b.insertOneLocked validateTuple component i key value).result = .error status) :
    Rejects validateTuple b component key value := by
  cases insertOneLocked_effect validateTuple b component i key value with
  | rejected status hreason => exact hreason.imp_right .inl
  | stored _ _ _ _ _ _ hresult =>
    rw [hresult] at h
    cases h
  | completed _ _ _ _ _ _ _ hresult =>
    rw [hresult] at h
    cases h
  | refused element hfound ready hcompletes status hinvalid =>
    refine .inr (.inr ⟨element, ready, hfound, hcompletes, ?_⟩)
    rw [hinvalid]
    exact Option.some_ne_none status

/-- Where the loop over the keys has failed. -/
theorem insertLoop_of_error (component : Fin n) (batch : List (ByteString × γ)) (i : ℕ)
    (b : Barrier n γ) {status : Status}
    (h : (insertLoop validateTuple component i batch b).error = some status) :
    ∃ first key value rest, batch = first ++ (key, value) :: rest ∧
      (insertLoop validateTuple component i first b).error = none ∧
      (insertLoop validateTuple component i first b).readyTuples =
        (insertLoop validateTuple component i batch b).readyTuples ∧
      Rejects validateTuple (insertLoop validateTuple component i first b).barrier component key
      value := by
  induction batch generalizing i b with
  | nil => cases h
  | cons e batch ih =>
    obtain ⟨key, value⟩ := e
    cases hresult : (b.insertOneLocked validateTuple component i key value).result with
    | error status =>
      rw [insertLoop_cons_of_error hresult]
      exact ⟨[], key, value, batch, rfl, rfl, rfl, rejects_of_error hresult⟩
    | ok ready =>
      obtain ⟨-, -, hready, herror⟩ := insertLoop_cons_of_ok batch hresult
      rw [herror] at h
      obtain ⟨first, k, v, rest, rfl, hfirst, htuples, hrejects⟩ := ih (i + 1) _ h
      obtain ⟨hbarrier', -, hready', herror'⟩ := insertLoop_cons_of_ok first hresult
      refine ⟨(key, value) :: first, k, v, rest, rfl, herror'.trans hfirst, ?_, ?_⟩
      · rw [hready', hready, htuples]
      · rwa [hbarrier']

/-- An insert that ends with an error completes no key, unless it fails after that. -/
theorem readyTuples_of_error {b : Barrier n γ} {component : Fin n} {batch : List (ByteString × γ)}
    (hfails : ¬ FailsAfterCompleting validateTuple b component batch) {status : Status}
    (h : (b.insertMany validateTuple component batch).error = some status) :
    (b.insertMany validateTuple component batch).readyTuples = [] := by
  by_contra hready
  refine hfails ?_
  cases insertMany_effect validateTuple b component batch with
  | closed _ _ _ heq =>
    rw [heq] at hready
    exact absurd rfl hready
  | failed status' herror heq =>
    obtain ⟨first, key, value, rest, hbatch, hfirst, htuples, hrejects⟩ :=
      insertLoop_of_error component batch 0 b herror
    rw [heq] at hready
    exact .inl ⟨first, key, value, rest, hbatch, hfirst, by rwa [htuples], hrejects⟩
  | tooMany _ herror heq =>
    rw [heq] at hready
    exact .inr ⟨herror, hready, .inl (by rw [heq])⟩
  | ends inputIndex herror heq =>
    rw [heq] at hready h
    dsimp only at hready h
    rw [if_neg hready] at h
    exact .inr ⟨herror, hready, .inr (by rw [h]; exact Option.some_ne_none status)⟩

namespace System

/-! ### Enqueue attempts -/

/-- The attempt to enqueue a batch, of which something remains. -/
structure BatchAttempt (a : EnqueueAttempt (Element n γ)) (batch : List (Element n γ)) :
    Prop where
  kind : a.kind = .many batch
  pos : 0 < a.elementsRequested
  le : a.elementsRequested ≤ batch.length
  length : batch.length < 2 ^ 31
  scalar : ∀ x ∈ batch, ∃ p, Barrier.scalar (x 0) = .ok p

section Attempts

variable {a : EnqueueAttempt (Element n γ)} {batch : List (Element n γ)}

theorem remaining_of_many (h : a.kind = .many batch) :
    remaining a = batch.drop (batch.length - a.elementsRequested).toNat := by
  rw [remaining, h]

/-- What remains after one element. -/
theorem remaining_sub_one (h : a.kind = .many batch) :
    remaining { a with elementsRequested := a.elementsRequested - 1 } =
      batch.drop (batch.length - (a.elementsRequested - 1)).toNat :=
  remaining_of_many (a := { a with elementsRequested := a.elementsRequested - 1 }) h

theorem remaining_of_close (h : a.kind = .close) : remaining a = [] := by rw [remaining, h]

/-- The next element of the batch. -/
theorem BatchAttempt.next (h : BatchAttempt a batch) :
    ∃ index x, x ∈ batch ∧ batchElement .int batch a.elementsRequested = some (index, x) ∧
      remaining a = x :: remaining { a with elementsRequested := a.elementsRequested - 1 } := by
  have hpos := h.pos
  have hle := h.le
  have hlength := h.length
  obtain ⟨k, hk⟩ : ∃ k : ℕ, (batch.length : ℤ) - a.elementsRequested = k :=
    ⟨((batch.length : ℤ) - a.elementsRequested).toNat, by omega⟩
  have hlt : k < batch.length := by omega
  have hindex : IndexType.int.narrow k = k := int_of_lt (by omega)
  refine ⟨k, batch[k], getElem_mem hlt, ?_, ?_⟩
  · unfold batchElement
    rw [hk, hindex]
    rw [if_neg (by omega), Int.toNat_natCast, getElem?_eq_getElem hlt]
    rfl
  · have hnext : ((batch.length : ℤ) - (a.elementsRequested - 1)).toNat = k + 1 := by omega
    rw [remaining_sub_one h.kind, remaining_of_many h.kind, hk, hnext, Int.toNat_natCast]
    exact drop_eq_getElem_cons hlt

/-- What the run of an attempt puts in comes first among what remains of it. -/
structure Puts (a : EnqueueAttempt (Element n γ)) (batch : List (Element n γ))
    (r : EnqueueRun (PriorityQueue (n + 2) (BarrierValue γ)) (Element n γ)) : Prop where
  isCancelled : r.attempt.isCancelled = a.isCancelled
  completes : r.result = .complete → r.events.filterMap enqueued? = remaining a
  waits : r.result ≠ .complete → BatchAttempt r.attempt batch ∧
    r.events.filterMap enqueued? ++ remaining r.attempt = remaining a

/-- Every element of the batch is pushed as a whole. -/
theorem pushFrom_eq {c : PriorityQueue (n + 2) (BarrierValue γ)}
    (hcopy : ∀ i, copyHandles (c.componentDtypes i) = true) {x : Element n γ} {p : ℤ}
    (hp : Barrier.scalar (x 0) = .ok p) (index : ℕ) :
    (PriorityQueue.queueOps H Barrier.scalar .ok).pushFrom x index c =
      (c.emplaceAll H x p (List.finRange (n + 2)), .ok) :=
  pushFrom_of_whole ⟨elementStatus_of_handled (hcopy 0), ⟨p, hp⟩,
    fun i ↦ elementStatus_of_handled (hcopy i)⟩ hp

/-- The loop of a ready batch puts in a front of it, and leaves the rest to the attempt. -/
theorem puts_enqueueLoop (room : ℕ) {c : PriorityQueue (n + 2) (BarrierValue γ)}
    (h : BatchAttempt a batch) (hcopy : ∀ i, copyHandles (c.componentDtypes i) = true)
    (result : RunResult) (hresult : result ≠ .complete) :
    Puts a batch (enqueueLoop (PriorityQueue.queueOps H Barrier.scalar .ok) batch room c a
      result) := by
  induction room generalizing c a result with
  | zero => exact ⟨rfl, fun hc ↦ absurd hc hresult, fun _ ↦ ⟨h, rfl⟩⟩
  | succ room ih =>
    obtain ⟨index, x, hx, hnext, hremaining⟩ := h.next
    obtain ⟨p, hp⟩ := h.scalar x hx
    unfold enqueueLoop
    rw [show batchElement (queueOps H Barrier.scalar .ok).indexType batch
      a.elementsRequested = some (index, x) from hnext]
    dsimp only
    rw [pushFrom_eq hcopy hp, if_neg (not_not.2 rfl)]
    split
    next hlast =>
      refine ⟨rfl, fun _ ↦ ?_, fun hne ↦ absurd rfl hne⟩
      rw [hremaining, remaining_sub_one h.kind, hlast, Int.sub_zero, Int.toNat_natCast, drop_length]
      rfl
    next hlast =>
      have hnextAttempt : BatchAttempt { a with elementsRequested := a.elementsRequested - 1 }
          batch := by
        have hpos := h.pos
        have hle := h.le
        exact ⟨h.kind, by dsimp only; omega, by dsimp only; omega, h.length, h.scalar⟩
      have hrest := ih (c := c.emplaceAll H x p (finRange (n + 2))) hnextAttempt
        (fun i ↦ by rw [componentDtypes_emplaceAll]; exact hcopy i)
        .progress RunResult.noConfusion
      refine ⟨hrest.isCancelled, fun hc ↦ ?_, fun hne ↦ ⟨(hrest.waits hne).1, ?_⟩⟩
      · rw [hremaining, ← hrest.completes hc]
        rfl
      · rw [hremaining, ← (hrest.waits hne).2]
        rfl

/-- The run of an attempt on an open queue. -/
theorem puts_runEnqueue {q : QueueBase (PriorityQueue (n + 2) (BarrierValue γ)) (Element n γ)}
    (h : BatchAttempt a batch) (hcopy : ∀ i, copyHandles (q.queues.componentDtypes i) = true)
    (hopen : q.closed = false) :
    Puts a batch (q.runEnqueue (PriorityQueue.queueClass H Barrier.scalar .ok) a).1 := by
  unfold QueueBase.runEnqueue
  rw [h.kind]
  dsimp only
  unfold runEnqueueMany
  rw [if_neg (by rw [hopen]; exact Bool.false_ne_true)]
  exact puts_enqueueLoop _ h hcopy _ RunResult.noConfusion

/-- A closed queue refuses the attempt. -/
theorem runEnqueue_of_closed {q : QueueBase (PriorityQueue (n + 2) (BarrierValue γ)) (Element n γ)}
    (h : a.kind = .close ∨ ∃ batch, BatchAttempt a batch) (hclosed : q.closed = true) :
    (q.runEnqueue (PriorityQueue.queueClass H Barrier.scalar .ok) a).1.result = .complete ∧
      (q.runEnqueue (PriorityQueue.queueClass H Barrier.scalar .ok) a).1.events = [] := by
  unfold QueueBase.runEnqueue
  obtain hkind | ⟨batch, hbatch⟩ := h
  · rw [hkind]
    rw [if_pos hclosed]
    exact ⟨rfl, rfl⟩
  · rw [hbatch.kind]
    dsimp only
    unfold runEnqueueMany
    rw [if_pos hclosed]
    exact ⟨rfl, rfl⟩

/-- An attempt to close an open queue puts nothing in. -/
theorem runEnqueue_of_close {q : QueueBase (PriorityQueue (n + 2) (BarrierValue γ)) (Element n γ)}
    (h : a.kind = .close) :
    (q.runEnqueue (PriorityQueue.queueClass H Barrier.scalar .ok) a).1.result = .complete ∧
      (q.runEnqueue (PriorityQueue.queueClass H Barrier.scalar .ok) a).1.events = [] := by
  unfold QueueBase.runEnqueue
  rw [h]
  dsimp only
  split <;> exact ⟨rfl, rfl⟩

end Attempts

/-! ### Dequeue attempts -/

section Takes

variable {a : DequeueAttempt (Element n γ)}
  {r : DequeueRun (PriorityQueue (n + 2) (BarrierValue γ)) (Element n γ)}

/-- A batch that the queue can complete loses nothing. -/
theorem lost_dequeueLoop {s : ℕ} {c : PriorityQueue (n + 2) (BarrierValue γ)} (h : Filling a)
    (hkind : a.kind ≠ .one) (hle : a.elementsRequested ≤ s)
    (hcopy : ∀ i, copyHandles (c.componentDtypes i) = true) {result : RunResult}
    (hr : dequeueLoop (PriorityQueue.queueOps H Barrier.scalar .ok) s c a result = some r) :
    r.result = .complete ∧ r.events.filterMap lost? = [] := by
  obtain ⟨taken, htakes, houtcome⟩ := dequeueLoop_cases h hkind hr
  cases houtcome with
  | waits _ _ _ hfilling _ hleft =>
    have hpos := hfilling.requested
    omega
  | hands _ _ _ hcomplete _ _ hevents =>
    rw [hevents, lost_dequeued]
    exact ⟨hcomplete, rfl⟩
  | fails _ _ _ _ _ _ _ hfailed hcopied =>
    have hnone : copyToSliceError r.queues.componentDtypes = none := by
      rw [(takes_spec htakes).1]
      exact findSome?_eq_none_iff.2 fun i _ ↦ if_pos (hcopy i)
    change some (if Status.ok = .ok then
      (copyToSliceError r.queues.componentDtypes).getD .ok else .ok) = _ at hcopied
    rw [if_pos rfl, hnone] at hcopied
    exact absurd (Option.some.inj hcopied).symm hfailed

/-- The run of a take's attempt that has taken nothing so far. -/
theorem lost_runDequeue {q : QueueBase (PriorityQueue (n + 2) (BarrierValue γ)) (Element n γ)}
    (h : Filling a) (hnone : collected a = [])
    (hcopy : (∀ i, copyHandles (q.queues.componentDtypes i) = true) ∨ q.queues.size = 0)
    (hsmall : ¬ SmallBatch q a)
    (hr : q.runDequeue (PriorityQueue.queueClass H Barrier.scalar .ok) a = some r) :
    r.events.filterMap lost? = [] ∧ (r.result ≠ .complete → collected r.attempt = []) := by
  have hpos := h.requested
  unfold QueueBase.runDequeue at hr
  split at hr
  · cases runDequeueOne_cases hr with
    | refuses => exact ⟨rfl, fun hne ↦ absurd rfl hne⟩
    | takes => exact ⟨rfl, fun hne ↦ absurd rfl hne⟩
    | waits => exact ⟨rfl, fun _ ↦ hnone⟩
  next allowSmallBatch hkind =>
    have hmany : a.kind ≠ .one := kind_ne_one hkind
    cases runDequeueMany_cases hr with
    | refuses =>
      rw [hnone]
      exact ⟨rfl, fun hne ↦ absurd rfl hne⟩
    | waits => exact ⟨rfl, fun _ ↦ hnone⟩
    | loops _ _ hfew hloop =>
      -- the queue has enough elements for the batch
      have henough : a.elementsRequested ≤ q.queues.size := by
        by_contra hlt
        obtain ⟨hsome, hclosed, hallow⟩ := hfew (by omega)
        exact hsmall ⟨hallow ▸ hkind, hclosed, hsome, by omega⟩
      obtain ⟨hresult, hlost⟩ := lost_dequeueLoop h hmany henough
        (hcopy.resolve_right fun hzero ↦ by omega) hloop
      exact ⟨hlost, fun hne ↦ absurd hresult hne⟩

end Takes

/-! ### The ready queue -/

section Queue

variable {q q' : ReadyQueue n γ} {types : Fin (n + 2) → DataType}
  {action : QueueBase.System.Action (Element n γ)}

/-- The elements that an action brings to the queue. -/
def arrivingElements : QueueBase.System.Action (Element n γ) → List (Element n γ)
  | .tryEnqueueMany batch false => batch
  | _ => []

/-- The elements that an action drops on their way to the queue. -/
def droppedElements (q : ReadyQueue n γ) : QueueBase.System.Action (Element n γ) →
    List (Element n γ)
  | .close true => pendingElements q
  | .flush => refusedElements q
  | _ => []

/-- The actions of a barrier on its ready queue, none of which begins to fill a small batch. -/
structure Harmless (types : Fin (n + 2) → DataType) (q : ReadyQueue n γ)
    (action : QueueBase.System.Action (Element n γ)) : Prop where
  enqueues : ∀ x b, action ≠ .tryEnqueue x b
  cancels : (∀ token, action ≠ .cancelEnqueue token) ∧ ∀ token, action ≠ .cancelDequeue token
  batches : ∀ batch b, action = .tryEnqueueMany batch b → (∀ i, copyHandles (types i) = true) ∧
    batch.length < 2 ^ 31 ∧ ∀ x ∈ batch, ∃ p, Barrier.scalar (x 0) = .ok p
  smallBatches : action = .flush → ∀ f a rest, q.flush = some f → f.pass = .dequeue →
    live q.q.dequeueAttempts = a :: rest → ¬ SmallBatch q.q a

/-- What holds of a ready queue that has lost nothing. -/
structure Kept (H : PriorityHeap ℤ) (types : Fin (n + 2) → DataType) (q : ReadyQueue n γ) :
    Prop where
  inv : PriorityQueue.Inv H Barrier.scalar types q
  attempts : ∀ a ∈ live q.q.enqueueAttempts, a.kind = .close ∨ ∃ batch, BatchAttempt a batch
  /-- Every copy is handled, or there has been none. -/
  handled : (∀ i, copyHandles (types i) = true) ∨
    (∀ a ∈ live q.q.enqueueAttempts, a.kind = .close) ∧ q.enqueued = []
  held : q.held = []
  lost : q.lost = []

/-- What a step of the queue does to the elements on their way to it. -/
structure Passes (q : ReadyQueue n γ) (action : QueueBase.System.Action (Element n γ))
    (q' : ReadyQueue n γ) :
    Prop where
  attempts : ∀ a ∈ live q'.q.enqueueAttempts, a.kind = .close ∨ ∃ batch, BatchAttempt a batch
  elements : (q'.enqueued : Multiset (Element n γ)) + pendingElements q' +
    droppedElements q action =
    q.enqueued + pendingElements q + arrivingElements action
  idle : (∀ a ∈ live q.q.enqueueAttempts, a.kind = .close) → q.enqueued = [] →
    arrivingElements action = [] →
    (∀ a ∈ live q'.q.enqueueAttempts, a.kind = .close) ∧ q'.enqueued = []

theorem refusedElements_of_idle (h : QueueBase.System.Idle q .flush) : refusedElements q = [] := by
  unfold refusedElements
  split
  next progress changed cleanUp a rest hflush hattempts =>
    have hcancelled := h.2 _ a rest rfl hflush rfl hattempts
    exact if_neg fun hlive ↦ hlive.2 hcancelled
  · rfl

theorem droppedElements_of_idle (h : QueueBase.System.Idle q action) :
    droppedElements q action = [] := by
  unfold droppedElements
  split
  · exact absurd rfl h.1
  · exact refusedElements_of_idle h
  · rfl

theorem arrivingElements_of_none (h : q.arriving action = none) : arrivingElements action = [] := by
  unfold arrivingElements
  split
  next batch =>
    by_contra hne
    have hsome : q.arriving (.tryEnqueueMany batch false) = some _ :=
      if_neg fun hempty ↦ hne (isEmpty_iff.1 hempty)
    rw [h] at hsome
    cases hsome
  · rfl

/-- What is refused is what remains of the attempt in front. -/
theorem refusedElements_of_closed {a : EnqueueAttempt (Element n γ)}
    {rest : List (EnqueueAttempt (Element n γ))} {f : Flush (Element n γ)}
    (hflush : q.flush = some f) (hpass : f.pass = .enqueue)
    (hattempts : q.q.enqueueAttempts = a :: rest) (hlive : ¬ a.isCancelled = true) :
    refusedElements q = if q.q.closed = true then remaining a else [] := by
  obtain ⟨pass, progress, changed, cleanUp⟩ := f
  obtain rfl := hpass
  unfold refusedElements
  rw [hflush, hattempts]
  dsimp only
  by_cases hclosed : q.q.closed = true
  · rw [if_pos ⟨hclosed, hlive⟩, if_pos hclosed]
  · rw [if_neg fun hboth ↦ hclosed hboth.1, if_neg hclosed]

/-- **What one step of the ready queue passes on**: what is put in, waits or is dropped. -/
theorem Kept.passes (h : Kept H types q) (hharmless : Harmless types q action)
    (hstep : QueueBase.System.step (PriorityQueue.queueClass H Barrier.scalar .ok) q action =
      some q') : Passes q action q' := by
  cases QueueBase.System.enqueueEffect_step keepsAttempts hstep with
  | same harriving _ hlive henqueued hidle =>
    refine ⟨hlive ▸ h.attempts, ?_, fun hclose hnone _ ↦ ⟨hlive ▸ hclose, henqueued.trans hnone⟩⟩
    rw [arrivingElements_of_none harriving, droppedElements_of_idle hidle, pendingElements, hlive,
      henqueued]
    rfl
  | leaves token haction => exact absurd haction (hharmless.cancels.1 token)
  | allLeave haction _ hlive henqueued =>
    subst haction
    refine ⟨by rw [hlive]; exact forall_mem_nil _, ?_,
      fun _ hnone _ ↦ ⟨by rw [hlive]; exact forall_mem_nil _, henqueued.trans hnone⟩⟩
    have hpending : pendingElements q' = [] := by rw [pendingElements, hlive]; rfl
    rw [henqueued, hpending]
    show _ + (0 : Multiset (Element n γ)) + pendingElements q = _ + pendingElements q + 0
    rw [add_zero, add_zero]
  | arrives a harriving _ hlive henqueued =>
    have hpending : pendingElements q' = pendingElements q ++ remaining a := by
      rw [pendingElements, hlive, flatMap_append, flatMap_singleton, pendingElements]
    obtain ⟨hok, hremaining, hdropped, hclose⟩ :
        (a.kind = .close ∨ ∃ batch, BatchAttempt a batch) ∧ remaining a = arrivingElements action ∧
          droppedElements q action = [] ∧ (arrivingElements action = [] → a.kind = .close) := by
      unfold QueueBase.System.arriving at harriving
      split at harriving
      · exact absurd rfl (hharmless.enqueues _ _)
      next batch =>
        split at harriving
        · cases harriving
        next hne =>
          obtain ⟨-, hlength, hscalar⟩ := hharmless.batches batch false rfl
          have hpos : 0 < batch.length := length_pos_iff.2 fun hnil ↦ hne (isEmpty_iff.2 hnil)
          rw [int_of_lt hlength] at harriving
          cases harriving
          refine ⟨.inr ⟨batch, rfl, Int.natCast_pos.2 hpos, le_rfl, hlength, hscalar⟩, ?_, rfl,
            fun hnil ↦ absurd (isEmpty_iff.2 hnil) hne⟩
          rw [@remaining_of_many _ _ _ batch rfl]
          show batch.drop ((batch.length : ℤ) - batch.length).toNat = batch
          rw [Int.sub_self]
          rfl
      · cases harriving
        exact ⟨.inl rfl, rfl, rfl, fun _ ↦ rfl⟩
      · cases harriving
    refine ⟨hlive ▸ forall_mem_append.2 ⟨h.attempts, forall_mem_singleton.2 hok⟩, ?_,
      fun hall hnone hnil ↦
      ⟨hlive ▸ forall_mem_append.2 ⟨hall, forall_mem_singleton.2 (hclose hnil)⟩,
        henqueued.trans hnone⟩⟩
    rw [henqueued, hpending, hremaining, hdropped, ← Multiset.coe_add, ← add_assoc,
      Multiset.coe_nil, add_zero]
  | runs a rest haction hflush hhead hclosed hlive hlive' henqueued =>
    subst haction
    obtain ⟨f, hf, hpass⟩ := hflush
    obtain ⟨rest', hattempts, hnot⟩ := hhead
    have hrefused : droppedElements q .flush = if q.q.closed = true then remaining a else [] :=
      refusedElements_of_closed hf hpass hattempts hnot
    have hpending : pendingElements q = remaining a ++ rest.flatMap remaining := by
      rw [pendingElements, hlive, flatMap_cons]
    have hall := h.attempts
    rw [hlive] at hall
    obtain ⟨ha, hrest⟩ := forall_mem_cons.1 hall
    have hnone : arrivingElements (.flush : QueueBase.System.Action (Element n γ)) = [] := rfl
    -- the attempt completes without putting anything in
    have hquiet (hresult : (q.q.runEnqueue (queueClass H Barrier.scalar .ok) a).1.result =
      .complete)
        (hevents : (q.q.runEnqueue (queueClass H Barrier.scalar .ok) a).1.events = [])
        (hgone : droppedElements q .flush = remaining a) : Passes q .flush q' := by
      rw [if_pos hresult] at hlive'
      rw [hevents, filterMap_nil, append_nil] at henqueued
      refine ⟨hlive' ▸ hrest, ?_,
        fun hclose hnone _ ↦ ⟨fun b hb ↦ hclose b ?_, henqueued.trans hnone⟩⟩
      · rw [henqueued, pendingElements, hlive', hgone, hpending, ← Multiset.coe_add, add_assoc,
          add_comm (rest.flatMap remaining : Multiset (Element n γ)), hnone, Multiset.coe_nil,
          add_zero]
      · rw [hlive]
        exact mem_cons_of_mem a (hlive' ▸ hb)
    by_cases hqueue : q.q.closed = true
    · obtain ⟨hresult, hevents⟩ := runEnqueue_of_closed (H := H) (q := q.q) ha hqueue
      exact hquiet hresult hevents (by rw [hrefused, if_pos hqueue])
    · rw [if_neg hqueue] at hrefused
      obtain hkind | ⟨batch, hbatch⟩ := ha
      · obtain ⟨hresult, hevents⟩ := runEnqueue_of_close (H := H) (q := q.q) hkind
        exact hquiet hresult hevents (by rw [hrefused, remaining_of_close hkind])
      · have hcopy : ∀ i, copyHandles (q.q.queues.componentDtypes i) = true := by
          rw [h.inv.dtypes]
          refine h.handled.resolve_right fun hidle ↦ ?_
          have hkind := hidle.1 a (hlive ▸ mem_cons_self)
          rw [hbatch.kind] at hkind
          cases hkind
        have hputs := puts_runEnqueue (H := H) hbatch hcopy (by simpa using hqueue)
        have hidle (hclose : ∀ b ∈ live q.q.enqueueAttempts, b.kind = .close) : False := by
          have hkind := hclose a (hlive ▸ mem_cons_self)
          rw [hbatch.kind] at hkind
          cases hkind
        by_cases hresult : (q.q.runEnqueue (queueClass H Barrier.scalar .ok) a).1.result = .complete
        · rw [if_pos hresult] at hlive'
          refine ⟨hlive' ▸ hrest, ?_, fun hclose ↦ (hidle hclose).elim⟩
          rw [henqueued, hputs.completes hresult, pendingElements, hlive', hrefused, hpending,
            ← Multiset.coe_add, ← Multiset.coe_add, add_assoc (q.enqueued : Multiset (Element n γ))]
          rfl
        · rw [if_neg hresult] at hlive'
          obtain ⟨hwaits, hsplit⟩ := hputs.waits hresult
          rw [live_cons (hputs.isCancelled ▸ hnot), live_nil, singleton_append] at hlive'
          refine ⟨hlive' ▸ forall_mem_cons.2 ⟨.inr ⟨batch, hwaits⟩, hrest⟩, ?_,
            fun hclose ↦ (hidle hclose).elim⟩
          rw [henqueued, pendingElements, hlive', hrefused, hpending, ← hsplit, flatMap_cons]
          simp only [← Multiset.coe_add, Multiset.coe_nil, add_zero, arrivingElements, add_assoc]

/-- The elements of an idle queue. -/
theorem size_of_enqueued (h : PriorityQueue.Inv H Barrier.scalar types q)
    (hnone : q.enqueued = []) : q.q.queues.size = 0 := by
  obtain ⟨v, hv, hreplays⟩ := h.traced
  have henqueued := hreplays.enqueued_eq
  rw [show q.history.filterMap enqueued? = [] from hnone] at henqueued
  have hcard := congrArg Multiset.card henqueued
  rw [payloads] at hcard
  simp only [Multiset.card_add, Multiset.coe_card, length_map] at hcard
  rw [hv.size_eq]
  exact (Nat.add_eq_zero_iff.1 hcard.symm).2

/-- The tuples of the ready queue stay whole as long as nothing harmful is done to it. -/
theorem Kept.step (h : Kept H types q) (hharmless : Harmless types q action)
    (hstep : QueueBase.System.step (PriorityQueue.queueClass H Barrier.scalar .ok) q action =
      some q') : Kept H types q' := by
  have hpasses := h.passes hharmless hstep
  have hinv : PriorityQueue.Inv H Barrier.scalar types q' := by
    refine PriorityQueue.inv_step h.inv ?_
      (show PriorityQueue.step H Barrier.scalar q (.ok, action) = some q' from hstep)
    obtain hall | ⟨hclose, -⟩ := h.handled
    · refine not_tears_of_copied fun _ i ↦ elementStatus_of_handled ?_
      rw [h.inv.dtypes]
      exact hall i
    · -- there is no batch to enqueue
      rintro ⟨-, f, a, rest, batch, -, -, hhead, hnot, hkind, -⟩
      have hmem : a ∈ live q.q.enqueueAttempts := by
        rw [hhead, live_cons hnot]
        exact mem_cons_self
      rw [hclose a hmem] at hkind
      cases hkind
  have hhandled : (∀ i, copyHandles (types i) = true) ∨
      (∀ a ∈ live q'.q.enqueueAttempts, a.kind = .close) ∧ q'.enqueued = [] := by
    by_cases hall : ∀ i, copyHandles (types i) = true
    · exact .inl hall
    · obtain ⟨hclose, hnone⟩ := h.handled.resolve_left hall
      refine .inr (hpasses.idle hclose hnone ?_)
      unfold arrivingElements
      split
      next batch => exact absurd (hharmless.batches batch false rfl).1 hall
      · rfl
  suffices hdequeues : q'.held = [] ∧ q'.lost = [] from
    ⟨hinv, hpasses.attempts, hhandled, hdequeues.1, hdequeues.2⟩
  have hheld := h.held
  have hlost := h.lost
  unfold QueueBase.System.held at hheld
  unfold QueueBase.System.lost at hlost
  unfold QueueBase.System.held QueueBase.System.lost
  cases QueueBase.System.step_effect keepsAttempts.unspecifiedShapes hstep with
  | quiet same hlive =>
    rw [hlive, same.history]
    exact ⟨hheld, hlost⟩
  | arrives kind requested _ same hlive =>
    rw [hlive, same.history, flatMap_append, hheld]
    exact ⟨rfl, hlost⟩
  | leaves token haction => exact absurd haction (hharmless.cancels.2 token)
  | enqueues _ a _ _ _ _ _ _ _ hhistory _ _ hlive =>
    rw [hlive, hhistory, filterMap_append, hlost, (enqueueSpec H Barrier.scalar .ok q.q a).lost]
    exact ⟨hheld, rfl⟩
  | dequeues f a rest r haction hf hpass hhead hnot hrun _ hhistory _ hlive' =>
    have hlive : live q.q.dequeueAttempts = a :: live rest := by rw [hhead, live_cons hnot]
    have hmem : a ∈ live q.q.dequeueAttempts := hlive ▸ mem_cons_self
    rw [hlive, flatMap_cons] at hheld
    obtain ⟨hnone, hrest⟩ := append_eq_nil_iff.1 hheld
    have hcopy : (∀ i, copyHandles (q.q.queues.componentDtypes i) = true) ∨
        q.q.queues.size = 0 := by
      rw [h.inv.dtypes]
      exact h.handled.imp_right fun hidle ↦ size_of_enqueued h.inv hidle.2
    obtain ⟨hevents, hcollected⟩ := lost_runDequeue (h.inv.accounted.filling a hmem) hnone hcopy
      (hharmless.smallBatches haction f a _ hf hpass hlive) hrun
    rw [hhistory, filterMap_append, hlost, hevents, hlive']
    refine ⟨?_, rfl⟩
    split
    · exact hrest
    next hresult =>
      rw [flatMap_append, hrest, append_nil]
      refine flatMap_eq_nil_iff.2 fun b hb ↦ ?_
      rw [mem_singleton.1 (mem_filter.1 hb).1]
      exact hcollected hresult

end Queue

/-! ### Runs -/

/-- The elements on their way to the ready queue. -/
def inFlight (s : System n γ) : Multiset (Element n γ) :=
  pendingElements s.queue + s.inserts.flatten.map ReadyTuple.element

/-- What holds in a run in which nothing else is dropped. -/
structure Conserved (H : PriorityHeap ℤ) (s : System n γ) : Prop where
  flags : Flags s
  kept : Kept H s.barrier.queueComponentTypes s.queue
  /-- A `Close` that cancels drops the incomplete keys. -/
  tallied : s.barrier.cancelPendingEnqueues = false → Tallied (tally s.log) s.barrier
  elements : ((tally s.log).completed.map ReadyTuple.element : Multiset (Element n γ)) =
    s.queue.enqueued + s.inFlight + s.dropped
  dropped : s.dropped ≠ [] → s.barrier.cancelPendingEnqueues = true
  inserts : ∀ tuples ∈ s.inserts, tuples.length < 2 ^ 31 ∧
    ∀ i, copyHandles (s.barrier.queueComponentTypes i) = true

theorem copyHandles_of_none {types : Fin (n + 2) → DataType}
    (h : PriorityQueue.copyToSliceError types = none) (i : Fin (n + 2)) :
    copyHandles (types i) = true := by
  have hi := findSome?_eq_none_iff.1 h i (mem_finRange i)
  unfold copyError at hi
  by_contra hne
  rw [if_neg hne] at hi
  cases hi

theorem tally_append_events (log events : List (BarrierEvent n γ)) :
    tally (log ++ events) = events.foldl Tally.record (tally log) := foldl_append

section Steps

variable {s s' : System n γ} {action : Action n γ}

/-- What an insert leaves behind, whatever becomes of its error. -/
structure Inserted (s : System n γ) (insert : Insert n γ) : Prop where
  tallied : insert.barrier.cancelPendingEnqueues = false →
    Tallied (tally (s.log ++ insert.events)) insert.barrier
  completed : (tally (s.log ++ insert.events)).completed = (tally s.log).completed ++
    insert.readyTuples
  readyTuples : insert.error ≠ none → insert.readyTuples = []
  length : insert.readyTuples.length < 2 ^ 31
  handled : insert.error = none → insert.readyTuples ≠ [] →
    ∀ i, copyHandles (s.barrier.queueComponentTypes i) = true

/-- An insert that does not fail after completing a key hands on all that it completes. -/
theorem Conserved.insertMany (h : Conserved H s) {component : Fin n} {batch : List (ByteString × γ)}
    (hlength : batch.length < 2 ^ 31)
    (hfails : ¬ FailsAfterCompleting validateTuple s.barrier component batch) :
    Inserted s (s.barrier.insertMany validateTuple component batch) := by
  have hsame := sameFlags_insertMany validateTuple s.barrier component batch
  by_cases hcancel : s.barrier.cancelPendingEnqueues = true
  · rw [insertMany_of_cancelled (h.flags.closed (h.flags.cancelPendingEnqueues hcancel)) hcancel]
    refine ⟨fun hno ↦ ?_, ?_, fun _ ↦ rfl, Nat.two_pow_pos 31, fun _ hne ↦ absurd rfl hne⟩
    · exact absurd (hcancel.symm.trans hno) Bool.false_ne_true.symm
    · rw [append_nil, append_nil]
  · have htallied := h.tallied (by simpa using hcancel)
    have hloop := talliedAfter_insertLoop validateTuple component batch 0 htallied
    have hready := (length_insertLoop validateTuple component batch 0 s.barrier).trans_lt hlength
    have herror : (s.barrier.insertMany validateTuple component batch).error ≠ none →
        (s.barrier.insertMany validateTuple component batch).readyTuples = [] := by
      intro hne
      obtain ⟨status, hstatus⟩ := Option.ne_none_iff_exists'.1 hne
      exact readyTuples_of_error hfails hstatus
    -- the loop has run
    have hran {inputIndex : ℤ} {error : Option Status}
      (heq : s.barrier.insertMany validateTuple component batch =
          ⟨{ (insertLoop validateTuple component 0 batch s.barrier).barrier with inputIndex },
            (insertLoop validateTuple component 0 batch s.barrier).events,
            (insertLoop validateTuple component 0 batch s.barrier).readyTuples, error⟩)
        (hhandled : error = none →
          (insertLoop validateTuple component 0 batch s.barrier).readyTuples ≠ [] →
          ∀ i, copyHandles (s.barrier.queueComponentTypes i) = true) :
        Inserted s (s.barrier.insertMany validateTuple component batch) := by
      rw [heq] at herror ⊢
      refine ⟨fun _ ↦ ?_, ?_, herror, hready, hhandled⟩
      · rw [tally_append_events]
        exact hloop.tallied
      · rw [tally_append_events]
        exact hloop.completed
    cases insertMany_effect validateTuple s.barrier component batch with
    | closed _ _ _ heq =>
      rw [heq]
      refine ⟨fun _ ↦ ?_, ?_, fun _ ↦ rfl, Nat.two_pow_pos 31, fun _ hne ↦ absurd rfl hne⟩
      · rw [append_nil]
        exact htallied
      · rw [append_nil, append_nil]
    | failed _ _ heq => exact hran heq fun hnone ↦ by cases hnone
    | tooMany _ _ heq => exact hran heq fun hnone ↦ by cases hnone
    | ends inputIndex _ heq =>
      refine hran heq fun hnone hne ↦ ?_
      rw [if_neg hne] at hnone
      exact copyHandles_of_none hnone

/-- A step of the ready queue, with what it brings and what it drops. -/
theorem Conserved.queueStep (h : Conserved H s)
    (queueAction : QueueBase.System.Action (Element n γ))
    (hharmless : Harmless s.barrier.queueComponentTypes s.queue queueAction)
    (hstep : QueueBase.System.step (PriorityQueue.queueClass H scalar .ok) s.queue queueAction =
      some s'.queue)
    (hflags : Flags s') (hbarrier : s'.barrier.queueComponentTypes = s.barrier.queueComponentTypes)
    (htallied : s'.barrier.cancelPendingEnqueues = false →
      s.barrier.cancelPendingEnqueues = false ∧ s'.barrier.incomplete = s.barrier.incomplete)
    (hlog : s'.log = s.log)
    (hinserts : (s.inserts.flatten.map ReadyTuple.element : Multiset (Element n γ)) =
      s'.inserts.flatten.map ReadyTuple.element + arrivingElements queueAction)
    (hsubset : ∀ tuples ∈ s'.inserts, tuples ∈ s.inserts)
    (hdropped : s'.dropped = s.dropped ++ droppedElements s.queue queueAction)
    (hcancel : s'.dropped ≠ [] → s'.barrier.cancelPendingEnqueues = true) : Conserved H s' where
  flags := hflags
  kept := hbarrier ▸ h.kept.step hharmless hstep
  tallied hno key := by
    obtain ⟨hno', hincomplete⟩ := htallied hno
    rw [hlog, hincomplete]
    exact h.tallied hno' key
  elements := by
    have hpasses := (h.kept.passes hharmless hstep).elements
    have helements := h.elements
    unfold inFlight at helements ⊢
    rw [hlog, helements, hinserts, hdropped, ← Multiset.coe_add]
    calc (s.queue.enqueued : Multiset (Element n γ)) + (pendingElements s.queue +
          ((s'.inserts.flatten.map ReadyTuple.element : List (Element n γ)) +
          arrivingElements queueAction)) + s.dropped
        = s.queue.enqueued + pendingElements s.queue + arrivingElements queueAction +
          (s'.inserts.flatten.map ReadyTuple.element : List (Element n γ)) + s.dropped := by abel
      _ = s'.queue.enqueued + (pendingElements s'.queue +
          (s'.inserts.flatten.map ReadyTuple.element : List (Element n γ))) +
          (s.dropped + droppedElements s.queue queueAction) := by
        rw [← hpasses]
        abel
  dropped := hcancel
  inserts tuples htuples := by
    rw [hbarrier]
    exact h.inserts tuples (hsubset tuples htuples)

end Steps

end System

end Barrier

end TensorFlowCore
