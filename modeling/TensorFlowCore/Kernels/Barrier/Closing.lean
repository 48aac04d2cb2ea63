import TensorFlowCore.Kernels.Barrier.Model
import TensorFlowCore.Kernels.PriorityQueue.Ordering
import TensorFlowCore.Kernels.QueueBase.Enqueues

/-!
# A closed barrier closes its ready queue

A `Close` that finds no incomplete key closes the ready queue. One that leaves it open, since there
are incomplete keys, relies on the callback of the insert that completes the last of them. That
callback closes the queue only if it is marked as closed already (`open_after_last_component`).
-/

namespace TensorFlowCore

open GuardedRun KeyedList List Option QueueBase QueueEvent

namespace Barrier

variable {n : ℕ} {γ : Type} {validateTuple : ReadyTuple n γ → Option Status} {H : PriorityHeap ℤ}

/-! ### The last incomplete keys -/

/-- The keys are those that are incomplete, each of which lacks the component alone, and no tuple
but the last one may be refused. -/
structure LastKeys (validateTuple : ReadyTuple n γ → Option Status)
    (incomplete : List (ByteString × IncompleteTuple n γ)) (component : Fin n)
    (first : List (ByteString × γ)) : Prop where
  nodup : (first.map Prod.fst).Nodup
  mem : ∀ key, key ∈ first.map Prod.fst ↔ (KeyedList.get? key incomplete).isSome = true
  lacks : ∀ key element, KeyedList.get? key incomplete = some element →
    ∀ j, (element.components j).isSome = true ↔ j ≠ component
  valid : ∀ e ∈ first.dropLast, ∀ element, KeyedList.get? e.1 incomplete = some element →
    ∀ ready, Completes component e.2 e.1 element ready → validateTuple ready = none

variable {incomplete : List (ByteString × IncompleteTuple n γ)} {component : Fin n}
    {key : ByteString} {value : γ}
  {element : IncompleteTuple n γ} {first : List (ByteString × γ)}

theorem lastKeys_nil :
    LastKeys validateTuple ([] : List (ByteString × IncompleteTuple n γ)) component [] where
  nodup := nodup_nil
  mem _ := ⟨nofun, nofun⟩
  lacks _ _ h := by cases h
  valid _ h := by cases h

theorem incomplete_eq_nil (h : LastKeys validateTuple incomplete component []) :
    incomplete = [] := by
  refine eq_nil_iff.2 fun key ↦ ?_
  have := (h.mem key).not.1 nofun
  simpa using this

theorem mem_keys_cons {first : List (ByteString × γ)} (k : ByteString) :
    k ∈ ((key, value) :: first).map Prod.fst ↔ k = key ∨ k ∈ first.map Prod.fst := by
  rw [map_cons, mem_cons]

/-- One more key, which is removed first. -/
theorem LastKeys.cons (h : LastKeys validateTuple (KeyedList.erase key incomplete) component first)
    (hfound : KeyedList.get? key incomplete = some element)
    (hlacks : ∀ j, (element.components j).isSome = true ↔ j ≠ component)
    (hvalid : first ≠ [] → ∀ ready, Completes component value key element ready →
      validateTuple ready = none) :
    LastKeys validateTuple incomplete component ((key, value) :: first) where
  nodup := by
    refine nodup_cons.2 ⟨fun hmem ↦ ?_, h.nodup⟩
    have := (h.mem key).1 hmem
    rw [get?_erase_self] at this
    cases this
  mem k := by
    rw [mem_keys_cons, h.mem]
    by_cases hk : k = key
    · rw [hk, hfound]
      exact ⟨fun _ ↦ rfl, fun _ ↦ .inl rfl⟩
    · rw [get?_erase_of_ne hk]
      exact or_iff_right hk
  lacks k e he := by
    by_cases hk : k = key
    · rw [hk, hfound] at he
      rwa [← some.inj he]
    · exact h.lacks k e ((get?_erase_of_ne hk).trans he)
  valid e he x hx ready hready := by
    cases first with
    | nil => cases he
    | cons e' first =>
      rw [dropLast_cons_of_ne_nil (cons_ne_nil _ _)] at he
      obtain rfl | he := mem_cons.1 he
      · rw [hfound] at hx
        cases hx
        exact hvalid (cons_ne_nil _ _) ready hready
      · have hk : e.1 ≠ key := by
          intro hk
          have := (h.mem e.1).1 (mem_map_of_mem (dropLast_subset _ he))
          rw [hk, get?_erase_self] at this
          cases this
        exact h.valid e he x ((get?_erase_of_ne hk).trans hx) ready hready

/-- A key whose component is set keeps its place for the rest of the batch. -/
theorem isSome_insertLoop (validateTuple : ReadyTuple n γ → Option Status) (component : Fin n)
    (batch : List (ByteString × γ)) (i : ℕ) (b : Barrier n γ)
    (hfound : KeyedList.get? key b.incomplete = some element)
    (hset : (element.components component).isSome = true) :
    (KeyedList.get? key (insertLoop validateTuple component i batch b).barrier.incomplete).isSome =
      true := by
  induction batch generalizing i b with
  | nil =>
    rw [insertLoop, hfound]
    rfl
  | cons e batch ih =>
    obtain ⟨k, v⟩ := e
    -- an insert that does not fail is about another key
    have hother {x : IncompleteTuple n γ} (hx : Found b k x)
      (hnone : ¬ (x.components component).isSome = true) :
        key ≠ k := by
      rintro rfl
      obtain hx | ⟨hx, -, -⟩ := hx
      · rw [hfound] at hx
        rw [← some.inj hx] at hnone
        exact hnone hset
      · rw [hfound] at hx
        cases hx
    cases insertOneLocked_effect validateTuple b component i k v with
    | rejected status _ hb _ hresult =>
      rw [insertLoop_cons_of_error hresult, hb, hfound]
      rfl
    | stored x hx hnone _ hb _ hresult =>
      rw [(insertLoop_cons_of_ok _ hresult).1]
      refine ih (i + 1) _ ?_
      rw [hb]
      exact (get?_set_of_ne (hother hx (by simp [hnone]))).trans hfound
    | completed x hx ready hcompletes _ hb _ hresult =>
      rw [(insertLoop_cons_of_ok _ hresult).1]
      refine ih (i + 1) _ ?_
      rw [hb]
      exact (get?_erase_of_ne (hother hx fun h ↦ (hcompletes.lacks component).1 h rfl)).trans hfound
    | refused x hx ready hcompletes status _ hb _ hresult =>
      rw [insertLoop_cons_of_error hresult, hb,
        get?_erase_of_ne (hother hx fun h ↦ (hcompletes.lacks component).1 h rfl), hfound]
      rfl

theorem Found.of_closed {b : Barrier n γ} (h : Found b key element) (hclosed : b.closed = true) :
    KeyedList.get? key b.incomplete = some element :=
  h.resolve_right fun hnew ↦ Bool.false_ne_true (hnew.2.1.symm.trans hclosed)

/-- A batch that leaves no incomplete key of a closed barrier starts with the last of them. -/
theorem lastKeys_of_insertLoop (batch : List (ByteString × γ)) (i : ℕ) (b : Barrier n γ)
    (hclosed : b.closed = true)
    (h : (insertLoop validateTuple component i batch b).barrier.incomplete = []) :
    ∃ first rest, batch = first ++ rest ∧ LastKeys validateTuple b.incomplete component first := by
  induction batch generalizing i b with
  | nil =>
    rw [insertLoop] at h
    exact ⟨[], [], rfl, h ▸ lastKeys_nil⟩
  | cons e batch ih =>
    obtain ⟨key, value⟩ := e
    cases insertOneLocked_effect validateTuple b component i key value with
    | rejected status _ hb _ hresult =>
      rw [insertLoop_cons_of_error hresult, hb] at h
      exact ⟨[], (key, value) :: batch, rfl, h ▸ lastKeys_nil⟩
    | stored element hfound hnone _ hb _ hresult =>
      -- the key stays incomplete
      rw [(insertLoop_cons_of_ok _ hresult).1] at h
      have hkept := isSome_insertLoop validateTuple component batch (i + 1)
        (b.insertOneLocked validateTuple component i key value).barrier
        (by rw [hb]; exact get?_set_self) (by simp only [Function.update_self]; rfl)
      rw [h] at hkept
      cases hkept
    | completed element hfound ready hcompletes hvalid hb _ hresult =>
      rw [(insertLoop_cons_of_ok _ hresult).1] at h
      obtain ⟨first, rest, rfl, hlast⟩ := ih (i + 1) _ (by rw [hb]; exact hclosed) h
      rw [hb] at hlast
      refine ⟨(key, value) :: first, rest, rfl,
        hlast.cons (hfound.of_closed hclosed) hcompletes.lacks fun _ ready' hready' ↦ ?_⟩
      rwa [hready'.unique hcompletes]
    | refused element hfound ready hcompletes status _ hb _ hresult =>
      rw [insertLoop_cons_of_error hresult, hb] at h
      refine ⟨[(key, value)], batch, rfl,
        LastKeys.cons ?_ (hfound.of_closed hclosed) hcompletes.lacks fun hne ↦ absurd rfl hne⟩
      rw [show erase key b.incomplete = [] from h]
      exact lastKeys_nil

namespace System

variable {s s' : System n γ} {action : Action n γ}

/-! ### The flags -/

theorem keepsAttempts :
    KeepsAttempts (PriorityQueue.queueClass (n := n + 2) H (scalar (γ := γ)) .ok) :=
  PriorityQueue.keepsAttempts H scalar .ok

theorem queueStep_eq {queueAction : QueueBase.System.Action (Element n γ)}
    (h : queueStep H s queueAction = some s') :
    QueueBase.System.step (PriorityQueue.queueClass H scalar .ok) s.queue queueAction =
      some s'.queue ∧
      s' = { s with queue := s'.queue } := by
  obtain ⟨queue, hqueue, rfl⟩ := map_eq_some_iff.1 h
  exact ⟨hqueue, rfl⟩

/-- The flags of a barrier agree with its ready queue. -/
structure Flags (s : System n γ) : Prop where
  closed : s.barrier.queueClosed = true → s.barrier.closed = true
  queueCancelled : s.barrier.queueCancelled = true → s.barrier.queueClosed = true
  cancelPendingEnqueues : s.barrier.cancelPendingEnqueues = true → s.barrier.queueClosed = true
  closing : s.barrier.queueClosed = true → Closing s.queue.q
  opened : s.barrier.queueClosed = false → Opened s.queue.q

/-- A step of the ready queue that neither closes it nor cancels anything. -/
theorem Flags.of_queueStep (h : Flags s) (queueAction : QueueBase.System.Action (Element n γ))
    (hclose : ∀ b, queueAction ≠ .close b) (hcancel : ∀ token, queueAction ≠ .cancelEnqueue token)
    (hbarrier : s'.barrier = s.barrier) (hqueue : QueueBase.System.step
      (PriorityQueue.queueClass H scalar .ok) s.queue queueAction = some s'.queue) : Flags s' := by
  obtain ⟨hclosed, hqueueCancelled, hcancelPending, hclosing, hopened⟩ := h
  refine ⟨?_, ?_, ?_, ?_, ?_⟩
  all_goals rw [hbarrier]
  · exact hclosed
  · exact hqueueCancelled
  · exact hcancelPending
  · exact fun hq ↦ QueueBase.System.closing_step keepsAttempts (hclosing hq) hcancel hqueue
  · exact fun hq ↦ QueueBase.System.opened_step keepsAttempts (hopened hq) hclose hqueue

/-- What `CloseQueueLocked` leaves behind. -/
theorem closeQueueLocked_spec {cancelPendingEnqueues : Bool}
    (hcancelled : s.barrier.queueCancelled = true → s.barrier.queueClosed = true)
    (hclosing : s.barrier.queueClosed = true → Closing s.queue.q)
    (h : closeQueueLocked H s cancelPendingEnqueues = some s') :
    (∃ queueCancelled, s'.barrier = { s.barrier with queueClosed := true, queueCancelled }) ∧
      Closing s'.queue.q := by
  unfold closeQueueLocked at h
  split at h
  next hquiet =>
    cases h
    exact ⟨⟨s.barrier.queueCancelled, by rw [← hquiet.2]; rfl⟩, hclosing hquiet.2⟩
  · split at h
    next hquiet =>
      cases h
      have hq := hcancelled hquiet.2
      exact ⟨⟨s.barrier.queueCancelled, by rw [← hq]; rfl⟩, hclosing hq⟩
    · dsimp only at h
      split at h
      next hclosed =>
        cases h
        exact ⟨⟨_, rfl⟩, .inl hclosed⟩
      · obtain ⟨hqueue, heq⟩ := queueStep_eq h
        refine ⟨⟨_, by rw [heq]⟩, QueueBase.System.closing_of_close keepsAttempts hqueue⟩

/-- What `Close` leaves behind: the barrier is closed, and its queue too unless there are incomplete
keys. -/
theorem close_spec {cancelPendingEnqueues : Bool} (hflags : Flags s)
    (h : close H s cancelPendingEnqueues = some s') :
    (s.barrier.closed = true ∧ s'.barrier = s.barrier ∧ s'.queue = s.queue) ∨
      (s'.barrier.closed = true ∧ s'.barrier.queueClosed = true ∧ Closing s'.queue.q) ∨
      (cancelPendingEnqueues = false ∧ s.barrier.incomplete ≠ [] ∧ s'.barrier =
        { s.barrier with closed := true, cancelPendingEnqueues := false } ∧
        s'.queue = s.queue) := by
  unfold close at h
  split at h
  next hclosed =>
    cases h
    exact .inl ⟨hclosed.1, rfl, rfl⟩
  · dsimp only at h
    split at h
    · obtain ⟨⟨queueCancelled, hbarrier⟩, hclosing⟩ := closeQueueLocked_spec
        (by exact hflags.queueCancelled) (by exact hflags.closing) h
      exact .inr (.inl ⟨by rw [hbarrier], by rw [hbarrier], hclosing⟩)
    next hdeferred =>
      cases h
      obtain ⟨hcancel, hincomplete⟩ := not_or.1 hdeferred
      obtain rfl : cancelPendingEnqueues = false := by simpa using hcancel
      exact .inr (.inr ⟨rfl, fun hnil ↦ hincomplete (isEmpty_iff.2 hnil), rfl, rfl⟩)

/-- The callback of an insert calls the client's. -/
theorem enqueued_eq {status : Status} (h : enqueued H s status = some s') :
    ∃ callbacks, s' = { s with callbacks } := by
  unfold enqueued at h
  split at h
  · exact ⟨_, (some.inj h).symm⟩
  · split at h
    · dsimp only at h
      split at h
      next hall =>
        -- the queue is marked as closed, so that `CloseQueueLocked` returns at once
        rw [closeQueueLocked, if_pos ⟨Bool.false_ne_true, hall.2.2.1⟩] at h
        exact ⟨_, (some.inj h).symm⟩
      · exact ⟨_, (some.inj h).symm⟩
    · cases h

/-- The critical section of a take reads the sizes only. -/
theorem tryTakeMany_eq {numElements : ℕ} {allowSmallBatch : Bool}
    (h : tryTakeMany s numElements allowSmallBatch = some s') :
    ∃ takes callbacks, s' = { s with takes, callbacks } := by
  unfold tryTakeMany at h
  dsimp only at h
  split at h
  · split at h
    · generalize (if allowSmallBatch =
        true then min numElements s.queue.q.queues.size else numElements) =
        numElementsToDeliver at h
      generalize (if allowSmallBatch = true then s.queue.q.queues.size
        else s.queue.q.queues.size + s.barrier.incomplete.length) = availableElements at h
      split at h
      · exact ⟨_, _, (some.inj h).symm⟩
      · exact ⟨_, _, (some.inj h).symm⟩
    · cases h
  · exact ⟨_, _, (some.inj h).symm⟩

/-- What a step does to the barrier and to its ready queue. -/
inductive Effect (validateTuple : ReadyTuple n γ → Option Status) (H : PriorityHeap ℤ)
    (s : System n γ)
    (action : Action n γ) (s' : System n γ) : Prop where
  | inserts (component : Fin n) (batch : List (ByteString × γ)) (noElements : Option ByteString)
      (action_eq : action = .tryInsertMany component batch noElements)
      (barrier : s'.barrier = s.barrier ∨ (batch = [] ∨ noElements = none) ∧
        s'.barrier = (s.barrier.insertMany validateTuple component batch).barrier)
      (queue : s'.queue = s.queue)
  | closes (cancelPendingEnqueues : Bool) (action_eq : action = .close cancelPendingEnqueues)
      (close_eq : close H s cancelPendingEnqueues = some s')
  | queues (queueAction : QueueBase.System.Action (Element n γ)) (not_close : ∀ b, queueAction ≠
      .close b)
      (not_cancel : ∀ token, queueAction ≠ .cancelEnqueue token) (barrier : s'.barrier = s.barrier)
      (queue : QueueBase.System.step (PriorityQueue.queueClass H scalar .ok) s.queue queueAction =
      some s'.queue)
  | takes (barrier : s'.barrier = s.barrier) (queue : s'.queue = s.queue)

/-- **What one step of the barrier does** to its parts and to the ready queue. -/
theorem step_effect (hstep : step H validateTuple s action = some s') :
    Effect validateTuple H s action s' := by
  cases action with
  | tryInsertMany component batch noElements =>
    cases hstep
    unfold tryInsertMany
    split
    · exact .inserts component batch noElements rfl (.inl rfl) rfl
    next hnone =>
      have hreason : batch = [] ∨ noElements = none := by
        cases noElements with
        | none => exact .inr rfl
        | some shape =>
          rw [filter_eq_none_iff] at hnone
          simpa using hnone
      dsimp only
      split
      · exact .inserts component batch noElements rfl (.inr ⟨hreason, rfl⟩) rfl
      · split
        · exact .inserts component batch noElements rfl (.inr ⟨hreason, rfl⟩) rfl
        · exact .inserts component batch noElements rfl (.inr ⟨hreason, rfl⟩) rfl
  | tryEnqueueMany i =>
    obtain ⟨tuples, -, hqueue⟩ := bind_eq_some_iff.1 hstep
    obtain ⟨hqueue, heq⟩ := queueStep_eq hqueue
    exact .queues (.tryEnqueueMany _ _) nofun nofun (by rw [heq]) hqueue
  | tryTakeMany numElements allowSmallBatch =>
    obtain ⟨takes, callbacks, rfl⟩ := tryTakeMany_eq hstep
    exact .takes rfl rfl
  | tryDequeueMany i =>
    obtain ⟨take, -, hqueue⟩ := bind_eq_some_iff.1 hstep
    obtain ⟨hqueue, heq⟩ := queueStep_eq hqueue
    exact .queues (.tryDequeueMany _ _ _) nofun nofun (by rw [heq]) hqueue
  | close cancelPendingEnqueues => exact .closes cancelPendingEnqueues rfl hstep
  | beginFlush =>
    obtain ⟨hqueue, heq⟩ := queueStep_eq hstep
    exact .queues .beginFlush nofun nofun (by rw [heq]) hqueue
  | flush =>
    obtain ⟨hqueue, heq⟩ := queueStep_eq hstep
    exact .queues .flush nofun nofun (by rw [heq]) hqueue
  | runCallback i =>
    obtain ⟨c, hc, hstep⟩ := bind_eq_some_iff.1 hstep
    obtain ⟨t, hqueue, hstep⟩ := bind_eq_some_iff.1 hstep
    obtain ⟨hqueue, heq⟩ := queueStep_eq hqueue
    split at hstep
    · obtain ⟨callbacks, rfl⟩ := enqueued_eq hstep
      exact .queues (.runCallback i) nofun nofun (by rw [heq]) hqueue
    · cases hstep
      exact .queues (.runCallback i) nofun nofun (by rw [heq]; rfl) hqueue

theorem Flags.call (h : Flags s) (status : Status) (elements : List (Element n γ)) :
    Flags (s.call status elements) :=
  ⟨h.closed, h.queueCancelled, h.cancelPendingEnqueues, h.closing, h.opened⟩

theorem flags_init (name : ByteString) (valueComponentTypes : Fin n → DataType) :
    Flags (init (γ := γ) name valueComponentTypes) where
  closed := nofun
  queueCancelled := nofun
  cancelPendingEnqueues := nofun
  closing := nofun
  opened _ := ⟨rfl, forall_mem_nil _⟩

/-- The ready queue is closed only where the flags of the barrier say so. -/
theorem flags_step (h : Flags s) (hstep : step H validateTuple s action = some s') : Flags s' := by
  cases step_effect hstep with
  | inserts component batch noElements _ hbarrier hqueue =>
    have hsame : SameFlags s.barrier s'.barrier := by
      obtain heq | ⟨-, heq⟩ := hbarrier
      · rw [heq]
        exact .rfl
      · rw [heq]
        exact sameFlags_insertMany validateTuple s.barrier component batch
    refine ⟨?_, ?_, ?_, ?_, ?_⟩
    · rw [hsame.queueClosed, hsame.closed]
      exact h.closed
    · rw [hsame.queueCancelled, hsame.queueClosed]
      exact h.queueCancelled
    · rw [hsame.cancelPendingEnqueues, hsame.queueClosed]
      exact h.cancelPendingEnqueues
    · rw [hsame.queueClosed, hqueue]
      exact h.closing
    · rw [hsame.queueClosed, hqueue]
      exact h.opened
  | closes cancelPendingEnqueues _ hclose =>
    obtain ⟨-, hbarrier, hqueue⟩ | ⟨hclosed, hqueueClosed, hclosing⟩ | ⟨-, -, hbarrier, hqueue⟩ :=
      close_spec h hclose
    · refine ⟨?_, ?_, ?_, ?_, ?_⟩
      all_goals simp only [hbarrier, hqueue]
      exacts [h.closed, h.queueCancelled, h.cancelPendingEnqueues, h.closing, h.opened]
    · refine ⟨fun _ ↦ hclosed, fun _ ↦ hqueueClosed, fun _ ↦ hqueueClosed, fun _ ↦ hclosing,
        fun hopen ↦ ?_⟩
      rw [hqueueClosed] at hopen
      cases hopen
    · refine ⟨?_, ?_, ?_, ?_, ?_⟩
      all_goals simp only [hbarrier, hqueue]
      exacts [fun _ ↦ trivial, h.queueCancelled, nofun, h.closing, h.opened]
  | queues queueAction hclose hcancel hbarrier hqueue =>
    exact h.of_queueStep queueAction hclose hcancel hbarrier hqueue
  | takes hbarrier hqueue =>
    refine ⟨?_, ?_, ?_, ?_, ?_⟩
    all_goals simp only [hbarrier, hqueue]
    exacts [h.closed, h.queueCancelled, h.cancelPendingEnqueues, h.closing, h.opened]

/-! ### Drained barriers -/

/-- No insert is between its critical section and its callback. -/
structure NoInsertInFlight (s : System n γ) : Prop where
  inserts : s.inserts = []
  attempts : ∀ a ∈ live s.queue.q.enqueueAttempts, a.op ∉ s.insertOps
  cleanUp : ∀ f, s.queue.flush = some f → ∀ c ∈ f.cleanUp, c.op ∉ s.insertOps
  pending : ∀ c ∈ s.queue.pending, c.op ∉ s.insertOps

/-- The ready queue is closed, or a `Close` of it waits for a flush. Once it is closed, the run of a
take completes, or takes the last element, after which the next run completes. -/
structure ReadyQueueCloses (H : PriorityHeap ℤ) (s : System n γ) : Prop where
  closing : Closing s.queue.q
  answers : s.queue.q.closed = true → ∀ a r,
    s.queue.q.runDequeue (PriorityQueue.queueClass H scalar .ok) a = some r →
      r.result = .complete ∨ r.result = .progress ∧ 0 < s.queue.q.queues.size ∧ r.queues.size = 0

/-- A closed barrier without incomplete keys has its ready queue closed. -/
def ClosesWhenDrained (H : PriorityHeap ℤ) (s : System n γ) : Prop :=
  NoInsertInFlight s → s.barrier.closed = true → s.barrier.incomplete = [] → ReadyQueueCloses H s

/-- An insert completes the last incomplete keys after a `Close` that has left the ready queue
open. -/
def CompletesDeferred (validateTuple : ReadyTuple n γ → Option Status) (s : System n γ)
    (action : Action n γ) :
    Prop :=
  s.barrier.closed = true ∧ s.barrier.queueClosed = false ∧ s.barrier.incomplete ≠ [] ∧
    ∃ component first rest, action = .tryInsertMany component (first ++ rest) none ∧
      LastKeys validateTuple s.barrier.incomplete component first

/-- What holds in a run in which no insert completes the last keys after a deferred `Close`. -/
structure Inv (s : System n γ) : Prop where
  flags : Flags s
  drained : s.barrier.closed = true → s.barrier.incomplete = [] → s.barrier.queueClosed = true

/-- An insert that leaves no incomplete key is one that completes the last of them. -/
theorem completesDeferred_of_inserts {component : Fin n} {batch : List (ByteString × γ)}
    {noElements : Option ByteString} (hclosed : s.barrier.closed = true)
    (hqueue : s.barrier.queueClosed = false) (hsome : s.barrier.incomplete ≠ [])
    (hreason : batch = [] ∨ noElements = none)
    (h : (s.barrier.insertMany validateTuple component batch).barrier.incomplete = []) :
    CompletesDeferred validateTuple s (.tryInsertMany component batch noElements) := by
  obtain heq | ⟨inputIndex, heq⟩ :=
    insertMany_barrier validateTuple s.barrier component batch
  · rw [heq] at h
    exact absurd h hsome
  · rw [heq] at h
    obtain ⟨first, rest, rfl, hlast⟩ := lastKeys_of_insertLoop batch 0 s.barrier hclosed h
    obtain hnil | rfl := hreason
    · obtain ⟨rfl, -⟩ := append_eq_nil_iff.1 hnil
      exact absurd (incomplete_eq_nil hlast) hsome
    · exact ⟨hclosed, hqueue, hsome, component, first, rest, rfl, hlast⟩

/-- Closed and drained closes the ready queue, but for an insert after a deferred `Close`. -/
theorem inv_step (h : Inv s) (haction : ¬ CompletesDeferred validateTuple s action)
    (hstep : step H validateTuple s action = some s') : Inv s' := by
  refine ⟨flags_step h.flags hstep, ?_⟩
  cases step_effect hstep with
  | inserts component batch noElements haction' hbarrier hqueue =>
    obtain heq | ⟨hreason, heq⟩ := hbarrier
    · rw [heq]
      exact h.drained
    · have hsame := sameFlags_insertMany validateTuple s.barrier component batch
      rw [heq, hsame.closed, hsame.queueClosed]
      intro hclosed hnil
      by_contra hopen
      have hqueueClosed : s.barrier.queueClosed = false := by simpa using hopen
      refine haction (haction' ▸ completesDeferred_of_inserts hclosed hqueueClosed (fun hnone ↦ ?_)
        hreason hnil)
      exact hopen (h.drained hclosed hnone)
  | closes cancelPendingEnqueues _ hclose =>
    obtain ⟨-, hbarrier, -⟩ | ⟨-, hqueueClosed, -⟩ | ⟨-, hsome, hbarrier, -⟩ :=
      close_spec h.flags hclose
    · rw [hbarrier]
      exact h.drained
    · exact fun _ _ ↦ hqueueClosed
    · rw [hbarrier]
      exact fun _ hnil ↦ absurd hnil hsome
  | queues _ _ _ hbarrier =>
    rw [hbarrier]
    exact h.drained
  | takes hbarrier =>
    rw [hbarrier]
    exact h.drained

/-- **A closed barrier closes its ready queue** when it has no incomplete keys left, in every run in
which no insert completes the last of them after a `Close` that has left the queue open. -/
theorem closesWhenDrained_of_run {name : ByteString} {valueComponentTypes : Fin n → DataType}
    {actions : List (Action n γ)}
    (hrun : run (step H validateTuple) (init name valueComponentTypes) actions = some s)
    (hactions : Along (step H validateTuple) (fun t action ↦ ¬ CompletesDeferred validateTuple
      t action)
      (init name valueComponentTypes) actions) : ClosesWhenDrained H s := by
  have hinv : Inv s := run_invariant_of_along (fun _ ht haction hstep ↦ inv_step ht haction hstep)
    ⟨flags_init name valueComponentTypes, nofun⟩ hactions hrun
  intro _ hclosed hnil
  exact ⟨hinv.flags.closing (hinv.drained hclosed hnil), fun hqueue a r hr ↦
    PriorityQueue.result_of_closed hqueue hr⟩

/-- A key that is completed before the `Close`. -/
theorem closesWhenDrained_two :
    ∃ s : System 2 ℤ, s.barrier.closed = true ∧ s.barrier.incomplete = [] ∧
      ClosesWhenDrained (sortedVector ℤ) s := by
  refine ⟨_, ?_, ?_, closesWhenDrained_of_run
    (show run (step (sortedVector ℤ) fun _ ↦ none) (init [] fun _ ↦ 3)
      [.tryInsertMany 0 [(ascii "a", 1)] none, .tryInsertMany 1 [(ascii "a", 2)] none, .close false,
        .tryEnqueueMany 0] = _ from rfl) ?_⟩
  · rfl
  · rfl
  · have hopen {t : System 2 ℤ} {action : Action 2 ℤ} (h : t.barrier.closed = false) :
        ¬ CompletesDeferred (fun _ ↦ none) t action := fun hdeferred ↦
      Bool.false_ne_true (h.symm.trans hdeferred.1)
    refine (along_cons_of_step rfl).2 ⟨hopen rfl, (along_cons_of_step rfl).2 ⟨hopen rfl,
      (along_cons_of_step rfl).2 ⟨hopen rfl, (along_cons_of_step rfl).2 ⟨?_, trivial⟩⟩⟩⟩
    rintro ⟨-, -, -, _, _, _, haction, -⟩
    cases haction

/-! ### A deferred `Close` -/

/-- The insert of the last component of a key comes after the `Close`: the barrier is closed and
drained, every call is over, and the ready queue is open. -/
theorem open_after_last_component :
    ∃ s : System 2 ℤ, run (step (sortedVector ℤ) fun _ ↦ none) (init [] fun _ ↦ 3)
        [.tryInsertMany 0 [(ascii "a", 1)] none, .close false,
          .tryInsertMany 1 [(ascii "a", 2)] none,
          .tryEnqueueMany 0, .beginFlush, .flush, .flush, .flush, .flush, .flush, .runCallback 0] =
            some s ∧
      s.barrier.closed = true ∧ s.barrier.incomplete = [] ∧ s.queue.flush.isNone = true ∧
      s.queue.q.closed = false ∧ s.queue.q.enqueueAttempts.isEmpty = true ∧
      ¬ ClosesWhenDrained (sortedVector ℤ) s := by
  refine ⟨_, rfl, rfl, rfl, rfl, rfl, rfl, fun h ↦ ?_⟩
  have hcloses := h ⟨rfl, forall_mem_nil _, fun _ hf ↦ absurd hf (some_ne_none _).symm,
    forall_mem_nil _⟩ rfl rfl
  obtain hclosed | ⟨a, ha, -⟩ := hcloses.closing
  · exact Bool.false_ne_true hclosed
  · cases ha

end System

end Barrier

end TensorFlowCore
