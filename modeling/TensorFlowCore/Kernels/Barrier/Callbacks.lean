import TensorFlowCore.Kernels.Barrier.Closing

/-!
# The callback of a `Close`

A `Close` runs its callback, or has `CloseQueueLocked` run it or hand it to the ready queue's
`Close`. There is one more branch: a `Close` that cancels may come after one that does not, and then
finds the ready queue closed by it. `CloseQueueLocked` calls the queue's `Close` only if the queue
is open, so that nobody runs that callback (`closesCallBack_iff`).
-/

namespace TensorFlowCore

open QueueBase GuardedRun

namespace Barrier

variable {n : ℕ} {γ : Type} {validateTuple : ReadyTuple n γ → Option Status} {H : PriorityHeap ℤ}

namespace System

variable {s s' t : System n γ} {action : Action n γ} {cancelPendingEnqueues : Bool}

/-! ### What is counted -/

/-- How often the callback of an operation on the ready queue has run. -/
def queueCallbackRuns (t : System n γ) (op : ℕ) : ℕ := t.queue.ran.countP fun c ↦ c.op = op

/-- A `Close` that led from `s` to `s'` has handed its callback to the ready queue's `Close`, as an
operation of its own. -/
def HandsToQueue (s s' : System n γ) : Prop := s'.queue.nextOp ≠ s.queue.nextOp

instance (s s' : System n γ) : Decidable (HandsToQueue s s') := inferInstanceAs (Decidable (_ ≠ _))

/-- How often the callback of a `Close` that led from `s` to `s'` has run by the end `t`. -/
def closeCallbackRuns (s s' t : System n γ) : ℕ :=
  (s'.callbacks.length - s.callbacks.length) +
    if HandsToQueue s s' then queueCallbackRuns t s.queue.nextOp else 0

/-- The callback of the call, if it is a `Close`, has run exactly once by the end `t`. -/
def CallsBackOnce (H : PriorityHeap ℤ) (t s : System n γ) (action : Action n γ) : Prop :=
  ∀ cancelPendingEnqueues, action = .close cancelPendingEnqueues →
    ∀ s', close H s cancelPendingEnqueues = some s' → closeCallbackRuns s s' t = 1

/-- The ready queue's `Close` runs the callback that it is given. -/
def QueueCallsBack (H : PriorityHeap ℤ) (t s : System n γ) (action : Action n γ) : Prop :=
  ∀ cancelPendingEnqueues, action = .close cancelPendingEnqueues →
    ∀ s', close H s cancelPendingEnqueues = some s' → HandsToQueue s s' →
    queueCallbackRuns t s.queue.nextOp = 1

/-- A `Close` that cancels, the first one, finds the ready queue closed. -/
def FindsQueueClosed (s : System n γ) (action : Action n γ) : Prop :=
  action = .close true ∧ s.barrier.cancelPendingEnqueues = false ∧ s.queue.q.closed = true

/-! ### The flags of a `Close` -/

/-- The flags agree, and the ready queue has been cancelled by a `Close` that cancels only. -/
structure CloseFlags (s : System n γ) : Prop where
  flags : Flags s
  queueCancelled : s.barrier.queueCancelled = true → s.barrier.cancelPendingEnqueues = true

theorem closeFlags_init (name : ByteString) (valueComponentTypes : Fin n → DataType) :
    CloseFlags (init (γ := γ) name valueComponentTypes) where
  flags := flags_init name valueComponentTypes
  queueCancelled := nofun

/-- A `Close` that goes on, of a barrier that is open or was closed without cancelling. -/
structure GoesOn (s : System n γ) (cancelPendingEnqueues : Bool) : Prop where
  notCancelled : s.barrier.cancelPendingEnqueues = false
  queueNotCancelled : s.barrier.queueCancelled = false
  queueNotClosed : cancelPendingEnqueues = false → s.barrier.queueClosed = false

theorem CloseFlags.goesOn (h : CloseFlags s) (hnot : ¬(s.barrier.closed = true ∧
      (s.barrier.cancelPendingEnqueues = true ∨ ¬cancelPendingEnqueues = true))) :
    GoesOn s cancelPendingEnqueues := by
  have hclosed : s.barrier.queueClosed = true → s.barrier.closed = true := h.flags.closed
  have hcancel : s.barrier.cancelPendingEnqueues = false := by
    by_contra hcancel
    rw [Bool.not_eq_false] at hcancel
    exact hnot ⟨hclosed (h.flags.cancelPendingEnqueues hcancel), .inl hcancel⟩
  refine ⟨hcancel, ?_, ?_⟩
  · by_contra hqueue
    rw [Bool.not_eq_false] at hqueue
    exact Bool.false_ne_true (hcancel.symm.trans (h.queueCancelled hqueue))
  · rintro rfl
    by_contra hqueue
    rw [Bool.not_eq_false] at hqueue
    exact hnot ⟨hclosed hqueue, .inr Bool.false_ne_true⟩

/-! ### Who runs the callback -/

/-- Who a `Close` leaves its callback to. -/
inductive Answer (s : System n γ) (cancelPendingEnqueues : Bool) (s' : System n γ) : Prop where
  | runs (callbacks : s'.callbacks.length = s.callbacks.length + 1) (queue : ¬HandsToQueue s s')
      (found : ¬FindsQueueClosed s (.close cancelPendingEnqueues))
  | hands (callbacks : s'.callbacks.length = s.callbacks.length) (queue : HandsToQueue s s')
      (found : ¬FindsQueueClosed s (.close cancelPendingEnqueues))
  | loses (callbacks : s'.callbacks.length = s.callbacks.length) (queue : ¬HandsToQueue s s')
      (found : FindsQueueClosed s (.close cancelPendingEnqueues))

theorem length_callbacks_call (s : System n γ) (status : Status) (elements : List (Element n γ)) :
    (s.call status elements).callbacks.length = s.callbacks.length + 1 := by
  rw [call, List.length_append, List.length_singleton]

/-- The queue's `Close` is an operation of the queue. -/
theorem nextOp_of_queueStep_close (h : queueStep H s (.close cancelPendingEnqueues) = some s') :
    s'.queue.nextOp = s.queue.nextOp + 1 ∧ s'.callbacks = s.callbacks := by
  obtain ⟨hqueue, heq⟩ := queueStep_eq h
  refine ⟨?_, by rw [heq]⟩
  rw [QueueBase.System.step] at hqueue
  rw [QueueBase.System.withOp_eq_some hqueue]
  cases cancelPendingEnqueues <;> rfl

/-- `CloseQueueLocked`, of a `Close` that goes on: it has the ready queue run the callback, unless
that is closed already. -/
theorem closeQueueLocked_answer (hcancelled : s.barrier.queueCancelled = false)
    (hclosed : cancelPendingEnqueues = false → s.barrier.queueClosed = false)
    (hopened : s.barrier.queueClosed = false → Opened s.queue.q)
    (hclose : closeQueueLocked H s cancelPendingEnqueues = some s') :
    s'.callbacks.length = s.callbacks.length ∧
      (HandsToQueue s s' ∧ ¬s.queue.q.closed = true ∨
        ¬HandsToQueue s s' ∧ cancelPendingEnqueues = true ∧ s.queue.q.closed = true) := by
  have hdirect : ¬(¬cancelPendingEnqueues = true ∧ s.barrier.queueClosed = true) := by
    rintro ⟨hcancel, hqueue⟩
    rw [Bool.not_eq_true] at hcancel
    exact Bool.false_ne_true ((hclosed hcancel).symm.trans hqueue)
  have hagain : ¬(cancelPendingEnqueues = true ∧ s.barrier.queueCancelled = true) := by
    rintro ⟨-, hqueue⟩
    exact Bool.false_ne_true (hcancelled.symm.trans hqueue)
  rw [closeQueueLocked, if_neg hdirect, if_neg hagain] at hclose
  dsimp only at hclose
  split at hclose
  · rename_i hqueue
    cases hclose
    refine ⟨rfl, .inr ⟨not_not_intro rfl, ?_, hqueue⟩⟩
    -- a queue that is closed has been closed by an earlier call, so that this one cancels
    by_contra hcancel
    rw [Bool.not_eq_true] at hcancel
    exact (hopened (hclosed hcancel)).not_closing (.inl hqueue)
  · rename_i hqueue
    obtain ⟨hop, hcallbacks⟩ := nextOp_of_queueStep_close hclose
    refine ⟨by rw [hcallbacks], .inl ⟨?_, hqueue⟩⟩
    rw [HandsToQueue, hop]
    exact Nat.succ_ne_self _

/-- **A `Close` has exactly one answer**, and which one does not depend on what comes after it. -/
theorem close_answer (h : CloseFlags s) (hclose : close H s cancelPendingEnqueues = some s') :
    Answer s cancelPendingEnqueues s' := by
  rw [close] at hclose
  split at hclose
  · rename_i hclosed
    cases hclose
    refine .runs (length_callbacks_call _ _ _) (not_not_intro rfl) ?_
    rintro ⟨haction, hcancel, -⟩
    obtain rfl := Action.close.inj haction
    obtain hcancelled | hnot := hclosed.2
    · exact Bool.false_ne_true (hcancel.symm.trans hcancelled)
    · exact hnot rfl
  · rename_i hnot
    have hgoes := h.goesOn hnot
    dsimp only at hclose
    split at hclose
    · obtain ⟨hcallbacks, ⟨hhands, hqueue⟩ | ⟨hhands, hcancel, hqueue⟩⟩ := closeQueueLocked_answer
        (by exact hgoes.queueNotCancelled) (by exact hgoes.queueNotClosed)
        (by exact h.flags.opened) hclose
      · exact .hands hcallbacks hhands fun hfound ↦ hqueue hfound.2.2
      · exact .loses hcallbacks hhands ⟨hcancel ▸ rfl, hgoes.notCancelled, hqueue⟩
    · rename_i hdeferred
      cases hclose
      refine .runs (length_callbacks_call _ _ _) (not_not_intro rfl) ?_
      rintro ⟨haction, -, -⟩
      exact hdeferred (.inl (Action.close.inj haction))

/-- Where a `Close` goes on its flags are set together. -/
theorem queueCancelled_closeQueueLocked
    (hclose : closeQueueLocked H s cancelPendingEnqueues = some s') :
    s'.barrier.cancelPendingEnqueues = s.barrier.cancelPendingEnqueues ∧
      (s'.barrier.queueCancelled = s.barrier.queueCancelled ∨ cancelPendingEnqueues = true) := by
  rw [closeQueueLocked] at hclose
  split at hclose
  · cases hclose
    exact ⟨rfl, .inl rfl⟩
  split at hclose
  · cases hclose
    exact ⟨rfl, .inl rfl⟩
  dsimp only at hclose
  have hflags : ∀ b : Barrier n γ, b = { s.barrier with
      queueClosed := true
      queueCancelled := if cancelPendingEnqueues = true then true else s.barrier.queueCancelled } →
      b.cancelPendingEnqueues = s.barrier.cancelPendingEnqueues ∧
        (b.queueCancelled = s.barrier.queueCancelled ∨ cancelPendingEnqueues = true) := by
    rintro b rfl
    cases cancelPendingEnqueues
    · exact ⟨rfl, .inl rfl⟩
    · exact ⟨rfl, .inr rfl⟩
  split at hclose
  · cases hclose
    exact hflags _ rfl
  · obtain ⟨-, heq⟩ := queueStep_eq hclose
    exact hflags _ (by rw [heq])

/-- The ready queue is cancelled only by a `Close` that cancels. -/
theorem closeFlags_step (h : CloseFlags s) (hstep : step H validateTuple s action = some s') :
    CloseFlags s' := by
  refine ⟨flags_step h.flags hstep, ?_⟩
  cases step_effect hstep with
  | inserts component batch noElements _ hbarrier =>
    obtain heq | ⟨-, heq⟩ := hbarrier
    · rw [heq]
      exact h.queueCancelled
    · have hsame := sameFlags_insertMany validateTuple s.barrier component batch
      rw [heq, hsame.queueCancelled, hsame.cancelPendingEnqueues]
      exact h.queueCancelled
  | closes cancelPendingEnqueues _ hclose =>
    rw [close] at hclose
    split at hclose
    · cases hclose
      exact h.queueCancelled
    · rename_i hnot
      have hgoes := h.goesOn hnot
      dsimp only at hclose
      split at hclose
      · obtain ⟨hcancel, hsame | hcancelled⟩ := queueCancelled_closeQueueLocked hclose
        · rw [hsame, hgoes.queueNotCancelled]
          exact nofun
        · exact fun _ ↦ hcancel.trans hcancelled
      · cases hclose
        intro hqueue
        exact absurd (hgoes.queueNotCancelled.symm.trans hqueue) Bool.false_ne_true
  | queues _ _ _ hbarrier =>
    rw [hbarrier]
    exact h.queueCancelled
  | takes hbarrier =>
    rw [hbarrier]
    exact h.queueCancelled

/-! ### Along a run -/

/-- A `Close` has its callback run once exactly if it does not find the queue closed. -/
theorem closeCallbackRuns_eq_one_iff (h : Answer s cancelPendingEnqueues s')
    (hqueue : HandsToQueue s s' → queueCallbackRuns t s.queue.nextOp = 1) :
    closeCallbackRuns s s' t = 1 ↔ ¬FindsQueueClosed s (.close cancelPendingEnqueues) := by
  rw [closeCallbackRuns]
  cases h with
  | runs hcallbacks hhands hfound =>
    rw [if_neg hhands, hcallbacks]
    exact iff_of_true (by omega) hfound
  | hands hcallbacks hhands hfound =>
    rw [if_pos hhands, hcallbacks, hqueue hhands]
    exact iff_of_true (by omega) hfound
  | loses hcallbacks hhands hfound =>
    rw [if_neg hhands, hcallbacks]
    exact iff_of_false (by omega) (not_not_intro hfound)

/-- A `Close` that finds the queue closed hands it nothing. -/
theorem queueCallsBack_of_findsQueueClosed (h : CloseFlags s) (hfound : FindsQueueClosed s action) :
    QueueCallsBack H t s action := by
  rintro cancelPendingEnqueues rfl s' hclose hhands
  cases close_answer h hclose with
  | runs _ _ hnot => exact absurd hfound hnot
  | hands _ _ hnot => exact absurd hfound hnot
  | loses _ hnot _ => exact absurd hhands hnot

/-- The actions of a `Close` are those that can find the queue closed. -/
theorem callsBackOnce_iff (h : CloseFlags s) (hqueue : QueueCallsBack H t s action)
    (hstep : step H validateTuple s action = some s') :
    CallsBackOnce H t s action ↔ ¬FindsQueueClosed s action := by
  constructor
  · rintro honce ⟨rfl, hcancel, hclosed⟩
    have hanswer := close_answer h hstep
    exact (closeCallbackRuns_eq_one_iff hanswer (hqueue true rfl s' hstep)).1
      (honce true rfl s' hstep)
      ⟨rfl, hcancel, hclosed⟩
  · rintro hfound cancelPendingEnqueues rfl s'' hclose
    exact (closeCallbackRuns_eq_one_iff (close_answer h hclose) (hqueue _ rfl s'' hclose)).2 hfound

/-- By induction on the run. -/
theorem along_callsBackOnce_iff {actions : List (Action n γ)} {u : System n γ} (h : CloseFlags s)
    (hrun : run (step H validateTuple) s actions = some u)
    (hqueue : Along (step H validateTuple) (QueueCallsBack H t) s actions) :
    Along (step H validateTuple) (CallsBackOnce H t) s actions ↔
      Along (step H validateTuple) (fun s action ↦ ¬FindsQueueClosed s action) s actions := by
  induction actions generalizing s with
  | nil => exact Iff.rfl
  | cons action actions ih =>
    obtain ⟨s', hstep, hrest⟩ := run_cons_eq_some.1 hrun
    rw [along_cons_of_step hstep] at hqueue ⊢
    rw [along_cons_of_step hstep, callsBackOnce_iff h hqueue.1 hstep,
      ih (closeFlags_step h hstep) hrest hqueue.2]

/-- **Every `Close` completes**, in a run at whose end the ready queue's `Close` has run the
callbacks given to it, exactly if none that cancels finds the ready queue closed by an earlier
one. -/
theorem closesCallBack_iff {name : ByteString} {valueComponentTypes : Fin n → DataType}
    {actions : List (Action n γ)}
    (hrun : run (step H validateTuple) (init name valueComponentTypes) actions = some t)
    (hqueue : Along (step H validateTuple) (QueueCallsBack H t) (init name valueComponentTypes)
      actions) :
    Along (step H validateTuple) (CallsBackOnce H t) (init name valueComponentTypes) actions ↔
      Along (step H validateTuple) (fun s action ↦ ¬FindsQueueClosed s action)
      (init name valueComponentTypes)
        actions :=
  along_callsBackOnce_iff (closeFlags_init name valueComponentTypes) hrun hqueue

/-- Where there is no `Close` there is no callback to run. -/
theorem along_queueCallsBack {actions : List (Action n γ)}
    (h : ∀ action ∈ actions, ∀ c, action ≠ .close c) (s : System n γ) :
    Along (step H validateTuple) (QueueCallsBack H t) s actions := by
  induction actions generalizing s with
  | nil => trivial
  | cons action actions ih =>
    obtain ⟨haction, hactions⟩ := List.forall_mem_cons.1 h
    exact ⟨fun c hc ↦ absurd hc (haction c), fun s' _ ↦ ih hactions s'⟩

/-- The flush in which the queue's `Close` runs, and its callback. -/
def closeFlush : List (Action 2 ℤ) :=
  [.beginFlush, .flush, .flush, .flush, .flush, .flush, .runCallback 0]

theorem ne_close_of_mem_closeFlush : ∀ action ∈ closeFlush, ∀ c, action ≠ .close c := by
  simp [closeFlush]

/-- One `Close` of a new barrier. -/
theorem closesCallBack_one : ∃ t,
    run (step (sortedVector ℤ) fun _ ↦ none) (init [] fun _ ↦ 3) (.close false :: closeFlush) =
      some t ∧
    (Along (step (sortedVector ℤ) fun _ ↦ none) (CallsBackOnce (sortedVector ℤ) t)
      (init [] fun _ ↦ 3)
        (.close false :: closeFlush) ↔
      Along (step (sortedVector ℤ) fun _ ↦ none) (fun s action ↦ ¬FindsQueueClosed s action)
      (init [] fun _ ↦ 3)
        (.close false :: closeFlush)) := by
  refine ⟨_, rfl, closesCallBack_iff rfl ?_⟩
  exact (along_cons_of_step rfl).2 ⟨fun _ _ _ _ _ ↦ rfl,
    along_queueCallsBack ne_close_of_mem_closeFlush _⟩

/-- A `Close` that cancels comes after it: the ready queue has run the one callback that it was
given, and nobody runs the other. -/
theorem close_true_after_close_false : ∃ t,
    run (step (sortedVector ℤ) fun _ ↦ none) (init [] fun _ ↦ 3)
    (.close false :: (closeFlush ++ [.close true])) =
      some t ∧
    Along (step (sortedVector ℤ) fun _ ↦ none) (QueueCallsBack (sortedVector ℤ) t)
    (init [] fun _ ↦ 3)
      (.close false :: (closeFlush ++ [.close true])) ∧
    ¬Along (step (sortedVector ℤ) fun _ ↦ none) (CallsBackOnce (sortedVector ℤ) t)
    (init [] fun _ ↦ 3)
      (.close false :: (closeFlush ++ [.close true])) := by
  refine ⟨_, rfl, ?_, ?_⟩
  · refine (along_cons_of_step rfl).2 ⟨fun _ _ _ _ _ ↦ rfl, ?_⟩
    refine (along_append_of_run rfl).2 ⟨along_queueCallsBack ne_close_of_mem_closeFlush _, ?_⟩
    refine (along_cons_of_step rfl).2 ⟨queueCallsBack_of_findsQueueClosed ?_ ⟨rfl, rfl, rfl⟩,
      trivial⟩
    have hrun : run (step (sortedVector ℤ) fun _ ↦ none) (init [] fun _ ↦ 3)
        (.close false :: closeFlush) = some _ :=
      rfl
    exact run_invariant (fun _ ↦ closeFlags_step) (closeFlags_init [] _) hrun
  · intro hall
    have hlast :=
      ((along_append_of_run rfl).1 ((along_cons_of_step rfl).1 hall).2).2.1 true rfl _ rfl
    exact absurd hlast (by decide)

end System

end Barrier

end TensorFlowCore
