import TensorFlowCore.Kernels.FifoQueue.Delivery

/-!
# What the cancellation of a dequeue loses

`Cancel` marks a pending attempt, and the flush that follows pops it. What the attempt has collected
is in its tuple and nowhere else: closing the queue puts such elements back to the front, and
cancelling does not. So the stream of the queue goes on after the cancellation exactly when the
attempt has collected nothing (`continues_cancelDequeue_iff`).
-/

namespace TensorFlowCore

open GuardedRun List QueueBase

namespace FIFOQueue

variable {α : Type}

/-- `Cancel` finds a live attempt by its token. -/
theorem cancelAttempt_of_mem {κ : Type} {a : Attempt κ α} {attempts : List (Attempt κ α)}
    (ha : a ∈ attempts) (hlive : ¬ a.isCancelled = true)
    (htoken : ∀ b ∈ attempts, b.token = some b.op) (hnodup : (attempts.map Attempt.op).Nodup)
    (status : Status) :
    ∃ before after, attempts = before ++ a :: after ∧
      cancelAttempt a.op status attempts =
        (before ++ { a.setStatus status with isCancelled := true } :: after,
          some (a.setStatus status).doneCallback) ∧
      QueueBase.System.cancelledAttempt a.op attempts = some a := by
  induction attempts with
  | nil => nomatch ha
  | cons b attempts ih =>
    obtain ⟨hb, hnodup⟩ := nodup_cons.1 hnodup
    unfold QueueBase.System.cancelledAttempt
    obtain rfl | ha := mem_cons.1 ha
    · have hop := htoken a mem_cons_self
      refine ⟨[], attempts, rfl, ?_, ?_⟩
      · rw [cancelAttempt, if_pos hop, if_neg hlive]
        rfl
      · rw [find?_cons_of_pos (by simpa using hop), Option.filter_some,
          if_pos (by simpa using hlive)]
    · obtain ⟨before, after, hattempts, heq, hfound⟩ :=
        ih ha (fun c hc ↦ htoken c (mem_cons_of_mem _ hc)) hnodup
      have hne : b.token ≠ some a.op := by
        rw [htoken b mem_cons_self]
        exact fun h ↦ hb (Option.some.inj h ▸ mem_map_of_mem ha)
      refine ⟨b :: before, after, by rw [hattempts]; rfl, ?_, ?_⟩
      · rw [cancelAttempt, if_neg hne, heq]
        rfl
      · rwa [find?_cons_of_neg (by simpa using hne)]

namespace System

variable {s s₁ s₂ : System α}

/-- The elements that a cancelled dequeue has collected leave the stream, and nothing else does. -/
theorem stream_cancelDequeue (h : s.Tracked) {a : DequeueAttempt α}
    (ha : a ∈ live s.q.dequeueAttempts) (hstep : step s (.cancelDequeue a.op) = some s₁) :
    s₁.enqueued = s.enqueued ∧
      ∃ front back, stream s = front ++ collected a ++ back ∧ stream s₁ = front ++ back := by
  obtain ⟨hmem, hlive⟩ := mem_filter.1 ha
  have hlive : ¬ a.isCancelled = true := of_decide_eq_true hlive
  obtain ⟨before, after, hattempts, heq, hfound⟩ := cancelAttempt_of_mem hmem hlive
    (fun b hb ↦ (h.token b hb).1) h.nodup QueueBase.System.dequeueCancelled
  dsimp only [step, QueueBase.System.step] at hstep
  split at hstep
  · rw [heq, hfound] at hstep
    cases hstep
    refine ⟨?_, s.delivered ++ (live before).flatMap collected,
      (live after).flatMap collected ++ s.q.queues, ?_, ?_⟩
    · show (s.history ++ (collected a).map QueueEvent.lost).filterMap _ = s.history.filterMap _
      rw [filterMap_append, enqueued_lost, append_nil]
    · rw [stream, QueueBase.System.held, hattempts, live_append, live_cons hlive, flatMap_append,
        flatMap_cons]
      simp only [append_assoc]
    · show (s.completed ++ [_]).flatMap delivers ++ (live (before ++ _ :: after)).flatMap
        collected ++
        s.q.queues = _
      rw [QueueBase.System.delivered_append, flatMap_singleton,
        delivers_of_failed (setStatus_ne_ok a QueueBase.System.dequeueCancelled_ne_ok), live_append,
        live_cons_of_cancelled rfl, flatMap_append, append_nil]
      simp only [append_assoc]
  · cases hstep

/-- **When cancelling a dequeue loses nothing.** In a reachable state, cancel a pending dequeue and
let the queue go on, the flush that follows first, without another such cancellation: the elements
that had not been lost are available in their order, before later ones, exactly if the cancelled
attempt had collected none. -/
theorem continues_cancelDequeue_iff {capacity : ℕ} {name : ByteString} {specifiedShapes : Bool}
    {actions actions' : List (Action α)}
    (hrun : run step (init capacity name specifiedShapes) actions = some s)
    {a : DequeueAttempt α} (ha : a ∈ live s.q.dequeueAttempts)
    (hstep : step s (.cancelDequeue a.op) = some s₁) (hafter : run step s₁ actions' = some s₂)
    (hcancel : ∀ token, QueueBase.System.Action.cancelDequeue token ∉ actions') :
    (Continues s s₂ ↔ collected a = []) ∧ s₂.PutsIn .int64
      ((actions ++ .cancelDequeue a.op :: actions').filterMap
        QueueBase.System.Action.elements) := by
  have hinv := inv_of_run (inv_init capacity name specifiedShapes) hrun
  have hcontinues := continues_of_run (step_spec hinv hstep).1 hafter hcancel
  obtain ⟨henqueued, front, back, hs, hs₁⟩ := stream_cancelDequeue (putsIn_of_run hrun).1 ha hstep
  have hall := run_append_eq_some.2 ⟨s, hrun, run_cons_eq_some.2 ⟨s₁, hstep, hafter⟩⟩
  refine ⟨⟨?_, fun hnil ↦ ?_⟩, (putsIn_of_run hall).2⟩
  · rintro ⟨new, hnew, hnewPut⟩
    obtain ⟨new', hnew', hnewPut'⟩ := hcontinues
    rw [henqueued] at hnewPut'
    obtain rfl : new = new' := append_cancel_left (hnewPut.symm.trans hnewPut')
    have hlength := congrArg length (hnew.symm.trans hnew')
    rw [hs, hs₁] at hlength
    simp only [length_append] at hlength
    exact eq_nil_of_length_eq_zero (by omega)
  · refine Continues.trans (.of_eq ?_ henqueued) hcontinues
    rw [hs, hs₁, hnil, append_nil]

/-- A dequeue of two elements that has collected one. -/
def oneOfTwo : System ℕ where
  q := ⟨10, [], true, false, [], [],
    [{ op := 1, token := some 1, kind := .many false, elementsRequested := 1,
       tuple := some [some 5, none] }]⟩
  flush := none
  pending := [⟨0, .ok, none⟩]
  ran := []
  nextOp := 2
  history := [.enqueued 0 5, .dequeued 5]
  completed := [⟨0, .ok, none⟩]

theorem run_oneOfTwo :
    run step (init 10 [] true : System ℕ) [.tryEnqueue 5 false, .beginFlush, .flush, .flush, .flush,
      .flush, .flush, .tryDequeueMany 2 false false, .beginFlush, .flush, .flush, .flush, .flush] =
      some oneOfTwo := rfl

/-- It is cancelled, and the flush that follows pops it: its element is lost. -/
theorem not_continues_oneOfTwo :
    (∃ actions, run step (init 10 [] true : System ℕ) actions = some oneOfTwo) ∧
      ∃ s₂ : System ℕ, run step oneOfTwo [.cancelDequeue 1, .beginFlush, .flush, .flush, .flush] =
        some s₂ ∧ s₂.flush.isNone ∧ ¬ Continues oneOfTwo s₂ := by
  refine ⟨⟨_, run_oneOfTwo⟩, _, rfl, rfl, ?_⟩
  rintro ⟨new, hstream, -⟩
  nomatch hstream

theorem continues_oneOfTwo_iff :
    ∃ s₁ s₂ : System ℕ, step oneOfTwo (.cancelDequeue 1) = some s₁ ∧
      run step s₁ [.beginFlush, .flush, .flush, .flush] = some s₂ ∧
      (Continues oneOfTwo s₂ ↔ [5] = []) ∧ s₂.PutsIn .int64 [[5], []] := by
  refine ⟨_, _, rfl, rfl, continues_cancelDequeue_iff run_oneOfTwo mem_cons_self rfl
    (show run step _ [.beginFlush, .flush, .flush, .flush] = _ from rfl) ?_⟩
  simp

/-! ### Every run -/

/-- A cancellation of a dequeue finds nothing, or a live attempt. -/
theorem cancelDequeue_cases (h : s.Tracked) {token : ℕ}
    (hstep : step s (.cancelDequeue token) = some s₁) :
    s₁ = s ∨ ∃ a ∈ live s.q.dequeueAttempts, a.op = token := by
  cases QueueBase.System.step_cases keepsAttempts.unspecifiedShapes hstep with
  | findsNone => exact .inl rfl
  | cancelsDequeue token before after a hattempts htoken hlive =>
    have ha : a ∈ s.q.dequeueAttempts := hattempts ▸ mem_append_right _ mem_cons_self
    refine .inr ⟨a, mem_filter.2 ⟨ha, decide_eq_true hlive⟩, ?_⟩
    exact Option.some.inj ((h.token a ha).1.symm.trans htoken)
  | finishes _ _ _ _ helements => cases helements
  | enqueues _ _ _ _ helements => cases helements
  | dequeues _ _ _ _ helements => cases helements

/-- Elements are put in at the end of the stream, and only a cancellation takes some out. -/
theorem sublist_step (h : Inv s) (htracked : s.Tracked) (hs : (stream s).Sublist s.enqueued)
    {action : Action α} (hstep : step s action = some s₁) : (stream s₁).Sublist s₁.enqueued := by
  by_cases hcancel : ∃ token, action = .cancelDequeue token
  · obtain ⟨token, rfl⟩ := hcancel
    obtain rfl | ⟨a, ha, rfl⟩ := cancelDequeue_cases htracked hstep
    · exact hs
    · obtain ⟨henqueued, front, back, hstream, hstream₁⟩ := stream_cancelDequeue htracked ha hstep
      have hsub : (front ++ back).Sublist (stream s) :=
        hstream ▸ (sublist_append_left front (collected a)).append_right back
      rw [hstream₁, henqueued]
      exact hsub.trans hs
  · obtain ⟨new, hstream, henqueued⟩ := (step_spec h hstep).2 fun token heq ↦ hcancel ⟨token, heq⟩
    rw [hstream, henqueued]
    exact hs.append_right new

/-- **Whatever is cancelled**, the elements delivered, held and left are in the order in which they
were put in, none twice; what an operation puts in is what it has been called with; every operation
is completed or pending, once; and no callback runs twice. -/
theorem keepsOrder_of_run {capacity : ℕ} {name : ByteString} {specifiedShapes : Bool}
    {actions : List (Action α)}
    (hrun : run step (init capacity name specifiedShapes) actions = some s) :
    (s.delivered ++ s.held ++ s.q.queues).Sublist s.enqueued ∧
      s.PutsIn .int64 (actions.filterMap QueueBase.System.Action.elements) ∧
      s.ops = Multiset.range s.nextOp ∧ (s.ran.map Callback.op).Nodup := by
  obtain ⟨-, -, hsub⟩ := run_invariant
    (I := fun t ↦ Inv t ∧ t.Tracked ∧ (stream t).Sublist t.enqueued)
    (fun _ ht hstep ↦ ⟨(step_spec ht.1 hstep).1, QueueBase.System.tracked_step keepsAttempts
    ht.2.1 hstep,
      sublist_step ht.1 ht.2.1 ht.2.2 hstep⟩)
    ⟨inv_init capacity name specifiedShapes, QueueBase.System.tracked_init _ _ _ _, .refl _⟩ hrun
  obtain ⟨htracked, hputsIn⟩ := putsIn_of_run hrun
  exact ⟨hsub, hputsIn, htracked.ops, htracked.once⟩

/-- The element that the cancelled dequeue has collected is lost, and the next one is delivered. -/
theorem keepsOrder_cancelled : ∃ s : System ℕ, s.enqueued = [5, 6] ∧ s.delivered = [6] ∧
    (s.delivered ++ s.held ++ s.q.queues).Sublist s.enqueued ∧ s.PutsIn .int64 [[5], [], [6], []] ∧
      s.ops = Multiset.range s.nextOp ∧ (s.ran.map Callback.op).Nodup := by
  refine ⟨_, ?_, ?_,
    keepsOrder_of_run (show run step (init 10 [] true : System ℕ) [.tryEnqueue 5 false,
    .beginFlush, .flush, .flush, .flush, .flush, .flush, .tryDequeueMany 2 false false,
    .beginFlush, .flush,
    .flush, .flush, .flush, .cancelDequeue 1, .beginFlush, .flush, .flush, .flush,
    .tryEnqueue 6 false,
    .tryDequeue false, .beginFlush, .flush, .flush, .flush, .flush, .flush, .flush] = _ from rfl)⟩
  · rfl
  · rfl

end System

end FIFOQueue

end TensorFlowCore
