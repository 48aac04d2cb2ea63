import TensorFlowCore.Kernels.QueueBase.Attempts

/-!
# What a step of a queue does

`step_cases` says it once and for all, action by action: a step adds an operation, ends one that is
cancelled, or goes on with a flush, of which each iteration runs the attempt in front of a deque.
`step_effect` is what this means for the contents and for the dequeue attempts.
-/

namespace TensorFlowCore

open List

/-- The elements that an enqueue attempt has been called with. -/
def EnqueueKind.elements {α : Type} : EnqueueKind α → List α
  | .one tuple => [tuple]
  | .many batch => batch
  | .close => []

namespace QueueBase

variable {Q α : Type}

namespace System

/-- The elements that a new operation is called with, if the action is one. -/
def Action.elements : Action α → Option (List α)
  | .tryEnqueue tuple _ => some [tuple]
  | .tryEnqueueMany batch _ => some batch
  | .tryDequeue _ => some []
  | .tryDequeueMany _ _ _ => some []
  | .close _ => some []
  | _ => none

/-- The enqueue attempt that an action leaves, if there is one. -/
def arriving (s : System Q α) : Action α → Option (EnqueueAttempt α)
  | .tryEnqueue tuple false => some (s.attempt (.one tuple) 1)
  | .tryEnqueueMany batch false =>
    if batch.isEmpty then none else some (s.attempt (.many batch) (int batch.length))
  | .close false => some s.closeAttempt
  | _ => none

/-- What a step does, action by action. -/
inductive StepCases (cls : QueueClass Q α) (s : System Q α) : Action α → System Q α → Prop
  | finishes (action : Action α) (c : Callback α) (elements : List α) (op_eq : c.op = s.nextOp)
      (elements_eq : action.elements = some elements) (ok : c.status = .ok → elements = [])
      (nothing : delivers c = []) (arriving_eq : s.arriving action = none)
      (ne_close : action ≠ .close true) : StepCases cls s action (s.newOp.finish c)
  | enqueues (action : Action α) (a : EnqueueAttempt α) (op_eq : a.op = s.nextOp)
      (live : a.isCancelled = false) (elements_eq : action.elements = some a.kind.elements)
      (arriving_eq : s.arriving action = some a) : StepCases cls s action (s.newOp.addEnqueue a)
  | dequeues (action : Action α) (kind : DequeueKind) (requested : ℤ) (pos : 0 < requested)
      (elements_eq : action.elements = some []) (arriving_eq : s.arriving action = none)
      (ne_close : action ≠ .close true) :
      StepCases cls s action (s.newOp.addDequeue (s.attempt kind requested))
  | closes : StepCases cls s (.close true) (s.newOp.closeAndCancel.finish ⟨s.nextOp, .ok, none⟩)
  | findsNone (action : Action α) (elements_eq : action.elements = none)
      (arriving_eq : s.arriving action = none) (ne : action ≠ .close true ∧ action ≠ .flush) :
      StepCases cls s action s
  | cancelsEnqueue (token : ℕ) (before after : List (EnqueueAttempt α)) (a : EnqueueAttempt α)
      (attempts_eq : s.q.enqueueAttempts = before ++ a :: after) (token_eq : a.token = some token)
      (notCancelled : ¬ a.isCancelled = true) : StepCases cls s (.cancelEnqueue token)
        (({ s with q := { s.q with enqueueAttempts :=
          before ++ { a.setStatus enqueueCancelled with isCancelled := true } :: after } } :
            System Q α).finish (enqueueCallback (a.setStatus enqueueCancelled)))
  | cancelsDequeue (token : ℕ) (before after : List (DequeueAttempt α)) (a : DequeueAttempt α)
      (attempts_eq : s.q.dequeueAttempts = before ++ a :: after) (token_eq : a.token = some token)
      (notCancelled : ¬ a.isCancelled = true) : StepCases cls s (.cancelDequeue token)
        (({ s with
          q := { s.q with dequeueAttempts :=
            before ++ { a.setStatus dequeueCancelled with isCancelled := true } :: after }
          history := s.history ++ (collected a).map .lost } : System Q α).finish
            (a.setStatus dequeueCancelled).doneCallback)
  | begins (flush_eq : s.flush = none) :
      StepCases cls s .beginFlush { s with flush := some ⟨.enqueue, false, false, []⟩ }
  | ends (f : Flush α) (flush_eq : s.flush = some f)
      (empty : f.pass = .enqueue → s.q.enqueueAttempts = []) :
      StepCases cls s .flush (s.endPass f f.progress)
  | popsEnqueue (f : Flush α) (a : EnqueueAttempt α) (rest : List (EnqueueAttempt α))
      (flush_eq : s.flush = some f) (attempts_eq : s.q.enqueueAttempts = a :: rest)
      (cancelled : a.isCancelled = true) :
      StepCases cls s .flush { s with q := { s.q with enqueueAttempts := rest } }
  | popsDequeue (f : Flush α) (a : DequeueAttempt α) (rest : List (DequeueAttempt α))
      (flush_eq : s.flush = some f) (pass_eq : f.pass = .dequeue)
      (attempts_eq : s.q.dequeueAttempts = a :: rest) (cancelled : a.isCancelled = true) :
      StepCases cls s .flush { s with q := { s.q with dequeueAttempts := rest } }
  | runsEnqueue (f : Flush α) (a : EnqueueAttempt α) (rest : List (EnqueueAttempt α))
      (flush_eq : s.flush = some f) (pass_eq : f.pass = .enqueue)
      (attempts_eq : s.q.enqueueAttempts = a :: rest) (notCancelled : ¬ a.isCancelled = true) :
      StepCases cls s .flush (s.ranEnqueue f rest (s.q.runEnqueue cls a))
  | runsDequeue (f : Flush α) (a : DequeueAttempt α) (rest : List (DequeueAttempt α))
      (r : DequeueRun Q α) (flush_eq : s.flush = some f) (pass_eq : f.pass = .dequeue)
      (attempts_eq : s.q.dequeueAttempts = a :: rest) (notCancelled : ¬ a.isCancelled = true)
      (run_eq : s.q.runDequeue cls a = some r) : StepCases cls s .flush (s.ranDequeue f rest r)
  | runsCallback (i : ℕ) (c : Callback α) (pending_eq : s.pending[i]? = some c) :
      StepCases cls s (.runCallback i)
        { s with pending := s.pending.eraseIdx i, ran := s.ran ++ [c] }

variable {cls : QueueClass Q α} {s s' : System Q α} {action : Action α}

theorem enqueueCancelled_ne_ok : enqueueCancelled ≠ .ok := Status.noConfusion

theorem dequeueCancelled_ne_ok : dequeueCancelled ≠ .ok := Status.noConfusion

theorem withOp_eq_some {g : System Q α → System Q α} (h : s.withOp g = some s') :
    s' = g s.newOp := by
  unfold withOp at h
  split at h
  · exact (Option.some.inj h).symm
  · cases h

/-- An operation that its cancellation manager refuses. -/
theorem stepCases_refused {status : Status} (hstatus : status ≠ .ok) {elements : List α}
    (helements : action.elements = some elements) (harriving : s.arriving action = none)
    (hclose : action ≠ .close true) :
    StepCases cls s action (s.newOp.finish ⟨s.nextOp, status, none⟩) :=
  .finishes action _ elements rfl helements (fun hok ↦ absurd hok hstatus) (delivers_of_tuple rfl)
    harriving hclose

theorem flushEnqueue_cases {f : Flush α} (hflush : s.flush = some f) (hpass : f.pass = .enqueue) :
    StepCases cls s .flush (s.flushEnqueue cls f) := by
  unfold flushEnqueue
  split
  next hattempts => exact .ends f hflush fun _ ↦ hattempts
  next a rest hattempts =>
    split
    next hcancelled => exact .popsEnqueue f a rest hflush hattempts hcancelled
    next hlive => exact .runsEnqueue f a rest hflush hpass hattempts hlive

theorem flushDequeue_cases {f : Flush α} (hflush : s.flush = some f) (hpass : f.pass = .dequeue)
    (hstep : s.flushDequeue cls f = some s') : StepCases cls s .flush s' := by
  unfold flushDequeue at hstep
  split at hstep
  · cases hstep
    exact .ends f hflush fun henqueue ↦ by rw [hpass] at henqueue; cases henqueue
  next a rest hattempts =>
    split at hstep
    next hcancelled =>
      cases hstep
      exact .popsDequeue f a rest hflush hpass hattempts hcancelled
    next hlive =>
      obtain ⟨r, hr, rfl⟩ := Option.map_eq_some_iff.1 hstep
      exact .runsDequeue f a rest r hflush hpass hattempts hlive hr

theorem cancelEnqueue_cases {token : ℕ} (hstep : step cls s (.cancelEnqueue token) = some s') :
    StepCases cls s (.cancelEnqueue token) s' := by
  dsimp only [step] at hstep
  split at hstep
  · obtain ⟨heq, -⟩ | ⟨before, a, after, hattempts, htoken, hlive, -, heq⟩ :=
      cancelAttempt_cases token enqueueCancelled s.q.enqueueAttempts
    · rw [heq] at hstep
      cases hstep
      exact .findsNone _ rfl rfl ⟨nofun, nofun⟩
    · rw [heq] at hstep
      cases hstep
      exact .cancelsEnqueue token before after a hattempts htoken hlive
  · cases hstep

theorem cancelDequeue_cases {token : ℕ} (hstep : step cls s (.cancelDequeue token) = some s') :
    StepCases cls s (.cancelDequeue token) s' := by
  dsimp only [step] at hstep
  split at hstep
  · obtain ⟨heq, hnone⟩ | ⟨before, a, after, hattempts, htoken, hlive, hsome, heq⟩ :=
      cancelAttempt_cases token dequeueCancelled s.q.dequeueAttempts
    · rw [heq, hnone] at hstep
      cases hstep
      have hsame : { s with history := s.history ++ [] } = s := by rw [append_nil]
      exact hsame.symm ▸ .findsNone _ rfl rfl ⟨nofun, nofun⟩
    · rw [heq, hsome] at hstep
      cases hstep
      exact .cancelsDequeue token before after a hattempts htoken hlive
  · cases hstep

/-- **What a step does.** -/
theorem step_cases (hspec : cls.unspecifiedShapes ≠ .ok) (hstep : step cls s action = some s') :
    StepCases cls s action s' := by
  cases action with
  | cancelDequeue token => exact cancelDequeue_cases hstep
  | cancelEnqueue token => exact cancelEnqueue_cases hstep
  | tryEnqueue tuple alreadyCancelled =>
    dsimp only [step] at hstep
    obtain rfl := withOp_eq_some hstep
    cases alreadyCancelled with
    | true => exact stepCases_refused enqueueCancelled_ne_ok rfl rfl nofun
    | false => exact .enqueues _ _ rfl rfl rfl rfl
  | tryEnqueueMany batch alreadyCancelled =>
    dsimp only [step] at hstep
    split at hstep
    next hempty =>
      cases hstep
      refine .finishes _ _ batch rfl rfl (fun _ ↦ isEmpty_iff.1 hempty) (delivers_of_tuple rfl) ?_
        nofun
      cases alreadyCancelled with
      | true => rfl
      | false => exact if_pos hempty
    next hne =>
      obtain rfl := withOp_eq_some hstep
      cases alreadyCancelled with
      | true => exact stepCases_refused enqueueCancelled_ne_ok rfl rfl nofun
      | false => exact .enqueues _ _ rfl rfl rfl (if_neg hne)
  | tryDequeue alreadyCancelled =>
    dsimp only [step] at hstep
    obtain rfl := withOp_eq_some hstep
    split
    · exact stepCases_refused dequeueCancelled_ne_ok rfl rfl nofun
    · exact .dequeues _ .one 1 (by decide) rfl rfl nofun
  | tryDequeueMany numElements allowSmallBatch alreadyCancelled =>
    dsimp only [step] at hstep
    split at hstep
    · cases hstep
      exact stepCases_refused hspec rfl rfl nofun
    · split at hstep
      · cases hstep
        exact .finishes _ _ [] rfl rfl (fun _ ↦ rfl) rfl rfl nofun
      next hne =>
        obtain rfl := withOp_eq_some hstep
        split
        · exact stepCases_refused dequeueCancelled_ne_ok rfl rfl nofun
        · exact .dequeues _ (.many allowSmallBatch) numElements (by omega) rfl rfl nofun
  | close cancelPendingEnqueues =>
    dsimp only [step] at hstep
    obtain rfl := withOp_eq_some hstep
    cases cancelPendingEnqueues with
    | true => exact .closes
    | false => exact .enqueues _ _ rfl rfl rfl rfl
  | beginFlush =>
    dsimp only [step] at hstep
    split at hstep
    next hnone =>
      cases hstep
      exact .begins (Option.isNone_iff_eq_none.1 hnone)
    · cases hstep
  | flush =>
    obtain ⟨f, hf, hstep⟩ := Option.bind_eq_some_iff.1 hstep
    split at hstep
    next hpass =>
      cases hstep
      exact flushEnqueue_cases hf hpass
    next hpass => exact flushDequeue_cases hf hpass hstep
  | runCallback i =>
    obtain ⟨c, hc, rfl⟩ := Option.map_eq_some_iff.1 hstep
    exact .runsCallback i c hc

/-! ### The end of a pass, and the runs of attempts -/

section Fields

variable {f : Flush α} {progress : Bool}

/-- The end of a pass is only about the flush. -/
theorem endPass_eq (s : System Q α) (f : Flush α) (progress : Bool) :
    ∃ flush pending, s.endPass f progress = { s with flush, pending } := by
  unfold endPass
  split
  · exact ⟨_, _, rfl⟩
  · split <;> exact ⟨_, _, rfl⟩

@[simp] theorem q_endPass : (s.endPass f progress).q = s.q := by
  obtain ⟨_, _, h⟩ := endPass_eq s f progress
  rw [h]

@[simp] theorem history_endPass : (s.endPass f progress).history = s.history := by
  obtain ⟨_, _, h⟩ := endPass_eq s f progress
  rw [h]

@[simp] theorem completed_endPass : (s.endPass f progress).completed = s.completed := by
  obtain ⟨_, _, h⟩ := endPass_eq s f progress
  rw [h]

@[simp] theorem nextOp_endPass : (s.endPass f progress).nextOp = s.nextOp := by
  obtain ⟨_, _, h⟩ := endPass_eq s f progress
  rw [h]

/-- What an attempt that has run leaves of itself. -/
def left {κ : Type} (run : QueueRun Q κ α) (rest : List (Attempt κ α)) : List (Attempt κ α) :=
  if run.result = .complete then rest else run.attempt :: rest

/-- The fields of the state after the run of an enqueue attempt. -/
theorem ranEnqueue_eq (s : System Q α) (f : Flush α) (rest : List (EnqueueAttempt α))
    (run : EnqueueRun Q α × Bool) : (s.ranEnqueue f rest run).q = { s.q with
      queues := run.1.queues, closed := run.2, enqueueAttempts := left run.1 rest } ∧
    (s.ranEnqueue f rest run).history = s.history ++ run.1.events ∧
    (s.ranEnqueue f rest run).nextOp = s.nextOp ∧
    (s.ranEnqueue f rest run).completed = s.completed ++
      if run.1.result = .complete then [enqueueCallback run.1.attempt] else [] := by
  unfold ranEnqueue left
  cases run.1.result <;> simp [complete]

/-- The fields of the state after the run of a dequeue attempt. -/
theorem ranDequeue_eq (s : System Q α) (f : Flush α) (rest : List (DequeueAttempt α))
    (r : DequeueRun Q α) : (s.ranDequeue f rest r).q = { s.q with
      queues := r.queues, dequeueAttempts := left r rest } ∧
    (s.ranDequeue f rest r).history = s.history ++ r.events ∧
    (s.ranDequeue f rest r).nextOp = s.nextOp ∧
    (s.ranDequeue f rest r).completed = s.completed ++
      if r.result = .complete then [r.attempt.doneCallback] else [] := by
  unfold ranDequeue left
  cases r.result <;> simp [complete]

/-- The live attempts after one of them has run. -/
theorem live_left {κ : Type} (run : QueueRun Q κ α) (rest : List (Attempt κ α)) :
    live (left run rest) = if run.result = .complete then live rest
      else live [run.attempt] ++ live rest := by
  unfold left
  split
  · rfl
  · exact live_append [run.attempt] rest

end Fields

/-! ### The contents -/

/-- The elements handed to successful dequeues, in completion order. -/
def delivered (s : System Q α) : List α := s.completed.flatMap delivers

/-- The elements held by dequeue attempts. -/
def held (s : System Q α) : List α := (live s.q.dequeueAttempts).flatMap collected

/-- The callbacks that are completed deliver nothing. -/
def DeliversNothing (s s' : System Q α) : Prop :=
  ∃ cs, s'.completed = s.completed ++ cs ∧ ∀ c ∈ cs, delivers c = []

/-- The contents are left alone, and nothing is delivered. -/
structure Same (s s' : System Q α) : Prop where
  queues : s'.q.queues = s.q.queues
  closed : s.q.closed = true → s'.q.closed = true
  history : s'.history = s.history
  completed : DeliversNothing s s'

/-- What a step does to the contents, and to the dequeue attempts that are not cancelled. -/
inductive Effect (cls : QueueClass Q α) (s : System Q α) (action : Action α) (s' : System Q α) :
    Prop where
  | quiet (same : Same s s') (live_eq : live s'.q.dequeueAttempts = live s.q.dequeueAttempts)
  | arrives (kind : DequeueKind) (requested : ℤ) (pos : 0 < requested) (same : Same s s')
      (live_eq : live s'.q.dequeueAttempts =
        live s.q.dequeueAttempts ++ [s.attempt kind requested])
  | leaves (token : ℕ) (action_eq : action = .cancelDequeue token)
      (before after : List (DequeueAttempt α)) (a : DequeueAttempt α) (token_eq : a.token =
      some token)
      (queues : s'.q.queues = s.q.queues) (closed : s'.q.closed = s.q.closed)
      (history : s'.history = s.history ++ (collected a).map .lost)
      (completed : DeliversNothing s s')
      (live_eq : live s.q.dequeueAttempts = before ++ a :: after)
      (live_eq' : live s'.q.dequeueAttempts = before ++ after)
  | enqueues (f : Flush α) (a : EnqueueAttempt α) (rest : List (EnqueueAttempt α))
      (action_eq : action = .flush) (flush_eq : s.flush = some f) (pass_eq : f.pass = .enqueue)
      (attempts_eq : s.q.enqueueAttempts = a :: rest) (notCancelled : ¬ a.isCancelled = true)
      (queues : s'.q.queues = (s.q.runEnqueue cls a).1.queues)
      (history : s'.history = s.history ++ (s.q.runEnqueue cls a).1.events)
      (closed : s.q.closed = true → s'.q.closed = true) (completed : DeliversNothing s s')
      (live_eq : live s'.q.dequeueAttempts = live s.q.dequeueAttempts)
  | dequeues (f : Flush α) (a : DequeueAttempt α) (rest : List (DequeueAttempt α))
      (r : DequeueRun Q α) (action_eq : action = .flush) (flush_eq : s.flush = some f)
      (pass_eq : f.pass = .dequeue) (attempts_eq : s.q.dequeueAttempts = a :: rest)
      (notCancelled : ¬ a.isCancelled = true) (run_eq : s.q.runDequeue cls a = some r)
      (queues : s'.q.queues = r.queues) (history : s'.history = s.history ++ r.events)
      (closed : s'.q.closed = s.q.closed)
      (live_eq' : live s'.q.dequeueAttempts = if r.result = .complete then live rest
        else live [r.attempt] ++ live rest)
      (completed : s'.completed = s.completed ++
        if r.result = .complete then [r.attempt.doneCallback] else [])

theorem delivered_append (s : System Q α) (cs : List (Callback α)) :
    (s.completed ++ cs).flatMap delivers = s.delivered ++ cs.flatMap delivers :=
  flatMap_append

theorem DeliversNothing.delivered_eq (h : DeliversNothing s s') : s'.delivered = s.delivered := by
  obtain ⟨cs, hcompleted, hcs⟩ := h
  rw [delivered, hcompleted, delivered_append, flatMap_eq_nil_iff.2 hcs, append_nil]

theorem DeliversNothing.of_eq (h : s'.completed = s.completed) : DeliversNothing s s' :=
  ⟨[], by rw [h, append_nil], nofun⟩

/-- A callback that delivers nothing. -/
theorem DeliversNothing.of_append {c : Callback α} (h : s'.completed = s.completed ++ [c])
    (hc : delivers c = []) : DeliversNothing s s' :=
  ⟨[c], h, forall_mem_singleton.2 hc⟩

theorem same_of_eq (hq : s'.q.queues = s.q.queues) (hclosed : s'.q.closed = s.q.closed)
    (hhistory : s'.history = s.history) (hcompleted : s'.completed = s.completed) : Same s s' :=
  ⟨hq, fun h ↦ hclosed.trans h, hhistory, .of_eq hcompleted⟩

/-- A closed queue stays closed. -/
theorem closed_runEnqueue (cls : QueueClass Q α) (q : QueueBase Q α) (a : EnqueueAttempt α)
    (h : q.closed = true) : (q.runEnqueue cls a).2 = true := by
  unfold runEnqueue
  split
  · exact h
  · exact h
  · split <;> rfl

/-- **What one step of the queue does**, for every class of queue. -/
theorem step_effect (hspec : cls.unspecifiedShapes ≠ .ok) (hstep : step cls s action = some s') :
    Effect cls s action s' := by
  cases step_cases hspec hstep with
  | finishes _ _ _ _ _ _ hnothing => exact .quiet ⟨rfl, id, rfl, .of_append rfl hnothing⟩ rfl
  | enqueues => exact .quiet (same_of_eq rfl rfl rfl rfl) rfl
  | dequeues _ kind requested hpos =>
    refine .arrives kind requested hpos (same_of_eq rfl rfl rfl rfl) ?_
    show live (s.q.dequeueAttempts ++ [s.attempt kind requested]) = _
    rw [live_append, live_cons Bool.false_ne_true]
    rfl
  | closes =>
    have hcompleted : (s.newOp.closeAndCancel.finish ⟨s.nextOp, .ok, none⟩).completed =
        s.completed ++ (s.newOp.cancelledCallbacks ++ [⟨s.nextOp, .ok, none⟩]) :=
      append_assoc _ _ _
    refine .quiet ⟨rfl, fun _ ↦ rfl, rfl, _, hcompleted, fun c hc ↦ delivers_of_tuple ?_⟩ rfl
    obtain hc | hc := mem_append.1 hc
    · obtain ⟨a, -, rfl⟩ := mem_map.1 hc
      rfl
    · rw [mem_singleton.1 hc]
  | findsNone => exact .quiet (same_of_eq rfl rfl rfl rfl) rfl
  | cancelsEnqueue => exact .quiet ⟨rfl, id, rfl, .of_append rfl (delivers_enqueueCallback _)⟩ rfl
  | cancelsDequeue token before after a hattempts htoken hlive =>
    refine .leaves token rfl (live before) (live after) a htoken rfl rfl rfl
      (.of_append rfl (delivers_of_status (setStatus_ne_ok a dequeueCancelled_ne_ok))) ?_ ?_
    · rw [hattempts, live_append, live_cons hlive]
    · exact (live_append before _).trans (congrArg _ (live_cons_of_cancelled rfl after))
  | begins => exact .quiet (same_of_eq rfl rfl rfl rfl) rfl
  | ends f => exact .quiet (same_of_eq (by simp) (by simp) (by simp) (by simp)) (by simp)
  | popsEnqueue => exact .quiet (same_of_eq rfl rfl rfl rfl) rfl
  | popsDequeue f a rest _ _ hattempts hcancelled =>
    refine .quiet (same_of_eq rfl rfl rfl rfl) ?_
    rw [hattempts, live_cons_of_cancelled hcancelled]
  | runsEnqueue f a rest hflush hpass hattempts hlive =>
    obtain ⟨hq, hhistory, -, hcompleted⟩ :=
      ranEnqueue_eq s f rest (s.q.runEnqueue cls a)
    refine .enqueues f a rest rfl hflush hpass hattempts hlive (by rw [hq]) hhistory
      (fun h ↦ by rw [hq]; exact closed_runEnqueue cls s.q a h) ⟨_, hcompleted, ?_⟩ (by rw [hq])
    split
    · exact forall_mem_singleton.2 (delivers_enqueueCallback _)
    · exact forall_mem_nil _
  | runsDequeue f a rest r hflush hpass hattempts hlive hrun =>
    obtain ⟨hq, hhistory, -, hcompleted⟩ := ranDequeue_eq s f rest r
    exact .dequeues f a rest r rfl hflush hpass hattempts hlive hrun (by rw [hq]) hhistory
      (by rw [hq]) (by rw [hq]; exact live_left r rest) hcompleted
  | runsCallback => exact .quiet (same_of_eq rfl rfl rfl rfl) rfl

end System

end QueueBase

end TensorFlowCore
