import TensorFlowCore.Kernels.FifoQueue.Model
import TensorFlowCore.Kernels.QueueBase.PutsIn

/-!
# The queue delivers in order, exactly once

What the queue holds is one stream: the elements handed to successful dequeues, in the order in
which these complete, then those that dequeue attempts have collected, then the contents.
`DeliversInOrder` says that this stream is what has been put in, and that what an operation puts in
is what it has been called with.

The stream is well defined because only the attempt at the front of the live dequeue attempts has
collected anything (`Inv.waiting`), in every reachable state. Every step but the cancellation of a
dequeue moves elements along the stream, and adds to its end what it puts in (`step_spec`).
-/

namespace TensorFlowCore

open GuardedRun List QueueBase QueueEvent

namespace FIFOQueue

variable {α : Type}

/-! ### What the closures move -/

section Closures

variable {q : QueueBase (List α) α} {a : DequeueAttempt α}

theorem keepsAttempts : KeepsAttempts (queueClass : QueueClass (List α) α) :=
  keepsAttempts_of_restores Status.noConfusion rfl

theorem restore_eq (slots : List (Option α)) (k : ℕ) (queues : List α) (status : Status) :
    restore slots k queues status = ((slots.take k).filterMap id ++ queues, status) := by
  induction k generalizing queues with
  | zero => simp [restore]
  | succ k ih =>
    rw [restore, take_add_one]
    cases hslot : slots[k]? with
    | none => simp [ih]
    | some slot => cases slot <;> simp [ih]

/-- Restoring puts back everything that the attempt has collected. -/
theorem restored_eq (h : Filling a) : restored restore q a = (collected a ++ q.queues, .ok) := by
  unfold restored
  cases htuple : a.tuple with
  | none => rw [Option.elim_none, collected_of_tuple htuple, h.status, nil_append]
  | some slots =>
    obtain ⟨hfilled, htake, -⟩ := h.filledSlots_eq htuple
    rw [Option.elim_some, restore_eq, hfilled, htake, h.status]

/-- Elements are taken off the front. -/
theorem takes_eq {c c' taken : List α} (h : Takes (queueOps : QueueOps (List α) α) c taken c') :
    c = taken ++ c' := by
  induction h with
  | nil => rfl
  | cons first rest ih =>
    change dequeueLocked _ = _ at first
    unfold dequeueLocked at first
    split at first
    · cases first
    · cases first
      rw [ih]
      rfl

/-- A run that completes hands over, or leaves in the queue, what the attempt and the queue held; a
run that does not leaves the attempt waiting. -/
structure RunSpec (a : DequeueAttempt α) (queues : List α) (r : DequeueRun (List α) α) : Prop where
  complete : r.result = .complete →
    delivers r.attempt.doneCallback ++ r.queues = collected a ++ queues
  waits : r.result ≠ .complete →
    Filling r.attempt ∧ collected r.attempt ++ r.queues = collected a ++ queues

theorem dequeueLoop_spec {queues : List α} {queueSize : ℕ} {result : RunResult}
    {r : DequeueRun (List α) α} (h : Filling a) (hkind : a.kind ≠ .one)
    (hresult : result ≠ .complete) (hr : dequeueLoop queueOps queueSize queues a result = some r) :
    RunSpec a queues r := by
  obtain ⟨taken, htakes, houtcome⟩ := dequeueLoop_cases h hkind hr
  have htaken := takes_eq htakes
  cases houtcome with
  | waits _ _ hresult' hfilling hcollected =>
    have hwaits : r.result ≠ .complete := by
      rw [hresult']
      split
      · exact hresult
      · exact RunResult.noConfusion
    refine ⟨fun hc ↦ absurd hc hwaits, fun _ ↦ ⟨hfilling, ?_⟩⟩
    rw [hcollected, append_assoc, htaken]
  | hands _ _ _ hcomplete hok hhanded =>
    refine ⟨fun _ ↦ ?_, fun hne ↦ absurd hcomplete hne⟩
    rw [delivers_doneCallback hok hhanded, append_assoc, htaken]
  | fails _ _ _ _ _ _ _ hne hcopy => exact absurd (Option.some.inj hcopy).symm hne

/-- `run_callback` of a dequeue attempt. -/
theorem runDequeue_spec (h : Filling a) {r : DequeueRun (List α) α}
    (hr : q.runDequeue queueClass a = some r) : RunSpec a q.queues r := by
  unfold QueueBase.runDequeue at hr
  split at hr
  next hkind =>
    have hnone := collected_of_tuple (h.one hkind)
    cases runDequeueOne_cases hr with
    | refuses _ _ _ hne =>
      refine ⟨fun _ ↦ ?_, fun hc ↦ absurd rfl hc⟩
      rw [delivers_of_failed hne, hnone]
    | takes x c hfirst =>
      refine ⟨fun _ ↦ ?_, fun hc ↦ absurd rfl hc⟩
      have hdelivers := delivers_doneCallback (a := { a with handed := some [x] }) h.status rfl
      rw [hdelivers, hnone, takes_eq (.cons hfirst (.nil c))]
      rfl
    | waits => exact ⟨nofun, fun _ ↦ ⟨h, rfl⟩⟩
  next allowSmallBatch hkind =>
    have hmany : a.kind ≠ .one := kind_ne_one hkind
    have hrestored := restored_eq (q := q) h
    cases runDequeueMany_cases queueClass restore hr with
    | small _ _ _ hpos hloop =>
      rw [hrestored] at hpos hloop
      have hspec := dequeueLoop_spec (h.small hmany hpos) hmany RunResult.noConfusion hloop
      exact ⟨hspec.complete, hspec.waits⟩
    | yields _ _ hempty =>
      rw [hrestored] at hempty ⊢
      have hnil := length_eq_zero_iff.1 hempty
      have hq := (append_eq_nil_iff.1 hnil).2
      have hsame : { a with status := .ok } = a := by rw [← h.status]
      rw [hsame, hnil, hq]
      exact ⟨nofun, fun _ ↦ ⟨h, rfl⟩⟩
    | refuses _ _ status hne =>
      rw [hrestored]
      refine ⟨fun _ ↦ ?_, fun hc ↦ absurd rfl hc⟩
      rw [delivers_of_failed hne]
      rfl
    | loops _ hloop => exact dequeueLoop_spec h hmany RunResult.noConfusion hloop

/-- `run_callback` of an enqueue attempt pushes what it puts in. -/
theorem runEnqueue_spec (q : QueueBase (List α) α) (a : EnqueueAttempt α) :
    (q.runEnqueue queueClass a).1.queues =
      q.queues ++ (q.runEnqueue queueClass a).1.events.filterMap enqueued? := by
  have hpush {c pushed : List α} (x : α) (h : c = q.queues ++ pushed) :
      c ++ [x] = q.queues ++ (pushed ++ [x]) := by rw [h, append_assoc]
  obtain ⟨pushed, hevents, hqueues⟩ := runEnqueue_rule queueClass q a
    (R := fun c pushed ↦ c = q.queues ++ pushed) (fun h ↦ hpush _ h) (fun _ _ h ↦ hpush _ h)
    (append_nil _).symm
  rw [hqueues, hevents, enqueued_map]

end Closures

namespace System

/-! ### The stream -/

/-- Every element that has not been lost, in the order of delivery. -/
def stream (s : System α) : List α := s.delivered ++ s.held ++ s.q.queues

/-- What holds in every reachable state. -/
structure Inv (s : System α) : Prop where
  filling : ∀ a ∈ live s.q.dequeueAttempts, Filling a
  /-- Only the first live dequeue attempt has collected elements. -/
  waiting : ∀ a ∈ (live s.q.dequeueAttempts).tail, a.tuple = none

/-- `s'` continues the stream of `s`: the elements that have been put in since follow those of
`s`. -/
def Continues (s s' : System α) : Prop :=
  ∃ new, stream s' = stream s ++ new ∧ s'.enqueued = s.enqueued ++ new

theorem Continues.refl (s : System α) : Continues s s := ⟨[], by simp, by simp⟩

theorem Continues.trans {s s' s'' : System α} (h : Continues s s') (h' : Continues s' s'') :
    Continues s s'' := by
  obtain ⟨new, hs, hp⟩ := h
  obtain ⟨new', hs', hp'⟩ := h'
  exact ⟨new ++ new', by rw [hs', hs, append_assoc], by rw [hp', hp, append_assoc]⟩

/-- A step that puts nothing in. -/
theorem Continues.of_eq {s s' : System α} (hstream : stream s' = stream s)
    (henqueued : s'.enqueued = s.enqueued) : Continues s s' :=
  ⟨[], by rw [hstream, append_nil], by rw [henqueued, append_nil]⟩

theorem inv_init (capacity : ℕ) (name : ByteString) (specifiedShapes : Bool) :
    Inv (init capacity name specifiedShapes : System α) where
  filling _ ha := nomatch ha
  waiting _ ha := nomatch ha

variable {s s' : System α} {action : Action α}

/-- The dequeue attempts of the states before and after a step that adds one. -/
theorem Inv.arrives (h : Inv s) {kind : DequeueKind} {requested : ℤ} (hpos : 0 < requested)
    (hlive : live s'.q.dequeueAttempts = live s.q.dequeueAttempts ++ [s.attempt kind requested]) :
    Inv s' where
  filling a ha := by
    rw [hlive] at ha
    obtain ha | ha := mem_append.1 ha
    · exact h.filling a ha
    · rw [mem_singleton.1 ha]
      exact filling_attempt s kind hpos
  waiting a ha := by
    rw [hlive] at ha
    cases hfirst : live s.q.dequeueAttempts with
    | nil =>
      rw [hfirst] at ha
      nomatch ha
    | cons first rest =>
      rw [hfirst] at ha
      obtain ha | ha := mem_append.1 ha
      · exact h.waiting a (hfirst ▸ ha)
      · rw [mem_singleton.1 ha]
        rfl

/-- Behind the attempt at the front nothing is held. -/
theorem Inv.held_rest (h : Inv s) {a : DequeueAttempt α} {rest : List (DequeueAttempt α)}
    (hlive : live s.q.dequeueAttempts = a :: rest) :
    rest.flatMap collected = [] ∧ s.held = collected a := by
  have hwaiting := h.waiting
  rw [hlive] at hwaiting
  have hrest : rest.flatMap collected = [] :=
    flatMap_eq_nil_iff.2 fun b hb ↦ collected_of_tuple (hwaiting b hb)
  refine ⟨hrest, ?_⟩
  rw [QueueBase.System.held, hlive, flatMap_cons, hrest, append_nil]

/-- The dequeue attempt in front has run. -/
theorem Inv.dequeues (h : Inv s) {a : DequeueAttempt α} {rest : List (DequeueAttempt α)}
    {r : DequeueRun (List α) α} (hattempts : s.q.dequeueAttempts = a :: rest)
    (hcancelled : ¬ a.isCancelled = true) (hrun : s.q.runDequeue queueClass a = some r)
    (hqueues : s'.q.queues = r.queues) (hhistory : s'.history = s.history ++ r.events)
    (hlive' : live s'.q.dequeueAttempts = if r.result = .complete then live rest
      else live [r.attempt] ++ live rest) (hcompleted : s'.completed = s.completed ++
      if r.result = .complete then [r.attempt.doneCallback] else []) : Inv s' ∧ Continues s s' := by
  have hlive : live s.q.dequeueAttempts = a :: live rest := by rw [hattempts, live_cons hcancelled]
  obtain ⟨hsame, hsilent⟩ := keepsAttempts.runDequeue hrun
  obtain ⟨hrest, hheld⟩ := h.held_rest hlive
  obtain ⟨hfilling, hwaiting⟩ := h
  rw [hlive] at hfilling hwaiting
  have hspec := runDequeue_spec (hfilling a mem_cons_self) hrun
  have henqueued : s'.enqueued = s.enqueued := by
    rw [QueueBase.System.enqueued, hhistory, filterMap_append, hsilent, append_nil]
    rfl
  by_cases hresult : r.result = .complete
  · rw [if_pos hresult] at hlive' hcompleted
    refine ⟨⟨fun b hb ↦ ?_, fun b hb ↦ ?_⟩, .of_eq ?_ henqueued⟩
    · exact hfilling b (mem_cons_of_mem a (hlive' ▸ hb))
    · exact hwaiting b (mem_of_mem_tail (hlive' ▸ hb))
    · rw [stream, stream, QueueBase.System.delivered, hcompleted, QueueBase.System.delivered_append,
        flatMap_singleton, QueueBase.System.held, hlive', hrest, append_nil, hqueues, append_assoc,
        hspec.complete hresult, hheld, append_assoc]
  · rw [if_neg hresult] at hlive' hcompleted
    rw [live_cons (hsame.isCancelled ▸ hcancelled), live_nil, singleton_append] at hlive'
    obtain ⟨hfill, heq⟩ := hspec.waits hresult
    refine ⟨⟨fun b hb ↦ ?_, fun b hb ↦ ?_⟩, .of_eq ?_ henqueued⟩
    · rw [hlive'] at hb
      obtain rfl | hb := mem_cons.1 hb
      · exact hfill
      · exact hfilling b (mem_cons_of_mem a hb)
    · rw [hlive'] at hb
      exact hwaiting b hb
    · rw [stream, stream, QueueBase.System.delivered, hcompleted, append_nil, QueueBase.System.held,
        hlive', flatMap_cons, hrest, append_nil, hqueues, append_assoc, heq, hheld, append_assoc]
      rfl

/-- **One step.** The invariant is kept, and unless a dequeue is cancelled the stream goes on. -/
theorem step_spec (h : Inv s) (hstep : step s action = some s') :
    Inv s' ∧ ((∀ token, action ≠ .cancelDequeue token) → Continues s s') := by
  have hsame (same : QueueBase.System.Same s s')
      (hheld : s'.held = s.held) : Continues s s' := by
    refine .of_eq ?_ ?_
    · rw [stream, stream, same.completed.delivered_eq, hheld, same.queues]
    · rw [QueueBase.System.enqueued, same.history, QueueBase.System.enqueued]
  cases QueueBase.System.step_effect keepsAttempts.unspecifiedShapes hstep with
  | quiet same hlive =>
    refine ⟨⟨hlive ▸ h.filling, hlive ▸ h.waiting⟩, fun _ ↦ hsame same ?_⟩
    rw [QueueBase.System.held, hlive, QueueBase.System.held]
  | arrives kind requested hpos same hlive =>
    refine ⟨h.arrives hpos hlive, fun _ ↦ hsame same ?_⟩
    rw [QueueBase.System.held, hlive, flatMap_append, flatMap_singleton, collected_of_tuple rfl,
      append_nil]
    rfl
  | leaves token haction before after a _ _ _ _ _ hlive hlive' =>
    have hsub : (live s'.q.dequeueAttempts).Sublist (live s.q.dequeueAttempts) := by
      rw [hlive, hlive']
      exact (sublist_cons_self a after).append_left before
    exact ⟨⟨fun b hb ↦ h.filling b (hsub.subset hb), fun b hb ↦ h.waiting b (hsub.tail.subset hb)⟩,
      fun hne ↦ absurd haction (hne token)⟩
  | enqueues f a rest _ _ _ _ _ hqueues hhistory _ hcompleted hlive =>
    refine ⟨⟨hlive ▸ h.filling, hlive ▸ h.waiting⟩,
      fun _ ↦ ⟨(s.q.runEnqueue queueClass a).1.events.filterMap enqueued?, ?_, ?_⟩⟩
    · rw [stream, hcompleted.delivered_eq, QueueBase.System.held, hlive, hqueues, runEnqueue_spec,
        ← append_assoc]
      rfl
    · rw [QueueBase.System.enqueued, hhistory, filterMap_append]
      rfl
  | dequeues f a rest r _ _ _ hattempts hcancelled hrun hqueues hhistory _ hlive' hcompleted =>
    exact (h.dequeues hattempts hcancelled hrun hqueues hhistory hlive' hcompleted).imp_right
      fun hc _ ↦ hc

/-- The invariant holds in every reachable state. -/
theorem inv_of_run {actions : List (Action α)} (h : Inv s) (hrun : run step s actions = some s') :
    Inv s' :=
  run_invariant (fun _ hs hstep ↦ (step_spec hs hstep).1) h hrun

/-- A run in which no dequeue is cancelled continues the stream. -/
theorem continues_of_run {actions : List (Action α)} (h : Inv s)
    (hrun : run step s actions = some s')
    (hcancel : ∀ token, QueueBase.System.Action.cancelDequeue token ∉ actions) :
    Continues s s' := by
  refine (run_invariant (I := fun t ↦ Inv t ∧ Continues s t) ?_ ⟨h, .refl s⟩ hrun).2
  intro t t' action hmem ht hstep
  obtain ⟨hinv, hcontinues⟩ := step_spec ht.1 hstep
  exact ⟨hinv, ht.2.trans (hcontinues fun token heq ↦ hcancel token (heq ▸ hmem))⟩

/-- After some actions, the elements delivered, held and left are those put in, in that order. What
an operation puts in is what it has been called with, in order, and all of it if it has completed
with `OK`. No operation's callback runs twice: the callbacks that have run, or are to be run, are
those of operations that completed, once each. -/
structure DeliversInOrder (actions : List (Action α)) (s : System α) : Prop where
  stream : s.delivered ++ s.held ++ s.q.queues = s.enqueued
  putsIn : s.PutsIn .int64 (actions.filterMap QueueBase.System.Action.elements)
  completed : (s.ran : Multiset (Callback α)) + s.pending + s.cleanUp = s.completed
  once : (s.ran.map Callback.op).Nodup

/-- What the operations of a run put in. -/
theorem putsIn_of_run {capacity : ℕ} {name : ByteString} {specifiedShapes : Bool}
    {actions : List (Action α)}
    (hrun : run step (init capacity name specifiedShapes) actions = some s) :
    s.Tracked ∧ s.PutsIn .int64 (actions.filterMap QueueBase.System.Action.elements) :=
  QueueBase.System.putsIn_of_run id
    (fun hstep ↦ ⟨queueClass, keepsAttempts, rfl, hstep⟩) hrun

/-- **The queue delivers in order, exactly once**, in every run in which no dequeue is cancelled. -/
theorem deliversInOrder_of_run {capacity : ℕ} {name : ByteString} {specifiedShapes : Bool}
    {actions : List (Action α)}
    (hrun : run step (init capacity name specifiedShapes) actions = some s)
    (hcancel : ∀ token, QueueBase.System.Action.cancelDequeue token ∉ actions) :
    DeliversInOrder actions s := by
  obtain ⟨htracked, hputsIn⟩ := putsIn_of_run hrun
  obtain ⟨new, hstream, henqueued⟩ :=
    continues_of_run (inv_init capacity name specifiedShapes) hrun hcancel
  have hnew : stream s = s.enqueued := by rw [hstream, henqueued]; rfl
  exact ⟨hnew, hputsIn, htracked.callbacks, htracked.once⟩

/-- A dequeue of two elements from a queue with room for one collects them one by one. -/
theorem deliversInOrder_two :
    ∃ (actions : List (Action ℕ)) (s : System ℕ), s.delivered = [5, 6] ∧
      s.ran.map Callback.op = [1, 0] ∧ DeliversInOrder actions s := by
  refine ⟨_, _, ?_, ?_, deliversInOrder_of_run (show run step (init 1 [] true)
    [.tryDequeueMany 2 false false, .tryEnqueueMany [5, 6] false, .beginFlush, .flush,
    .flush, .flush,
      .flush, .flush, .flush, .flush, .flush, .runCallback 0, .runCallback 0] = _ from rfl) ?_⟩
  · rfl
  · rfl
  · simp

end System

end FIFOQueue

end TensorFlowCore
