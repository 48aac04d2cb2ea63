import Mathlib.Algebra.Order.Group.Multiset
import Mathlib.Data.Multiset.Range
import Mathlib.Tactic.Abel
import TensorFlowCore.Kernels.QueueBase.Steps

/-!
# The operations of a queue

Every operation is completed once, or has one attempt that is pending (`Tracked.ops`), and a
callback that has been taken out of an attempt is run once (`Tracked.callbacks`). The closures of a
class leave alone what says which operation an attempt is of (`KeepsAttempts`).
-/

namespace TensorFlowCore

open List

namespace QueueBase

open QueueEvent

variable {Q α : Type}

/-! ### What the closures leave alone -/

/-- What the closures of a class leave alone. -/
structure KeepsAttempts (cls : QueueClass Q α) : Prop where
  unspecifiedShapes : cls.unspecifiedShapes ≠ .ok
  dequeueMany : ∀ {q : QueueBase Q α} {a : DequeueAttempt α} {b : Bool} {r : DequeueRun Q α},
    cls.runDequeueMany q a b = some r → SameAttempt a r.attempt ∧ r.events.filterMap enqueued? = []

section Keeps

variable {cls : QueueClass Q α} {q : QueueBase Q α}

/-- A class that fills its batches over any number of runs. -/
theorem keepsAttempts_of_restores {restore : List (Option α) → ℕ → Q → Status → Q × Status}
    (hspec : cls.unspecifiedShapes ≠ .ok)
    (hmany : cls.runDequeueMany = runDequeueMany cls.toQueueOps restore) : KeepsAttempts cls where
  unspecifiedShapes := hspec
  dequeueMany {q a b r} hr := by
    rw [hmany] at hr
    cases runDequeueMany_cases cls restore hr with
    | small _ _ _ _ hloop =>
      obtain ⟨hsame, hsilent⟩ := dequeueLoop_keeps hloop
      exact ⟨⟨hsame.op, hsame.token, hsame.kind, hsame.isCancelled⟩, hsilent⟩
    | yields => exact ⟨⟨rfl, rfl, rfl, rfl⟩, rfl⟩
    | refuses => exact ⟨⟨rfl, rfl, rfl, rfl⟩, rfl⟩
    | loops _ hloop => exact dequeueLoop_keeps hloop

theorem KeepsAttempts.runDequeue (hcls : KeepsAttempts cls) {a : DequeueAttempt α}
    {r : DequeueRun Q α} (hr : q.runDequeue cls a = some r) :
    SameAttempt a r.attempt ∧ r.events.filterMap enqueued? = [] := by
  unfold QueueBase.runDequeue at hr
  split at hr
  · cases runDequeueOne_cases hr with
    | refuses => exact ⟨sameAttempt_setStatus a _, rfl⟩
    | takes => exact ⟨⟨rfl, rfl, rfl, rfl⟩, rfl⟩
    | waits => exact ⟨⟨rfl, rfl, rfl, rfl⟩, rfl⟩
  · exact hcls.dequeueMany hr

/-- An enqueue closure leaves the operation of its attempt alone. -/
theorem runEnqueue_keeps (cls : QueueClass Q α) (q : QueueBase Q α) (a : EnqueueAttempt α) :
    SameAttempt a (q.runEnqueue cls a).1.attempt := by
  unfold QueueBase.runEnqueue
  split
  · dsimp only
    unfold runEnqueueOne
    split
    · exact sameAttempt_setStatus a _
    · split
      · dsimp only
        split
        · exact sameAttempt_setStatus a _
        · exact ⟨rfl, rfl, rfl, rfl⟩
      · exact ⟨rfl, rfl, rfl, rfl⟩
  · dsimp only
    unfold runEnqueueMany
    split
    · exact sameAttempt_setStatus a _
    · exact enqueueLoop_keeps _ _ _ _ _
  · split
    · exact sameAttempt_setStatus a _
    · exact ⟨rfl, rfl, rfl, rfl⟩

end Keeps

/-! ### Every operation completes once -/

namespace System

/-- The callbacks that the thread holding the mutex is going to run. -/
def cleanUp (s : System Q α) : List (Callback α) := (s.flush.map Flush.cleanUp).getD []

/-- The operations that are completed, and those with a pending attempt. -/
def ops (s : System Q α) : Multiset ℕ :=
  s.completed.map Callback.op + (live s.q.enqueueAttempts).map Attempt.op +
    (live s.q.dequeueAttempts).map Attempt.op

/-- What holds of the operations in every reachable state. -/
structure Tracked (s : System Q α) : Prop where
  callbacks : (s.ran : Multiset (Callback α)) + s.pending + s.cleanUp = s.completed
  /-- Every operation is completed, or pending, once. -/
  ops : s.ops = Multiset.range s.nextOp
  token : ∀ a ∈ s.q.dequeueAttempts, a.token = some a.op ∧ a.op < s.nextOp
  nodup : (s.q.dequeueAttempts.map Attempt.op).Nodup

section Tracked

variable {cls : QueueClass Q α} {s s' : System Q α} {action : Action α}

theorem tracked_init (capacity : ℕ) (name : ByteString) (specifiedShapes : Bool) (empty : Q) :
    Tracked (init capacity name specifiedShapes empty : System Q α) where
  callbacks := rfl
  ops := rfl
  token _ ha := nomatch ha
  nodup := .nil

/-- Callbacks that are about to be run. -/
theorem Tracked.callbacks_append (h : Tracked s) (callbacks : List (Callback α)) :
    (s.ran : Multiset (Callback α)) + ↑(s.pending ++ callbacks) + s.cleanUp =
      ↑(s.completed ++ callbacks) := by
  simp only [← Multiset.coe_add, ← h.callbacks]
  abel

/-- An operation that completes at once. -/
theorem Tracked.finish (h : Tracked s) {c : Callback α} (hop : c.op = s.nextOp) :
    Tracked (s.newOp.finish c) where
  callbacks := h.callbacks_append _
  ops := by
    show _ = Multiset.range (s.nextOp + 1)
    rw [Multiset.range_succ, ← Multiset.singleton_add, ← h.ops, ← hop]
    simp only [System.ops, System.finish, System.newOp, map_append, map_cons, map_nil,
      ← Multiset.coe_add, Multiset.coe_singleton]
    abel
  token a ha := ⟨(h.token a ha).1, Nat.lt_succ_of_lt (h.token a ha).2⟩
  nodup := h.nodup

/-- An operation that leaves an enqueue attempt. -/
theorem Tracked.addEnqueue (h : Tracked s) {a : EnqueueAttempt α} (hop : a.op = s.nextOp)
    (hlive : ¬ a.isCancelled = true) : Tracked (s.newOp.addEnqueue a) where
  callbacks := h.callbacks
  ops := by
    show _ = Multiset.range (s.nextOp + 1)
    rw [Multiset.range_succ, ← Multiset.singleton_add, ← h.ops, ← hop]
    simp only [System.ops, System.addEnqueue, System.newOp, live_append, live_cons hlive, live_nil,
      map_append, map_cons, map_nil, ← Multiset.coe_add, Multiset.coe_singleton]
    abel
  token b hb := ⟨(h.token b hb).1, Nat.lt_succ_of_lt (h.token b hb).2⟩
  nodup := h.nodup

/-- An operation that leaves a dequeue attempt. -/
theorem Tracked.addDequeue (h : Tracked s) (kind : DequeueKind) (requested : ℤ) :
    Tracked (s.newOp.addDequeue (s.attempt kind requested)) where
  callbacks := h.callbacks
  ops := by
    show _ = Multiset.range (s.nextOp + 1)
    have hlive : live [s.attempt kind requested] = [s.attempt kind requested] := rfl
    rw [Multiset.range_succ, ← Multiset.singleton_add, ← h.ops]
    simp only [System.ops, System.addDequeue, System.newOp, live_append, hlive, map_append,
      ← Multiset.coe_add]
    show _ = ({s.nextOp} : Multiset ℕ) + _
    rw [add_comm ({s.nextOp} : Multiset ℕ)]
    exact (add_assoc _ _ _).symm
  token b hb := by
    obtain hb | hb := mem_append.1 hb
    · exact ⟨(h.token b hb).1, Nat.lt_succ_of_lt (h.token b hb).2⟩
    · rw [mem_singleton.1 hb]
      exact ⟨rfl, Nat.lt_succ_self _⟩
  nodup := by
    show ((s.q.dequeueAttempts ++ [s.attempt kind requested]).map Attempt.op).Nodup
    rw [map_append, nodup_append]
    refine ⟨h.nodup, nodup_singleton _, fun o ho o' ho' ↦ ?_⟩
    obtain ⟨b, hb, rfl⟩ := mem_map.1 ho
    rw [mem_singleton.1 ho']
    exact (h.token b hb).2.ne

/-- After `CloseAndCancel` no enqueue attempt is live. -/
theorem live_closeAndCancel (s : System Q α) : live s.closeAndCancel.q.enqueueAttempts = [] := by
  refine filter_eq_nil_iff.2 fun a ha ↦ ?_
  obtain ⟨b, -, rfl⟩ := mem_map.1 ha
  split
  next hb => simp [hb]
  · simp

theorem Tracked.closeAndCancel (h : Tracked s) : Tracked s.closeAndCancel where
  callbacks := h.callbacks_append _
  ops := by
    have hmap : s.cancelledCallbacks.map Callback.op =
        (live s.q.enqueueAttempts).map Attempt.op := map_map
    refine Eq.trans ?_ h.ops
    rw [System.ops, live_closeAndCancel, System.ops, ← hmap]
    show ((s.completed ++ s.cancelledCallbacks).map Callback.op : Multiset ℕ) + 0 + _ = _
    rw [map_append, ← Multiset.coe_add, add_zero]
    rfl
  token := h.token
  nodup := h.nodup

/-- `Cancel` of an enqueue that is pending. -/
theorem Tracked.cancelEnqueue (h : Tracked s) {before after : List (EnqueueAttempt α)}
    {a : EnqueueAttempt α} (hattempts : s.q.enqueueAttempts = before ++ a :: after)
    (hlive : ¬ a.isCancelled = true) (status : Status) :
    Tracked (({ s with q := { s.q with enqueueAttempts :=
      before ++ { a.setStatus status with isCancelled := true } :: after } } : System Q α).finish
        (enqueueCallback (a.setStatus status))) where
  callbacks := h.callbacks_append _
  ops := by
    refine Eq.trans ?_ h.ops
    simp only [System.ops, System.finish, hattempts, live_append, live_cons hlive,
      live_cons_of_cancelled, map_append, map_cons, map_nil, ← Multiset.coe_add,
      ← Multiset.cons_coe, ← Multiset.singleton_add, Multiset.coe_nil, enqueueCallback,
      Attempt.setStatus]
    abel
  token := h.token
  nodup := h.nodup

/-- `Cancel` of a dequeue that is pending. -/
theorem Tracked.cancelDequeue (h : Tracked s) {before after : List (DequeueAttempt α)}
    {a : DequeueAttempt α} (hattempts : s.q.dequeueAttempts = before ++ a :: after)
    (hlive : ¬ a.isCancelled = true) (status : Status) (history : List (QueueEvent α)) :
    Tracked (({ s with
      q := { s.q with dequeueAttempts :=
        before ++ { a.setStatus status with isCancelled := true } :: after }
      history } : System Q α).finish (a.setStatus status).doneCallback) where
  callbacks := h.callbacks_append _
  ops := by
    refine Eq.trans ?_ h.ops
    simp only [System.ops, System.finish, hattempts, live_append, live_cons hlive,
      live_cons_of_cancelled, map_append, map_cons, map_nil, ← Multiset.coe_add,
      ← Multiset.cons_coe, ← Multiset.singleton_add, Multiset.coe_nil, Attempt.doneCallback,
      Attempt.setStatus]
    abel
  token b hb := by
    have htoken := h.token
    rw [hattempts] at htoken
    obtain hb | hb := mem_append.1 hb
    · exact htoken b (mem_append_left _ hb)
    obtain rfl | hb := mem_cons.1 hb
    · exact htoken a (mem_append_right _ mem_cons_self)
    · exact htoken b (mem_append_right _ (mem_cons_of_mem _ hb))
  nodup := by
    have hnodup := h.nodup
    rw [hattempts, map_append, map_cons] at hnodup
    rwa [System.finish, map_append, map_cons]

section Flush

variable {f : Flush α}

variable (h : Tracked s) (hf : s.cleanUp = f.cleanUp)
include h hf

theorem Tracked.endPass (progress : Bool) : Tracked (s.endPass f progress) := by
  have hcallbacks := h.callbacks
  unfold System.endPass
  split
  · exact { h with callbacks := hf ▸ h.callbacks }
  · split
    · exact { h with callbacks := hf ▸ h.callbacks }
    · refine { h with callbacks := ?_ }
      show (s.ran : Multiset (Callback α)) + ↑(s.pending ++ f.cleanUp) + ↑([] : List (Callback α)) =
        s.completed
      rw [← hcallbacks, hf, ← Multiset.coe_add, Multiset.coe_nil]
      abel

/-- A callback goes to `clean_up`. -/
theorem Tracked.callbacks_complete (c : Callback α) :
    (s.ran : Multiset (Callback α)) + s.pending + ↑(f.cleanUp ++ [c]) = ↑(s.completed ++ [c]) := by
  simp only [← Multiset.coe_add, ← h.callbacks, hf]
  abel

/-- The enqueue attempt in front has run. -/
theorem Tracked.ranEnqueue {a : EnqueueAttempt α} {rest : List (EnqueueAttempt α)}
    (hattempts : s.q.enqueueAttempts = a :: rest) (hlive : ¬ a.isCancelled = true)
    {run : EnqueueRun Q α × Bool} (hsame : SameAttempt a run.1.attempt) :
    Tracked (s.ranEnqueue f rest run) := by
  have hops := h.ops
  simp only [System.ops, hattempts, live_cons hlive, map_cons] at hops
  have hwaits : Tracked ({ s with
      q := { s.q with
        queues := run.1.queues, closed := run.2, enqueueAttempts := run.1.attempt :: rest }
      history := s.history ++ run.1.events } : System Q α) := by
    refine ⟨h.callbacks, ?_, h.token, h.nodup⟩
    simpa only [System.ops, live_cons (hsame.isCancelled ▸ hlive), map_cons, hsame.op] using hops
  unfold System.ranEnqueue
  cases run.1.result with
  | noProgress => exact hwaits.endPass hf _
  | progress => exact hwaits.endPass hf _
  | complete =>
    refine ⟨h.callbacks_complete hf _, Eq.trans ?_ hops, h.token, h.nodup⟩
    simp only [System.ops, System.complete, map_append, map_cons, map_nil, enqueueCallback,
      hsame.op, ← Multiset.coe_add, ← Multiset.cons_coe, ← Multiset.singleton_add, Multiset.coe_nil]
    abel

/-- The dequeue attempt in front has run. -/
theorem Tracked.ranDequeue {a : DequeueAttempt α} {rest : List (DequeueAttempt α)}
    (hattempts : s.q.dequeueAttempts = a :: rest) (hlive : ¬ a.isCancelled = true)
    {r : DequeueRun Q α} (hsame : SameAttempt a r.attempt) : Tracked (s.ranDequeue f rest r) := by
  have hops := h.ops
  have htoken := h.token
  have hnodup := h.nodup
  simp only [System.ops, hattempts, live_cons hlive, map_cons] at hops
  rw [hattempts] at htoken hnodup
  have hrest := fun b hb ↦ htoken b (mem_cons_of_mem _ hb)
  have hwaits : Tracked ({ s with
      q := { s.q with queues := r.queues, dequeueAttempts := r.attempt :: rest }
      history := s.history ++ r.events } : System Q α) := by
    refine ⟨h.callbacks, ?_, forall_mem_cons.2 ⟨?_, hrest⟩, ?_⟩
    · simpa only [System.ops, live_cons (hsame.isCancelled ▸ hlive), map_cons, hsame.op] using hops
    · rw [hsame.token, hsame.op]
      exact htoken a mem_cons_self
    · rwa [map_cons, hsame.op]
  unfold System.ranDequeue
  cases r.result with
  | noProgress => exact hwaits.endPass hf _
  | progress => exact hwaits.endPass hf _
  | complete =>
    refine ⟨h.callbacks_complete hf _, Eq.trans ?_ hops, hrest, (nodup_cons.1 hnodup).2⟩
    simp only [System.ops, System.complete, map_append, map_cons, map_nil, Attempt.doneCallback,
      hsame.op, ← Multiset.coe_add, ← Multiset.cons_coe, ← Multiset.singleton_add, Multiset.coe_nil]
    abel

end Flush

/-- A thread runs a callback that it is about to run. -/
theorem Tracked.runCallback (h : Tracked s) {i : ℕ} {c : Callback α} (hc : s.pending[i]? = some c) :
    Tracked { s with pending := s.pending.eraseIdx i, ran := s.ran ++ [c] } := by
  refine { h with callbacks := ?_ }
  obtain ⟨hi, rfl⟩ := List.getElem?_eq_some_iff.1 hc
  have hperm : (s.pending : Multiset (Callback α)) = {s.pending[i]} + ↑(s.pending.eraseIdx i) :=
    Multiset.coe_eq_coe.2 (getElem_cons_eraseIdx_perm hi).symm
  show (↑(s.ran ++ [s.pending[i]]) + ↑(s.pending.eraseIdx i) + ↑s.cleanUp :
    Multiset (Callback α)) = ↑s.completed
  rw [← h.callbacks, hperm, ← Multiset.coe_add, Multiset.coe_singleton]
  abel

theorem cleanUp_of_flush {f : Flush α} (h : s.flush = some f) : s.cleanUp = f.cleanUp := by
  rw [cleanUp, h]
  rfl

/-- **No step loses an operation, or completes one twice.** -/
theorem tracked_step (hcls : KeepsAttempts cls) (h : Tracked s)
    (hstep : step cls s action = some s') : Tracked s' := by
  cases step_cases hcls.unspecifiedShapes hstep with
  | finishes _ c _ hop => exact h.finish hop
  | enqueues _ a hop hlive => exact h.addEnqueue hop (by rw [hlive]; exact Bool.false_ne_true)
  | dequeues _ kind requested => exact h.addDequeue kind requested
  | closes => exact (h.closeAndCancel).finish rfl
  | findsNone => exact h
  | cancelsEnqueue token before after a hattempts _ hlive => exact h.cancelEnqueue hattempts hlive _
  | cancelsDequeue token before after a hattempts _ hlive =>
    exact h.cancelDequeue hattempts hlive _ _
  | begins hnone =>
    have hcleanUp : s.cleanUp = [] := by rw [cleanUp, hnone]; rfl
    exact { h with callbacks := hcleanUp ▸ h.callbacks }
  | ends f hflush => exact h.endPass (cleanUp_of_flush hflush) _
  | popsEnqueue f a rest hflush hattempts hcancelled =>
    refine { h with ops := ?_ }
    rw [← h.ops, System.ops, System.ops, hattempts, live_cons_of_cancelled hcancelled]
  | popsDequeue f a rest hflush hpass hattempts hcancelled =>
    have htoken := h.token
    have hnodup := h.nodup
    rw [hattempts] at htoken hnodup
    refine ⟨h.callbacks, ?_, fun b hb ↦ htoken b (mem_cons_of_mem _ hb),
      (nodup_cons.1 hnodup).2⟩
    rw [← h.ops, System.ops, System.ops, hattempts, live_cons_of_cancelled hcancelled]
  | runsEnqueue f a rest hflush _ hattempts hlive =>
    exact h.ranEnqueue (cleanUp_of_flush hflush) hattempts hlive (runEnqueue_keeps cls s.q a)
  | runsDequeue f a rest r hflush _ hattempts hlive hrun =>
    exact h.ranDequeue (cleanUp_of_flush hflush) hattempts hlive (hcls.runDequeue hrun).1
  | runsCallback i c hc => exact h.runCallback hc

/-- No callback runs twice. -/
theorem Tracked.once (h : Tracked s) : (s.ran.map Callback.op).Nodup := by
  have hle : ((s.ran.map Callback.op : List ℕ) : Multiset ℕ) ≤ Multiset.range s.nextOp := by
    rw [← h.ops, System.ops, ← Multiset.map_coe Callback.op s.completed, ← h.callbacks]
    simp only [Multiset.map_add, Multiset.map_coe, add_assoc]
    exact Multiset.le_add_right _ _
  exact Multiset.coe_nodup.1 (Multiset.nodup_of_le hle (Multiset.nodup_range _))

/-- The operations that are completed, or pending, are different ones that have been called. -/
theorem Tracked.nodup_ops (h : Tracked s) :
    (s.completed.map Callback.op ++ (live s.q.enqueueAttempts).map Attempt.op ++
      (live s.q.dequeueAttempts).map Attempt.op).Nodup := by
  have hops := h.ops
  rw [System.ops] at hops
  rw [← Multiset.coe_nodup, ← Multiset.coe_add, ← Multiset.coe_add, hops]
  exact Multiset.nodup_range _

theorem Tracked.lt_nextOp (h : Tracked s) {op : ℕ} (hop : op ∈ s.ops) : op < s.nextOp :=
  Multiset.mem_range.1 (h.ops ▸ hop)

end Tracked

end System

end QueueBase

end TensorFlowCore
