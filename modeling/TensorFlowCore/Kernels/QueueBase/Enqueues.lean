import TensorFlowCore.Kernels.QueueBase.PutsIn

/-!
# What a step does to the enqueue attempts

`enqueueEffect_step` says how a step changes the enqueue attempts that are not cancelled, and what
it puts into the queue. From it follows what a `Close` leads to: it leaves an attempt of its own,
and a queue that is closed or has such an attempt stays so (`closing_step`), while a queue without
one stays open (`opened_step`).
-/

namespace TensorFlowCore

open List

namespace QueueBase

open QueueEvent

variable {Q α : Type}

namespace System

/-- The action cancels no enqueue attempts, and is not a pass with one in front that is not
cancelled. -/
def Idle (s : System Q α) (action : Action α) : Prop :=
  action ≠ .close true ∧ ∀ f a rest, action = .flush → s.flush = some f → f.pass = .enqueue →
    s.q.enqueueAttempts = a :: rest → a.isCancelled = true

/-- What a step does to the enqueue attempts that are not cancelled. -/
inductive EnqueueEffect (cls : QueueClass Q α) (s : System Q α) (action : Action α)
    (s' : System Q α) :
    Prop where
  | same (arriving_eq : s.arriving action = none) (closed : s'.q.closed = s.q.closed)
      (live_eq : live s'.q.enqueueAttempts = live s.q.enqueueAttempts) (enqueued : s'.enqueued =
      s.enqueued)
      (idle : Idle s action)
  | arrives (a : EnqueueAttempt α) (arriving_eq : s.arriving action = some a)
      (closed : s'.q.closed = s.q.closed)
      (live_eq : live s'.q.enqueueAttempts = live s.q.enqueueAttempts ++ [a])
      (enqueued : s'.enqueued = s.enqueued)
  | leaves (token : ℕ) (action_eq : action = .cancelEnqueue token)
      (before after : List (EnqueueAttempt α)) (a : EnqueueAttempt α)
      (token_eq : a.token = some token) (closed : s'.q.closed = s.q.closed)
      (live_eq : live s.q.enqueueAttempts = before ++ a :: after)
      (live_eq' : live s'.q.enqueueAttempts = before ++ after) (enqueued : s'.enqueued = s.enqueued)
  | allLeave (action_eq : action = .close true) (closed : s'.q.closed = true)
      (live_eq : live s'.q.enqueueAttempts = []) (enqueued : s'.enqueued = s.enqueued)
  | runs (a : EnqueueAttempt α) (rest : List (EnqueueAttempt α))
      (action_eq : action = .flush) (pass_eq : ∃ f, s.flush = some f ∧ f.pass = .enqueue)
      (head : ∃ rest', s.q.enqueueAttempts = a :: rest' ∧ ¬ a.isCancelled = true)
      (closed : s'.q.closed = (s.q.runEnqueue cls a).2)
      (live_eq : live s.q.enqueueAttempts = a :: rest)
      (live_eq' : live s'.q.enqueueAttempts = if (s.q.runEnqueue cls a).1.result =
      .complete then rest
        else live [(s.q.runEnqueue cls a).1.attempt] ++ rest)
      (enqueued : s'.enqueued = s.enqueued ++ (s.q.runEnqueue cls a).1.events.filterMap enqueued?)

variable {cls : QueueClass Q α} {s s' : System Q α} {action : Action α}

theorem idle_of_ne (hclose : action ≠ .close true) (hflush : action ≠ .flush) : Idle s action :=
  ⟨hclose, fun _ _ _ haction ↦ absurd haction hflush⟩

theorem enqueued_of_history (h : s'.history = s.history) : s'.enqueued = s.enqueued := by
  rw [enqueued, h, enqueued]

theorem enqueued_of_append {events : List (QueueEvent α)} (h : s'.history = s.history ++ events) :
    s'.enqueued = s.enqueued ++ events.filterMap enqueued? := by
  rw [enqueued, h, filterMap_append, enqueued]

/-- A flush that has no live enqueue attempt in front. -/
theorem idle_flush {f : Flush α} (hflush : s.flush = some f)
    (hidle : ∀ a rest, f.pass = .enqueue → s.q.enqueueAttempts = a :: rest → a.isCancelled = true) :
    Idle s .flush := by
  refine ⟨nofun, fun f' a rest _ hflush' hpass hattempts ↦ ?_⟩
  obtain rfl := Option.some.inj (hflush.symm.trans hflush')
  exact hidle a rest hpass hattempts

/-- **What one step does to the enqueue attempts** and to what has been put in. -/
theorem enqueueEffect_step (hcls : KeepsAttempts cls) (hstep : step cls s action = some s') :
    EnqueueEffect cls s action s' := by
  cases step_cases hcls.unspecifiedShapes hstep with
  | finishes _ c elements _ helements _ _ harriving hclose =>
    exact .same harriving rfl rfl rfl
      (idle_of_ne hclose fun h ↦ by rw [h] at helements; cases helements)
  | enqueues _ a _ hlive _ harriving =>
    refine .arrives a harriving rfl ?_ rfl
    show live (s.q.enqueueAttempts ++ [a]) = _
    rw [live_append, live_cons (hlive ▸ Bool.false_ne_true)]
    rfl
  | dequeues _ kind requested _ helements harriving hclose =>
    exact .same harriving rfl rfl rfl
      (idle_of_ne hclose fun h ↦ by rw [h] at helements; cases helements)
  | closes => exact .allLeave rfl rfl (live_closeAndCancel _) rfl
  | findsNone _ _ harriving hne => exact .same harriving rfl rfl rfl (idle_of_ne hne.1 hne.2)
  | cancelsEnqueue token before after a hattempts htoken hlive =>
    refine .leaves token rfl (live before) (live after) a htoken rfl ?_ ?_ rfl
    · rw [hattempts, live_append, live_cons hlive]
    · exact (live_append before _).trans (congrArg _ (live_cons_of_cancelled rfl after))
  | cancelsDequeue token before after a =>
    have henqueued := @enqueued_of_append _ _ s { s with
      history := s.history ++ (collected a).map .lost } _ rfl
    rw [enqueued_lost, append_nil] at henqueued
    exact .same rfl rfl rfl henqueued (idle_of_ne nofun nofun)
  | begins => exact .same rfl rfl rfl rfl (idle_of_ne nofun nofun)
  | ends f hflush hempty =>
    refine .same rfl (by simp) (by simp) (enqueued_of_history (by simp)) (idle_flush hflush ?_)
    intro a rest hpass hattempts
    rw [hempty hpass] at hattempts
    cases hattempts
  | popsEnqueue f a rest hflush hattempts hcancelled =>
    refine .same rfl rfl ?_ rfl (idle_flush hflush fun b rest' _ hattempts' ↦ ?_)
    · rw [hattempts, live_cons_of_cancelled hcancelled]
    · obtain ⟨rfl, -⟩ := cons.inj (hattempts.symm.trans hattempts')
      exact hcancelled
  | popsDequeue f a rest hflush hpass =>
    refine .same rfl rfl rfl rfl (idle_flush hflush fun b rest' henqueue ↦ ?_)
    rw [hpass] at henqueue
    cases henqueue
  | runsEnqueue f a rest hflush hpass hattempts hlive =>
    obtain ⟨hq, hhistory, -⟩ :=
      ranEnqueue_eq s f rest (s.q.runEnqueue cls a)
    refine .runs a (live rest) rfl ⟨f, hflush, hpass⟩ ⟨rest, hattempts, hlive⟩ (by rw [hq]) ?_ ?_
      (enqueued_of_append hhistory)
    · rw [hattempts, live_cons hlive]
    · rw [hq]
      exact live_left _ rest
  | runsDequeue f a rest r hflush hpass hattempts hlive hrun =>
    obtain ⟨hq, hhistory, -⟩ := ranDequeue_eq s f rest r
    refine .same rfl (by rw [hq]) (by rw [hq]) ?_ (idle_flush hflush fun b rest' henqueue ↦ ?_)
    · rw [enqueued_of_append hhistory, (hcls.runDequeue hrun).2, append_nil]
    · rw [hpass] at henqueue
      cases henqueue
  | runsCallback => exact .same rfl rfl rfl rfl (idle_of_ne nofun nofun)

end System

/-! ### Closing -/

/-- The queue is closed, or an attempt to close it waits for a flush. -/
def Closing (q : QueueBase Q α) : Prop :=
  q.closed = true ∨ ∃ a ∈ live q.enqueueAttempts, a.kind = .close

/-- The queue is open, and nobody is about to close it. -/
structure Opened (q : QueueBase Q α) : Prop where
  closed : q.closed = false
  attempts : ∀ a ∈ live q.enqueueAttempts, a.kind ≠ .close

theorem Opened.not_closing {q : QueueBase Q α} (h : Opened q) : ¬ Closing q := by
  rintro (hclosed | ⟨a, ha, hkind⟩)
  · exact Bool.false_ne_true (h.closed.symm.trans hclosed)
  · exact h.attempts a ha hkind

namespace System

variable {cls : QueueClass Q α} {s s' : System Q α} {action : Action α}

theorem closed_runEnqueue_of_close (q : QueueBase Q α) {a : EnqueueAttempt α}
    (h : a.kind = .close) : (q.runEnqueue cls a).2 = true := by
  unfold runEnqueue
  rw [h]
  dsimp only
  split <;> rfl

theorem closed_runEnqueue_of_ne (q : QueueBase Q α) {a : EnqueueAttempt α}
    (h : a.kind ≠ .close) : (q.runEnqueue cls a).2 = q.closed := by
  unfold runEnqueue
  split
  · rfl
  · rfl
  next hkind => exact absurd hkind h

/-- A queue that is closing stays so, unless the attempt itself is cancelled. -/
theorem closing_step (hcls : KeepsAttempts cls) (h : Closing s.q)
    (hcancel : ∀ token, action ≠ .cancelEnqueue token) (hstep : step cls s action = some s') :
    Closing s'.q := by
  have hkept (hclosed : s'.q.closed = s.q.closed)
      (hlive : ∀ a ∈ live s.q.enqueueAttempts, a ∈ live s'.q.enqueueAttempts) : Closing s'.q := by
    obtain h | ⟨a, ha, hkind⟩ := h
    · exact .inl (hclosed.trans h)
    · exact .inr ⟨a, hlive a ha, hkind⟩
  cases enqueueEffect_step hcls hstep with
  | same _ hclosed hlive => exact hkept hclosed fun a ha ↦ hlive ▸ ha
  | arrives a _ hclosed hlive => exact hkept hclosed fun b hb ↦ hlive ▸ mem_append_left _ hb
  | leaves token haction => exact absurd haction (hcancel token)
  | allLeave _ hclosed => exact .inl hclosed
  | runs a rest _ _ _ hclosed hlive hlive' =>
    obtain h | ⟨b, hb, hkind⟩ := h
    · exact .inl (hclosed.trans (closed_runEnqueue cls s.q a h))
    · rw [hlive] at hb
      obtain rfl | hb := mem_cons.1 hb
      · exact .inl (hclosed.trans (closed_runEnqueue_of_close s.q hkind))
      · refine .inr ⟨b, ?_, hkind⟩
        rw [hlive']
        split
        · exact hb
        · exact mem_append_right _ hb

/-- Once it is asked to, the queue is closing. -/
theorem closing_of_close (hcls : KeepsAttempts cls) {cancelPendingEnqueues : Bool}
    (hstep : step cls s (.close cancelPendingEnqueues) = some s') : Closing s'.q := by
  cases enqueueEffect_step hcls hstep with
  | allLeave _ hclosed => exact .inl hclosed
  | arrives a harriving _ hlive =>
    refine .inr ⟨a, hlive ▸ mem_append_right _ (mem_singleton.2 rfl), ?_⟩
    cases cancelPendingEnqueues with
    | true => cases harriving
    | false =>
      rw [← Option.some.inj harriving]
      rfl
  | same harriving _ _ _ hidle =>
    cases cancelPendingEnqueues with
    | true => exact absurd rfl hidle.1
    | false => cases harriving
  | leaves token haction => cases haction
  | runs a rest haction => cases haction

/-- An open queue stays open as long as nobody calls `Close`. -/
theorem opened_step (hcls : KeepsAttempts cls) (h : Opened s.q) (hclose : ∀ b, action ≠ .close b)
    (hstep : step cls s action = some s') : Opened s'.q := by
  cases enqueueEffect_step hcls hstep with
  | same _ hclosed hlive => exact ⟨hclosed.trans h.closed, hlive ▸ h.attempts⟩
  | arrives a harriving hclosed hlive =>
    refine ⟨hclosed.trans h.closed, hlive ▸ forall_mem_append.2 ⟨h.attempts, ?_⟩⟩
    refine forall_mem_singleton.2 fun hkind ↦ ?_
    unfold arriving at harriving
    split at harriving
    · rw [← Option.some.inj harriving] at hkind
      cases hkind
    · split at harriving
      · cases harriving
      · rw [← Option.some.inj harriving] at hkind
        cases hkind
    · exact hclose false rfl
    · cases harriving
  | leaves token _ before after a _ hclosed hlive hlive' =>
    refine ⟨hclosed.trans h.closed, fun b hb ↦ h.attempts b ?_⟩
    rw [hlive'] at hb
    rw [hlive]
    obtain hb | hb := mem_append.1 hb
    · exact mem_append_left _ hb
    · exact mem_append_right _ (mem_cons_of_mem a hb)
  | allLeave haction => exact absurd haction (hclose true)
  | runs a rest _ _ _ hclosed hlive hlive' =>
    have hattempts := h.attempts
    rw [hlive] at hattempts
    obtain ⟨ha, hrest⟩ := forall_mem_cons.1 hattempts
    refine ⟨(hclosed.trans (closed_runEnqueue_of_ne s.q ha)).trans h.closed, ?_⟩
    rw [hlive']
    split
    · exact hrest
    · refine forall_mem_append.2 ⟨fun b hb ↦ ?_, hrest⟩
      rw [mem_singleton.1 (mem_filter.1 hb).1, (runEnqueue_keeps cls s.q a).kind]
      exact ha

end System

end QueueBase

end TensorFlowCore
