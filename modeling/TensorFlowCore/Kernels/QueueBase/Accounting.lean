import Mathlib.Algebra.Order.Group.Multiset
import Mathlib.Tactic.Abel
import TensorFlowCore.Kernels.QueueBase.Steps

/-!
# Where the elements of a queue are

For a class of queues whose closures account for the elements that they move (`Accounts`), every
element that has come in is delivered, held by a dequeue attempt, in the queue or lost, once each
(`accounted_step`). What counts as coming in is open: all that is put into the queue, or all that is
taken out of it, with nothing then in the queue.
-/

namespace TensorFlowCore

open List

namespace QueueBase

open QueueEvent

variable {Q α : Type}

/-- A run of a dequeue attempt moves elements between the attempt and the queue, hands them over or
loses them. -/
structure DequeueAccounts (incoming : QueueEvent α → Option α) (contents : Q → Multiset α)
    (a : DequeueAttempt α) (queues : Q) (r : DequeueRun Q α) : Prop where
  isCancelled : r.attempt.isCancelled = a.isCancelled
  completes : r.result = .complete →
    (delivers r.attempt.doneCallback : Multiset α) + r.events.filterMap lost? + contents r.queues =
      collected a + contents queues + r.events.filterMap incoming
  waits : r.result ≠ .complete → Filling r.attempt ∧
    (collected r.attempt : Multiset α) + r.events.filterMap lost? + contents r.queues =
      collected a + contents queues + r.events.filterMap incoming

section DequeueAccounts

variable {incoming : QueueEvent α → Option α} {contents : Q → Multiset α} {a a' : DequeueAttempt α}
  {queues queues' : Q} {events : List (QueueEvent α)}

theorem DequeueAccounts.of_waits {result : RunResult} (h : Filling a)
    (hresult : result ≠ .complete) :
    DequeueAccounts incoming contents a queues ⟨result, queues, a, []⟩ where
  isCancelled := rfl
  completes hc := absurd hc hresult
  waits _ := ⟨h, add_right_comm _ _ _⟩

/-- The attempt hands its elements over. -/
theorem DequeueAccounts.of_hands {handed : List α} (hcancelled : a'.isCancelled = a.isCancelled)
    (hstatus : a'.status = .ok) (hhanded : a'.handed = some handed)
    (hlost : events.filterMap lost? = []) (h : (handed : Multiset α) + contents queues' =
      collected a + contents queues + events.filterMap incoming) :
    DequeueAccounts incoming contents a queues ⟨.complete, queues', a', events⟩ where
  isCancelled := hcancelled
  completes _ := by
    rw [delivers_doneCallback hstatus hhanded, hlost, ← h]
    exact congrArg (· + contents queues') (add_zero _)
  waits hc := absurd rfl hc

/-- The attempt fails, and what it does not put back is lost. -/
theorem DequeueAccounts.of_fails (hstatus : a'.status ≠ .ok)
    (hcancelled : a'.isCancelled = a.isCancelled)
    (h : (events.filterMap lost? : Multiset α) + contents queues' =
      collected a + contents queues + events.filterMap incoming) :
    DequeueAccounts incoming contents a queues ⟨.complete, queues', a', events⟩ where
  isCancelled := hcancelled
  completes _ := by
    rw [delivers_of_status (c := a'.doneCallback) hstatus, ← h]
    exact congrArg (· + contents queues') (zero_add _)
  waits hc := absurd rfl hc

end DequeueAccounts

section Moves

variable {incoming : QueueEvent α → Option α} {contents : Q → Multiset α}

/-- `DequeueLocked` of a class moves one element, and what is lost does not come in. -/
structure Moves (ops : QueueOps Q α) (incoming : QueueEvent α → Option α) (contents : Q →
    Multiset α) :
    Prop where
  lost : ∀ x, incoming (.lost x) = none
  dequeueLocked : ∀ {c c' : Q} {x : α}, ops.dequeueLocked c = some (x, c') →
    contents c + ([QueueEvent.dequeued x].filterMap incoming : List α) = {x} + contents c'

variable {ops : QueueOps Q α} {c c' : Q} {a : DequeueAttempt α} {r : DequeueRun Q α}
    {taken : List α}

theorem Moves.filterMap_lost (h : Moves ops incoming contents) (xs : List α) :
    (xs.map QueueEvent.lost).filterMap lost? = xs ∧ (xs.map QueueEvent.lost).filterMap incoming =
      [] := by
  rw [filterMap_map, filterMap_map]
  exact ⟨filterMap_some, filterMap_eq_nil_iff.2 fun x _ ↦ h.lost x⟩

theorem lost_dequeued (taken : List α) : (taken.map QueueEvent.dequeued).filterMap lost? = [] := by
  rw [filterMap_map]
  exact filterMap_eq_nil_iff.2 fun _ _ ↦ rfl

theorem Moves.takes (h : Moves ops incoming contents) (htakes : Takes ops c taken c') :
    contents c + ((taken.map QueueEvent.dequeued).filterMap incoming : List α) = taken +
      contents c' := by
  induction htakes with
  | nil => exact (add_zero _).trans (zero_add _).symm
  | @cons c c' c'' x xs first rest ih =>
    have hevents : ((x :: xs).map QueueEvent.dequeued).filterMap incoming =
        [QueueEvent.dequeued x].filterMap incoming ++ (xs.map QueueEvent.dequeued).filterMap
        incoming :=
      filterMap_append (l := [_])
    rw [hevents, ← Multiset.coe_add, ← add_assoc, h.dequeueLocked first, add_assoc, ih, ← add_assoc]
    rfl

/-- **The loop of a batch dequeue accounts for what it moves.** -/
theorem Moves.dequeueLoop (h : Moves ops incoming contents) (hfilling : Filling a)
    (hkind : a.kind ≠ .one) {queueSize : ℕ} {result : RunResult} (hresult : result ≠ .complete)
    (hr : QueueBase.dequeueLoop ops queueSize c a result = some r) :
    DequeueAccounts incoming contents a c r := by
  obtain ⟨taken, htakes, houtcome⟩ := dequeueLoop_cases hfilling hkind hr
  have hmoved := h.takes htakes
  have hcancelled := (dequeueLoop_keeps hr).1.isCancelled
  cases houtcome with
  | waits _ _ hresult' hfilling' hcollected _ hevents =>
    have hne : r.result ≠ .complete := by
      rw [hresult']
      split
      · exact hresult
      · exact RunResult.noConfusion
    refine ⟨hcancelled, fun hc ↦ absurd hc hne, fun _ ↦ ⟨hfilling', ?_⟩⟩
    rw [hevents, lost_dequeued, hcollected, ← Multiset.coe_add, add_assoc _ (contents c), hmoved,
      ← add_assoc]
    exact congrArg (· + contents r.queues) (add_zero _)
  | hands _ _ _ hcomplete hok hhanded hevents =>
    refine ⟨hcancelled, fun _ ↦ ?_, fun hne ↦ absurd hcomplete hne⟩
    rw [hevents, lost_dequeued, delivers_doneCallback hok hhanded, ← Multiset.coe_add,
      add_assoc _ (contents c), hmoved, ← add_assoc]
    exact congrArg (· + contents r.queues) (add_zero _)
  | fails taken last _ _ _ _ hcomplete hfailed _ hevents =>
    obtain ⟨hlost, hnone⟩ := h.filterMap_lost (collected a ++ (taken ++ [last]))
    refine ⟨hcancelled, fun _ ↦ ?_, fun hne ↦ absurd hcomplete hne⟩
    rw [hevents, filterMap_append, filterMap_append, lost_dequeued, hlost, hnone,
      delivers_of_failed hfailed, append_nil, nil_append, add_assoc _ (contents c), hmoved,
      ← Multiset.coe_add, Multiset.coe_nil, zero_add, add_assoc]

variable {cls : QueueClass Q α} {q : QueueBase Q α}

/-- The closure of `TryDequeue` accounts for what it moves. -/
theorem Moves.runDequeueOne (h : Moves cls.toQueueOps incoming contents) (hfilling : Filling a)
    (hkind : a.kind = .one) (hr : QueueBase.runDequeueOne cls.toQueueOps q a = some r) :
    DequeueAccounts incoming contents a q.queues r := by
  have hnone := collected_of_tuple (hfilling.one hkind)
  cases runDequeueOne_cases hr with
  | refuses _ _ _ hne => exact .of_fails hne rfl (by simp [hnone])
  | takes x c hfirst =>
    refine .of_hands rfl hfilling.status rfl ?_ ?_
    · exact lost_dequeued [x]
    · rw [hnone, Multiset.coe_nil, zero_add, h.dequeueLocked hfirst]
      rfl
  | waits => exact .of_waits hfilling RunResult.noConfusion

/-- The closures of a class that fills its batches over any number of runs account for what they
move, if putting elements back does. -/
theorem Moves.runDequeue {restore : List (Option α) → ℕ → Q → Status → Q × Status}
    (h : Moves cls.toQueueOps incoming contents)
    (hmany : cls.runDequeueMany = runDequeueMany cls.toQueueOps restore)
    (hempty : ∀ c, cls.size c = 0 → contents c = 0) (hrestored : (restored restore q a).2 = .ok ∧
      contents (restored restore q a).1 = collected a + contents q.queues) (hfilling : Filling a)
    (hr : q.runDequeue cls a = some r) : DequeueAccounts incoming contents a q.queues r := by
  obtain ⟨hok, hcontents⟩ := hrestored
  unfold QueueBase.runDequeue at hr
  split at hr
  next hkind => exact h.runDequeueOne hfilling hkind hr
  next allowSmallBatch hkind =>
    have hne : a.kind ≠ .one := kind_ne_one hkind
    rw [hmany] at hr
    cases runDequeueMany_cases cls restore hr with
    | small _ _ _ hpos hloop =>
      rw [hok] at hloop
      have hloops := h.dequeueLoop (hfilling.small hne hpos) hne RunResult.noConfusion hloop
      have hstart {a' : DequeueAttempt α} (htuple : a'.tuple = none) : (collected a' : Multiset α) +
          contents (restored restore q a).1 = collected a + contents q.queues := by
        rw [collected_of_tuple htuple, hcontents, Multiset.coe_nil, zero_add]
      refine ⟨hloops.isCancelled, fun hc ↦ ?_, fun hc ↦ ?_⟩
      · rw [hloops.completes hc, hstart rfl]
      · exact ⟨(hloops.waits hc).1, by rw [(hloops.waits hc).2, hstart rfl]⟩
    | yields _ _ hsize =>
      -- nothing has been put back: there is nothing in the queue, nor in the attempt
      have hnone := hempty _ hsize
      have hsame : { a with status := .ok } = a := by rw [← hfilling.status]
      refine ⟨rfl, nofun, fun _ ↦ ?_⟩
      rw [hok, hsame, hnone, ← hcontents, hnone]
      refine ⟨hfilling, ?_⟩
      have hcollected : (collected a : Multiset α) = 0 := by
        rw [← Multiset.le_zero, ← hnone, hcontents]
        exact Multiset.le_add_right _ _
      rw [hcollected]
      rfl
    | refuses _ _ _ hne' =>
      refine .of_fails hne' rfl ?_
      rw [hcontents]
      exact (zero_add _).trans (add_zero _).symm
    | loops _ hloop => exact h.dequeueLoop hfilling hne RunResult.noConfusion hloop

end Moves

/-- The closures of the class account for the elements that they move. -/
structure Accounts (cls : QueueClass Q α) (incoming : QueueEvent α → Option α) (contents : Q →
    Multiset α) :
    Prop where
  unspecifiedShapes : cls.unspecifiedShapes ≠ .ok
  lost : ∀ x, incoming (.lost x) = none
  enqueue : ∀ (q : QueueBase Q α) (a : EnqueueAttempt α),
    (q.runEnqueue cls a).1.events.filterMap lost? = [] ∧
      contents (q.runEnqueue cls a).1.queues =
        contents q.queues + (q.runEnqueue cls a).1.events.filterMap incoming
  dequeue : ∀ (q : QueueBase Q α) (a : DequeueAttempt α) (r : DequeueRun Q α),
    Filling a → q.runDequeue cls a = some r → DequeueAccounts incoming contents a q.queues r

namespace System

/-- The elements that have been lost. -/
def lost (s : System Q α) : List α := s.history.filterMap lost?

/-- Every element that has come in is in one place. -/
structure Accounted (incoming : QueueEvent α → Option α) (contents : Q →
    Multiset α) (s : System Q α) :
    Prop where
  filling : ∀ a ∈ live s.q.dequeueAttempts, Filling a
  elements : (s.delivered : Multiset α) + s.held + s.lost + contents s.q.queues =
    s.history.filterMap incoming

section Runs

variable {cls : QueueClass Q α} {incoming : QueueEvent α → Option α} {contents : Q → Multiset α}
  {s s' : System Q α} {action : Action α}

theorem Accounted.same (h : Accounted incoming contents s) (same : Same s s')
    (hlive : live s'.q.dequeueAttempts = live s.q.dequeueAttempts) :
    Accounted incoming contents s' where
  filling := hlive ▸ h.filling
  elements := by
    rw [held, lost, same.completed.delivered_eq, hlive, same.history, same.queues]
    exact h.elements

section

variable (h : Accounted incoming contents s)
include h

theorem Accounted.arrives (same : Same s s') {kind : DequeueKind} {requested : ℤ}
    (hpos : 0 < requested)
    (hlive : live s'.q.dequeueAttempts = live s.q.dequeueAttempts ++ [s.attempt kind requested]) :
    Accounted incoming contents s' where
  filling a ha := by
    rw [hlive] at ha
    obtain ha | ha := mem_append.1 ha
    · exact h.filling a ha
    · obtain rfl := mem_singleton.1 ha
      exact filling_attempt s kind hpos
  elements := by
    have hnone : collected (s.attempt kind requested) = [] := collected_of_tuple rfl
    rw [held, lost, same.completed.delivered_eq, hlive, same.history, same.queues, flatMap_append,
      flatMap_singleton, hnone, append_nil]
    exact h.elements

/-- What a cancelled attempt has collected is lost. -/
theorem Accounted.leaves (hincoming : ∀ x, incoming (.lost x) = none)
    {before after : List (DequeueAttempt α)} {a : DequeueAttempt α}
    (hqueues : s'.q.queues = s.q.queues)
    (hhistory : s'.history = s.history ++ (collected a).map .lost)
    (hcompleted : DeliversNothing s s') (hlive : live s.q.dequeueAttempts = before ++ a :: after)
    (hlive' : live s'.q.dequeueAttempts = before ++ after) : Accounted incoming contents s' where
  filling b hb := by
    refine h.filling b ?_
    rw [hlive'] at hb
    rw [hlive]
    obtain hb | hb := mem_append.1 hb
    · exact mem_append_left _ hb
    · exact mem_append_right _ (mem_cons_of_mem a hb)
  elements := by
    have helements := h.elements
    rw [held, hlive, flatMap_append, flatMap_cons] at helements
    have hlost : ((collected a).map QueueEvent.lost).filterMap lost? = collected a := by
      rw [filterMap_map]
      exact filterMap_some
    have hnone : ((collected a).map QueueEvent.lost).filterMap incoming = [] := by
      rw [filterMap_map]
      exact filterMap_eq_nil_iff.2 fun x _ ↦ hincoming x
    rw [held, lost, hcompleted.delivered_eq, hlive', hhistory, hqueues, filterMap_append,
      filterMap_append, hlost, hnone, append_nil, ← helements, flatMap_append, lost]
    simp only [← Multiset.coe_add]
    abel

theorem Accounted.enqueues (hcls : Accounts cls incoming contents) {a : EnqueueAttempt α}
    (hqueues : s'.q.queues = (s.q.runEnqueue cls a).1.queues)
    (hhistory : s'.history = s.history ++ (s.q.runEnqueue cls a).1.events)
    (hcompleted : DeliversNothing s s')
    (hlive : live s'.q.dequeueAttempts = live s.q.dequeueAttempts) :
    Accounted incoming contents s' where
  filling := hlive ▸ h.filling
  elements := by
    obtain ⟨hlost, hcontents⟩ := hcls.enqueue s.q a
    rw [held, lost, hcompleted.delivered_eq, hlive, hhistory, hqueues, filterMap_append,
      filterMap_append, hlost, hcontents, append_nil, ← Multiset.coe_add, ← add_assoc]
    exact congrArg (· + _) h.elements

/-- What a dequeue attempt takes is delivered, held by it, lost with it or put back. -/
theorem Accounted.dequeues {a : DequeueAttempt α} {rest : List (DequeueAttempt α)}
    {r : DequeueRun Q α} (hattempts : s.q.dequeueAttempts = a :: rest)
    (hcancelled : ¬ a.isCancelled = true) (hr : DequeueAccounts incoming contents a s.q.queues r)
    (hqueues : s'.q.queues = r.queues) (hhistory : s'.history = s.history ++ r.events)
    (hlive' : live s'.q.dequeueAttempts = if r.result = .complete then live rest
      else live [r.attempt] ++ live rest) (hcompleted : s'.completed = s.completed ++
      if r.result = .complete then [r.attempt.doneCallback] else []) :
    Accounted incoming contents s' := by
  have hlive : live s.q.dequeueAttempts = a :: live rest := by rw [hattempts, live_cons hcancelled]
  have hfilling := h.filling
  have helements := h.elements
  rw [held, hlive, flatMap_cons, ← Multiset.coe_add] at helements
  rw [hlive] at hfilling
  have hrest : ∀ b ∈ live rest, Filling b := fun b hb ↦ hfilling b (mem_cons_of_mem a hb)
  by_cases hresult : r.result = .complete
  · rw [if_pos hresult] at hlive' hcompleted
    have hdelivered : s'.delivered = s.delivered ++ delivers r.attempt.doneCallback := by
      rw [delivered, hcompleted, delivered_append, flatMap_singleton]
    refine ⟨hlive' ▸ hrest, ?_⟩
    rw [held, lost, hdelivered, hlive', hhistory, hqueues, filterMap_append, filterMap_append,
      ← Multiset.coe_add _ (r.events.filterMap incoming), ← helements]
    calc ((s.delivered ++ delivers r.attempt.doneCallback : List α) : Multiset α) +
          (live rest).flatMap collected +
          (s.history.filterMap lost? ++ r.events.filterMap lost? : List α) +
          contents r.queues
        = s.delivered + (live rest).flatMap collected + s.lost +
          (delivers r.attempt.doneCallback + r.events.filterMap lost? + contents r.queues) := by
          rw [← Multiset.coe_add, ← Multiset.coe_add, lost]
          abel
      _ = s.delivered + (collected a + (live rest).flatMap collected) + s.lost +
        contents s.q.queues +
          r.events.filterMap incoming := by
          rw [hr.completes hresult]
          abel
  · rw [if_neg hresult] at hlive' hcompleted
    have hdelivered : s'.delivered = s.delivered := by
      rw [delivered, hcompleted, append_nil, delivered]
    obtain ⟨hfill, hmoved⟩ := hr.waits hresult
    rw [live_cons (hr.isCancelled ▸ hcancelled), live_nil, singleton_append] at hlive'
    refine ⟨hlive' ▸ forall_mem_cons.2 ⟨hfill, hrest⟩, ?_⟩
    rw [held, lost, hdelivered, hlive', hhistory, hqueues, filterMap_append, filterMap_append,
      ← Multiset.coe_add _ (r.events.filterMap incoming), ← helements, flatMap_cons]
    calc (s.delivered : Multiset α) +
      (collected r.attempt ++ (live rest).flatMap collected : List α) +
          (s.history.filterMap lost? ++ r.events.filterMap lost? : List α) + contents r.queues
        = s.delivered + (live rest).flatMap collected + s.lost +
          (collected r.attempt + r.events.filterMap lost? + contents r.queues) := by
          rw [← Multiset.coe_add, ← Multiset.coe_add, lost]
          abel
      _ = s.delivered + (collected a + (live rest).flatMap collected) + s.lost +
        contents s.q.queues +
          r.events.filterMap incoming := by
          rw [hmoved]
          abel

end

theorem accounted_step (hcls : Accounts cls incoming contents) (h : Accounted incoming contents s)
    (hstep : step cls s action = some s') : Accounted incoming contents s' := by
  cases step_effect hcls.unspecifiedShapes hstep with
  | quiet same hlive => exact h.same same hlive
  | arrives kind requested hpos same hlive => exact h.arrives same hpos hlive
  | leaves token _ before after a _ hqueues _ hhistory hcompleted hlive hlive' =>
    exact h.leaves hcls.lost hqueues hhistory hcompleted hlive hlive'
  | enqueues _ a _ _ _ _ _ _ hqueues hhistory _ hcompleted hlive =>
    exact h.enqueues hcls hqueues hhistory hcompleted hlive
  | dequeues _ a rest r _ _ _ hattempts hcancelled hrun hqueues hhistory _ hlive' hcompleted =>
    have ha : a ∈ live s.q.dequeueAttempts := by
      rw [hattempts, live_cons hcancelled]
      exact mem_cons_self
    exact h.dequeues hattempts hcancelled (hcls.dequeue s.q a r (h.filling a ha) hrun) hqueues
      hhistory hlive'
      hcompleted

theorem accounted_init {capacity : ℕ} {name : ByteString} {specifiedShapes : Bool} {empty : Q}
    (hempty : contents empty = 0) :
    Accounted incoming contents (init capacity name specifiedShapes empty) where
  filling _ ha := by cases ha
  elements := by
    show (0 : Multiset α) + 0 + 0 + contents empty = 0
    rw [hempty]
    rfl

end Runs

end System

end QueueBase

end TensorFlowCore
