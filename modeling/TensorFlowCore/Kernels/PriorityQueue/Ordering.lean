import Mathlib.Data.Fin.VecNotation
import TensorFlowCore.Kernels.PriorityQueue.Heaps
import TensorFlowCore.Kernels.QueueBase.PutsIn

/-!
# The priority queue keeps tuples whole and in order

A batch is taken in one run, while nothing is put in, so that it comes out sorted
(`dequeueLoop_spec`). An attempt that has taken something out without completing its batch finds the
queue closed and empty, and fails when it runs again (`Doomed`).
-/

namespace TensorFlowCore

open GuardedRun List QueueBase QueueEvent

namespace PriorityQueue

variable {n : ℕ} [NeZero n] {β : Type} {H : PriorityHeap ℤ} {scalar : β → Except ByteString ℤ}
  {allocate : Allocations n} {c c' : PriorityQueue n β} {v : List (ℤ × (Fin n → β))}

section Dequeue

variable {q : QueueBase (PriorityQueue n β) (Fin n → β)} {a : DequeueAttempt (Fin n → β)}
  {r : DequeueRun (PriorityQueue n β) (Fin n → β)} {tuple : Fin n → β} {taken : List (Fin n → β)}

/-! ### What dequeues move -/

omit [NeZero n] in
theorem componentDtypes_dequeueLocked (h : c.dequeueLocked H = some (tuple, c')) :
    c'.componentDtypes = c.componentDtypes := by
  unfold PriorityQueue.dequeueLocked at h
  split at h
  · obtain ⟨-, hc'⟩ := Prod.mk.inj (Option.some.inj h)
    rw [← hc']
  · cases h

theorem size_dequeueLocked (h : c.dequeueLocked H = some (tuple, c')) : c.size = c'.size + 1 := by
  unfold PriorityQueue.dequeueLocked at h
  split at h
  next hall =>
    obtain ⟨-, hc'⟩ := Prod.mk.inj (Option.some.inj h)
    have hpop : H.pop (c.queues 0) = some ((H.pop (c.queues 0)).get (hall 0)) :=
      (Option.some_get _).symm
    rw [size, size, (H.pop_perm hpop).length_eq, ← hc']
    rfl
  · cases h

theorem takes_spec (h : Takes (queueOps H scalar allocate) c taken c') :
    c'.componentDtypes = c.componentDtypes ∧ c.size = taken.length + c'.size := by
  induction h with
  | nil => exact ⟨rfl, (Nat.zero_add _).symm⟩
  | cons first _ ih =>
    refine ⟨ih.1.trans (componentDtypes_dequeueLocked first), ?_⟩
    rw [size_dequeueLocked first, ih.2, length_cons]
    omega

/-- What the closure of `TryDequeueMany` does. -/
inductive ManyCases (H : PriorityHeap ℤ) (scalar : β →
    Except ByteString ℤ) (allocate : Allocations n)
    (q : QueueBase (PriorityQueue n β) (Fin n → β)) (a : DequeueAttempt (Fin n → β))
    (allowSmallBatch : Bool) : DequeueRun (PriorityQueue n β) (Fin n → β) → Prop
  | refuses (status : Status) (ne_ok : (a.setStatus status).status ≠ .ok) :
      ManyCases H scalar allocate q a allowSmallBatch
        ⟨.complete, q.queues, a.setStatus status, (collected a).map .lost⟩
  | waits (opened : ¬ q.closed = true) :
      ManyCases H scalar allocate q a allowSmallBatch ⟨.noProgress, q.queues, a, []⟩
  | loops (r : DequeueRun (PriorityQueue n β) (Fin n → β)) (pos : q.closed = true →
      0 < q.queues.size)
      (few : (q.queues.size : ℤ) < a.elementsRequested →
        0 < q.queues.size ∧ q.closed = true ∧ allowSmallBatch = true)
      (loop : dequeueLoop (queueOps H scalar allocate) q.queues.size q.queues a .noProgress =
        some r) :
      ManyCases H scalar allocate q a allowSmallBatch r

theorem runDequeueMany_cases {allowSmallBatch : Bool}
    (hr : runDequeueMany H scalar allocate q a allowSmallBatch = some r) :
    ManyCases H scalar allocate q a allowSmallBatch r := by
  unfold runDequeueMany at hr
  dsimp only at hr
  split at hr
  · cases hr
    exact .refuses _ (setStatus_ne_ok a (insufficient_ne_ok _ _ _ _))
  next hopen =>
    split at hr
    next hfew =>
      cases hr
      refine .waits fun hclosed ↦ ?_
      obtain hzero | hstrict := hfew.2
      · exact hopen ⟨hclosed, .inl hzero⟩
      · exact hopen ⟨hclosed, .inr ⟨fun hsmall ↦ hstrict ⟨hclosed, hsmall⟩, hfew.1⟩⟩
    next hgo =>
      refine .loops r (fun hclosed ↦ Nat.pos_of_ne_zero fun hzero ↦ hopen ⟨hclosed, .inl hzero⟩)
        (fun hfew ↦ ⟨Nat.pos_of_ne_zero fun hzero ↦ hgo ⟨hfew, .inl hzero⟩, ?_⟩) hr
      by_contra hstrict
      exact hgo ⟨hfew, .inr hstrict⟩

theorem keepsAttempts (H : PriorityHeap ℤ) (scalar : β → Except ByteString ℤ)
    (allocate : Allocations n) :
    KeepsAttempts (queueClass H scalar allocate) where
  unspecifiedShapes := Status.noConfusion
  dequeueMany {q a b r} hr := by
    cases runDequeueMany_cases hr with
    | refuses => exact ⟨sameAttempt_setStatus a _, enqueued_lost _⟩
    | waits => exact ⟨⟨rfl, rfl, rfl, rfl⟩, rfl⟩
    | loops _ _ _ hloop => exact dequeueLoop_keeps hloop

theorem moves (H : PriorityHeap ℤ) (scalar : β → Except ByteString ℤ) (allocate : Allocations n) :
    Moves (queueClass H scalar allocate).toQueueOps dequeued? fun _ ↦ 0 where
  lost _ := rfl
  dequeueLocked _ := add_comm _ _

/-- What an attempt holds and hands over is what it has taken out. -/
theorem takesOut (h : Filling a) (hr : q.runDequeue (queueClass H scalar allocate) a = some r) :
    DequeueAccounts dequeued? (fun _ ↦ 0) a q.queues r := by
  have hmoves := moves H scalar allocate
  unfold QueueBase.runDequeue at hr
  split at hr
  next hkind => exact hmoves.runDequeueOne h hkind hr
  next allowSmallBatch hkind =>
    have hmany : a.kind ≠ .one := kind_ne_one hkind
    cases runDequeueMany_cases hr with
    | refuses status hne =>
      refine .of_fails hne rfl ?_
      obtain ⟨hlost, hdequeued⟩ := hmoves.filterMap_lost (collected a)
      rw [hlost, hdequeued]
      exact (add_zero _).symm
    | waits => exact .of_waits h RunResult.noConfusion
    | loops _ _ _ hloop => exact hmoves.dequeueLoop h hmany RunResult.noConfusion hloop

/-- The closures account for what they take out. -/
theorem accounts (H : PriorityHeap ℤ) (scalar : β → Except ByteString ℤ)
    (allocate : Allocations n) :
    Accounts (queueClass H scalar allocate) dequeued? (fun _ ↦ 0) where
  unspecifiedShapes := Status.noConfusion
  lost _ := rfl
  enqueue q a := by
    have h := enqueueSpec H scalar allocate q a
    exact ⟨h.lost, by rw [h.dequeued]; rfl⟩
  dequeue _ _ _ h hr := takesOut h hr

/-! ### Batches -/

section Batches

variable {events : List (QueueEvent (Fin n → β))}

/-- The elements that are taken are sorted, and come before those that are left. -/
theorem Heaped.takes (h : Heaped H scalar c v)
    (htakes : Takes (queueOps H scalar allocate) c taken c')
    (hreplays : Replays scalar events (payloads v)) :
    ∃ v', Heaped H scalar c' v' ∧ payloads v = taken + payloads v' ∧
      Replays scalar (events ++ taken.map .dequeued) (payloads v') ∧
      taken.Pairwise (Before scalar) := by
  induction htakes generalizing v events with
  | nil =>
    exact ⟨v, h, (zero_add _).symm, by rwa [map_nil, append_nil], Pairwise.nil⟩
  | @cons c₁ c₂ c₃ x xs first rest ih =>
    obtain ⟨y, v₁, hpop, rfl, hv₁⟩ := h.dequeueLocked first
    have hpayloads : payloads v = y.2 ::ₘ payloads v₁ :=
      Multiset.coe_eq_coe.2 ((H.pop_perm hpop).map Prod.snd)
    have hleast : ∀ z ∈ payloads v₁, Before scalar y.2 z := fun z hz ↦ by
      obtain ⟨w, hw, rfl⟩ := mem_map.1 (Multiset.mem_coe.1 hz)
      exact h.before hpop w hw
    obtain ⟨v', hv', hleft, hrest, hsorted⟩ := ih hv₁ (.dequeued y.2 (hpayloads ▸ hreplays) hleast)
    refine ⟨v', hv', ?_, ?_, pairwise_cons.2 ⟨fun z hz ↦ hleast z ?_, hsorted⟩⟩
    · rw [hpayloads, hleft, ← Multiset.cons_coe, Multiset.cons_add]
    · rwa [append_assoc] at hrest
    · rw [hleft]
      exact Multiset.mem_add.2 (.inl (Multiset.mem_coe.2 hz))

/-- What a dequeue does to aligned heaps. -/
structure DequeueSpec (H : PriorityHeap ℤ) (scalar : β → Except ByteString ℤ)
    (events : List (QueueEvent (Fin n → β))) (c : PriorityQueue n β)
    (r : DequeueRun (PriorityQueue n β) (Fin n → β)) : Prop where
  traced : Traced H scalar (events ++ r.events) r.queues
  componentDtypes : r.queues.componentDtypes = c.componentDtypes
  sorted : r.result = .complete → r.attempt.status = .ok →
    ∀ xs, r.attempt.handed = some xs → xs.Pairwise (Before scalar)

theorem DequeueSpec.of_same {result : RunResult} {a' : DequeueAttempt (Fin n → β)}
    (h : Traced H scalar events c) (hhanded : a'.handed = none) (lost : List (Fin n → β)) :
    DequeueSpec H scalar events c ⟨result, c, a', lost.map .lost⟩ where
  traced := by
    obtain ⟨v, hv, hreplays⟩ := h
    exact ⟨v, hv, hreplays.losts lost⟩
  componentDtypes := rfl
  sorted _ _ xs hxs := by
    rw [hhanded] at hxs
    cases hxs

/-- The loop of a batch dequeue hands over a sorted batch. It goes on until the batch is complete or
the queue is empty. -/
theorem dequeueLoop_spec (h : Filling a) (hkind : a.kind ≠ .one) (hnone : collected a = [])
    (htraced : Traced H scalar events c)
    (hr : dequeueLoop (queueOps H scalar allocate) c.size c a .noProgress = some r) :
    DequeueSpec H scalar events c r ∧
      (r.result ≠ .complete → r.queues.size = 0 ∧ (c.size : ℤ) < a.elementsRequested) := by
  obtain ⟨v, hv, hreplays⟩ := htraced
  obtain ⟨taken, htakes, houtcome⟩ := dequeueLoop_cases h hkind hr
  obtain ⟨hdtypes, hsize⟩ := takes_spec htakes
  obtain ⟨v', hv', -, hreplays', hsorted⟩ := hv.takes htakes hreplays
  cases houtcome with
  | waits _ hlength hresult hfilling _ hleft hevents =>
    refine ⟨⟨⟨v', hv', hevents ▸ hreplays'⟩, hdtypes, fun hc ↦ ?_⟩, fun _ ↦ ⟨by omega, ?_⟩⟩
    · rw [hresult] at hc
      split at hc <;> cases hc
    · have hpos := hfilling.requested
      omega
  | hands _ _ _ hcomplete _ hhanded hevents =>
    refine ⟨⟨⟨v', hv', hevents ▸ hreplays'⟩, hdtypes, fun _ _ xs hxs ↦ ?_⟩,
      fun hne ↦ absurd hcomplete hne⟩
    rw [hhanded, hnone] at hxs
    rwa [← Option.some.inj hxs]
  | fails taken last front _ _ _ hcomplete hfailed _ hevents =>
    refine ⟨⟨⟨v', hv', ?_⟩, hdtypes, fun _ hok ↦ absurd hok hfailed⟩,
      fun hne ↦ absurd hcomplete hne⟩
    have hlosts := hreplays'.losts (collected a ++ (taken ++ [last]))
    rwa [append_assoc, ← hevents] at hlosts

/-- An attempt that holds something is one that a closed and empty queue fails. -/
def Doomed (q : QueueBase (PriorityQueue n β) (Fin n → β)) : Prop :=
  q.closed = true ∧ q.queues.size = 0

/-- A dequeue pops in priority order, and hands on a sorted batch. -/
theorem dequeueSpec (h : Filling a) (htraced : Traced H scalar events q.queues)
    (hholds : collected a = [] ∨ Doomed q)
    (hr : q.runDequeue (queueClass H scalar allocate) a = some r) :
    DequeueSpec H scalar events q.queues r ∧
      (r.result ≠ .complete → collected r.attempt = [] ∨ q.closed = true ∧ r.queues.size = 0) := by
  unfold QueueBase.runDequeue at hr
  split at hr
  next hkind =>
    cases runDequeueOne_cases hr with
    | refuses => exact ⟨.of_same htraced (by exact h.handed) [], fun hne ↦ absurd rfl hne⟩
    | takes x c hfirst =>
      obtain ⟨v, hv, hreplays⟩ := htraced
      obtain ⟨v', hv', -, hreplays', hsorted⟩ :=
        hv.takes (show Takes (queueOps H scalar allocate) _ _ _ from .cons hfirst (.nil c)) hreplays
      refine ⟨⟨⟨v', hv', hreplays'⟩, componentDtypes_dequeueLocked hfirst, fun _ _ xs hxs ↦ ?_⟩,
        fun hne ↦ absurd rfl hne⟩
      rwa [← Option.some.inj hxs]
    | waits => exact ⟨.of_same htraced h.handed [], fun _ ↦ .inl (collected_of_tuple (h.one hkind))⟩
  next allowSmallBatch hkind =>
    have hmany : a.kind ≠ .one := kind_ne_one hkind
    cases runDequeueMany_cases hr with
    | refuses => exact ⟨.of_same htraced (by exact h.handed) _, fun hne ↦ absurd rfl hne⟩
    | waits hopen =>
      exact ⟨.of_same htraced h.handed [], fun _ ↦ .inl (hholds.resolve_right fun hd ↦ hopen hd.1)⟩
    | loops _ hpos hfew hloop =>
      -- a doomed attempt has failed
      have hnone : collected a = [] := hholds.resolve_right fun hdoomed ↦
        absurd hdoomed.2 (hpos hdoomed.1).ne'
      obtain ⟨hspec, hempty⟩ := dequeueLoop_spec h hmany hnone htraced hloop
      exact ⟨hspec, fun hne ↦ .inr ⟨(hfew (hempty hne).2).2.1, (hempty hne).1⟩⟩

end Batches

/-- A dequeue from an empty queue leaves it alone. -/
theorem queues_of_empty (h : Filling a) (hempty : q.queues.size = 0)
    (hr : q.runDequeue (queueClass H scalar allocate) a = some r) : r.queues = q.queues := by
  have hrequested := h.requested
  unfold QueueBase.runDequeue at hr
  split at hr
  · cases runDequeueOne_cases hr with
    | refuses => rfl
    | takes x c hfirst =>
      have := size_dequeueLocked hfirst
      omega
    | waits => rfl
  · cases runDequeueMany_cases hr with
    | refuses => rfl
    | waits => rfl
    | loops _ _ hfew =>
      have := (hfew (by omega)).1
      omega

/-- The dequeues from aligned heaps are defined. -/
theorem isSome_runDequeue (allocate : Allocations n) (hv : Heaped H scalar q.queues v)
    (a : DequeueAttempt (Fin n → β)) : (q.runDequeue (queueClass H scalar allocate) a).isSome := by
  have hstep {k : ℕ} {c : PriorityQueue n β} (h : ∃ v, Heaped H scalar c v ∧ k + 1 ≤ c.size) :
      ∃ x c', c.dequeueLocked H = some (x, c') ∧ ∃ v, Heaped H scalar c' v ∧ k ≤ c'.size := by
    obtain ⟨v, hv, hk⟩ := h
    obtain ⟨⟨x, c'⟩, hfirst⟩ := Option.isSome_iff_exists.1
      (hv.isSome_dequeueLocked fun hnil ↦ by
        rw [hv.size_eq, hnil] at hk; exact Nat.not_succ_le_zero k hk)
    obtain ⟨_, v', _, _, hv'⟩ := hv.dequeueLocked hfirst
    have := size_dequeueLocked hfirst
    exact ⟨x, c', hfirst, v', hv', by omega⟩
  unfold QueueBase.runDequeue
  split
  · unfold runDequeueOne
    dsimp only
    split
    · rfl
    · split
      next hpos =>
        rw [Option.isSome_map]
        have hsome : 0 < q.queues.size := by
          change 0 < available (queueOps H scalar allocate) q q.queues.size at hpos
          unfold available at hpos
          split at hpos
          · exact Int.natCast_pos.1 hpos
          · change 0 < (q.queues.size : ℤ) - (0 : ℕ) at hpos
            omega
        obtain ⟨x, c', hfirst, -⟩ := hstep (k := 0) ⟨v, hv, hsome⟩
        exact Option.isSome_iff_exists.2 ⟨_, hfirst⟩
      next => rfl
  · show (runDequeueMany H scalar allocate q a _).isSome
    unfold runDequeueMany
    dsimp only
    split
    · rfl
    · split
      · rfl
      · exact isSome_dequeueLoop (I := fun k c ↦ ∃ v, Heaped H scalar c v ∧ k ≤ c.size)
          (fun _ _ _ ↦ rfl) hstep ⟨v, hv, le_rfl⟩ a _

/-- The loop of a batch dequeue goes on until it completes, or has taken what it may. -/
theorem result_dequeueLoop {s : ℕ} {result : RunResult}
    (hr : dequeueLoop (queueOps H scalar allocate) s c a result = some r) :
    r.result = .complete ∨
      r.result = (if s = 0 then result else .progress) ∧ r.queues.size + s = c.size := by
  induction s generalizing c a result r with
  | zero =>
    cases hr
    exact .inr ⟨rfl, rfl⟩
  | succ s ih =>
    unfold dequeueLoop at hr
    split at hr
    · cases hr
    next tuple c' hdequeue =>
      have hsize := size_dequeueLocked hdequeue
      split at hr
      · cases hr
      · split at hr
        · cases hr
          exact .inl rfl
        · dsimp only at hr
          split at hr
          · cases hr
            exact .inl rfl
          · obtain ⟨r', hr', rfl⟩ := Option.map_eq_some_iff.1 hr
            obtain hcomplete | ⟨hresult, hs⟩ := ih hr'
            · exact .inl hcomplete
            · refine .inr ⟨?_, ?_⟩
              · rw [if_neg (Nat.succ_ne_zero s)]
                exact hresult.trans (ite_self _)
              · show r'.queues.size + (s + 1) = c.size
                omega

/-- A closed queue answers every dequeue: its run completes, or takes the last element, after which
the next run completes. -/
theorem result_of_closed (hclosed : q.closed = true)
    (hr : q.runDequeue (queueClass H scalar allocate) a = some r) :
    r.result = .complete ∨ r.result = .progress ∧ 0 < q.queues.size ∧ r.queues.size = 0 := by
  unfold QueueBase.runDequeue at hr
  split at hr
  · unfold runDequeueOne at hr
    dsimp only at hr
    split at hr
    · cases hr
      exact .inl rfl
    next hsome =>
      have hpos : (0 : ℤ) < ((queueClass H scalar allocate).size q.queues : ℕ) :=
        Int.natCast_pos.2 (Nat.pos_of_ne_zero fun hzero ↦ hsome ⟨hclosed, hzero⟩)
      rw [available, if_pos hclosed, if_pos hpos] at hr
      obtain ⟨⟨tuple, c⟩, -, rfl⟩ := Option.map_eq_some_iff.1 hr
      exact .inl rfl
  · cases runDequeueMany_cases hr with
    | refuses => exact .inl rfl
    | waits hopen => exact absurd hclosed hopen
    | loops _ hpos _ hloop =>
      obtain hcomplete | ⟨hresult, hsize⟩ := result_dequeueLoop hloop
      · exact .inl hcomplete
      · rw [if_neg (hpos hclosed).ne'] at hresult
        exact .inr ⟨hresult, hpos hclosed, by omega⟩

/-- An enqueue leaves a closed queue alone. -/
theorem queues_of_closed (hclosed : q.closed = true) (a : EnqueueAttempt (Fin n → β)) :
    (q.runEnqueue (queueClass H scalar allocate) a).1.queues = q.queues := by
  unfold QueueBase.runEnqueue
  split
  · dsimp only
    rw [runEnqueueOne, if_pos hclosed]
  · dsimp only
    rw [runEnqueueMany, if_pos hclosed]
  · split <;> rfl

end Dequeue

/-! ### Runs -/

section Runs

open QueueBase.System

variable {s s' : System n β} {componentDtypes : Fin n → DataType}

/-- The flush that the action continues runs an attempt to enqueue a batch, on an open queue, and a
copy of it fails between the first component of an element and the last one. -/
def Tears (scalar : β → Except ByteString ℤ) (s : System n β) (action : Step n β) : Prop :=
  action.2 = .flush ∧ ∃ f a rest batch, s.flush = some f ∧ f.pass = .enqueue ∧
    s.q.enqueueAttempts = a :: rest ∧ ¬ a.isCancelled = true ∧ a.kind = .many batch ∧
    ¬ s.q.closed = true ∧ TearsBatch scalar action.1 s.q.queues.componentDtypes batch
      (s.q.capacity - s.q.queues.size) a.elementsRequested

/-- Nothing is torn where everything is copied. -/
theorem not_tears_of_copied {action : Step n β}
    (h : ∀ index i, componentStatus action.1 s.q.queues.componentDtypes index i = .ok) :
    ¬ Tears scalar s action := by
  rintro ⟨-, f, a, rest, batch, -, -, -, -, -, -, k, -, -, index, tuple, -, htorn⟩
  obtain ⟨i, hi⟩ := htorn.torn
  exact hi (h index i)

/-- What holds in every state of a run in which nothing is torn. -/
structure Inv (H : PriorityHeap ℤ) (scalar : β → Except ByteString ℤ) (componentDtypes : Fin n →
    DataType)
    (s : System n β) : Prop where
  accounted : Accounted dequeued? (fun _ ↦ 0) s
  traced : Traced H scalar s.history s.q.queues
  dtypes : s.q.queues.componentDtypes = componentDtypes
  /-- An attempt that waits has taken nothing out, or is going to fail. -/
  holds : ∀ a ∈ live s.q.dequeueAttempts, collected a = [] ∨ Doomed s.q
  sorted : ∀ c ∈ s.completed, c.status = .ok → ∀ xs, c.tuple = some xs → xs.Pairwise (Before scalar)

/-- Callbacks that deliver nothing keep the batches sorted. -/
theorem sorted_of_deliversNothing
    (h : ∀ c ∈ s.completed, c.status = .ok → ∀ xs, c.tuple = some xs → xs.Pairwise (Before scalar))
    (hcompleted : DeliversNothing s s') :
    ∀ c ∈ s'.completed, c.status = .ok → ∀ xs, c.tuple = some xs → xs.Pairwise (Before scalar) := by
  obtain ⟨cs, heq, hcs⟩ := hcompleted
  rw [heq]
  refine forall_mem_append.2 ⟨h, fun c hc hok xs hxs ↦ ?_⟩
  have hnone := hcs c hc
  rw [delivers, if_pos hok, hxs, Option.getD_some] at hnone
  rw [hnone]
  exact Pairwise.nil

theorem inv_init {capacity : ℕ} {name : ByteString} {specifiedShapes : Bool} :
    Inv H scalar componentDtypes (init capacity name specifiedShapes componentDtypes) where
  accounted := accounted_init rfl
  traced := ⟨[], heaped_empty componentDtypes, .nil⟩
  dtypes := rfl
  holds := forall_mem_nil _
  sorted := forall_mem_nil _

/-- A step that tears nothing can be replayed on whole tuples. -/
theorem inv_step (h : Inv H scalar componentDtypes s) {action : Step n β}
    (htears : ¬ Tears scalar s action) (hstep : step H scalar s action = some s') :
    Inv H scalar componentDtypes s' := by
  have hcls := accounts H scalar action.1
  have haccounted := accounted_step hcls h.accounted hstep
  have hquiet (hqueues : s'.q.queues = s.q.queues) (hclosed : s.q.closed = true →
    s'.q.closed = true) :
      Doomed s.q → Doomed s'.q := fun hd ↦ ⟨hclosed hd.1, by rw [hqueues]; exact hd.2⟩
  cases step_effect hcls.unspecifiedShapes hstep with
  | quiet same hlive =>
    refine ⟨haccounted, by rw [same.history, same.queues]; exact h.traced,
      by rw [same.queues]; exact h.dtypes, fun a ha ↦ ?_,
      sorted_of_deliversNothing h.sorted same.completed⟩
    rw [hlive] at ha
    exact (h.holds a ha).imp_right (hquiet same.queues same.closed)
  | arrives kind requested pos same hlive =>
    refine ⟨haccounted, by rw [same.history, same.queues]; exact h.traced,
      by rw [same.queues]; exact h.dtypes, fun a ha ↦ ?_,
      sorted_of_deliversNothing h.sorted same.completed⟩
    rw [hlive] at ha
    obtain ha | ha := mem_append.1 ha
    · exact (h.holds a ha).imp_right (hquiet same.queues same.closed)
    · rw [mem_singleton.1 ha]
      exact .inl (collected_of_tuple rfl)
  | leaves token _ before after a _ hqueues hclosed hhistory hcompleted hlive hlive' =>
    refine ⟨haccounted, ?_, by rw [hqueues]; exact h.dtypes, fun b hb ↦ ?_,
      sorted_of_deliversNothing h.sorted hcompleted⟩
    · obtain ⟨v, hv, hreplays⟩ := h.traced
      rw [hhistory, hqueues]
      exact ⟨v, hv, hreplays.losts _⟩
    · refine (h.holds b ?_).imp_right (hquiet hqueues fun hc ↦ hclosed.trans hc)
      rw [hlive'] at hb
      rw [hlive]
      exact ((sublist_cons_self a after).append_left before).subset hb
  | enqueues f a rest haction hflush hpass hhead hnot hqueues hhistory hclosed hcompleted hlive =>
    have hspec := enqueueSpec H scalar action.1 s.q a
    refine ⟨haccounted, ?_, by rw [hqueues, hspec.componentDtypes]; exact h.dtypes, fun b hb ↦ ?_,
      sorted_of_deliversNothing h.sorted hcompleted⟩
    · rw [hhistory, hqueues]
      exact h.traced.runEnqueue fun batch hkind hopen htorn ↦
        htears ⟨haction, f, a, rest, batch, hflush, hpass, hhead, hnot, hkind, hopen, htorn⟩
    · rw [hlive] at hb
      refine (h.holds b hb).imp_right fun hd ↦ ⟨hclosed hd.1, ?_⟩
      rw [hqueues, queues_of_closed hd.1]
      exact hd.2
  | dequeues f a rest r _ _ _ hhead hnot hrun hqueues hhistory hclosed hlive' hcompleted =>
    have hlive : live s.q.dequeueAttempts = a :: live rest := by rw [hhead, live_cons hnot]
    have hmem : a ∈ live s.q.dequeueAttempts := hlive ▸ mem_cons_self
    have hfilling := h.accounted.filling a hmem
    obtain ⟨hspec, hholds⟩ := dequeueSpec hfilling h.traced (h.holds a hmem) hrun
    have hrest : ∀ b ∈ live rest, collected b = [] ∨ Doomed s'.q := fun b hb ↦
      (h.holds b (hlive ▸ mem_cons_of_mem a hb)).imp_right fun hd ↦
        ⟨hclosed.trans hd.1, by rw [hqueues, queues_of_empty hfilling hd.2 hrun]; exact hd.2⟩
    refine ⟨haccounted, by rw [hhistory, hqueues]; exact hspec.traced,
      by rw [hqueues, hspec.componentDtypes]; exact h.dtypes, ?_, ?_⟩
    · rw [hlive']
      split
      · exact hrest
      next hresult =>
        refine forall_mem_append.2 ⟨fun b hb ↦ ?_, hrest⟩
        rw [mem_singleton.1 (mem_filter.1 hb).1]
        exact (hholds hresult).imp_right fun hd ↦ ⟨hclosed.trans hd.1, by rw [hqueues]; exact hd.2⟩
    · rw [hcompleted]
      split
      next hresult =>
        exact forall_mem_append.2
          ⟨h.sorted, forall_mem_singleton.2 (hspec.sorted hresult)⟩
      · rw [append_nil]
        exact h.sorted

/-- Tuples stay whole, leave in the order of their priorities, and are delivered once at most. -/
structure KeepsTuples (H : PriorityHeap ℤ) (scalar : β → Except ByteString ℤ) (s : System n β) :
    Prop where
  /-- What has happened can be replayed on whole tuples, and the heaps hold the components of those
  that are in the queue. -/
  replays : ∃ m, Replays scalar s.history m ∧
    ∀ i, ((s.q.queues.queues i).map Prod.snd : Multiset β) = m.map fun tuple ↦ tuple i
  /-- No heap is empty when its top is taken. -/
  defined : ∀ allocate a, (s.q.runDequeue (queueClass H scalar allocate) a).isSome
  once : (s.delivered : Multiset (Fin n → β)) ≤ s.history.filterMap dequeued?
  sorted : ∀ c ∈ s.completed, c.status = .ok → ∀ xs, c.tuple = some xs → xs.Pairwise (Before scalar)

theorem Inv.keepsTuples (h : Inv H scalar componentDtypes s) : KeepsTuples H scalar s where
  replays := by
    obtain ⟨v, hv, hreplays⟩ := h.traced
    refine ⟨payloads v, hreplays, fun i ↦ ?_⟩
    rw [hv.aligned i, map_map, payloads, Multiset.map_coe, map_map]
    rfl
  defined allocate a := by
    obtain ⟨v, hv, -⟩ := h.traced
    exact isSome_runDequeue allocate hv a
  once := by
    rw [← h.accounted.elements, add_assoc, add_assoc]
    exact Multiset.le_add_right _ _
  sorted := h.sorted

/-- **Tuples stay whole and in order**, in every run in which no batch enqueue fails between two
components of an element. What an operation puts in is what it has been called with, whatever
fails. -/
theorem keepsTuples_of_run {capacity : ℕ} {name : ByteString} {specifiedShapes : Bool}
    {actions : List (Step n β)}
    (hrun : run (step H scalar) (init capacity name specifiedShapes componentDtypes)
      actions = some s) (hactions : Along (step H scalar) (fun t action ↦ ¬ Tears scalar t action)
      (init capacity name specifiedShapes componentDtypes) actions) :
    KeepsTuples H scalar s ∧ s.PutsIn .int (actions.filterMap fun action ↦ action.2.elements) := by
  have hinv : Inv H scalar componentDtypes s :=
    run_invariant_of_along (fun _ ht htears hstep ↦ inv_step ht htears hstep) inv_init hactions hrun
  exact ⟨hinv.keepsTuples, (QueueBase.System.putsIn_of_run Prod.snd
    (fun {_ _ b} hstep ↦ ⟨queueClass H scalar b.1, keepsAttempts H scalar b.1, rfl, hstep⟩) hrun).2⟩

/-- What is delivered has been put in. -/
theorem KeepsTuples.delivered_subset (h : KeepsTuples H scalar s) : s.delivered ⊆ s.enqueued := by
  intro x hx
  obtain ⟨m, hreplays, -⟩ := h.replays
  refine Multiset.mem_coe.1 ?_
  rw [System.enqueued, hreplays.enqueued_eq]
  exact Multiset.mem_add.2 (.inl (Multiset.mem_of_le h.once (Multiset.mem_coe.2 hx)))

/-- A batch whose components are all copied is dequeued in the order of the priorities. -/
theorem keepsTuples_two :
    ∃ s : System 2 ℤ,
      s.delivered.map (fun tuple ↦ (tuple 0, tuple 1)) = [(1, 10), (2, 20)] ∧
        KeepsTuples (sortedVector ℤ) .ok s ∧ s.PutsIn .int [[], [![2, 20], ![1, 10]]] := by
  refine ⟨_, ?_, keepsTuples_of_run
    (show run (step (sortedVector ℤ) .ok) (init 3 [] true ![9, 3])
      [(.ok, .tryDequeueMany 2 false false), (.ok, .tryEnqueueMany [![2, 20], ![1, 10]] false),
        (.ok, .beginFlush), (.ok, .flush), (.ok, .flush), (.ok, .flush)] = _ from rfl) ?_⟩
  · rfl
  · have hwhole {t : System 2 ℤ} {action : QueueBase.System.Action (Fin 2 → ℤ)}
        (h : t.q.queues.componentDtypes = ![9, 3]) : ¬ Tears .ok t (.ok, action) :=
      not_tears_of_copied fun _ ↦ Fin.forall_fin_two.2 (by rw [h]; exact ⟨rfl, rfl⟩)
    exact (along_cons_of_step rfl).2 ⟨hwhole rfl, (along_cons_of_step rfl).2
      ⟨hwhole rfl, (along_cons_of_step rfl).2 ⟨hwhole rfl, (along_cons_of_step rfl).2
        ⟨hwhole rfl, (along_cons_of_step rfl).2 ⟨hwhole rfl, (along_cons_of_step rfl).2
          ⟨hwhole rfl, trivial⟩⟩⟩⟩⟩⟩

/-- A batch of one element is enqueued, and then another element on its own, before one is
dequeued. -/
def enqueueBoth (allocate : Allocations 2) : List (Step 2 ℤ) :=
  [(.ok, .tryEnqueueMany [![1, 10]] false), (.ok, .beginFlush), (allocate, .flush), (.ok, .flush),
    (.ok, .flush), (.ok, .flush), (.ok, .flush), (.ok, .tryEnqueue ![2, 20] false),
    (.ok, .tryDequeue false), (.ok, .beginFlush), (.ok, .flush), (.ok, .flush), (.ok, .flush)]

/-- An element that is delivered without having been put in. -/
theorem not_keepsTuples_of_mixed {s : System 2 ℤ}
    (hdelivered : s.delivered.map (fun tuple ↦ (tuple 0, tuple 1)) = [(1, 20)])
    (henqueued : s.enqueued.map (fun tuple ↦ (tuple 0, tuple 1)) = [(2, 20)]) :
    ¬ KeepsTuples (sortedVector ℤ) .ok s := fun h ↦ by
  have hsubset := map_subset (fun tuple ↦ (tuple 0, tuple 1)) h.delivered_subset
  rw [hdelivered, henqueued] at hsubset
  exact absurd (hsubset mem_cons_self) (by decide)

/-- A batch enqueue that fails between two components leaves the heaps misaligned: the dequeue
delivers the priority of one tuple with the other component of the next one. Here there is no copy
for `uint16`. -/
theorem mixed_uint16 :
    ∃ s : System 2 ℤ,
      run (step (sortedVector ℤ) .ok) (init 3 [] true ![9, 17]) (enqueueBoth .ok) = some s ∧
      s.delivered.map (fun tuple ↦ (tuple 0, tuple 1)) = [(1, 20)] ∧
      s.enqueued.map (fun tuple ↦ (tuple 0, tuple 1)) = [(2, 20)] ∧
      ¬ KeepsTuples (sortedVector ℤ) .ok s :=
  ⟨_, rfl, rfl, rfl, not_keepsTuples_of_mixed rfl rfl⟩

-- so does one that runs out of memory between them, whatever the types
example : ∃ s : System 2 ℤ,
    run (step (sortedVector ℤ) .ok) (init 3 [] true ![9, 3]) (enqueueBoth
      ⟨fun _ ↦ .ok, fun _ i ↦ if i = 0 then .ok else .error .resourceExhausted []⟩) = some s ∧
    ¬ KeepsTuples (sortedVector ℤ) .ok s :=
  ⟨_, rfl, not_keepsTuples_of_mixed rfl rfl⟩

end Runs

end PriorityQueue

end TensorFlowCore
