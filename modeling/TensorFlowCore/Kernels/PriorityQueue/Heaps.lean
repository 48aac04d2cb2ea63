import TensorFlowCore.Kernels.PriorityQueue.Model
import TensorFlowCore.Kernels.QueueBase.Accounting

/-!
# Aligned heaps

The heaps of the components of a `PriorityQueue` are the heaps of the components of one heap of
whole elements (`Heaped`), as long as no batch enqueue fails between two components (`TearsBatch`).
What has happened to the queue can then be replayed on the elements (`Replays`): each one that is
dequeued is in the queue, and none in there comes before it.
-/

namespace TensorFlowCore

open List QueueBase QueueEvent

namespace PriorityQueue

variable {n : ℕ} {β : Type}

/-! ### What the queue is for -/

section Specification

variable [NeZero n] (scalar : β → Except ByteString ℤ)

/-- Both elements have a priority, and `y` does not come before `x`. -/
def Before (x y : Fin n → β) : Prop :=
  ∃ p p', scalar (x 0) = .ok p ∧ scalar (y 0) = .ok p' ∧ p ≤ p'

/-- What has happened, with the elements that are in the queue after it: a dequeue takes one out
that is there, and that none in there comes before. -/
inductive Replays : List (QueueEvent (Fin n → β)) → Multiset (Fin n → β) → Prop
  | nil : Replays [] 0
  | enqueued {events : List (QueueEvent (Fin n → β))} {m : Multiset (Fin n → β)} (op : ℕ)
      (x : Fin n → β) (h : Replays events m) : Replays (events ++ [.enqueued op x]) (x ::ₘ m)
  | dequeued {events : List (QueueEvent (Fin n → β))} {m : Multiset (Fin n → β)} (x : Fin n → β)
      (h : Replays events (x ::ₘ m)) (least : ∀ y ∈ m, Before scalar x y) :
      Replays (events ++ [.dequeued x]) m
  | lost {events : List (QueueEvent (Fin n → β))} {m : Multiset (Fin n → β)} (x : Fin n → β)
      (h : Replays events m) : Replays (events ++ [.lost x]) m

variable {scalar} {events : List (QueueEvent (Fin n → β))} {m : Multiset (Fin n → β)}

/-- What has been put in has been taken out, or is in the queue. -/
theorem Replays.enqueued_eq (h : Replays scalar events m) :
    (events.filterMap enqueued? : Multiset (Fin n → β)) = events.filterMap dequeued? + m := by
  induction h with
  | nil => rfl
  | @enqueued events m op x h ih =>
    rw [filterMap_append, filterMap_append, ← Multiset.coe_add, ih]
    show _ + {x} = (_ ++ [] : List (Fin n → β)) + x ::ₘ m
    rw [append_nil, ← Multiset.singleton_add]
    abel
  | @dequeued events m x h _ ih =>
    rw [filterMap_append, filterMap_append, ← Multiset.coe_add, ← Multiset.coe_add, ih,
      ← Multiset.singleton_add]
    show _ + ({x} + m) + 0 = _ + {x} + m
    abel
  | @lost events m x h ih =>
    rw [filterMap_append, filterMap_append, ← Multiset.coe_add, ← Multiset.coe_add, ih]
    show _ + m + 0 = _ + 0 + m
    abel

theorem Replays.losts (h : Replays scalar events m) (xs : List (Fin n → β)) :
    Replays scalar (events ++ xs.map .lost) m := by
  induction xs generalizing events with
  | nil => rwa [map_nil, append_nil]
  | cons x xs ih =>
    have := ih (h.lost x)
    rwa [append_assoc] at this

end Specification

/-! ### Pushing an element -/

variable {H : PriorityHeap ℤ} {scalar : β → Except ByteString ℤ} {allocate : Allocations n}
  {c c' : PriorityQueue n β} {tuple : Fin n → β} {index : ℕ}

theorem queues_emplaceAll (tuple : Fin n → β) (p : ℤ) {components : List (Fin n)}
    (hnodup : components.Nodup) (c : PriorityQueue n β) (i : Fin n) :
    (c.emplaceAll H tuple p components).queues i =
      if i ∈ components then H.push (p, tuple i) (c.queues i) else c.queues i := by
  induction components generalizing c with
  | nil => rfl
  | cons j components ih =>
    obtain ⟨hj, hnodup⟩ := nodup_cons.1 hnodup
    rw [emplaceAll, ih hnodup, emplace]
    dsimp only
    by_cases hij : i = j
    · subst hij
      rw [if_neg hj, if_pos mem_cons_self, Function.update_self]
    · rw [Function.update_of_ne hij]
      simp only [mem_cons, hij, false_or]

theorem componentDtypes_emplaceAll (tuple : Fin n → β) (p : ℤ) (components : List (Fin n))
    (c : PriorityQueue n β) :
    (c.emplaceAll H tuple p components).componentDtypes = c.componentDtypes := by
  induction components generalizing c with
  | nil => rfl
  | cons j components ih => exact ih _

/-- Copies that succeed do what the loop without copies does. -/
theorem copyAll_of_copied (p : ℤ) (components : List (Fin n))
    (h : ∀ i, componentStatus allocate c.componentDtypes index i = .ok) :
    c.copyAll H allocate tuple p index components = (c.emplaceAll H tuple p components, .ok) := by
  induction components generalizing c with
  | nil => rfl
  | cons i components ih =>
    rw [copyAll, h i, if_neg (not_not.2 rfl)]
    exact ih h

theorem componentDtypes_copyAll (tuple : Fin n → β) (p : ℤ) (index : ℕ) (components : List (Fin n))
    (c : PriorityQueue n β) :
    (c.copyAll H allocate tuple p index components).1.componentDtypes = c.componentDtypes := by
  induction components generalizing c with
  | nil => rfl
  | cons i components ih =>
    rw [copyAll]
    split
    · rfl
    · exact ih _

variable [NeZero n]

theorem componentDtypes_push (tuple : Fin n → β) (c : PriorityQueue n β) :
    (c.push H scalar tuple).1.componentDtypes = c.componentDtypes := by
  unfold push
  split
  · rfl
  · exact componentDtypes_emplaceAll tuple _ _ c

theorem componentDtypes_pushFrom (tuple : Fin n → β) (index : ℕ) (c : PriorityQueue n β) :
    (c.pushFrom H scalar allocate tuple index).1.componentDtypes = c.componentDtypes := by
  unfold pushFrom
  dsimp only
  split
  · rfl
  · split
    · rfl
    · exact componentDtypes_copyAll tuple _ index _ c

omit [NeZero n] in
/-- A copy with memory, of a data type that is handled. -/
theorem elementStatus_of_handled {dtype : DataType} (h : copyHandles dtype = true) :
    elementStatus .ok dtype = .ok := by
  rw [elementStatus, if_neg (not_not.2 rfl), copyError, if_pos h]
  rfl

/-- The closure of a batch enqueue pushes all components of an element. -/
structure WholeElement (scalar : β → Except ByteString ℤ) (allocate : Allocations n)
    (componentDtypes : Fin n → DataType) (index : ℕ) (tuple : Fin n → β) : Prop where
  priorityElement : priorityStatus allocate componentDtypes index = .ok
  scalar : ∃ p, scalar (tuple 0) = .ok p
  elements : ∀ i, componentStatus allocate componentDtypes index i = .ok

/-- The closure of a batch enqueue pushes component 0 of an element, and fails at another one. -/
structure TornElement (scalar : β → Except ByteString ℤ) (allocate : Allocations n)
    (componentDtypes : Fin n → DataType) (index : ℕ) (tuple : Fin n → β) : Prop where
  priorityElement : priorityStatus allocate componentDtypes index = .ok
  scalar : ∃ p, scalar (tuple 0) = .ok p
  first : componentStatus allocate componentDtypes index 0 = .ok
  torn : ∃ i, componentStatus allocate componentDtypes index i ≠ .ok

theorem pushFrom_of_whole {p : ℤ} (h : WholeElement scalar allocate c.componentDtypes index tuple)
    (hp : scalar (tuple 0) = .ok p) :
    c.pushFrom H scalar allocate tuple index = (c.emplaceAll H tuple p (List.finRange n), .ok) := by
  rw [pushFrom, h.priorityElement, if_neg (not_not.2 rfl), hp]
  exact copyAll_of_copied p _ h.elements

/-- An element is pushed as a whole or not at all, unless it is torn. -/
theorem pushFrom_cases (h : ¬ TornElement scalar allocate c.componentDtypes index tuple) :
    (∃ status, status ≠ .ok ∧ c.pushFrom H scalar allocate tuple index = (c, status)) ∨
      WholeElement scalar allocate c.componentDtypes index tuple := by
  by_cases hpriority : priorityStatus allocate c.componentDtypes index = .ok
  · cases hp : scalar (tuple 0) with
    | error shape =>
      refine .inl ⟨notScalarStatus shape, Status.noConfusion, ?_⟩
      rw [pushFrom, hpriority, if_neg (not_not.2 rfl), hp]
    | ok p =>
      by_cases hfirst : componentStatus allocate c.componentDtypes index 0 = .ok
      · refine .inr ⟨hpriority, ⟨p, hp⟩, fun i ↦ ?_⟩
        by_contra hi
        exact h ⟨hpriority, ⟨p, hp⟩, hfirst, i, hi⟩
      · refine .inl ⟨_, hfirst, ?_⟩
        rw [pushFrom, hpriority, if_neg (not_not.2 rfl), hp]
        obtain ⟨m, rfl⟩ := Nat.exists_eq_succ_of_ne_zero (NeZero.ne n)
        dsimp only
        rw [finRange_succ, copyAll]
        exact if_pos hfirst
  · exact .inl ⟨_, hpriority, if_pos hpriority⟩

/-- The loop of an enqueue attempt, with room for `room` more elements, comes to an element that is
torn. -/
def TearsBatch (scalar : β → Except ByteString ℤ) (allocate : Allocations n)
    (componentDtypes : Fin n → DataType) (batch : List (Fin n → β)) (room : ℕ)
    (elementsRequested : ℤ) : Prop :=
  ∃ k < room,
    (∀ j < k, elementsRequested - (j : ℕ) ≠ 1 ∧ ∃ index tuple,
      batchElement .int batch (elementsRequested - (j : ℕ)) = some (index, tuple) ∧
        WholeElement scalar allocate componentDtypes index tuple) ∧
    ∃ index tuple, batchElement .int batch (elementsRequested - (k : ℕ)) = some (index, tuple) ∧
      TornElement scalar allocate componentDtypes index tuple

section TearsBatch

variable {componentDtypes : Fin n → DataType} {batch : List (Fin n → β)} {room : ℕ} {requested : ℤ}

variable (h : ¬ TearsBatch scalar allocate componentDtypes batch (room + 1) requested)
  (helement : batchElement .int batch requested = some (index, tuple))
include h helement

/-- The first iteration pushes its element as a whole or not at all. -/
theorem not_torn_of_not_tears :
    ¬ TornElement scalar allocate componentDtypes index tuple := fun htorn ↦
  h ⟨0, Nat.succ_pos room, nofun, index, tuple,
    by rwa [Nat.cast_zero, Int.sub_zero], htorn⟩

/-- So do the iterations after an element that is pushed. -/
theorem not_tears_succ (hwhole : WholeElement scalar allocate componentDtypes index tuple)
    (hmore : requested - 1 ≠ 0) :
    ¬ TearsBatch scalar allocate componentDtypes batch room (requested - 1) := by
  have hshift (k : ℕ) : requested - ((k + 1 : ℕ) : ℤ) = requested - 1 - k := by omega
  rintro ⟨k, hk, hbefore, htorn⟩
  rw [← hshift] at htorn
  refine h ⟨k + 1, Nat.succ_lt_succ hk, fun j hj ↦ ?_, htorn⟩
  cases j with
  | zero =>
    rw [Nat.cast_zero, Int.sub_zero]
    exact ⟨by omega, index, tuple, helement, hwhole⟩
  | succ j =>
    rw [hshift]
    exact hbefore j (Nat.lt_of_succ_lt_succ hj)

end TearsBatch

/-! ### Aligned heaps -/

variable {v : List (ℤ × (Fin n → β))}

/-- The heaps of the components are those of the elements of one heap, under their own
priorities. -/
structure Heaped (H : PriorityHeap ℤ) (scalar : β → Except ByteString ℤ) (c : PriorityQueue n β)
    (v : List (ℤ × (Fin n → β))) : Prop where
  aligned : PriorityHeap.Aligned (fun i tuple ↦ tuple i) c.queues v
  ordered : H.Ordered v
  priority : ∀ x ∈ v, scalar (x.2 0) = .ok x.1

omit [NeZero n] in
/-- The elements of a heap. -/
def payloads (v : List (ℤ × (Fin n → β))) : Multiset (Fin n → β) :=
  (v.map Prod.snd : List (Fin n → β))

theorem Heaped.size_eq (h : Heaped H scalar c v) : c.size = v.length := by
  rw [size, h.aligned 0, length_map]

theorem heaped_empty (componentDtypes : Fin n → DataType) :
    Heaped H scalar (empty componentDtypes : PriorityQueue n β) [] where
  aligned _ := rfl
  ordered := H.ordered_nil
  priority := nofun

/-- An element that is pushed component by component is pushed as a whole. -/
theorem Heaped.push (h : Heaped H scalar c v) {tuple : Fin n → β} {p : ℤ}
    (hp : scalar (tuple 0) = .ok p) :
    Heaped H scalar (c.emplaceAll H tuple p (List.finRange n)) (H.push (p, tuple) v) where
  aligned i := by
    rw [queues_emplaceAll tuple p (nodup_finRange n), if_pos (mem_finRange i)]
    exact h.aligned.push p tuple i
  ordered := H.ordered_push _ h.ordered
  priority x hx := by
    obtain rfl | hx := mem_cons.1 ((H.push_perm _ v).mem_iff.1 hx)
    · exact hp
    · exact h.priority x hx

omit [NeZero n] in
theorem payloads_push (tuple : Fin n → β) (p : ℤ) (v : List (ℤ × (Fin n → β))) :
    payloads (H.push (p, tuple) v) = tuple ::ₘ payloads v :=
  Multiset.coe_eq_coe.2 ((H.push_perm _ v).map Prod.snd)

/-- A dequeue takes the top of the heap of elements. -/
theorem Heaped.dequeueLocked (h : Heaped H scalar c v)
    (hdequeue : c.dequeueLocked H = some (tuple, c')) :
    ∃ x v', H.pop v = some (x, v') ∧ x.2 = tuple ∧ Heaped H scalar c' v' := by
  unfold PriorityQueue.dequeueLocked at hdequeue
  split at hdequeue
  next hall =>
    cases hpop : H.pop v with
    | none =>
      have h0 := hall 0
      rw [h.aligned 0, H.map_pop, hpop] at h0
      cases h0
    | some r =>
      obtain ⟨x, v'⟩ := r
      have hi := h.aligned.pop hpop
      obtain ⟨htuple, hc'⟩ := Prod.mk.inj (Option.some.inj hdequeue)
      refine ⟨x, v', rfl, ?_, fun i ↦ ?_, (H.ordered_pop h.ordered hpop).1, fun y hy ↦ ?_⟩
      · rw [← htuple]
        funext i
        simp only [hi i, Option.get_some]
      · rw [← hc']
        simp only [hi i, Option.get_some]
      · exact h.priority y ((H.pop_perm hpop).mem_iff.2 (mem_cons_of_mem x hy))
  · cases hdequeue

theorem Heaped.isSome_dequeueLocked (h : Heaped H scalar c v) (hne : v ≠ []) :
    (c.dequeueLocked H).isSome := by
  obtain ⟨⟨x, v'⟩, hpop⟩ := Option.isSome_iff_exists.1 (H.pop_isSome hne)
  have hi := h.aligned.pop hpop
  unfold PriorityQueue.dequeueLocked
  rw [dif_pos fun i ↦ by rw [hi i]; rfl]
  rfl

/-- The top of the heap comes before the others. -/
theorem Heaped.before (h : Heaped H scalar c v) {x : ℤ × (Fin n → β)} {v' : List (ℤ × (Fin n → β))}
    (hpop : H.pop v = some (x, v')) : ∀ y ∈ v', Before scalar x.2 y.2 := by
  intro y hy
  have hperm := H.pop_perm hpop
  exact ⟨x.1, y.1, h.priority x (hperm.mem_iff.2 mem_cons_self),
    h.priority y (hperm.mem_iff.2 (mem_cons_of_mem x hy)), (H.ordered_pop h.ordered hpop).2 y hy⟩

/-! ### Enqueues -/

/-- What has happened can be replayed, and leaves the elements of the heaps. -/
def Traced (H : PriorityHeap ℤ) (scalar : β →
    Except ByteString ℤ) (events : List (QueueEvent (Fin n → β)))
    (c : PriorityQueue n β) : Prop :=
  ∃ v, Heaped H scalar c v ∧ Replays scalar events (payloads v)

section Enqueue

variable {events : List (QueueEvent (Fin n → β))} {q : QueueBase (PriorityQueue n β) (Fin n → β)}
  {a : EnqueueAttempt (Fin n → β)}

theorem Traced.push (h : Traced H scalar events c) {tuple : Fin n → β} {p : ℤ}
    (hp : scalar (tuple 0) = .ok p) (op : ℕ) :
    Traced H scalar (events ++ [.enqueued op tuple])
      (c.emplaceAll H tuple p (List.finRange n)) := by
  obtain ⟨v, hv, hreplays⟩ := h
  exact ⟨H.push (p, tuple) v, hv.push hp, by rw [payloads_push]; exact hreplays.enqueued op tuple⟩

/-- What every enqueue keeps, whatever it does to the heaps. -/
structure EnqueueSpec (q : QueueBase (PriorityQueue n β) (Fin n → β))
    (r : EnqueueRun (PriorityQueue n β) (Fin n → β)) : Prop where
  componentDtypes : r.queues.componentDtypes = q.queues.componentDtypes
  lost : r.events.filterMap lost? = []
  dequeued : r.events.filterMap dequeued? = []

theorem enqueueSpec (H : PriorityHeap ℤ) (scalar : β → Except ByteString ℤ)
    (allocate : Allocations n) (q : QueueBase (PriorityQueue n β) (Fin n → β))
    (a : EnqueueAttempt (Fin n → β)) :
    EnqueueSpec q (q.runEnqueue (queueClass H scalar allocate) a).1 := by
  obtain ⟨pushed, hevents, hdtypes⟩ := runEnqueue_rule (queueClass H scalar allocate) q a
    (R := fun c _ ↦ c.componentDtypes = q.queues.componentDtypes)
    (fun {c x _} h ↦ (componentDtypes_push x c).trans h)
    (fun {c _} x index h ↦ (componentDtypes_pushFrom x index c).trans h) rfl
  refine ⟨hdtypes, ?_, ?_⟩ <;> rw [hevents, filterMap_map]
  · exact filterMap_eq_nil_iff.2 fun _ _ ↦ rfl
  · exact filterMap_eq_nil_iff.2 fun _ _ ↦ rfl

/-- An enqueue pushes whole elements, unless it is one of a batch that is torn. -/
theorem Traced.runEnqueue (h : Traced H scalar events q.queues)
    (htears : ∀ batch, a.kind = .many batch → ¬ q.closed = true →
      ¬ TearsBatch scalar allocate q.queues.componentDtypes batch (q.capacity - q.queues.size)
        a.elementsRequested) :
    Traced H scalar (events ++ (q.runEnqueue (queueClass H scalar allocate) a).1.events)
      (q.runEnqueue (queueClass H scalar allocate) a).1.queues := by
  have hnone : Traced H scalar (events ++ []) q.queues := by rwa [append_nil]
  suffices hpushed : ∃ pushed : List (Fin n →
    β), (q.runEnqueue (queueClass H scalar allocate) a).1.events =
      pushed.map (.enqueued a.op) ∧ Traced H scalar (events ++ pushed.map (.enqueued a.op))
        (q.runEnqueue (queueClass H scalar allocate) a).1.queues by
    obtain ⟨pushed, hevents, htraced⟩ := hpushed
    rwa [hevents]
  refine runEnqueue_cases
    (R := fun c pushed ↦ Traced H scalar (events ++ pushed.map (.enqueued a.op)) c)
    hnone (fun x ↦ ?_) fun batch hkind hopen ↦ ?_
  · show Traced H scalar _ (q.queues.push H scalar x).1
    change Traced H scalar
      (events ++ map (.enqueued a.op) (if (q.queues.push H scalar x).2 = .ok then [x] else [])) _
    unfold PriorityQueue.push
    cases hp : scalar (x 0) with
    | error shape => exact hnone
    | ok p => exact h.push hp a.op
  · refine enqueueLoop_rule (queueOps H scalar allocate) batch [] _
      (I := fun room requested c pushed ↦ Traced H scalar
      (events ++ pushed.map (.enqueued a.op)) c ∧
        ¬ TearsBatch scalar allocate c.componentDtypes batch room requested)
      (R := fun c pushed ↦ Traced H scalar (events ++ pushed.map (.enqueued a.op)) c)
      (fun {room requested c pushed index x} hI helement hok ↦ ?_)
      (fun {room requested c pushed index x} hI helement hne ↦ ?_) (fun hI ↦ hI.1)
      ⟨hnone, htears batch hkind hopen⟩
    · change (c.pushFrom H scalar allocate x index).2 = .ok at hok
      show Traced H scalar _ (c.pushFrom H scalar allocate x index).1 ∧ (_ →
        Traced H scalar _ (c.pushFrom H scalar allocate x index).1 ∧
          ¬ TearsBatch scalar allocate (c.pushFrom H scalar allocate x index).1.componentDtypes
          batch room _)
      rw [componentDtypes_pushFrom]
      obtain ⟨status, hstatus, hpush⟩ | hwhole :=
        pushFrom_cases (not_torn_of_not_tears hI.2 helement)
      · rw [hpush] at hok
        exact absurd hok hstatus
      · obtain ⟨p, hp⟩ := hwhole.scalar
        rw [pushFrom_of_whole hwhole hp, map_append, ← append_assoc]
        exact ⟨hI.1.push hp a.op, fun hmore ↦
          ⟨hI.1.push hp a.op, not_tears_succ hI.2 helement hwhole hmore⟩⟩
    · change (c.pushFrom H scalar allocate x index).2 ≠ .ok at hne
      show Traced H scalar _ (c.pushFrom H scalar allocate x index).1
      obtain ⟨status, hstatus, hpush⟩ | hwhole :=
        pushFrom_cases (not_torn_of_not_tears hI.2 helement)
      · rw [hpush]
        exact hI.1
      · obtain ⟨p, hp⟩ := hwhole.scalar
        rw [pushFrom_of_whole hwhole hp] at hne
        exact absurd rfl hne

end Enqueue

end PriorityQueue

end TensorFlowCore
