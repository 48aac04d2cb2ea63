import TensorFlowCore.Kernels.FifoQueue.Components
import TensorFlowCore.Kernels.QueueBase.PutsIn

/-!
# Component queues in step

The deques of a `FIFOQueue` are in step when they are the columns of one list of elements that have
been enqueued. The closures keep them so as long as no copy fails between the first and the last
component of an element (`keepsInStep_of_run`).
-/

namespace TensorFlowCore

open GuardedRun List QueueBase

namespace ComponentQueues

variable {n : ℕ} {β : Type} {c c' : ComponentQueues n β} {elements : List (ComponentTuple n β)}
  {tuple : ComponentTuple n β} {allocate : ℕ → Fin n → Status}

/-- The deques are the columns of the elements. -/
def InStep (c : ComponentQueues n β) (elements : List (ComponentTuple n β)) : Prop :=
  ∀ i, c.queues i = elements.map fun tuple ↦ tuple i

theorem inStep_empty (componentDtypes : Fin n → DataType) :
    InStep (empty componentDtypes : ComponentQueues n β) [] := fun _ ↦ rfl

/-! ### Pushing an element -/

theorem componentDtypes_pushAll (components : List (Fin n)) :
    (c.pushAll tuple components).componentDtypes = c.componentDtypes := by
  induction components generalizing c with
  | nil => rfl
  | cons i components ih => exact ih

/-- Each of the components is pushed once. -/
theorem queues_pushAll {components : List (Fin n)} (hnodup : components.Nodup) (j : Fin n) :
    (c.pushAll tuple components).queues j =
      if j ∈ components then c.queues j ++ [tuple j] else c.queues j := by
  induction components generalizing c with
  | nil => rfl
  | cons i components ih =>
    obtain ⟨hi, hnodup⟩ := nodup_cons.1 hnodup
    rw [pushAll, ih hnodup, pushBack]
    dsimp only
    by_cases hj : j = i
    · subst hj
      rw [if_neg hi, if_pos mem_cons_self, Function.update_self]
    · simp only [Function.update_of_ne hj, mem_cons, hj, false_or]

theorem InStep.pushAll (h : InStep c elements) (tuple : ComponentTuple n β) :
    InStep (c.pushAll tuple (List.finRange n)) (elements ++ [tuple]) := fun i ↦ by
  rw [queues_pushAll (nodup_finRange n), if_pos (mem_finRange i), h i, map_append]
  rfl

/-- An element of a batch of which every component is copied. -/
theorem copyAll_of_copied {components : List (Fin n)}
    (h : ∀ i ∈ components, c.componentStatus allocate index i = .ok) :
    c.copyAll allocate tuple index components = (c.pushAll tuple components, .ok) := by
  induction components generalizing c with
  | nil => rfl
  | cons i components ih =>
    obtain ⟨hi, hcomponents⟩ := forall_mem_cons.1 h
    rw [copyAll, hi, if_neg (not_not.2 rfl)]
    exact ih hcomponents

/-- The index of the element that the loop of an enqueue attempt copies in its `k`th iteration. -/
def batchIndex (batch : List (ComponentTuple n β)) (elementsRequested : ℤ) (k : ℕ) : ℕ :=
  ((batch.length : ℤ) - (elementsRequested - k)).toNat

theorem batchIndex_succ (batch : List (ComponentTuple n β)) (elementsRequested : ℤ) (k : ℕ) :
    batchIndex batch elementsRequested (k + 1) = batchIndex batch (elementsRequested - 1) k := by
  rw [batchIndex, batchIndex]
  congr 2
  omega

/-! ### Putting a batch back -/

/-- An attempt that puts its elements back comes to a component that it cannot copy. -/
def TearsRestore (allocate : ℕ → Fin n → Status) (c : ComponentQueues n β)
    (a : DequeueAttempt (ComponentTuple n β)) : Prop :=
  ∃ slots, a.tuple = some slots ∧ ∃ index < filledSlots slots a, ∃ i,
    c.componentStatus allocate index i ≠ .ok

/-- Each of the components is put back once, where all of them are copied. -/
theorem restoreElement_of_copied {components : List (Fin n)} (hnodup : components.Nodup)
    (h : ∀ i ∈ components, c.componentStatus allocate index i = .ok) (tuple : ComponentTuple n β)
    (status : Status) :
    ∃ c', c.restoreElement allocate tuple index components status = (c', status) ∧
      c'.componentDtypes = c.componentDtypes ∧
      ∀ j, c'.queues j = if j ∈ components then tuple j :: c.queues j else c.queues j := by
  induction components generalizing c with
  | nil => exact ⟨c, rfl, rfl, fun _ ↦ rfl⟩
  | cons i components ih =>
    obtain ⟨hi, hcomponents⟩ := forall_mem_cons.1 h
    obtain ⟨hmem, hnodup⟩ := nodup_cons.1 hnodup
    obtain ⟨c', hrestore, hdtypes, hqueues⟩ := ih hnodup hcomponents (c := c.pushFront i (tuple i))
    refine ⟨c', ?_, hdtypes, fun j ↦ ?_⟩
    · rw [restoreElement, hi, if_neg (not_not.2 rfl)]
      exact hrestore
    · rw [hqueues, pushFront]
      dsimp only
      by_cases hj : j = i
      · subst hj
        rw [if_neg hmem, if_pos mem_cons_self, Function.update_self]
      · simp only [Function.update_of_ne hj, mem_cons, hj, false_or]

theorem InStep.restoreElement (h : InStep c elements) (tuple : ComponentTuple n β)
    (hcopied : ∀ i, c.componentStatus allocate index i = .ok) (status : Status) :
    ∃ c', c.restoreElement allocate tuple index (List.finRange n) status = (c', status) ∧
      c'.componentDtypes = c.componentDtypes ∧ InStep c' (tuple :: elements) := by
  obtain ⟨c', hrestore, hdtypes, hqueues⟩ := restoreElement_of_copied (nodup_finRange n)
    (fun i _ ↦ hcopied i) tuple status
  refine ⟨c', hrestore, hdtypes, fun i ↦ ?_⟩
  rw [hqueues, if_pos (mem_finRange i), h i]
  rfl

/-- By induction on the slots that are put back, of which the last one comes first. -/
theorem InStep.restore {filled : List (ComponentTuple n β)}
    {slots : List (Option (ComponentTuple n β))}
    (hslots : ∀ k, k < filled.length → slots[k]? = filled[k]?.map some) {k : ℕ}
    (hk : k ≤ filled.length) (h : InStep c elements)
    (hcopied : ∀ index < k, ∀ i, c.componentStatus allocate index i = .ok) (status : Status) :
    ∃ c', ComponentQueues.restore allocate slots k c status = (c', status) ∧
      InStep c' (filled.take k ++ elements) := by
  induction k generalizing c elements with
  | zero => exact ⟨c, rfl, h⟩
  | succ k ih =>
    have hlt : k < filled.length := hk
    have hslot : slots[k]? = some (some filled[k]) := by
      rw [hslots k hlt, getElem?_eq_getElem hlt]
      rfl
    obtain ⟨c₁, hone, hdtypes, hstep⟩ := h.restoreElement filled[k]
      (hcopied k (Nat.lt_succ_self k)) status
    have hsame : ∀ index i, c₁.componentStatus allocate index i =
        c.componentStatus allocate index i :=
      fun index i ↦ by rw [componentStatus, componentStatus, hdtypes]
    obtain ⟨c', hrest, hstep'⟩ := ih (Nat.le_of_succ_le hk) hstep fun index hindex i ↦
      (hsame index i).trans (hcopied index (Nat.lt_succ_of_lt hindex) i)
    refine ⟨c', ?_, ?_⟩
    · rw [ComponentQueues.restore, hslot]
      dsimp only [Option.getD_some]
      rw [hone]
      exact hrest
    · rw [take_add_one, getElem?_eq_getElem hlt, append_assoc]
      exact hstep'

/-- All that an attempt has taken is put back in front. -/
theorem InStep.restored {q : QueueBase (ComponentQueues n β) (ComponentTuple n β)}
    (h : InStep q.queues elements) {a : DequeueAttempt (ComponentTuple n β)} (hfilling : Filling a)
    (hcopied : ¬ TearsRestore allocate q.queues a) :
    ∃ c', restored (ComponentQueues.restore allocate) q a = (c', .ok) ∧
      InStep c' (collected a ++ elements) := by
  unfold QueueBase.restored
  cases htuple : a.tuple with
  | none =>
    refine ⟨q.queues, ?_, ?_⟩
    · rw [Option.elim_none, hfilling.status]
    · rwa [collected_of_tuple htuple]
  | some slots =>
    obtain ⟨hk, -, hfilled⟩ := hfilling.filledSlots_eq htuple
    have hall : ∀ index < (collected a).length, ∀ i, q.queues.componentStatus allocate index i =
        .ok := by
      intro index hindex i
      by_contra hne
      exact hcopied ⟨slots, htuple, index, hk ▸ hindex, i, hne⟩
    obtain ⟨c', hrestore, hstep⟩ := h.restore hfilled le_rfl hall a.status
    refine ⟨c', ?_, by rwa [take_length] at hstep⟩
    rw [Option.elim_some, hk, hrestore, hfilling.status]

/-! ### Taking elements -/

theorem dequeueLocked_cons (h : InStep c (tuple :: elements)) :
    ∃ c', c.dequeueLocked = some (tuple, c') ∧ InStep c' elements := by
  have hne : ∀ i, c.queues i ≠ [] := fun i ↦ by
    rw [h i]
    exact cons_ne_nil _ _
  refine ⟨{ c with queues := fun i ↦ (c.queues i).tail }, ?_, fun i ↦ ?_⟩
  · rw [dequeueLocked, dif_pos hne]
    congr 2
    funext i
    simp only [h i, map_cons, head_cons]
  · show (c.queues i).tail = _
    rw [h i]
    rfl

variable [NeZero n]

theorem dequeueLocked_nil (h : InStep c []) : c.dequeueLocked = none := by
  rw [dequeueLocked, dif_neg]
  exact fun hall ↦ hall 0 (h 0)

/-- The elements that are taken are the first ones. -/
theorem InStep.takes {taken : List (ComponentTuple n β)}
    (htakes : Takes (queueOps allocate) c taken c') (h : InStep c elements) :
    ∃ left, elements = taken ++ left ∧ InStep c' left := by
  induction htakes generalizing elements with
  | nil => exact ⟨elements, rfl, h⟩
  | cons first _ ih =>
    change dequeueLocked _ = _ at first
    cases elements with
    | nil =>
      rw [dequeueLocked_nil h] at first
      cases first
    | cons x elements =>
      obtain ⟨c₁, hlocked, hstep⟩ := dequeueLocked_cons h
      rw [hlocked] at first
      obtain ⟨rfl, rfl⟩ := Prod.mk.inj (Option.some.inj first)
      obtain ⟨left, rfl, hleft⟩ := ih hstep
      exact ⟨left, rfl, hleft⟩

/-- What a closure of a dequeue attempt does to deques in step. -/
structure TakesWhole (elements : List (ComponentTuple n β))
    (a : DequeueAttempt (ComponentTuple n β))
    (r : DequeueRun (ComponentQueues n β) (ComponentTuple n β)) : Prop where
  inStep : ∃ left, InStep r.queues left ∧ ∀ x ∈ left, x ∈ collected a ++ elements
  waits : r.result ≠ .complete → Filling r.attempt ∧
    ∀ x ∈ collected r.attempt, x ∈ collected a ++ elements

section TakesWhole

variable {a : DequeueAttempt (ComponentTuple n β)}
  {r : DequeueRun (ComponentQueues n β) (ComponentTuple n β)}

/-- The loop of a batch dequeue leaves the elements that it does not take. -/
theorem takesWhole_dequeueLoop {queueSize : ℕ} {result : RunResult} (h : InStep c elements)
    (hfilling : Filling a) (hkind : a.kind ≠ .one)
    (hrun : dequeueLoop (queueOps allocate) queueSize c a result = some r) :
    TakesWhole elements a r := by
  obtain ⟨taken, htakes, houtcome⟩ := dequeueLoop_cases hfilling hkind hrun
  obtain ⟨left, rfl, hleft⟩ := h.takes htakes
  refine ⟨⟨left, hleft, fun x hx ↦ mem_append_right _ (mem_append_right _ hx)⟩, fun hne ↦ ?_⟩
  cases houtcome with
  | waits _ _ _ hfilling' hcollected =>
    refine ⟨hfilling', fun x hx ↦ ?_⟩
    rw [hcollected] at hx
    rw [← append_assoc]
    exact mem_append_left _ hx
  | hands _ _ _ hcomplete => exact absurd hcomplete hne
  | fails _ _ _ _ _ _ hcomplete => exact absurd hcomplete hne

/-- The attempt puts its elements back, and cannot copy one of them. -/
def TearsAttempt (allocate : ℕ → Fin n →
    Status) (q : QueueBase (ComponentQueues n β) (ComponentTuple n β))
    (a : DequeueAttempt (ComponentTuple n β)) : Prop :=
  q.closed = true ∧ (q.queues.size : ℤ) < a.elementsRequested ∧ TearsRestore allocate q.queues a

/-- The closure of a dequeue attempt that is not torn. -/
theorem takesWhole_runDequeue {q : QueueBase (ComponentQueues n β) (ComponentTuple n β)}
    (h : InStep q.queues elements) (hfilling : Filling a)
    (htears : ∀ b, a.kind = .many b → ¬ TearsAttempt allocate q a)
    (hrun : q.runDequeue (queueClass allocate) a = some r) : TakesWhole elements a r := by
  have hall : ∀ x ∈ elements, x ∈ collected a ++ elements := fun x hx ↦ mem_append_right _ hx
  unfold QueueBase.runDequeue at hrun
  split at hrun
  · cases runDequeueOne_cases hrun with
    | refuses => exact ⟨⟨elements, h, hall⟩, fun hne ↦ absurd rfl hne⟩
    | takes x c' hfirst =>
      obtain ⟨left, rfl, hleft⟩ := h.takes (.cons hfirst (.nil c'))
      exact ⟨⟨left, hleft, fun y hy ↦ hall y (mem_cons_of_mem _ hy)⟩, fun hne ↦ absurd rfl hne⟩
    | waits => exact ⟨⟨elements, h, hall⟩, fun _ ↦ ⟨hfilling, fun _ hx ↦ mem_append_left _ hx⟩⟩
  next allowSmallBatch hkind =>
    have hmany : a.kind ≠ .one := kind_ne_one hkind
    have hrestored (hclosed : q.closed = true) (hfew : (q.queues.size : ℤ) < a.elementsRequested) :=
      h.restored hfilling fun htorn ↦ htears allowSmallBatch hkind ⟨hclosed, hfew, htorn⟩
    cases runDequeueMany_cases (queueClass allocate) (restore allocate) hrun with
    | small _ hclosed hfew hpos hloop =>
      obtain ⟨c', heq, hstep⟩ := hrestored hclosed hfew
      rw [heq] at hpos hloop
      obtain ⟨⟨left, hleft, hmem⟩, hwaits⟩ :=
        takesWhole_dequeueLoop hstep (hfilling.small hmany hpos) hmany hloop
      exact ⟨⟨left, hleft, hmem⟩, hwaits⟩
    | yields hclosed hfew =>
      obtain ⟨c', heq, hstep⟩ := hrestored hclosed hfew
      have hsame : { a with status := .ok } = a := by rw [← hfilling.status]
      rw [heq, hsame]
      exact ⟨⟨_, hstep, fun _ hx ↦ hx⟩, fun _ ↦ ⟨hfilling, fun _ hx ↦ mem_append_left _ hx⟩⟩
    | refuses hclosed hfew =>
      obtain ⟨c', heq, hstep⟩ := hrestored hclosed hfew
      rw [heq]
      exact ⟨⟨_, hstep, fun _ hx ↦ hx⟩, fun hne ↦ absurd rfl hne⟩
    | loops _ hloop => exact takesWhole_dequeueLoop h hfilling hmany hloop

end TakesWhole

/-! ### Copying an element of a batch -/

/-- The first component of the element is copied, and one behind it is not. -/
def TornElement (allocate : ℕ → Fin n → Status) (c : ComponentQueues n β) (index : ℕ) : Prop :=
  c.componentStatus allocate index 0 = .ok ∧ ∃ i, c.componentStatus allocate index i ≠ .ok

/-- An element is pushed as a whole or not at all, unless it is torn. -/
theorem copyAll_cases (h : ¬ TornElement allocate c index) (tuple : ComponentTuple n β) :
    (∃ status, status ≠ .ok ∧ c.copyAll allocate tuple index (List.finRange n) = (c, status)) ∨
      (∀ i, c.componentStatus allocate index i = .ok) ∧
        c.copyAll allocate tuple index (List.finRange n) =
          (c.pushAll tuple (List.finRange n), .ok) := by
  by_cases hfirst : c.componentStatus allocate index 0 = .ok
  · have hall : ∀ i, c.componentStatus allocate index i = .ok := fun i ↦ by
      by_contra hi
      exact h ⟨hfirst, i, hi⟩
    exact .inr ⟨hall, copyAll_of_copied fun i _ ↦ hall i⟩
  · refine .inl ⟨_, hfirst, ?_⟩
    obtain ⟨m, rfl⟩ := Nat.exists_eq_succ_of_ne_zero (NeZero.ne n)
    rw [finRange_succ, copyAll]
    exact if_pos hfirst

/-- The loop of an enqueue attempt, with room for `room` more elements, comes to an element that is
torn. -/
def TearsBatch (allocate : ℕ → Fin n → Status) (c : ComponentQueues n β)
    (batch : List (ComponentTuple n β)) (room : ℕ) (elementsRequested : ℤ) : Prop :=
  ∃ k < room, batchIndex batch elementsRequested k < batch.length ∧
    (∀ j < k, ∀ i, c.componentStatus allocate (batchIndex batch elementsRequested j) i = .ok) ∧
    TornElement allocate c (batchIndex batch elementsRequested k)

section Batch

variable {batch : List (ComponentTuple n β)} {room : ℕ} {requested : ℤ}

/-- The first iteration copies its element as a whole or not at all. -/
theorem not_tornElement_of_not_tears {x : ComponentTuple n β}
    (h : ¬ TearsBatch allocate c batch (room + 1) requested)
    (helement : batchElement .int64 batch requested = some (index, x)) :
    index = batchIndex batch requested 0 ∧ ¬ TornElement allocate c index := by
  unfold batchElement at helement
  dsimp only [IndexType.narrow] at helement
  split at helement
  · cases helement
  obtain ⟨y, hy, heq⟩ := Option.map_eq_some_iff.1 helement
  cases heq
  obtain ⟨hlt, -⟩ := List.getElem?_eq_some_iff.1 hy
  have hindex : ((batch.length : ℤ) - requested).toNat = batchIndex batch requested 0 := by
    rw [batchIndex, Nat.cast_zero, Int.sub_zero]
  rw [hindex] at hlt ⊢
  exact ⟨rfl, fun htorn ↦ h ⟨0, Nat.succ_pos room, hlt, nofun, htorn⟩⟩

/-- So do the iterations after an element that is copied. -/
theorem not_tears_succ (h : ¬ TearsBatch allocate c batch (room + 1) requested)
    (hcopied : ∀ i, c.componentStatus allocate (batchIndex batch requested 0) i = .ok) :
    ¬ TearsBatch allocate (c.pushAll tuple (List.finRange n)) batch room (requested - 1) := by
  have hsame : ∀ index i, (c.pushAll tuple (finRange n)).componentStatus allocate index i =
      c.componentStatus allocate index i := fun index i ↦ by
    rw [componentStatus, componentStatus, componentDtypes_pushAll]
  rintro ⟨k, hk, hindex, hbefore, htorn⟩
  rw [← batchIndex_succ] at hindex htorn
  refine h ⟨k + 1, Nat.succ_lt_succ hk, hindex, fun j hj i ↦ ?_, ?_⟩
  · cases j with
    | zero => exact hcopied i
    | succ j =>
      rw [batchIndex_succ, ← hsame]
      exact hbefore j (Nat.lt_of_succ_lt_succ hj) i
  · rw [TornElement] at htorn ⊢
    simp only [hsame] at htorn
    exact htorn

end Batch

/-- What a closure of an enqueue attempt does to deques in step. -/
def PushesWhole (elements : List (ComponentTuple n β)) (a : EnqueueAttempt (ComponentTuple n β))
    (r : EnqueueRun (ComponentQueues n β) (ComponentTuple n β)) : Prop :=
  ∃ pushed, r.events = pushed.map (.enqueued a.op) ∧ InStep r.queues (elements ++ pushed)

/-- The closure of an enqueue attempt that is not torn. -/
theorem pushesWhole_runEnqueue {q : QueueBase (ComponentQueues n β) (ComponentTuple n β)}
    {a : EnqueueAttempt (ComponentTuple n β)} (h : InStep q.queues elements)
    (htears : ∀ batch, a.kind = .many batch → ¬ q.closed = true →
      ¬ TearsBatch allocate q.queues batch (q.capacity - q.queues.size) a.elementsRequested) :
    PushesWhole elements a (q.runEnqueue (queueClass allocate) a).1 := by
  refine runEnqueue_cases (R := fun c pushed ↦ InStep c (elements ++ pushed)) (by rwa [append_nil])
    (fun x ↦ h.pushAll x) fun batch hkind hopen ↦ ?_
  refine enqueueLoop_rule (queueOps allocate) batch [] _
    (I := fun room requested c pushed ↦ InStep c (elements ++ pushed) ∧
      ¬ TearsBatch allocate c batch room requested)
    (R := fun c pushed ↦ InStep c (elements ++ pushed))
    (fun {room requested c pushed index x} hI helement hok ↦ ?_)
    (fun {room requested c pushed index x} hI helement hne ↦ ?_) (fun hI ↦ hI.1)
    ⟨by rwa [append_nil], htears batch hkind hopen⟩
  · obtain ⟨hindex, hwhole⟩ := not_tornElement_of_not_tears hI.2 helement
    change (c.copyAll allocate x index (finRange n)).2 = .ok at hok
    show InStep (c.copyAll allocate x index (finRange n)).1 _ ∧ (_ →
      InStep (c.copyAll allocate x index (finRange n)).1 _ ∧
        ¬ TearsBatch allocate (c.copyAll allocate x index (finRange n)).1 batch room _)
    obtain ⟨status, hstatus, hcopy⟩ | ⟨hcopied, hcopy⟩ := copyAll_cases hwhole x
    · rw [hcopy] at hok
      exact absurd hok hstatus
    · rw [hcopy, ← append_assoc]
      exact ⟨hI.1.pushAll x, fun _ ↦ ⟨hI.1.pushAll x, not_tears_succ hI.2 (hindex ▸ hcopied)⟩⟩
  · obtain ⟨-, hwhole⟩ := not_tornElement_of_not_tears hI.2 helement
    change (c.copyAll allocate x index (finRange n)).2 ≠ .ok at hne
    show InStep (c.copyAll allocate x index (finRange n)).1 _
    obtain ⟨status, -, hcopy⟩ | ⟨-, hcopy⟩ := copyAll_cases hwhole x
    · rw [hcopy]
      exact hI.1
    · rw [hcopy] at hne
      exact absurd rfl hne

/-! ### Along a run -/

variable {s s' : System n β}

/-- The deques have the same length, and what they have at a position comes from the same element
that an operation has put in. -/
def KeepsInStep (s : System n β) : Prop :=
  ∃ elements, InStep s.q.queues elements ∧ ∀ x ∈ elements, x ∈ s.enqueued

/-- The deques are in step, and the dequeue attempts hold elements that have been put in. -/
structure Inv (s : System n β) : Prop where
  inStep : KeepsInStep s
  attempts : ∀ a ∈ live s.q.dequeueAttempts, Filling a ∧ ∀ x ∈ collected a, x ∈ s.enqueued

omit [NeZero n] in
theorem inv_init (capacity : ℕ) (name : ByteString) (specifiedShapes : Bool)
    (componentDtypes : Fin n → DataType) :
    Inv (init (β := β) capacity name specifiedShapes componentDtypes) where
  inStep := ⟨[], inStep_empty componentDtypes, nofun⟩
  attempts := forall_mem_nil _

/-- The flush that the action continues runs an attempt in which a copy fails between the first
component of an element and the last one, or as an element is put back. -/
def Tears (s : System n β) (action : Step n β) : Prop :=
  action.2 = .flush ∧ ∃ f, s.flush = some f ∧
    match f.pass with
    | .enqueue => ∃ a rest batch, s.q.enqueueAttempts = a :: rest ∧ ¬ a.isCancelled = true ∧
        a.kind = .many batch ∧ ¬ s.q.closed = true ∧
        TearsBatch action.1 s.q.queues batch (s.q.capacity - s.q.queues.size) a.elementsRequested
    | .dequeue =>
      ∃ a rest allowSmallBatch, s.q.dequeueAttempts = a :: rest ∧ ¬ a.isCancelled = true ∧
        a.kind = .many allowSmallBatch ∧ TearsAttempt action.1 s.q a

theorem keepsAttempts (allocate : ℕ → Fin n → Status) :
    KeepsAttempts (queueClass allocate : QueueClass (ComponentQueues n β) (ComponentTuple n β)) :=
  keepsAttempts_of_restores Status.noConfusion rfl

omit [NeZero n] in
theorem enqueued_subset {events : List (QueueEvent (ComponentTuple n β))}
    (h : s'.history = s.history ++ events) {x : ComponentTuple n β} (hx : x ∈ s.enqueued) :
    x ∈ s'.enqueued := by
  rw [QueueBase.System.enqueued, h, filterMap_append]
  exact mem_append_left _ hx

/-- A step that tears nothing pushes and pops all components of an element. -/
theorem inv_step {action : Step n β} (h : Inv s) (htears : ¬ Tears s action)
    (hstep : step s action = some s') : Inv s' := by
  obtain ⟨⟨elements, hin, henqueued⟩, hattempts⟩ := h
  have hsame (events : List (QueueEvent (ComponentTuple n β))) (hqueues : s'.q.queues = s.q.queues)
      (hhistory : s'.history = s.history ++ events)
      (hlive : ∀ a ∈ live s'.q.dequeueAttempts, a ∈ live s.q.dequeueAttempts ∨
        Filling a ∧ a.tuple = none) : Inv s' := by
    refine ⟨⟨elements, hqueues ▸ hin, fun x hx ↦ enqueued_subset hhistory (henqueued x hx)⟩,
      fun a ha ↦ ?_⟩
    obtain ha | ⟨hfilling, hnone⟩ := hlive a ha
    · exact ⟨(hattempts a ha).1, fun x hx ↦ enqueued_subset hhistory ((hattempts a ha).2 x hx)⟩
    · rw [collected_of_tuple hnone]
      exact ⟨hfilling, nofun⟩
  cases QueueBase.System.step_effect (keepsAttempts action.1).unspecifiedShapes hstep with
  | quiet same hlive =>
    exact hsame [] same.queues (by rw [same.history, append_nil]) fun a ha ↦ .inl (hlive ▸ ha)
  | arrives kind requested hpos same hlive =>
    refine hsame [] same.queues (by rw [same.history, append_nil]) fun a ha ↦ ?_
    rw [hlive] at ha
    refine (mem_append.1 ha).imp_right fun ha ↦ ?_
    rw [mem_singleton.1 ha]
    exact ⟨filling_attempt s kind hpos, rfl⟩
  | leaves _ _ before after a _ hqueues _ hhistory _ hlive hlive' =>
    refine hsame _ hqueues hhistory fun b hb ↦ .inl ?_
    rw [hlive'] at hb
    rw [hlive]
    exact ((sublist_cons_self a after).append_left before).subset hb
  | enqueues f a rest haction hflush hpass hhead hlive hqueues hhistory _ _ hdequeues =>
    obtain ⟨pushed, hevents, hstep'⟩ :=
      pushesWhole_runEnqueue (a := a) hin fun batch hkind hopen htorn ↦
      htears ⟨haction, f, hflush, by rw [hpass]; exact ⟨a, rest, batch, hhead, hlive, hkind,
        hopen, htorn⟩⟩
    have hnew : s'.enqueued = s.enqueued ++ pushed := by
      rw [QueueBase.System.enqueued, hhistory, filterMap_append, hevents, enqueued_map]
      rfl
    refine ⟨⟨elements ++ pushed, hqueues ▸ hstep', fun x hx ↦ ?_⟩, fun b hb ↦ ?_⟩
    · rw [hnew]
      exact mem_append.2 ((mem_append.1 hx).imp_left (henqueued x))
    · rw [hdequeues] at hb
      exact ⟨(hattempts b hb).1, fun x hx ↦ enqueued_subset hhistory ((hattempts b hb).2 x hx)⟩
  | dequeues f a rest r haction hflush hpass hhead hlive hrun hqueues hhistory _ hdequeues =>
    have hliveEq : live s.q.dequeueAttempts = a :: live rest := by rw [hhead, live_cons hlive]
    obtain ⟨hfilling, hcollected⟩ := hattempts a (hliveEq ▸ mem_cons_self)
    obtain ⟨⟨left, hstep', hleft⟩, hwaits⟩ :=
      takesWhole_runDequeue hin hfilling (fun b hkind htorn ↦
      htears ⟨haction, f, hflush, by rw [hpass]; exact ⟨a, rest, b, hhead, hlive, hkind, htorn⟩⟩)
        hrun
    have hknown : ∀ x ∈ collected a ++ elements, x ∈ s'.enqueued := fun x hx ↦
      enqueued_subset hhistory ((mem_append.1 hx).elim (hcollected x) (henqueued x))
    have hrest : ∀ b ∈ live rest, Filling b ∧ ∀ x ∈ collected b, x ∈ s'.enqueued := by
      intro b hb
      obtain ⟨hb', hcollected'⟩ := hattempts b (hliveEq ▸ mem_cons_of_mem _ hb)
      exact ⟨hb', fun x hx ↦ enqueued_subset hhistory (hcollected' x hx)⟩
    refine ⟨⟨left, hqueues ▸ hstep', fun x hx ↦ hknown x (hleft x hx)⟩, fun b hb ↦ ?_⟩
    rw [hdequeues] at hb
    split at hb
    · exact hrest b hb
    next hresult =>
      obtain hb | hb := mem_append.1 hb
      · obtain ⟨hb', hcollected'⟩ := hwaits hresult
        obtain rfl := mem_singleton.1 (mem_of_mem_filter hb)
        exact ⟨hb', fun x hx ↦ hknown x (hcollected' x hx)⟩
      · exact hrest b hb

/-- **The component queues stay in step**, in every run in which no copy fails between the first
component of an element and the last one, nor as an element is put back. What an operation puts in
is what it has been called with, whatever fails. -/
theorem keepsInStep_of_run {capacity : ℕ} {name : ByteString} {specifiedShapes : Bool}
    {componentDtypes : Fin n → DataType} {actions : List (Step n β)}
    (hrun : run step (init capacity name specifiedShapes componentDtypes) actions = some s)
    (hactions : Along step (fun t action ↦ ¬ Tears t action)
      (init capacity name specifiedShapes componentDtypes) actions) :
    KeepsInStep s ∧ s.PutsIn .int64 (actions.filterMap fun action ↦ action.2.elements) := by
  have hinv : Inv s := run_invariant_of_along (fun _ ht htears hstep ↦ inv_step ht htears hstep)
    (inv_init capacity name specifiedShapes componentDtypes) hactions hrun
  exact ⟨hinv.inStep, (QueueBase.System.putsIn_of_run Prod.snd
    (fun {_ _ b} hstep ↦ ⟨queueClass b.1, keepsAttempts b.1, rfl, hstep⟩) hrun).2⟩

/-- Nothing is torn where everything is copied. -/
theorem not_tears_of_copied {action : Step n β}
    (h : ∀ index i, s.q.queues.componentStatus action.1 index i = .ok) : ¬ Tears s action := by
  rintro ⟨-, f, -, htorn⟩
  cases hpass : f.pass with
  | enqueue =>
    rw [hpass] at htorn
    obtain ⟨a, rest, batch, -, -, -, -, k, -, -, -, -, i, hi⟩ := htorn
    exact hi (h _ i)
  | dequeue =>
    rw [hpass] at htorn
    obtain ⟨a, rest, allowSmallBatch, -, -, -, -, -, slots, -, index, -, i, hi⟩ := htorn
    exact hi (h index i)

/-- An element of two components is enqueued, as a batch of one. -/
def enqueueBatch (allocate : ℕ → Fin 2 → Status) : List (Step 2 ℕ) :=
  [(allocate, .tryEnqueueMany [fun i ↦ some i.val] false), (allocate, .beginFlush),
    (allocate, .flush)]

/-- With memory for both of its components. -/
theorem keepsInStep_enqueueBatch : ∃ s,
    run step (init 8 [] true fun _ ↦ 1) (enqueueBatch fun _ _ ↦ .ok) = some s ∧
      KeepsInStep s ∧ s.PutsIn .int64 [[fun i ↦ some i.val]] := by
  have hwhole : Along step (fun t action ↦ ¬ Tears t action) (init 8 [] true fun _ ↦ 1)
      (enqueueBatch fun _ _ ↦ .ok) :=
    (along_cons_of_step rfl).2 ⟨not_tears_of_copied fun _ _ ↦ rfl, (along_cons_of_step rfl).2
      ⟨not_tears_of_copied fun _ _ ↦ rfl, (along_cons_of_step rfl).2
        ⟨not_tears_of_copied fun _ _ ↦ rfl, trivial⟩⟩⟩
  exact ⟨_, rfl, keepsInStep_of_run rfl hwhole⟩

/-- With memory for the first component only, that one stays in its deque. -/
theorem torn_enqueueBatch : ∃ s,
    run step (init 8 [] true fun _ ↦ 1)
      (enqueueBatch fun _ i ↦ if i = 0 then .ok else .error .resourceExhausted []) = some s ∧
    ¬ KeepsInStep s := by
  refine ⟨_, rfl, ?_⟩
  rintro ⟨elements, hstep, -⟩
  have hfirst : 1 = elements.length := (congrArg length (hstep 0)).trans (length_map _)
  have hsecond : 0 = elements.length := (congrArg length (hstep 1)).trans (length_map _)
  exact absurd (hfirst.trans hsecond.symm) Nat.one_ne_zero

end ComponentQueues

end TensorFlowCore
