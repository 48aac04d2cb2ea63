import Mathlib.Data.Fin.VecNotation
import TensorFlowCore.Kernels.QueueBase.Accounting
import TensorFlowCore.Kernels.QueueBase.PutsIn
import TensorFlowCore.Kernels.RandomShuffleQueue.Model

/-!
# The shuffled queue keeps its elements and its reserve

The vectors of the components are the columns of one list of elements (`elements`), and what is done
to each of them is done to that list: a push adds an element, and a dequeue takes one out
(`elements_dequeueLocked`). So the closures account for what they move (`accounts`). The number of
elements that a dequeue may take is what the queue has beyond its reserve, and the loop takes no
more than that (`dequeueSpec`).
-/

namespace TensorFlowCore

open GuardedRun List QueueBase QueueEvent

namespace RandomShuffleQueue

variable {n : ℕ} [NeZero n] {β : Type}

/-! ### Rows -/

/-- The elements, whose components are those at one index of the vectors. -/
def elements (c : RandomShuffleQueue n β) : List (Fin n → β) :=
  List.ofFn fun k : Fin c.size ↦ fun i ↦ (c.queues i).get (k.cast (c.aligned i).symm)

/-- A vector is a column of the elements. -/
theorem map_elements (c : RandomShuffleQueue n β) (i : Fin n) :
    c.elements.map (fun tuple ↦ tuple i) = c.queues i := by
  refine ext_getElem ?_ fun k hk hk' ↦ ?_
  · rw [length_map, elements, length_ofFn, size, c.aligned i]
  · simp only [elements, List.getElem_map, List.getElem_ofFn]
    rfl

theorem length_elements (c : RandomShuffleQueue n β) : c.elements.length = c.size :=
  length_ofFn

/-- Lists of elements with the same columns are the same. -/
theorem rows_ext {l l' : List (Fin n → β)}
    (h : ∀ i, l.map (fun tuple ↦ tuple i) = l'.map fun tuple ↦ tuple i) : l = l' := by
  have hlen : l.length = l'.length := by
    have := congrArg length (h 0)
    rwa [length_map, length_map] at this
  refine ext_getElem hlen fun k hk hk' ↦ funext fun i ↦ ?_
  have := congrArg (fun m : List β ↦ m[k]?) (h i)
  simpa [hk, hk'] using this

theorem elements_push (c : RandomShuffleQueue n β) (tuple : Fin n → β) :
    (c.push tuple).elements = c.elements ++ [tuple] :=
  rows_ext fun i ↦ by
    rw [map_elements, map_append, map_elements]
    rfl

theorem fillHole_map {γ : Type} (f : β → γ) (index : ℕ) (queue : List β) :
    fillHole index (queue.map f) = (fillHole index queue).map f := by
  unfold fillHole
  rw [getLast?_map]
  cases queue.getLast? with
  | none => rfl
  | some back => rw [map_dropLast, map_set]; rfl

/-- Filling the hole leaves the other elements. -/
theorem fillHole_perm {index : ℕ} {queue : List β} {x : β} (h : queue[index]? = some x) :
    queue.Perm (x :: fillHole index queue) := by
  obtain rfl | ⟨front, back, rfl⟩ := queue.eq_nil_or_concat'
  · cases h
  -- the vector still ends with its last element when that is in the hole
  have hset : (front ++ [back]).set index back = ((front ++ [back]).set index back).dropLast ++
      [back] := by
    obtain hlt | hge := Nat.lt_or_ge index front.length
    · rw [set_append_left _ _ hlt, dropLast_concat]
    · obtain ⟨hindex, -⟩ := List.getElem?_eq_some_iff.1 h
      rw [length_append, length_singleton] at hindex
      obtain rfl : index = front.length := by omega
      rw [set_append_right _ _ le_rfl, Nat.sub_self, set_cons_zero, dropLast_concat]
  have hswap := getD_set_perm_cons (front ++ [back]) index back
  rw [h, Option.getD_some, hset] at hswap
  have hhole : fillHole index (front ++ [back]) = ((front ++ [back]).set index back).dropLast := by
    rw [fillHole, getLast?_append]
    rfl
  rw [hhole]
  refine (Perm.cons_inv (a := back) ?_).symm
  exact ((perm_append_singleton back _).symm.cons x |>.symm.trans (.swap _ _ _)).symm.trans hswap

section

variable {c c' : RandomShuffleQueue n β} {tuple : Fin n → β}
  (h : c.dequeueLocked = some (tuple, c'))
include h

/-- A dequeue takes one element out. -/
theorem elements_dequeueLocked : c.elements.Perm (tuple :: c'.elements) := by
  unfold dequeueLocked at h
  split at h
  next hpos =>
    obtain ⟨htuple, hrest⟩ := Prod.mk.inj (Option.some.inj h)
    have hhole : c'.elements = fillHole ((c.generator 0).toNat % c.size) c.elements :=
      rows_ext fun i ↦ by
        rw [← fillHole_map, map_elements, map_elements, ← hrest]
    rw [hhole]
    refine fillHole_perm ?_
    rw [elements, List.getElem?_ofFn, dif_pos (Nat.mod_lt _ hpos), ← htuple]
    rfl
  · cases h

theorem size_dequeueLocked : c.size = c'.size + 1 ∧ c'.minAfterDequeue = c.minAfterDequeue := by
  refine ⟨?_, ?_⟩
  · rw [← length_elements, ← length_elements, (elements_dequeueLocked h).length_eq, length_cons]
  · unfold dequeueLocked at h
    split at h
    · rw [← (Prod.mk.inj (Option.some.inj h)).2]
    · cases h

end

theorem isSome_dequeueLocked {c : RandomShuffleQueue n β} (h : 0 < c.size) :
    c.dequeueLocked.isSome := by
  unfold dequeueLocked
  rw [dif_pos h]
  rfl

/-! ### What the closures move -/

/-- The elements in the queue. -/
def contents (c : RandomShuffleQueue n β) : Multiset (Fin n → β) := c.elements

theorem contents_push (c : RandomShuffleQueue n β) (tuple : Fin n → β) :
    contents (c.push tuple) = contents c + {tuple} := by
  rw [contents, elements_push, ← Multiset.coe_add]
  rfl

theorem contents_dequeueLocked {c c' : RandomShuffleQueue n β} {tuple : Fin n → β}
    (h : c.dequeueLocked = some (tuple, c')) : contents c = {tuple} + contents c' := by
  rw [contents, Multiset.coe_eq_coe.2 (elements_dequeueLocked h)]
  rfl

theorem keepsAttempts : KeepsAttempts (queueClass (n := n) (β := β)) :=
  keepsAttempts_of_restores Status.noConfusion rfl

theorem moves : Moves (queueClass (n := n) (β := β)).toQueueOps enqueued? contents where
  lost _ := rfl
  dequeueLocked h := (add_zero _).trans (contents_dequeueLocked h)

theorem restore_spec (slots : List (Option (Fin n → β))) (k : ℕ) (c : RandomShuffleQueue n β)
    (status : Status) :
    (restore slots k c status).2 = status ∧
      contents (restore slots k c status).1 = contents c + (slots.take k).filterMap id ∧
      (restore slots k c status).1.minAfterDequeue = c.minAfterDequeue := by
  induction k generalizing c with
  | zero => exact ⟨rfl, (add_zero _).symm, rfl⟩
  | succ k ih =>
    rw [restore, take_add_one]
    cases hslot : slots[k]? with
    | none => simpa using ih c
    | some slot =>
      cases slot with
      | none => simpa using ih c
      | some tuple =>
        obtain ⟨hok, hcontents, hmin⟩ := ih (c.push tuple)
        refine ⟨hok, ?_, hmin⟩
        rw [hcontents, contents_push, filterMap_append, ← Multiset.coe_add, add_assoc,
          add_comm ({tuple} : Multiset (Fin n → β))]
        rfl

section Closures

variable {q : QueueBase (RandomShuffleQueue n β) (Fin n → β)} {a : DequeueAttempt (Fin n → β)}
  {c c' : RandomShuffleQueue n β} {r : DequeueRun (RandomShuffleQueue n β) (Fin n → β)}

/-- Restoring puts back everything that the attempt has collected. -/
theorem restored_spec (h : Filling a) :
    (restored restore q a).2 = .ok ∧
      contents (restored restore q a).1 = collected a + contents q.queues ∧
      (restored restore q a).1.minAfterDequeue = q.queues.minAfterDequeue := by
  unfold restored
  cases htuple : a.tuple with
  | none =>
    rw [collected_of_tuple htuple, Option.elim_none]
    exact ⟨h.status, (zero_add _).symm, rfl⟩
  | some slots =>
    obtain ⟨hfilled, htake, -⟩ := h.filledSlots_eq htuple
    obtain ⟨hok, hcontents, hmin⟩ := restore_spec slots (filledSlots slots a) q.queues a.status
    rw [Option.elim_some]
    refine ⟨hok.trans h.status, ?_, hmin⟩
    rw [hcontents, hfilled, htake, add_comm]

/-- The elements that are taken leave the others, and the reserve is what it was. -/
theorem takes_spec {taken : List (Fin n → β)} (h : Takes queueOps c taken c') :
    c.size = taken.length + c'.size ∧ c'.minAfterDequeue = c.minAfterDequeue := by
  induction h with
  | nil => exact ⟨(Nat.zero_add _).symm, rfl⟩
  | cons first _ ih =>
    obtain ⟨hsize, hmin⟩ := size_dequeueLocked first
    refine ⟨?_, ih.2.trans hmin⟩
    rw [hsize, ih.1, length_cons]
    omega

/-- What a run of a dequeue attempt keeps. -/
structure DequeueSpec (q : QueueBase (RandomShuffleQueue n β) (Fin n → β))
    (a : DequeueAttempt (Fin n → β)) (r : DequeueRun (RandomShuffleQueue n β) (Fin n → β)) :
      Prop where
  accounts : DequeueAccounts enqueued? contents a q.queues r
  lost : r.events.filterMap lost? = []
  minAfterDequeue : r.queues.minAfterDequeue = q.queues.minAfterDequeue
  reserve : q.closed = false → r.queues.size < q.queues.size →
    q.queues.minAfterDequeue ≤ r.queues.size

/-- The loop of a batch dequeue takes `queueSize` elements out at most, and loses none. -/
theorem dequeueLoop_spec (h : Filling a) (hkind : a.kind ≠ .one) {queueSize : ℕ}
    {result : RunResult} (hr : dequeueLoop queueOps queueSize c a result = some r) :
    r.events.filterMap lost? = [] ∧ r.queues.minAfterDequeue = c.minAfterDequeue ∧
      c.size ≤ r.queues.size + queueSize := by
  obtain ⟨taken, htakes, houtcome⟩ := dequeueLoop_cases h hkind hr
  obtain ⟨hsize, hmin⟩ := takes_spec htakes
  cases houtcome with
  | waits _ hlength _ _ _ _ hevents =>
    rw [hevents, lost_dequeued]
    exact ⟨rfl, hmin, by omega⟩
  | hands _ hlength _ _ _ _ hevents =>
    rw [hevents, lost_dequeued]
    exact ⟨rfl, hmin, by omega⟩
  | fails _ _ _ _ _ _ _ hne hcopy => exact absurd (Option.some.inj hcopy).symm hne

/-- A dequeue loses nothing, and goes below the reserve only in a closed queue. -/
theorem dequeueSpec (h : Filling a) (hr : q.runDequeue queueClass a = some r) :
    DequeueSpec q a r := by
  have hrestored := restored_spec (q := q) h
  have haccounts := moves.runDequeue rfl (fun c hsize ↦ by
    rw [contents, eq_nil_of_length_eq_zero ((length_elements c).trans hsize)]
    rfl) ⟨hrestored.1, hrestored.2.1⟩ h hr
  have hclosed (hclosed : q.closed = true) {p : Prop} (hopen : q.closed = false) : p :=
    absurd (hclosed.symm.trans hopen) Bool.noConfusion
  unfold QueueBase.runDequeue at hr
  split at hr
  · cases runDequeueOne_cases hr with
    | refuses hc => exact ⟨haccounts, rfl, rfl, fun hopen ↦ hclosed hc hopen⟩
    | takes x c hfirst havailable =>
      obtain ⟨hsize, hmin⟩ := size_dequeueLocked hfirst
      refine ⟨haccounts, lost_dequeued [x], hmin, fun hopen _ ↦ ?_⟩
      rw [available, hopen, if_neg Bool.false_ne_true] at havailable
      change (0 : ℤ) < q.queues.size - q.queues.minAfterDequeue at havailable
      dsimp only
      omega
    | waits => exact ⟨haccounts, rfl, rfl, fun _ hlt ↦ absurd hlt (lt_irrefl _)⟩
  next allowSmallBatch hkind =>
    have hmany : a.kind ≠ .one := kind_ne_one hkind
    cases runDequeueMany_cases queueClass restore hr with
    | small _ hc _ hpos hloop =>
      rw [hrestored.1] at hloop
      obtain ⟨hlost, hmin, -⟩ := dequeueLoop_spec (h.small hmany hpos) hmany hloop
      exact ⟨haccounts, hlost, hmin.trans hrestored.2.2, fun hopen ↦ hclosed hc hopen⟩
    | yields hc => exact ⟨haccounts, rfl, hrestored.2.2, fun hopen ↦ hclosed hc hopen⟩
    | refuses hc => exact ⟨haccounts, rfl, hrestored.2.2, fun hopen ↦ hclosed hc hopen⟩
    | loops _ hloop =>
      obtain ⟨hlost, hmin, hle⟩ := dequeueLoop_spec h hmany hloop
      refine ⟨haccounts, hlost, hmin, fun hopen hlt ↦ ?_⟩
      rw [available, hopen, if_neg Bool.false_ne_true] at hle
      change q.queues.size ≤
        r.queues.size + ((q.queues.size : ℤ) - q.queues.minAfterDequeue).toNat at hle
      omega

/-- Every closure of a dequeue attempt has a result. -/
theorem isSome_runDequeue (q : QueueBase (RandomShuffleQueue n β) (Fin n → β))
    (a : DequeueAttempt (Fin n → β)) : (q.runDequeue queueClass a).isSome := by
  have hloop {queueSize : ℕ} {c : RandomShuffleQueue n β} (a : DequeueAttempt (Fin n → β))
      (h : queueSize ≤ c.size) : (dequeueLoop queueOps queueSize c a .noProgress).isSome := by
    refine isSome_dequeueLoop (I := fun k c ↦ k ≤ c.size) (fun _ _ _ ↦ rfl)
      (fun {k c} hk ↦ ?_) h a _
    obtain ⟨⟨x, c'⟩, hfirst⟩ :=
      Option.isSome_iff_exists.1 (isSome_dequeueLocked (Nat.lt_of_lt_of_le (Nat.succ_pos k) hk))
    refine ⟨x, c', hfirst, ?_⟩
    have := (size_dequeueLocked hfirst).1
    omega
  have havailable (m : ℤ) : available queueOps q m ≤ m := by
    unfold available
    split
    · exact le_rfl
    · exact Int.sub_le_self m (Int.natCast_nonneg _)
  have hsize := havailable q.queues.size
  unfold QueueBase.runDequeue
  split
  · unfold runDequeueOne
    dsimp only
    split
    · rfl
    · split
      next hpos =>
        rw [Option.isSome_map]
        refine isSome_dequeueLocked ?_
        change 0 < available queueOps q q.queues.size at hpos
        omega
      next => rfl
  · show (runDequeueMany queueOps restore q a _).isSome
    unfold runDequeueMany
    dsimp only
    split
    · split
      · exact hloop _ le_rfl
      · split <;> rfl
    · refine hloop a ?_
      show (available queueOps q q.queues.size).toNat ≤ q.queues.size
      omega

theorem runEnqueue_spec (a : EnqueueAttempt (Fin n → β)) :
    (q.runEnqueue queueClass a).1.events.filterMap lost? = [] ∧
      contents (q.runEnqueue queueClass a).1.queues =
        contents q.queues + (q.runEnqueue queueClass a).1.events.filterMap enqueued? ∧
      (q.runEnqueue queueClass a).1.queues.minAfterDequeue = q.queues.minAfterDequeue := by
  have hpush {c : RandomShuffleQueue n β} {pushed : List (Fin n → β)} (x : Fin n → β)
      (h : contents c = contents q.queues + ↑pushed ∧
      c.minAfterDequeue = q.queues.minAfterDequeue) :
      contents (c.push x) = contents q.queues + ↑(pushed ++ [x]) ∧
        (c.push x).minAfterDequeue = q.queues.minAfterDequeue := by
    rw [contents_push, h.1, ← Multiset.coe_add, add_assoc]
    exact ⟨rfl, h.2⟩
  obtain ⟨pushed, hevents, hcontents, hmin⟩ := runEnqueue_rule queueClass q a
    (R := fun c (pushed : List (Fin n → β)) ↦ contents c =
      contents q.queues + (pushed : Multiset (Fin n → β)) ∧
      c.minAfterDequeue = q.queues.minAfterDequeue)
    (fun h ↦ hpush _ h) (fun _ _ h ↦ hpush _ h) ⟨(add_zero _).symm, rfl⟩
  rw [hevents, enqueued_map, filterMap_map]
  exact ⟨filterMap_eq_nil_iff.2 fun _ _ ↦ rfl, hcontents, hmin⟩

end Closures

/-- The closures of `RandomShuffleQueue` account for what they move. -/
theorem accounts : Accounts (queueClass (n := n) (β := β)) enqueued? contents where
  unspecifiedShapes := Status.noConfusion
  lost _ := rfl
  enqueue _ a := ⟨(runEnqueue_spec a).1, (runEnqueue_spec a).2.1⟩
  dequeue _ _ _ h hr := (dequeueSpec h hr).accounts

/-! ### Runs -/

open QueueBase.System

variable {s s' : QueueBase.System (RandomShuffleQueue n β) (Fin n → β)} {m : ℕ}

/-- What every run in which no dequeue is cancelled keeps. -/
structure Inv (m : ℕ) (s : QueueBase.System (RandomShuffleQueue n β) (Fin n → β)) : Prop where
  accounted : Accounted enqueued? contents s
  lost : s.lost = []
  minAfterDequeue : s.q.queues.minAfterDequeue = m

/-- A step of an open queue that takes something out leaves the reserve. -/
def KeepsReserve (m : ℕ) (s : QueueBase.System (RandomShuffleQueue n β) (Fin n → β)) : Prop :=
  ∀ action s', step queueClass s action = some s' → s.q.closed = false →
    s'.q.queues.size < s.q.queues.size → m ≤ s'.q.queues.size

theorem size_eq_card (c : RandomShuffleQueue n β) : c.size = (contents c).card := by
  rw [contents, Multiset.coe_card, length_elements]

/-- The attempt in front of the dequeue attempts is filling its slots. -/
theorem Inv.filling (h : Inv m s) {a : DequeueAttempt (Fin n → β)}
    {rest : List (DequeueAttempt (Fin n → β))} (hattempts : s.q.dequeueAttempts = a :: rest)
    (hlive : ¬ a.isCancelled = true) : Filling a :=
  h.accounted.filling a (by rw [hattempts, live_cons hlive]; exact mem_cons_self)

/-- Every step but the cancellation of a dequeue keeps the accounts. -/
theorem inv_step (h : Inv m s) {action : Action (Fin n → β)}
    (hcancel : ∀ token, action ≠ .cancelDequeue token)
    (hstep : step queueClass s action = some s') : Inv m s' := by
  have haccounted := accounted_step accounts h.accounted hstep
  cases step_effect accounts.unspecifiedShapes hstep with
  | quiet same =>
    exact ⟨haccounted, (congrArg _ same.history).trans h.lost,
      (congrArg _ same.queues).trans h.minAfterDequeue⟩
  | arrives kind requested pos same =>
    exact ⟨haccounted, (congrArg _ same.history).trans h.lost,
      (congrArg _ same.queues).trans h.minAfterDequeue⟩
  | leaves token haction => exact absurd haction (hcancel token)
  | enqueues _ a _ _ _ _ _ _ hqueues hhistory =>
    obtain ⟨hlost, -, hmin⟩ := runEnqueue_spec (q := s.q) a
    refine ⟨haccounted, ?_, by rw [hqueues, hmin, h.minAfterDequeue]⟩
    rw [System.lost, hhistory, filterMap_append, hlost, append_nil]
    exact h.lost
  | dequeues _ a rest r _ _ _ hattempts hlive hrun hqueues hhistory =>
    have hspec := dequeueSpec (h.filling hattempts hlive) hrun
    refine ⟨haccounted, ?_, by rw [hqueues, hspec.minAfterDequeue, h.minAfterDequeue]⟩
    rw [System.lost, hhistory, filterMap_append, hspec.lost, append_nil]
    exact h.lost

theorem keepsReserve (h : Inv m s) : KeepsReserve m s := by
  intro action s' hstep hopen hlt
  cases step_effect accounts.unspecifiedShapes hstep with
  | quiet same => exact absurd hlt (by rw [same.queues]; exact lt_irrefl _)
  | arrives kind requested pos same => exact absurd hlt (by rw [same.queues]; exact lt_irrefl _)
  | leaves token _ before after a _ hqueues => exact absurd hlt (by rw [hqueues]; exact lt_irrefl _)
  | enqueues _ a _ _ _ _ _ _ hqueues =>
    obtain ⟨-, hcontents, -⟩ := runEnqueue_spec (q := s.q) a
    rw [hqueues, size_eq_card, size_eq_card, hcontents, Multiset.card_add] at hlt
    omega
  | dequeues _ a rest r _ _ _ hattempts hlive hrun hqueues =>
    have hspec := dequeueSpec (h.filling hattempts hlive) hrun
    rw [hqueues] at hlt ⊢
    exact h.minAfterDequeue ▸ hspec.reserve hopen hlt

/-- After some actions, the elements delivered, held and in the queue are those put in, each once,
and what an operation puts in is what it has been called with. The queue keeps its reserve, and its
dequeues are always defined. -/
structure Shuffles (m : ℕ) (actions : List (Action (Fin n → β)))
    (s : QueueBase.System (RandomShuffleQueue n β) (Fin n → β)) : Prop where
  elements : (s.delivered : Multiset (Fin n → β)) + s.held + s.q.queues.elements = s.enqueued
  putsIn : s.PutsIn .int (actions.filterMap Action.elements)
  reserve : KeepsReserve m s
  defined : ∀ a, (s.q.runDequeue queueClass a).isSome

/-- What the operations of a run put in. -/
theorem putsIn_of_run {capacity : ℕ} {name : ByteString} {specifiedShapes : Bool}
    {generator : ℕ → UInt32} {actions : List (Action (Fin n → β))}
    (hrun : run (step queueClass) (init capacity name specifiedShapes (empty m generator)) actions =
      some s) : s.PutsIn .int (actions.filterMap Action.elements) :=
  (QueueBase.System.putsIn_of_run id
    (fun hstep ↦ ⟨queueClass, keepsAttempts, rfl, hstep⟩) hrun).2

/-- **Shuffling without loss**, in every run in which no dequeue is cancelled. -/
theorem shuffles_of_run {capacity : ℕ} {name : ByteString} {specifiedShapes : Bool}
    {generator : ℕ → UInt32} {actions : List (Action (Fin n → β))}
    (hrun : run (step queueClass) (init capacity name specifiedShapes (empty m generator))
      actions = some s)
    (hcancel : ∀ token, Action.cancelDequeue token ∉ actions) : Shuffles m actions s := by
  have hinv : Inv m s := run_invariant
    (fun hmem ht hstep ↦ inv_step ht (fun token heq ↦ hcancel token (heq ▸ hmem)) hstep)
    ⟨accounted_init rfl, rfl, rfl⟩ hrun
  have helements := hinv.accounted.elements
  rw [hinv.lost] at helements
  exact ⟨(congrArg (· + _) (add_zero _).symm).trans helements, putsIn_of_run hrun,
    keepsReserve hinv,
    isSome_runDequeue s.q⟩

/-- Of three elements the one at index 1 is dequeued. -/
theorem shuffles_three :
    ∃ (actions : List (Action (Fin 2 → ℕ)))
      (s : QueueBase.System (RandomShuffleQueue 2 ℕ) (Fin 2 → ℕ)),
      s.delivered.map (fun tuple ↦ (tuple 0, tuple 1)) = [(2, 20)] ∧
        s.q.queues.queues 0 = [1, 3] ∧ s.q.queues.queues 1 = [10, 30] ∧ Shuffles 1 actions s := by
  refine ⟨_, _, ?_, ?_, ?_, shuffles_of_run (show run (step queueClass)
    (init 3 [] true (empty 1 fun _ ↦ 4)) [.tryEnqueueMany [![1, 10], ![2, 20], ![3, 30]] false,
      .tryDequeue false, .beginFlush, .flush, .flush, .flush] = _ from rfl) ?_⟩
  · rfl
  · rfl
  · rfl
  · simp

/-- Whatever is cancelled, each element enqueued is delivered, held, in the queue, or lost with a
cancelled dequeue, once, and what an operation enqueues is what it has been called with. -/
theorem conserves_of_run {capacity : ℕ} {name : ByteString} {specifiedShapes : Bool}
    {generator : ℕ → UInt32} {actions : List (Action (Fin n → β))}
    (hrun : run (step queueClass) (init capacity name specifiedShapes (empty m generator)) actions =
      some s) :
    (s.delivered : Multiset (Fin n → β)) + s.held + s.lost + s.q.queues.elements = s.enqueued ∧
      s.PutsIn .int (actions.filterMap Action.elements) := by
  have haccounted : Accounted enqueued? contents s :=
    run_invariant (fun _ ht hstep ↦ accounted_step accounts ht hstep) (accounted_init rfl) hrun
  exact ⟨haccounted.elements, putsIn_of_run hrun⟩

/-- A dequeue of two elements is cancelled after it has taken one. -/
theorem conserves_lost :
    ∃ s : QueueBase.System (RandomShuffleQueue 1 ℕ) (Fin 1 → ℕ), s.lost = [![7]] ∧
    (s.delivered : Multiset (Fin 1 → ℕ)) + s.held + s.lost + s.q.queues.elements = s.enqueued ∧
      s.PutsIn .int [[![7]], []] := by
  refine ⟨_, ?_, conserves_of_run (show run (step queueClass) (init 3 [] true (empty 0 fun _ ↦ 4))
    [.tryEnqueue ![7] false, .tryDequeueMany 2 false false, .beginFlush, .flush, .flush, .flush,
    .flush, .flush,
      .cancelDequeue 1] = _ from rfl)⟩
  rfl

end RandomShuffleQueue

end TensorFlowCore
