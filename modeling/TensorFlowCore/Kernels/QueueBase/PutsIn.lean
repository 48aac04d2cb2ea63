import Mathlib.Data.List.GetD
import TensorFlowCore.Kernels.QueueBase.Operations
import TensorFlowCore.Support.GuardedRun

/-!
# What operations put in

What an operation puts in is what it has been called with: in order, a prefix of its elements, and
all of them once it has completed with `OK` (`putsIn_of_run`). What a run of an attempt puts in
comes first among what remains of it (`Puts`), so that what the attempt has put in so far and what
remains of it are what it has been called with (`Tied`).

An attempt counts the elements of a batch in an `int32`. One of `2 ^ 31` elements or more is not put
in as a whole; `requested` says what of it is.
-/

namespace TensorFlowCore

open GuardedRun List

namespace QueueBase

open QueueEvent

variable {Q α : Type}

/-! ### What an enqueue puts in -/

section Puts

variable {type : IndexType} {batch : List α}

/-- The elements of a batch that its loop is going to push. -/
def restOfBatch (type : IndexType) (batch : List α) (elementsRequested : ℤ) : List α :=
  let index := type.narrow (batch.length - elementsRequested)
  if index < 0 then []
  else if 0 < elementsRequested then (batch.drop index.toNat).take elementsRequested.toNat
  else batch.drop index.toNat

/-- The elements that an enqueue of a batch puts in. -/
def requested (type : IndexType) (batch : List α) : List α :=
  restOfBatch type batch (int batch.length)

/-- The elements of an enqueue attempt that are not in the queue. -/
def remaining (type : IndexType) (a : EnqueueAttempt α) : List α :=
  match a.kind with
  | .one tuple => [tuple]
  | .many batch => restOfBatch type batch a.elementsRequested
  | .close => []

/-- How many elements an enqueue attempt is still to put in. -/
def toPut (a : EnqueueAttempt α) : ℤ :=
  match a.kind with
  | .one _ => 1
  | .many _ => a.elementsRequested
  | .close => 0

theorem int_of_lt {n : ℕ} (h : n < 2 ^ 31) : int n = n :=
  Int.bmod_eq_of_le_mul_two (by omega) (by omega)

theorem int_eq (i : ℤ) :
    int i = if i % 2 ^ 32 < 2 ^ 31 then i % 2 ^ 32 else i % 2 ^ 32 - 2 ^ 32 := by
  rw [int, Int.bmod]
  norm_num

/-- The index of the next element is the next one, unless it wraps. -/
theorem narrow_add_one (type : IndexType) {i : ℤ} (h : 0 ≤ type.narrow i) :
    type.narrow (i + 1) < 0 ∨ type.narrow (i + 1) = type.narrow i + 1 := by
  cases type with
  | int64 => exact .inr rfl
  | int =>
    dsimp only [IndexType.narrow] at h ⊢
    rw [int_eq] at h
    rw [int_eq (i + 1), int_eq i]
    split at h <;> split <;> omega

/-- The index of the first element leaves room for all that are requested. -/
theorem narrow_first (type : IndexType) (n : ℕ) :
    0 ≤ type.narrow (n - int n) ∧ type.narrow (n - int n) + int n ≤ n := by
  have hle : int n ≤ n := by
    rw [int_eq]
    split <;> omega
  cases type with
  | int64 =>
    dsimp only [IndexType.narrow]
    omega
  | int =>
    have hzero : int (n - int n) = 0 := by
      rw [int_eq, int_eq]
      split <;> split <;> omega
    dsimp only [IndexType.narrow]
    omega

theorem length_requested (h : 0 < int batch.length) :
    ((requested type batch).length : ℤ) = int batch.length := by
  obtain ⟨hpos, hle⟩ := narrow_first type batch.length
  rw [requested, restOfBatch]
  rw [if_neg (by omega), if_pos h, length_take, length_drop]
  omega

/-- A batch that an `int32` counts is put in as a whole. -/
theorem requested_of_lt (h : batch.length < 2 ^ 31) : requested type batch = batch := by
  have hint := int_of_lt h
  have hfirst : type.narrow 0 = 0 := by cases type <;> rfl
  rw [requested, restOfBatch, hint, Int.sub_self, hfirst, if_neg (by decide)]
  split
  · exact take_length
  · rfl

/-- What remains of a batch after its next element. -/
theorem restOfBatch_of_element {requested : ℤ} {index : ℕ} {x : α}
    (h : batchElement type batch requested = some (index, x)) :
    (requested - 1 ≠ 0 → x :: restOfBatch type batch (requested - 1) <+:
      restOfBatch type batch requested) ∧
      (requested - 1 = 0 → restOfBatch type batch requested = [x]) := by
  unfold batchElement at h
  dsimp only at h
  split at h
  · cases h
  next hpos =>
    obtain ⟨y, hy, heq⟩ := Option.map_eq_some_iff.1 h
    cases heq
    obtain ⟨hlt, rfl⟩ := List.getElem?_eq_some_iff.1 hy
    have hdrop := drop_eq_getElem_cons hlt
    have hrest : restOfBatch type batch requested =
        if 0 < requested then
          (batch.drop (type.narrow (batch.length - requested)).toNat).take requested.toNat
        else batch.drop (type.narrow (batch.length - requested)).toNat := if_neg hpos
    refine ⟨fun hmore ↦ ?_, fun hlast ↦ ?_⟩
    · have hshift : (batch.length : ℤ) - (requested - 1) = batch.length - requested + 1 := by omega
      rw [hrest, hdrop, restOfBatch, hshift]
      obtain hneg | hnext := narrow_add_one type (not_lt.1 hpos)
      · rw [if_pos hneg]
        split
        next hrequested =>
          obtain ⟨k, hk⟩ : ∃ k, requested.toNat = k + 1 := ⟨requested.toNat - 1, by omega⟩
          rw [hk, take_succ_cons]
          exact ⟨_, rfl⟩
        · exact ⟨_, rfl⟩
      · have hindex : (type.narrow (batch.length - requested) + 1).toNat =
            (type.narrow (batch.length - requested)).toNat + 1 := by omega
        rw [hnext, if_neg (by omega), hindex]
        split
        next hrequested =>
          obtain ⟨k, hk⟩ : ∃ k, requested.toNat = k + 1 := ⟨requested.toNat - 1, by omega⟩
          rewrite [if_pos (by omega), hk, take_succ_cons, show (requested - 1).toNat = k by omega]
          exact prefix_rfl
        next hrequested =>
          rewrite [if_neg (by omega)]
          exact prefix_rfl
    · rw [hrest, if_pos (by omega), hdrop, show requested.toNat = 0 + 1 by omega, take_succ_cons,
        take_zero]

/-- What the run of an attempt puts in comes first among what remains of it, and is all of that if
the attempt completes with `OK`. -/
structure Puts (type : IndexType) (a : EnqueueAttempt α) (r : EnqueueRun Q α) (pushed : List α) :
    Prop where
  events : r.events = pushed.map (.enqueued a.op)
  waits : r.result ≠ .complete → pushed ++ remaining type r.attempt <+: remaining type a ∧
    pushed.length + toPut r.attempt = toPut a
  front : pushed <+: remaining type a
  all : r.result = .complete → r.attempt.status = .ok →
    (pushed.length : ℤ) = toPut a ∧ (pushed = [] → a.kind.elements = [])

theorem puts_refused {a : EnqueueAttempt α} {queues : Q} {status : Status} (h : status ≠ .ok) :
    Puts type a ⟨.complete, queues, a.setStatus status, []⟩ [] where
  events := rfl
  waits hne := absurd rfl hne
  front := nil_prefix
  all _ hok := absurd hok (setStatus_ne_ok a h)

theorem puts_waits {a : EnqueueAttempt α} {queues : Q} {result : RunResult}
    (h : result ≠ .complete) :
    Puts type a ⟨result, queues, a, []⟩ [] where
  events := rfl
  waits _ := ⟨prefix_rfl, Int.zero_add _⟩
  front := nil_prefix
  all hc := absurd hc h

/-- The loop of a batch enqueue, by induction on the room. -/
theorem puts_enqueueLoop {ops : QueueOps Q α} (room : ℕ) {c : Q} {a : EnqueueAttempt α}
    (hkind : a.kind = .many batch) {result : RunResult} (hresult : result ≠ .complete) :
    ∃ pushed, Puts ops.indexType a (enqueueLoop ops batch room c a result) pushed := by
  induction room generalizing c a result with
  | zero => exact ⟨[], puts_waits hresult⟩
  | succ room ih =>
    have hremaining : remaining ops.indexType a = restOfBatch ops.indexType batch
        a.elementsRequested := by
      rw [remaining, hkind]
    have htoPut : toPut a = a.elementsRequested := by rw [toPut, hkind]
    unfold enqueueLoop
    split
    · exact ⟨[], puts_refused Status.noConfusion⟩
    next index x helement =>
      obtain ⟨hmore, hlast⟩ := restOfBatch_of_element helement
      dsimp only
      split
      next hstatus => exact ⟨[], puts_refused hstatus⟩
      next =>
        split
        next hzero =>
          refine ⟨[x], rfl, fun hne ↦ absurd rfl hne, ?_, fun _ _ ↦ ⟨?_, nofun⟩⟩
          · rewrite [hremaining, hlast hzero]
            exact prefix_rfl
          · rw [htoPut, length_singleton]
            omega
        next hne =>
          obtain ⟨pushed, hputs⟩ := ih (c := (ops.pushFrom x index c).1)
            (a := { a with elementsRequested := a.elementsRequested - 1 }) hkind
            (show RunResult.progress ≠ .complete from RunResult.noConfusion)
          have hremaining' : remaining ops.indexType
              { a with elementsRequested := a.elementsRequested - 1 } =
              restOfBatch ops.indexType batch (a.elementsRequested - 1) := by
            rw [remaining, hkind]
          have htoPut' : toPut { a with elementsRequested := a.elementsRequested - 1 } =
              a.elementsRequested - 1 := by rw [toPut, hkind]
          have hcons {ys : List α}
              (hys : ys <+: remaining ops.indexType
                { a with elementsRequested := a.elementsRequested - 1 }) :
              x :: ys <+: remaining ops.indexType a := by
            rw [hremaining'] at hys
            rw [hremaining]
            exact ((prefix_cons_inj x).2 hys).trans (hmore hne)
          refine ⟨x :: pushed, congrArg _ hputs.events, fun hc ↦ ?_, hcons hputs.front,
            fun hc hok ↦ ?_⟩
          · obtain ⟨hfront, hlength⟩ := hputs.waits hc
            refine ⟨hcons hfront, ?_⟩
            rw [htoPut'] at hlength
            rw [htoPut, length_cons, Nat.cast_succ]
            dsimp only at hlength ⊢
            omega
          · have hlength := (hputs.all hc hok).1
            rw [htoPut'] at hlength
            rw [htoPut, length_cons, Nat.cast_succ]
            exact ⟨by omega, nofun⟩

/-- `run_callback` of an enqueue attempt. -/
theorem puts_runEnqueue (cls : QueueClass Q α) (q : QueueBase Q α) (a : EnqueueAttempt α) :
    ∃ pushed, Puts cls.indexType a (q.runEnqueue cls a).1 pushed := by
  unfold QueueBase.runEnqueue
  split
  next tuple hkind =>
    unfold runEnqueueOne
    split
    · exact ⟨[], puts_refused Status.noConfusion⟩
    · split
      · dsimp only
        split
        next hstatus => exact ⟨[], puts_refused hstatus⟩
        next =>
          refine ⟨[tuple], rfl, fun hne ↦ absurd rfl hne, ?_, fun _ _ ↦ ⟨?_, nofun⟩⟩
          · rewrite [show remaining cls.indexType a = [tuple] by rw [remaining, hkind]]
            exact prefix_rfl
          · rw [toPut, hkind]
            rfl
      · exact ⟨[], puts_waits RunResult.noConfusion⟩
  next batch hkind =>
    unfold runEnqueueMany
    split
    · exact ⟨[], puts_refused Status.noConfusion⟩
    · exact puts_enqueueLoop _ hkind RunResult.noConfusion
  next hkind =>
    split
    · exact ⟨[], puts_refused Status.noConfusion⟩
    · refine ⟨[], rfl, fun hne ↦ absurd rfl hne, nil_prefix, fun _ _ ↦ ⟨?_, fun _ ↦ ?_⟩⟩
      · rw [toPut, hkind]
        rfl
      · rw [hkind]
        rfl

end Puts

/-! ### What the operations put in -/

namespace System

/-- The elements that have been put in, in that order. -/
def enqueued (s : System Q α) : List α := s.history.filterMap enqueued?

/-- Those that an operation has put in. -/
def putInBy (s : System Q α) (op : ℕ) : List α := s.history.filterMap (enqueuedBy? op)

/-- What operations put in, of which the `op`th has been called with `calls[op]`: its elements in
order, and all of them once it has completed with `OK`. What is requested is the whole of a batch
that an `int32` counts. -/
structure PutsIn (type : IndexType) (calls : List (List α)) (s : System Q α) : Prop where
  front : ∀ op, s.putInBy op <+: requested type (calls.getD op [])
  all : ∀ c ∈ s.completed, c.status = .ok →
    s.putInBy c.op = requested type (calls.getD c.op [])
  whole : ∀ batch ∈ calls, batch.length < 2 ^ 31 → requested type batch = batch

/-- What makes it so: an attempt puts in what it has put in so far, and then what remains of it. -/
structure Tied (type : IndexType) (calls : List (List α)) (s : System Q α) : Prop where
  front : ∀ op, s.putInBy op <+: requested type (calls.getD op [])
  all : ∀ c ∈ s.completed, c.status = .ok →
    s.putInBy c.op = requested type (calls.getD c.op [])
  length_eq : calls.length = s.nextOp
  enqueue : ∀ a ∈ live s.q.enqueueAttempts, calls.getD a.op [] = a.kind.elements ∧
    s.putInBy a.op ++ remaining type a <+: requested type a.kind.elements ∧
    ((s.putInBy a.op).length : ℤ) + toPut a = int a.kind.elements.length
  dequeue : ∀ a ∈ live s.q.dequeueAttempts, calls.getD a.op [] = []

section Tied

variable {type : IndexType} {calls : List (List α)} {s s' : System Q α} {action : Action α}

theorem requested_nil (type : IndexType) : requested type ([] : List α) = [] :=
  requested_of_lt (Nat.two_pow_pos 31)

theorem tied_init (capacity : ℕ) (name : ByteString) (specifiedShapes : Bool) (empty : Q) :
    Tied type [] (init capacity name specifiedShapes empty : System Q α) where
  front _ := nil_prefix
  all _ hc := nomatch hc
  length_eq := rfl
  enqueue _ ha := nomatch ha
  dequeue _ ha := nomatch ha

/-- An operation that is called with nothing puts nothing in. -/
theorem Tied.putInBy_eq_nil (h : Tied type calls s) {op : ℕ} (hop : calls.getD op [] = []) :
    s.putInBy op = [] := by
  have hfront := h.front op
  rw [hop, requested_nil] at hfront
  exact prefix_nil.1 hfront

/-- A step that puts nothing in, and in which only an operation completes that puts nothing in. -/
theorem Tied.of_subset (h : Tied type calls s) (hnext : s'.nextOp = s.nextOp)
    (hputIn : ∀ op, s'.putInBy op = s.putInBy op)
    (henqueue : live s'.q.enqueueAttempts ⊆ live s.q.enqueueAttempts)
    (hdequeue : ∀ a ∈ live s'.q.dequeueAttempts, ∃ b ∈ live s.q.dequeueAttempts, a.op = b.op)
    (hcompleted : ∀ c ∈ s'.completed, c ∈ s.completed ∨ c.status ≠ .ok ∨
      ∃ b ∈ live s.q.dequeueAttempts, c.op = b.op) : Tied type calls s' where
  front op := hputIn op ▸ h.front op
  all c hc hok := by
    rw [hputIn]
    obtain hc | hne | ⟨b, hb, hop⟩ := hcompleted c hc
    · exact h.all c hc hok
    · exact absurd hok hne
    · have hnil := h.dequeue b hb
      rw [hop, hnil, requested_nil]
      exact h.putInBy_eq_nil hnil
  length_eq := h.length_eq.trans hnext.symm
  enqueue a ha := hputIn a.op ▸ h.enqueue a (henqueue ha)
  dequeue a ha := by
    obtain ⟨b, hb, hop⟩ := hdequeue a ha
    rw [hop]
    exact h.dequeue b hb

/-- A step that changes none of this. -/
theorem Tied.of_eq (h : Tied type calls s) (hnext : s'.nextOp = s.nextOp)
    (hhistory : s'.history = s.history)
    (henqueue : live s.q.enqueueAttempts = live s'.q.enqueueAttempts)
    (hdequeue : live s.q.dequeueAttempts = live s'.q.dequeueAttempts)
    (hcompleted : s'.completed = s.completed) : Tied type calls s' :=
  h.of_subset hnext (fun op ↦ by rw [putInBy, hhistory, putInBy]) (henqueue ▸ Subset.refl _)
    (fun a ha ↦ ⟨a, hdequeue ▸ ha, rfl⟩) fun _ hc ↦ .inl (hcompleted ▸ hc)

/-- A new operation has put nothing in. -/
theorem Tied.newOp (h : Tied type calls s) (htracked : Tracked s) (elements : List α) :
    Tied type (calls ++ [elements]) s.newOp ∧ (calls ++ [elements]).getD s.nextOp [] = elements ∧
      s.putInBy s.nextOp = [] := by
  have hget {op : ℕ} (hop : op ∈ s.ops) : (calls ++ [elements]).getD op [] = calls.getD op [] :=
    getD_append _ _ _ _ (h.length_eq ▸ htracked.lt_nextOp hop)
  have hmem (op : ℕ) : op ∈ s.ops ↔ op ∈ s.completed.map Callback.op ∨
      op ∈ (live s.q.enqueueAttempts).map Attempt.op ∨
      op ∈ (live s.q.dequeueAttempts).map Attempt.op := by
    simp only [System.ops, Multiset.mem_add, Multiset.mem_coe, or_assoc]
  have hlast : (calls ++ [elements]).getD s.nextOp [] = elements := by
    rw [← h.length_eq, getD_append_right _ _ _ _ le_rfl, Nat.sub_self]
    rfl
  refine ⟨⟨fun op ↦ ?_, fun c hc hok ↦ ?_, ?_, fun a ha ↦ ?_, fun a ha ↦ ?_⟩, hlast, ?_⟩
  · obtain hlt | hge := Nat.lt_or_ge op calls.length
    · rw [getD_append _ _ _ _ hlt]
      exact h.front op
    · show s.putInBy op <+: _
      rw [h.putInBy_eq_nil (getD_eq_default _ _ hge)]
      exact nil_prefix
  · rw [hget ((hmem _).2 (.inl (mem_map_of_mem hc)))]
    exact h.all c hc hok
  · rw [length_append, h.length_eq]
    rfl
  · rw [hget ((hmem _).2 (.inr (.inl (mem_map_of_mem ha))))]
    exact h.enqueue a ha
  · rw [hget ((hmem _).2 (.inr (.inr (mem_map_of_mem ha))))]
    exact h.dequeue a ha
  · exact h.putInBy_eq_nil (getD_eq_default _ _ h.length_eq.le)

theorem putInBy_append {events : List (QueueEvent α)} (h : s'.history = s.history ++ events)
    (op : ℕ) : s'.putInBy op = s.putInBy op ++ events.filterMap (enqueuedBy? op) := by
  rw [putInBy, h, filterMap_append, putInBy]

/-- Events in which nothing is put in. -/
theorem putInBy_of_silent {events : List (QueueEvent α)} (h : s'.history = s.history ++ events)
    (hsilent : events.filterMap enqueued? = []) (op : ℕ) : s'.putInBy op = s.putInBy op := by
  have hnone : events.filterMap (enqueuedBy? op) = [] := by
    refine filterMap_eq_nil_iff.2 fun event hevent ↦ ?_
    have hevent' := filterMap_eq_nil_iff.1 hsilent event hevent
    cases event with
    | enqueued _ x => cases hevent'
    | dequeued => rfl
    | lost => rfl
  rw [putInBy_append h, hnone, append_nil]

/-- The events in which `op'` puts in elements. -/
theorem enqueuedBy_map (op op' : ℕ) (pushed : List α) :
    (pushed.map (.enqueued op')).filterMap (enqueuedBy? op) = if op' = op then pushed else [] := by
  rw [filterMap_map]
  split
  next h =>
    refine (filterMap_congr fun x _ ↦ ?_).trans filterMap_some
    exact if_pos h
  next h => exact filterMap_eq_nil_iff.2 fun x _ ↦ if_neg h

/-- **The enqueue attempt in front has run.** -/
theorem Tied.ranEnqueue (h : Tied type calls s) (htracked : Tracked s) {f : Flush α}
    {a : EnqueueAttempt α} {rest : List (EnqueueAttempt α)} {run : EnqueueRun Q α × Bool}
    (hattempts : s.q.enqueueAttempts = a :: rest) (hlive : ¬ a.isCancelled = true)
    (hsame : SameAttempt a run.1.attempt) {pushed : List α} (hputs : Puts type a run.1 pushed) :
    Tied type calls (s.ranEnqueue f rest run) := by
  obtain ⟨hq, hhistory, hnext, hcompleted⟩ := ranEnqueue_eq s f rest run
  have hliveEq : live s.q.enqueueAttempts = a :: live rest := by rw [hattempts, live_cons hlive]
  obtain ⟨helements, hfront, htoPut⟩ := h.enqueue a (hliveEq ▸ mem_cons_self)
  have hputIn (op : ℕ) : (s.ranEnqueue f rest run).putInBy op =
      s.putInBy op ++ if a.op = op then pushed else [] := by
    rw [putInBy_append hhistory, hputs.events, enqueuedBy_map]
  have hputInNe {op : ℕ} (hne : op ≠ a.op) : (s.ranEnqueue f rest run).putInBy op =
      s.putInBy op := by
    rw [hputIn, if_neg hne.symm, append_nil]
  have hputInEq : (s.ranEnqueue f rest run).putInBy a.op = s.putInBy a.op ++ pushed := by
    rw [hputIn, if_pos rfl]
  have hpushed : s.putInBy a.op ++ pushed <+: requested type a.kind.elements :=
    ((prefix_append_right_inj _).2 hputs.front).trans hfront
  have hnodup := htracked.nodup_ops
  rw [hliveEq, map_cons] at hnodup
  obtain ⟨hops, -, -⟩ := nodup_append.1 hnodup
  obtain ⟨-, hrest, hdisjoint⟩ := nodup_append.1 hops
  refine ⟨fun op ↦ ?_, fun c hc hok ↦ ?_, h.length_eq.trans hnext.symm, fun b hb ↦ ?_, ?_⟩
  · obtain rfl | hne := eq_or_ne op a.op
    · rw [hputInEq, helements]
      exact hpushed
    · rw [hputInNe hne]
      exact h.front op
  · rw [hcompleted] at hc
    obtain hc | hc := mem_append.1 hc
    · rw [hputInNe (hdisjoint _ (mem_map_of_mem hc) _ mem_cons_self)]
      exact h.all c hc hok
    -- the attempt has put in as many elements as it has been called with
    · split at hc
      next hresult =>
        rw [mem_singleton.1 hc] at hok ⊢
        obtain ⟨hlength, hnone⟩ := hputs.all hresult hok
        show (s.ranEnqueue f rest run).putInBy run.1.attempt.op =
          requested type (calls.getD run.1.attempt.op [])
        rw [hsame.op, hputInEq, helements]
        have htotal : ((s.putInBy a.op ++ pushed).length : ℤ) = int a.kind.elements.length := by
          rw [length_append, Nat.cast_add, hlength, htoPut]
        obtain hpos | hzero :=
          (htotal ▸ Int.natCast_nonneg _ : 0 ≤ int a.kind.elements.length).lt_or_eq
        · refine hpushed.eq_of_length ?_
          rw [← Int.natCast_inj, htotal, length_requested hpos]
        · have hnil : s.putInBy a.op ++ pushed = [] := by
            rw [← length_eq_zero_iff, ← Int.natCast_inj, htotal, ← hzero]
            rfl
          rw [hnil, hnone (append_eq_nil_iff.1 hnil).2, requested_nil]
      · nomatch hc
  · rw [hq, live_left] at hb
    have hold {b : EnqueueAttempt α} (hb : b ∈ live rest) : b.op ≠ a.op :=
      fun heq ↦ (nodup_cons.1 hrest).1 (heq ▸ mem_map_of_mem hb)
    have hkept (hb : b ∈ live rest) := h.enqueue b (hliveEq ▸ mem_cons_of_mem a hb)
    split at hb
    · rw [hputInNe (hold hb)]
      exact hkept hb
    next hresult =>
      obtain hb | hb := mem_append.1 hb
      · rw [live_cons (hsame.isCancelled ▸ hlive), live_nil] at hb
        obtain ⟨hwaits, hleft⟩ := hputs.waits hresult
        rw [mem_singleton.1 hb, hsame.op, hsame.kind, hputInEq, append_assoc, length_append,
          Nat.cast_add, add_assoc, hleft]
        exact ⟨helements, ((prefix_append_right_inj _).2 hwaits).trans hfront, htoPut⟩
      · rw [hputInNe (hold hb)]
        exact hkept hb
  · rw [hq]
    exact h.dequeue

theorem Tied.finish (h : Tied type calls s) {c : Callback α}
    (hc : c.status = .ok → s.putInBy c.op = requested type (calls.getD c.op [])) :
    Tied type calls (s.finish c) where
  front := h.front
  all c' hc' := by
    obtain hc' | hc' := mem_append.1 hc'
    · exact h.all c' hc'
    · rw [mem_singleton.1 hc']
      exact hc
  length_eq := h.length_eq
  enqueue := h.enqueue
  dequeue := h.dequeue

theorem elementsRequested_attempt {κ : Type} (s : System Q α) (kind : κ) (requested : ℤ) :
    (s.attempt kind requested).elementsRequested = requested := rfl

/-- A new attempt has all of its elements to put in. -/
theorem remaining_arriving (type : IndexType) {a : EnqueueAttempt α}
    (h : s.arriving action = some a) :
    remaining type a = requested type a.kind.elements ∧ toPut a = int a.kind.elements.length := by
  unfold arriving at h
  split at h
  next tuple =>
    have hlt : [tuple].length < 2 ^ 31 := Nat.one_lt_two_pow (by decide)
    have hkind : a.kind = .one tuple := by cases h; rfl
    rw [remaining, toPut, hkind]
    exact ⟨(requested_of_lt hlt).symm, (int_of_lt hlt).symm⟩
  next batch =>
    split at h
    · cases h
    · have hkind : a.kind = .many batch := by cases h; rfl
      have hrequested : a.elementsRequested = int batch.length := by
        cases h
        exact elementsRequested_attempt s _ _
      rw [remaining, toPut, hkind, hrequested]
      exact ⟨rfl, rfl⟩
  · have hkind : a.kind = .close := by cases h; rfl
    rw [remaining, toPut, hkind]
    exact ⟨(requested_nil type).symm, (int_of_lt (n := 0) (Nat.two_pow_pos 31)).symm⟩
  · cases h

/-- **What a step puts in.** -/
theorem tied_step {cls : QueueClass Q α} (hcls : KeepsAttempts cls) (h : Tied cls.indexType calls s)
    (htracked : Tracked s) (hstep : step cls s action = some s') :
    Tied cls.indexType (calls ++ action.elements.toList) s' := by
  cases step_cases hcls.unspecifiedShapes hstep with
  | finishes _ c elements hop helements hok =>
    obtain ⟨hnew, hget, hnone⟩ := h.newOp htracked elements
    rw [helements]
    refine hnew.finish fun hstatus ↦ ?_
    show s.putInBy c.op = requested cls.indexType ((calls ++ [elements]).getD c.op [])
    rw [hop, hget, hnone, hok hstatus, requested_nil]
  | enqueues _ a hop hlive helements harriving =>
    obtain ⟨hnew, hget, hnone⟩ := h.newOp htracked a.kind.elements
    obtain ⟨hremaining, htoPut⟩ := remaining_arriving cls.indexType harriving
    rw [helements]
    refine { hnew with enqueue := fun b hb ↦ ?_ }
    rw [System.addEnqueue, live_append, live_cons (hlive ▸ Bool.false_ne_true)] at hb
    obtain hb | hb := mem_append.1 hb
    · exact hnew.enqueue b hb
    · show _ ∧ s.putInBy b.op ++ _ <+: _ ∧ ((s.putInBy b.op).length : ℤ) + _ = _
      rw [mem_singleton.1 hb, hop, hnone, hremaining, htoPut]
      exact ⟨hget, prefix_rfl, Int.zero_add _⟩
  | dequeues _ kind requested _ helements =>
    obtain ⟨hnew, hget, -⟩ := h.newOp htracked []
    rw [helements]
    refine { hnew with dequeue := fun b hb ↦ ?_ }
    rw [System.addDequeue, live_append] at hb
    obtain hb | hb := mem_append.1 hb
    · exact hnew.dequeue b hb
    · rw [mem_singleton.1 hb]
      exact hget
  | closes =>
    obtain ⟨hnew, hget, hnone⟩ := h.newOp htracked []
    have hclosed : Tied cls.indexType (calls ++ [[]]) s.newOp.closeAndCancel := by
      refine hnew.of_subset rfl (fun _ ↦ rfl) ?_ (fun a ha ↦ ⟨a, ha, rfl⟩) fun c hc ↦ ?_
      · rw [live_closeAndCancel]
        exact nil_subset _
      · refine (mem_append.1 hc).imp_right fun hc ↦ .inl ?_
        obtain ⟨a, -, rfl⟩ := mem_map.1 hc
        exact setStatus_ne_ok a enqueueCancelled_ne_ok
    refine hclosed.finish fun _ ↦ ?_
    rw [hget, requested_nil]
    exact hnone
  | findsNone _ helements =>
    rw [helements, Option.toList_none, append_nil]
    exact h
  | cancelsEnqueue token before after a hattempts _ hlive =>
    rw [show Action.elements (Action.cancelEnqueue token : Action α) = none from rfl,
      Option.toList_none, append_nil]
    refine h.of_subset rfl (fun _ ↦ rfl) ?_ (fun b hb ↦ ⟨b, hb, rfl⟩) fun c hc ↦ ?_
    · rw [System.finish, hattempts, live_append, live_append, live_cons_of_cancelled rfl,
        live_cons hlive]
      exact (sublist_cons_self a _).append_left _ |>.subset
    · refine (mem_append.1 hc).imp_right fun hc ↦ .inl ?_
      rw [mem_singleton.1 hc]
      exact setStatus_ne_ok a enqueueCancelled_ne_ok
  | cancelsDequeue token before after a hattempts _ hlive =>
    rw [show Action.elements (Action.cancelDequeue token : Action α) = none from rfl,
      Option.toList_none, append_nil]
    refine h.of_subset rfl (putInBy_of_silent rfl (enqueued_lost _)) (fun b hb ↦ hb)
      (fun b hb ↦ ⟨b, ?_, rfl⟩) fun c hc ↦ ?_
    · rw [System.finish, live_append, live_cons_of_cancelled rfl] at hb
      rw [hattempts, live_append, live_cons hlive]
      exact ((sublist_cons_self a _).append_left _).subset hb
    · refine (mem_append.1 hc).imp_right fun hc ↦ .inl ?_
      rw [mem_singleton.1 hc]
      exact setStatus_ne_ok a dequeueCancelled_ne_ok
  | begins => exact (append_nil calls).symm ▸ h.of_eq rfl rfl rfl rfl rfl
  | ends f =>
    exact (append_nil calls).symm ▸ h.of_eq (by simp) (by simp) (by simp) (by simp) (by simp)
  | popsEnqueue f a rest _ hattempts hcancelled =>
    exact (append_nil calls).symm ▸
      h.of_eq rfl rfl (by rw [hattempts, live_cons_of_cancelled hcancelled]) rfl rfl
  | popsDequeue f a rest _ _ hattempts hcancelled =>
    exact (append_nil calls).symm ▸
      h.of_eq rfl rfl rfl (by rw [hattempts, live_cons_of_cancelled hcancelled]) rfl
  | runsEnqueue f a rest _ _ hattempts hlive =>
    obtain ⟨pushed, hputs⟩ := puts_runEnqueue cls s.q a
    exact (append_nil calls).symm ▸
      h.ranEnqueue htracked hattempts hlive (runEnqueue_keeps cls s.q a) hputs
  | runsDequeue f a rest r _ _ hattempts hlive hrun =>
    obtain ⟨hsame, hsilent⟩ := hcls.runDequeue hrun
    obtain ⟨hq, hhistory, hnext, hcompleted⟩ := ranDequeue_eq s f rest r
    have ha : a ∈ live s.q.dequeueAttempts := by
      rw [hattempts, live_cons hlive]
      exact mem_cons_self
    refine (append_nil calls).symm ▸ h.of_subset hnext (putInBy_of_silent hhistory hsilent)
      (fun b hb ↦ by rwa [hq] at hb) (fun b hb ↦ ?_) fun c hc ↦ ?_
    · rw [hq, live_left] at hb
      split at hb
      · exact ⟨b, by rw [hattempts, live_cons hlive]; exact mem_cons_of_mem a hb, rfl⟩
      · obtain hb | hb := mem_append.1 hb
        · rw [live_cons (hsame.isCancelled ▸ hlive), live_nil] at hb
          exact ⟨a, ha, by rw [mem_singleton.1 hb, hsame.op]⟩
        · exact ⟨b, by rw [hattempts, live_cons hlive]; exact mem_cons_of_mem a hb, rfl⟩
    · rw [hcompleted] at hc
      refine (mem_append.1 hc).imp_right fun hc ↦ .inr ⟨a, ha, ?_⟩
      split at hc
      · rw [mem_singleton.1 hc]
        exact hsame.op
      · exact absurd hc not_mem_nil
  | runsCallback => exact (append_nil calls).symm ▸ h.of_eq rfl rfl rfl rfl rfl

theorem Tied.putsIn (h : Tied type calls s) : PutsIn type calls s :=
  ⟨h.front, h.all, fun _ _ ↦ requested_of_lt⟩

/-- **What operations put in**, in every run whose steps are steps of classes that count in one
type. -/
theorem putsIn_of_run {β : Type} (operation : β → Action α)
    {step' : System Q α → β → Option (System Q α)} {type : IndexType}
    (hstep : ∀ {s s' : System Q α} {b : β}, step' s b = some s' → ∃ cls : QueueClass Q α,
      KeepsAttempts cls ∧ cls.indexType = type ∧ step cls s (operation b) = some s')
    {capacity : ℕ} {name : ByteString} {specifiedShapes : Bool} {empty : Q} {steps : List β}
    (hrun : run step' (init capacity name specifiedShapes empty) steps = some s) :
    Tracked s ∧ PutsIn type (steps.filterMap fun b ↦ (operation b).elements) s := by
  have hinv := run_invariant_of_trace []
    (I := fun steps s ↦ Tracked s ∧ Tied type (steps.filterMap fun b ↦ (operation b).elements) s)
    (fun {before s s' b} h hs' ↦ ?_) ⟨tracked_init _ _ _ _, tied_init _ _ _ _⟩ hrun
  · exact hinv.imp_right Tied.putsIn
  · obtain ⟨cls, hcls, rfl, hs'⟩ := hstep hs'
    refine ⟨tracked_step hcls h.1 hs', ?_⟩
    have hcalls : (before ++ [b]).filterMap (fun b ↦ (operation b).elements) =
        before.filterMap (fun b ↦ (operation b).elements) ++ (operation b).elements.toList := by
      rw [filterMap_append]
      cases helements : (operation b).elements <;> simp [helements]
    rw [hcalls]
    exact tied_step hcls h.2 h.1 hs'

end Tied

end System

end QueueBase

end TensorFlowCore
