import TensorFlowCore.Kernels.QueueBase.Model

/-!
# What running an attempt does

A dequeue attempt of many elements takes them out of the queue one by one, over any number of runs.
Its slots are those it has filled followed by empty ones (`Filling`), and the loop that fills them
does one of three things with the elements it takes (`dequeueLoop_cases`): it leaves them in the
slots of an attempt that waits, hands them over, or loses them. The loop of a batch enqueue pushes
elements one after another, and stops where a push fails (`enqueueLoop_rule`).

The first section is about the two deques: what `Cancel` makes of the live attempts.
-/

namespace TensorFlowCore

open List

namespace QueueBase

open QueueEvent

variable {Q κ α : Type}

theorem kind_ne_one {a : DequeueAttempt α} {allowSmallBatch : Bool}
    (h : a.kind = .many allowSmallBatch) : a.kind ≠ .one := by
  rw [h]
  exact DequeueKind.noConfusion

/-! ### The deques of attempts -/

section Attempts

@[simp] theorem live_nil : live ([] : List (Attempt κ α)) = [] := rfl

theorem live_cons_of_cancelled {a : Attempt κ α} (h : a.isCancelled = true)
    (attempts : List (Attempt κ α)) : live (a :: attempts) = live attempts := by
  simp [live, h]

theorem live_cons {a : Attempt κ α} (h : ¬ a.isCancelled = true) (attempts : List (Attempt κ α)) :
    live (a :: attempts) = a :: live attempts := by
  simp [live, h]

@[simp] theorem live_append (attempts attempts' : List (Attempt κ α)) :
    live (attempts ++ attempts') = live attempts ++ live attempts' := by
  simp [live]

/-- An attempt that ends with an error keeps it. -/
theorem setStatus_ne_ok (a : Attempt κ α) {status : Status} (h : status ≠ .ok) :
    (a.setStatus status).status ≠ .ok := by
  unfold Attempt.setStatus
  split
  · exact h
  next hne => exact hne

/-- `Cancel` finds nothing to cancel, or takes one attempt out of the live ones and its callback out
of that attempt. -/
theorem cancelAttempt_cases (token : ℕ) (status : Status) (attempts : List (Attempt κ α)) :
    (cancelAttempt token status attempts = (attempts, none) ∧
        System.cancelledAttempt token attempts = none) ∨
      ∃ before a after, attempts = before ++ a :: after ∧ a.token = some token ∧
        ¬ a.isCancelled = true ∧ System.cancelledAttempt token attempts = some a ∧
        cancelAttempt token status attempts =
          (before ++ { a.setStatus status with isCancelled := true } :: after,
            some (a.setStatus status).doneCallback) := by
  induction attempts with
  | nil => exact .inl ⟨rfl, rfl⟩
  | cons a attempts ih =>
    unfold cancelAttempt System.cancelledAttempt
    split
    next htoken =>
      rw [find?_cons_of_pos (by simpa using htoken)]
      split
      next hcancelled =>
        exact .inl ⟨rfl, by rw [Option.filter_some, if_neg (by simpa using hcancelled)]⟩
      next hlive =>
        refine .inr ⟨[], a, attempts, rfl, htoken, hlive, ?_, rfl⟩
        rw [Option.filter_some, if_pos (by simpa using hlive)]
    next htoken =>
      rw [find?_cons_of_neg (by simpa using htoken)]
      obtain ⟨heq, hnone⟩ | ⟨before, b, after, rfl, hb, hlive, hsome, heq⟩ := ih
      · exact .inl ⟨by rw [heq], hnone⟩
      · exact .inr ⟨a :: before, b, after, rfl, hb, hlive, hsome, by rw [heq]; rfl⟩

end Attempts

/-! ### What callbacks deliver -/

/-- The elements that a callback delivers: those of its tuple, if the dequeue is successful. -/
def delivers (c : Callback α) : List α := if c.status = .ok then c.tuple.getD [] else []

/-- A failed callback delivers nothing. -/
theorem delivers_of_status {c : Callback α} (h : c.status ≠ .ok) : delivers c = [] := if_neg h

theorem delivers_of_failed {a : Attempt κ α} (h : a.status ≠ .ok) : delivers a.doneCallback = [] :=
  delivers_of_status h

theorem delivers_of_tuple {c : Callback α} (h : c.tuple = none) : delivers c = [] := by
  simp [delivers, h]

theorem delivers_doneCallback {a : Attempt κ α} {elements : List α} (hstatus : a.status = .ok)
    (hhanded : a.handed = some elements) : delivers a.doneCallback = elements := by
  simp [delivers, Attempt.doneCallback, hstatus, hhanded]

/-- The callback of an enqueue takes no tuple. -/
theorem delivers_enqueueCallback (a : EnqueueAttempt α) : delivers (enqueueCallback a) = [] :=
  delivers_of_tuple rfl

/-! ### Dequeue attempts -/

/-- A dequeue attempt that waits: its slots are the ones it has filled, and then those that it still
requests. -/
structure Filling (a : DequeueAttempt α) : Prop where
  status : a.status = .ok
  handed : a.handed = none
  requested : 0 < a.elementsRequested
  slots : ∀ slots, a.tuple = some slots →
    slots = (collected a).map some ++ List.replicate a.elementsRequested.toNat none
  one : a.kind = .one → a.tuple = none

@[simp] theorem collected_of_tuple {a : DequeueAttempt α} (h : a.tuple = none) :
    collected a = [] := by
  simp [collected, h]

theorem filterMap_map_some_append (filled : List α) (n : ℕ) :
    (filled.map some ++ List.replicate n none).filterMap id = filled := by
  induction filled with
  | nil => simp
  | cons x filled ih => simp

section Filling

variable {a : DequeueAttempt α}

/-- The slots that a running attempt has, allocated or about to be. -/
theorem Filling.getD_tuple (h : Filling a) :
    a.tuple.getD (List.replicate a.elementsRequested.toNat none) =
      (collected a).map some ++ List.replicate a.elementsRequested.toNat none := by
  cases htuple : a.tuple with
  | none => simp [htuple]
  | some slots => exact h.slots slots htuple

/-- The attempt with its next slot filled. -/
def fill (a : DequeueAttempt α) (x : α) : DequeueAttempt α :=
  { a with
    tuple := some ((collected a ++ [x]).map some ++
      List.replicate (a.elementsRequested - 1).toNat none)
    elementsRequested := a.elementsRequested - 1 }

@[simp] theorem collected_fill (x : α) : collected (fill a x) = collected a ++ [x] :=
  filterMap_map_some_append _ _

theorem Filling.fill (h : Filling a) (hkind : a.kind ≠ .one) (hlast : a.elementsRequested - 1 ≠ 0)
    (x : α) : Filling (fill a x) where
  status := h.status
  handed := h.handed
  requested := by
    have := h.requested
    show 0 < a.elementsRequested - 1
    omega
  slots slots hslots := by
    cases hslots
    rw [collected_fill]
    rfl
  one hone := absurd hone hkind

/-- The slot at the index that the loop computes is the next one. -/
theorem Filling.set_slots (h : Filling a) (x : α) {slots : List (Option α)}
    (hslots : slots = (collected a).map some ++ List.replicate a.elementsRequested.toNat none) :
    some (slots.set ((slots.length : ℤ) - a.elementsRequested).toNat (some x)) =
      (QueueBase.fill a x).tuple := by
  have hrequested := h.requested
  obtain ⟨n, hn⟩ : ∃ n, a.elementsRequested.toNat = n + 1 :=
    ⟨a.elementsRequested.toNat - 1, by omega⟩
  have hn' : (a.elementsRequested - 1).toNat = n := by omega
  have hindex : ((slots.length : ℤ) - a.elementsRequested).toNat =
      ((collected a).map some).length := by
    rw [hslots, length_append, length_replicate]
    omega
  rw [hindex, hslots, QueueBase.fill, hn, hn', set_append_right _ _ le_rfl, Nat.sub_self,
    replicate_succ, set_cons_zero, map_append, append_assoc]
  rfl

/-- The slots that are put back are those that have been filled. -/
theorem Filling.filledSlots_eq (h : Filling a) {slots : List (Option α)}
    (htuple : a.tuple = some slots) :
    filledSlots slots a = (collected a).length ∧
      (slots.take (collected a).length).filterMap id = collected a ∧
      ∀ k, k < (collected a).length → slots[k]? = (collected a)[k]?.map some := by
  have hslots := h.slots slots htuple
  have hrequested := h.requested
  have hlength : filledSlots slots a = (collected a).length := by
    rw [filledSlots, hslots, length_append, length_map, length_replicate]
    omega
  refine ⟨hlength, ?_, fun k hk ↦ ?_⟩
  · rw [← (length_map some : (map some (collected a)).length = _)]
    conv_lhs => rw [hslots, take_left]
    rw [filterMap_map]
    exact filterMap_some
  · rw [hslots, getElem?_append_left (by rwa [length_map]), getElem?_map]

/-- A new attempt to dequeue has all of its slots to fill. -/
theorem filling_attempt (s : System Q α) (kind : DequeueKind) {requested : ℤ}
    (hpos : 0 < requested) :
    Filling (s.attempt kind requested) where
  status := rfl
  handed := rfl
  requested := hpos
  slots _ hslots := by cases hslots
  one _ := rfl

end Filling

/-! ### What runs leave alone -/

section Keeps

variable {ops : QueueOps Q α}

/-- The fields of an attempt that its runs leave alone. -/
structure SameAttempt (a a' : Attempt κ α) : Prop where
  op : a'.op = a.op
  token : a'.token = a.token
  kind : a'.kind = a.kind
  isCancelled : a'.isCancelled = a.isCancelled

theorem sameAttempt_setStatus (a : Attempt κ α) (status : Status) :
    SameAttempt a (a.setStatus status) := ⟨rfl, rfl, rfl, rfl⟩

/-- The elements that an operation has put in. -/
theorem enqueued_map (op : ℕ) (xs : List α) :
    (xs.map (QueueEvent.enqueued op)).filterMap enqueued? = xs := by
  rw [filterMap_map]
  exact filterMap_some

/-- Elements that are lost have not been put in. -/
theorem enqueued_lost (xs : List α) : (xs.map QueueEvent.lost).filterMap enqueued? = [] := by
  rw [filterMap_map]
  exact filterMap_eq_nil_iff.2 fun _ _ ↦ rfl

/-- The loop of a dequeue keeps its operation, and enqueues nothing. -/
theorem dequeueLoop_keeps {queueSize : ℕ} {c : Q} {a : DequeueAttempt α} {result : RunResult}
    {r : DequeueRun Q α} (hr : dequeueLoop ops queueSize c a result = some r) :
    SameAttempt a r.attempt ∧ r.events.filterMap enqueued? = [] := by
  induction queueSize generalizing c a result r with
  | zero =>
    cases hr
    exact ⟨⟨rfl, rfl, rfl, rfl⟩, rfl⟩
  | succ queueSize ih =>
    unfold dequeueLoop at hr
    split at hr
    · cases hr
    · split at hr
      · cases hr
      · split at hr
        · cases hr
          exact ⟨⟨rfl, rfl, rfl, rfl⟩, enqueued_lost _⟩
        · dsimp only at hr
          split at hr
          · cases hr
            exact ⟨⟨rfl, rfl, rfl, rfl⟩, rfl⟩
          · obtain ⟨r', hr', rfl⟩ := Option.map_eq_some_iff.1 hr
            obtain ⟨hsame, hsilent⟩ := ih hr'
            exact ⟨⟨hsame.op, hsame.token, hsame.kind, hsame.isCancelled⟩, hsilent⟩

theorem enqueueLoop_keeps (batch : List α) (room : ℕ) (c : Q) (a : EnqueueAttempt α)
    (result : RunResult) : SameAttempt a (enqueueLoop ops batch room c a result).attempt := by
  induction room generalizing c a result with
  | zero => exact ⟨rfl, rfl, rfl, rfl⟩
  | succ room ih =>
    unfold enqueueLoop
    split
    · exact sameAttempt_setStatus a _
    · dsimp only
      split
      · exact sameAttempt_setStatus a _
      · split
        · exact ⟨rfl, rfl, rfl, rfl⟩
        · obtain ⟨hop, htoken, hkind, hcancelled⟩ := ih _ _ _
          exact ⟨hop, htoken, hkind, hcancelled⟩

end Keeps

/-! ### The loop of a batch dequeue -/

section DequeueLoop

variable {ops : QueueOps Q α} {a : DequeueAttempt α} {c c' : Q} {taken : List α}

/-- `DequeueLocked`, one time for each of the elements. -/
inductive Takes (ops : QueueOps Q α) : Q → List α → Q → Prop
  | nil (c : Q) : Takes ops c [] c
  | cons {c c' c'' : Q} {x : α} {xs : List α} (first : ops.dequeueLocked c = some (x, c'))
      (rest : Takes ops c' xs c'') : Takes ops c (x :: xs) c''

/-- What the loop has done with the elements that it has taken, and how it has ended. -/
inductive LoopOutcome (ops : QueueOps Q α) (a : DequeueAttempt α) (c : Q) (queueSize : ℕ)
    (result : RunResult) (r : DequeueRun Q α) : List α → Prop
  | waits (taken : List α) (length_eq : taken.length = queueSize)
      (result_eq : r.result = if queueSize = 0 then result else .progress)
      (filling : Filling r.attempt) (collected_eq : collected r.attempt = collected a ++ taken)
      (requested : r.attempt.elementsRequested = a.elementsRequested - queueSize)
      (events_eq : r.events = taken.map .dequeued) : LoopOutcome ops a c queueSize result r taken
  | hands (taken : List α) (length_le : taken.length ≤ queueSize)
      (requested : (taken.length : ℤ) = a.elementsRequested) (complete : r.result = .complete)
      (status : r.attempt.status = .ok) (handed : r.attempt.handed = some (collected a ++ taken))
      (events_eq : r.events = taken.map .dequeued) : LoopOutcome ops a c queueSize result r taken
  | fails (taken : List α) (last : α) (front : Q) (length_lt : taken.length < queueSize)
      (takes : Takes ops c taken front) (dequeued : ops.dequeueLocked front = some (last, r.queues))
      (complete : r.result = .complete) (status : r.attempt.status ≠ .ok)
      (copy_eq : ops.copyToSlice r.queues last .ok = some r.attempt.status)
      (events_eq : r.events = (taken ++ [last]).map .dequeued ++
        (collected a ++ (taken ++ [last])).map .lost) :
      LoopOutcome ops a c queueSize result r (taken ++ [last])

/-- **The loop of a batch dequeue**, by induction on the number of iterations: each one moves an
element from the queue into the next slot. -/
theorem dequeueLoop_cases {queueSize : ℕ} {result : RunResult} {r : DequeueRun Q α} (h : Filling a)
    (hkind : a.kind ≠ .one) (hr : dequeueLoop ops queueSize c a result = some r) :
    ∃ taken, Takes ops c taken r.queues ∧ LoopOutcome ops a c queueSize result r taken := by
  induction queueSize generalizing c a result r with
  | zero =>
    cases hr
    exact ⟨[], .nil c, .waits [] rfl rfl h (append_nil _).symm (Int.sub_zero _).symm rfl⟩
  | succ queueSize ih =>
    unfold dequeueLoop at hr
    split at hr
    · cases hr
    next tuple c' hdequeue =>
      split at hr
      · cases hr
      next status hcopy =>
        rw [h.status] at hcopy
        split at hr
        next hstatus =>
          cases hr
          exact ⟨[tuple], .cons hdequeue (.nil _), .fails [] tuple c (Nat.succ_pos _) (.nil c)
            hdequeue
            rfl hstatus hcopy rfl⟩
        next =>
          have hset := h.set_slots tuple h.getD_tuple
          dsimp only at hr
          rw [hset] at hr
          split at hr
          next hlast =>
            cases hr
            have hhanded := collected_fill (a := a) tuple
            rw [collected, ← hset, Option.getD_some] at hhanded
            have hone : ([tuple].length : ℤ) = a.elementsRequested := by
              have : a.elementsRequested - 1 = 0 := hlast
              rw [length_singleton]
              omega
            exact ⟨[tuple], .cons hdequeue (.nil _), .hands [tuple] (Nat.succ_pos _) hone rfl
              h.status (congrArg some hhanded) rfl⟩
          next hlast =>
            obtain ⟨r', hr', rfl⟩ := Option.map_eq_some_iff.1 hr
            obtain ⟨taken, htakes, houtcome⟩ := ih (h.fill hkind hlast tuple) hkind hr'
            refine ⟨tuple :: taken, .cons hdequeue htakes, ?_⟩
            have hrequested : (fill a tuple).elementsRequested = a.elementsRequested - 1 := rfl
            have hcollected (taken : List α) :
                collected (fill a tuple) ++ taken = collected a ++ tuple :: taken := by
              rw [collected_fill, append_assoc]
              rfl
            cases houtcome with
            | waits _ hlength hresult hfilling hheld hleft hevents =>
              refine .waits _ (congrArg Nat.succ hlength) ?_ hfilling
                (hheld.trans (hcollected _)) ?_
                (congrArg _ hevents)
              · rw [if_neg (Nat.succ_ne_zero _)]
                exact hresult.trans (ite_self _)
              · rw [hleft, hrequested, Nat.cast_succ]
                omega
            | hands _ hlength hall hcomplete hok hhanded hevents =>
              refine .hands _ (Nat.succ_le_succ hlength) ?_ hcomplete hok
                (hhanded.trans (congrArg some (hcollected _))) (congrArg _ hevents)
              rw [length_cons, Nat.cast_succ, hall, hrequested]
              omega
            | fails taken last front hlength htaken hlast' hcomplete hstatus hcopy' hevents =>
              refine .fails (tuple :: taken) last front (Nat.succ_lt_succ hlength)
                (.cons hdequeue htaken) hlast' hcomplete hstatus hcopy' ?_
              rw [hcollected] at hevents
              exact congrArg _ hevents

/-- The loop is defined where each of its steps is, in every state that the queue comes to. -/
theorem isSome_dequeueLoop {I : ℕ → Q → Prop}
    (hcopy : ∀ c x status, (ops.copyToSlice c x status).isSome)
    (hstep : ∀ {k c}, I (k + 1) c → ∃ x c', ops.dequeueLocked c = some (x, c') ∧ I k c')
    {queueSize : ℕ} (h : I queueSize c) (a : DequeueAttempt α) (result : RunResult) :
    (dequeueLoop ops queueSize c a result).isSome := by
  induction queueSize generalizing c a result with
  | zero => rfl
  | succ queueSize ih =>
    obtain ⟨x, c', hdequeue, hc'⟩ := hstep h
    obtain ⟨status, hstatus⟩ := Option.isSome_iff_exists.1 (hcopy c' x a.status)
    unfold dequeueLoop
    rw [hdequeue]
    dsimp only
    rw [hstatus]
    dsimp only
    split
    · rfl
    · split
      · rfl
      · rw [Option.isSome_map]
        exact ih hc' _ _

end DequeueLoop

/-! ### Dequeues that put elements back -/

section RunDequeue

variable {cls : QueueClass Q α} {q : QueueBase Q α} {a : DequeueAttempt α} {r : DequeueRun Q α}
  {restore : List (Option α) → ℕ → Q → Status → Q × Status}

theorem insufficient_ne_ok (ops : QueueOps Q α) (name : ByteString) (requested queueSize : ℤ) :
    insufficient ops name requested queueSize ≠ .ok := Status.noConfusion

/-- What the closure of `TryDequeue` does. -/
inductive OneCases (cls : QueueClass Q α) (q : QueueBase Q α) (a : DequeueAttempt α) :
    DequeueRun Q α → Prop
  | refuses (closed : q.closed = true) (empty : cls.size q.queues = 0) (status : Status)
      (ne_ok : (a.setStatus status).status ≠ .ok) :
      OneCases cls q a ⟨.complete, q.queues, a.setStatus status, []⟩
  | takes (x : α) (c : Q) (first : cls.dequeueLocked q.queues = some (x, c))
      (available : 0 < available cls.toQueueOps q (cls.size q.queues)) :
      OneCases cls q a ⟨.complete, c, { a with handed := some [x] }, [.dequeued x]⟩
  | waits : OneCases cls q a ⟨.noProgress, q.queues, a, []⟩

theorem runDequeueOne_cases (hr : runDequeueOne cls.toQueueOps q a = some r) :
    OneCases cls q a r := by
  unfold runDequeueOne at hr
  dsimp only at hr
  split at hr
  next hclosed =>
    cases hr
    exact .refuses hclosed.1 hclosed.2 _ (setStatus_ne_ok a (insufficient_ne_ok _ _ _ _))
  next =>
    split at hr
    next havailable =>
      obtain ⟨⟨x, c⟩, hdequeue, rfl⟩ := Option.map_eq_some_iff.1 hr
      exact .takes x c hdequeue havailable
    next =>
      cases hr
      exact .waits

/-- The contents of a closed queue after an attempt has put its elements back, and its status. -/
def restored (restore : List (Option α) → ℕ → Q → Status → Q × Status) (q : QueueBase Q α)
    (a : DequeueAttempt α) : Q × Status :=
  a.tuple.elim (q.queues, a.status) fun slots ↦ restore slots (filledSlots slots a) q.queues
    a.status

/-- What the closure of `TryDequeueMany` does, unless it is one that puts nothing back. -/
inductive ManyCases (restore : List (Option α) → ℕ → Q → Status → Q × Status) (cls : QueueClass Q α)
    (q : QueueBase Q α) (a : DequeueAttempt α) : DequeueRun Q α → Prop
  | small (r : DequeueRun Q α) (closed : q.closed = true)
      (few : (cls.size q.queues : ℤ) < a.elementsRequested)
      (pos : 0 < cls.size (restored restore q a).1)
      (loop : dequeueLoop cls.toQueueOps (cls.size (restored restore q a).1)
      (restored restore q a).1
        { a with
          status := (restored restore q a).2, tuple := none
          elementsRequested := cls.size (restored restore q a).1 } .noProgress = some r) :
      ManyCases restore cls q a r
  | yields (closed : q.closed = true) (few : (cls.size q.queues : ℤ) < a.elementsRequested)
      (empty : cls.size (restored restore q a).1 = 0) :
      ManyCases restore cls q a ⟨.progress, (restored restore q a).1,
        { a with status := (restored restore q a).2 }, []⟩
  | refuses (closed : q.closed = true) (few : (cls.size q.queues : ℤ) < a.elementsRequested)
      (status : Status) (ne_ok : status ≠ .ok) :
      ManyCases restore cls q a ⟨.complete, (restored restore q a).1, { a with status }, []⟩
  | loops (r : DequeueRun Q α)
      (loop : dequeueLoop cls.toQueueOps (available cls.toQueueOps q (cls.size q.queues)).toNat
        q.queues a .noProgress = some r) : ManyCases restore cls q a r

/-- The branches of a closure that takes a batch. -/
theorem runDequeueMany_cases (cls : QueueClass Q α)
    (restore : List (Option α) → ℕ → Q → Status → Q × Status) {allowSmallBatch : Bool}
    (hr : runDequeueMany cls.toQueueOps restore q a allowSmallBatch = some r) :
    ManyCases restore cls q a r := by
  unfold runDequeueMany at hr
  dsimp only at hr
  split at hr
  next hclosed =>
    change (if allowSmallBatch = true ∧
      0 < cls.size (restored restore q a).1 then _ else _) = _ at hr
    split at hr
    next hsmall => exact .small r hclosed.1 hclosed.2 hsmall.2 hr
    next hsmall =>
      split at hr
      next hyield =>
        cases hr
        exact .yields hclosed.1 hclosed.2
          (Nat.eq_zero_of_not_pos fun hpos ↦ hsmall ⟨hyield.1, hpos⟩)
      next =>
        cases hr
        refine .refuses hclosed.1 hclosed.2 _ ?_
        split
        · exact insufficient_ne_ok _ _ _ _
        next hne => exact hne
  next => exact .loops r hr

/-- A batch that is made small has all of its slots to fill. -/
theorem Filling.small (h : Filling a) (hkind : a.kind ≠ .one) {size : ℕ} (hpos : 0 < size) :
    Filling { a with status := .ok, tuple := none, elementsRequested := size } where
  status := rfl
  handed := h.handed
  requested := Int.natCast_pos.2 hpos
  slots _ hslots := by cases hslots
  one hone := absurd hone hkind

end RunDequeue

/-! ### The loop of a batch enqueue -/

section EnqueueLoop

variable (ops : QueueOps Q α) (batch : List α)

/-- **The loop of a batch enqueue**, by induction on the room: `I` holds with the elements pushed
before an iteration, and `R` where the loop stops. -/
theorem enqueueLoop_rule (pushed : List α) (result : RunResult) {I : ℕ → ℤ → Q → List α → Prop}
    {R : Q → List α → Prop}
    (hpush : ∀ {room requested c pushed index x}, I (room + 1) requested c pushed →
      batchElement ops.indexType batch requested = some (index, x) →
      (ops.pushFrom x index c).2 = .ok →
      R (ops.pushFrom x index c).1 (pushed ++ [x]) ∧ (requested - 1 ≠ 0 →
        I room (requested - 1) (ops.pushFrom x index c).1 (pushed ++ [x])))
    (hfail : ∀ {room requested c pushed index x}, I (room + 1) requested c pushed →
      batchElement ops.indexType batch requested = some (index, x) →
      (ops.pushFrom x index c).2 ≠ .ok →
      R (ops.pushFrom x index c).1 pushed)
    (hstop : ∀ {room requested c pushed}, I room requested c pushed → R c pushed) {room : ℕ} {c : Q}
    {a : EnqueueAttempt α} (h : I room a.elementsRequested c pushed) :
    ∃ more, (enqueueLoop ops batch room c a result).events = more.map (.enqueued a.op) ∧
      R (enqueueLoop ops batch room c a result).queues (pushed ++ more) := by
  have hnone : R c (pushed ++ []) := by
    rw [append_nil]
    exact hstop h
  induction room generalizing c a result pushed with
  | zero => exact ⟨[], rfl, hnone⟩
  | succ room ih =>
    unfold enqueueLoop
    split
    · exact ⟨[], rfl, hnone⟩
    next index x helement =>
      dsimp only
      split
      next hpushed =>
        refine ⟨[], rfl, ?_⟩
        rw [append_nil]
        exact hfail h helement hpushed
      next hpushed =>
        obtain ⟨hlast, hmore⟩ := hpush h helement (not_not.1 hpushed)
        split
        · exact ⟨[x], rfl, hlast⟩
        next hne =>
          obtain ⟨more, hevents, hR⟩ := ih (pushed ++ [x]) .progress
            (a := { a with elementsRequested := a.elementsRequested - 1 }) (hmore hne)
            (by rwa [append_nil])
          refine ⟨x :: more, congrArg _ hevents, ?_⟩
          rwa [append_assoc] at hR

section RunEnqueue

variable {cls : QueueClass Q α} {R : Q → List α → Prop} {q : QueueBase Q α} {a : EnqueueAttempt α}

/-- **`run_callback` of an enqueue attempt**: `R` holds with the elements that it puts in, if it
does of a single element and of the loop over a batch. -/
theorem runEnqueue_cases (h : R q.queues [])
    (hpush : ∀ x, R (cls.push x q.queues).1 (if (cls.push x q.queues).2 = .ok then [x] else []))
    (hmany : ∀ batch, a.kind = .many batch → ¬ q.closed = true → ∃ pushed,
      (enqueueLoop cls.toQueueOps batch (q.capacity - cls.size q.queues) q.queues a
        .noProgress).events =
        pushed.map (.enqueued a.op) ∧
      R (enqueueLoop cls.toQueueOps batch (q.capacity - cls.size q.queues) q.queues a
        .noProgress).queues
        pushed) :
    ∃ pushed, (q.runEnqueue cls a).1.events = pushed.map (.enqueued a.op) ∧
      R (q.runEnqueue cls a).1.queues pushed := by
  unfold QueueBase.runEnqueue
  split
  next tuple _ =>
    unfold runEnqueueOne
    split
    · exact ⟨[], rfl, h⟩
    · split
      · have hpushed := hpush tuple
        dsimp only
        split
        next hne =>
          rw [if_neg hne] at hpushed
          exact ⟨[], rfl, hpushed⟩
        next hok =>
          rw [if_pos (not_not.1 hok)] at hpushed
          exact ⟨[tuple], rfl, hpushed⟩
      · exact ⟨[], rfl, h⟩
  next batch hkind =>
    unfold runEnqueueMany
    split
    · exact ⟨[], rfl, h⟩
    next hopen => exact hmany batch hkind hopen
  · split <;> exact ⟨[], rfl, h⟩

/-- It does, if each push of an element adds it unless it fails. -/
theorem runEnqueue_rule (cls : QueueClass Q α) (q : QueueBase Q α) (a : EnqueueAttempt α)
    (hpush : ∀ {c x pushed}, R c pushed →
      R (cls.push x c).1 (if (cls.push x c).2 = .ok then pushed ++ [x] else pushed))
    (hpushFrom : ∀ {c pushed} x index, R c pushed →
      R (cls.pushFrom x index c).1 (if (cls.pushFrom x index c).2 = .ok then pushed ++
        [x] else pushed)) (h : R q.queues []) :
    ∃ pushed, (q.runEnqueue cls a).1.events = pushed.map (.enqueued a.op) ∧
      R (q.runEnqueue cls a).1.queues pushed := by
  refine runEnqueue_cases h (fun x ↦ hpush h) fun batch _ _ ↦
    enqueueLoop_rule cls.toQueueOps batch [] _ (I := fun _ _ ↦ R)
      (fun {_ _ c pushed index x} hR _ hok ↦ ?_)
      (fun {_ _ c pushed index x} hR _ hne ↦ ?_) (fun hR ↦ hR) h
  · have hpushed := hpushFrom x index hR
    rw [if_pos hok] at hpushed
    exact ⟨hpushed, fun _ ↦ hpushed⟩
  · have hpushed := hpushFrom x index hR
    rwa [if_neg hne] at hpushed

end RunEnqueue

end EnqueueLoop

end QueueBase

end TensorFlowCore
