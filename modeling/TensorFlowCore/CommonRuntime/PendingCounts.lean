import Mathlib.Data.List.Infix

/-!
# `PendingCounts`

The pending and dead counts of the nodes of a graph, from
`tensorflow/core/common_runtime/pending_counts.h`. A node's counts are packed into one byte, three
bits each, when both can stay within seven, and are kept as two `int`s in a table otherwise. After a
node has started, its pending count encodes whether it has completed.

`Counts` is what `counts_` and `overflow_` hold for one node. `Holds c p d` says that `c` stands for
a node that has not started, with `p` pending and `d` dead inputs; the operations are described
through it, and nothing after this module looks at the two forms. The checks that only debug builds
make are left out: `decrement_pending` beyond the count wraps around when the counts are packed.
-/

namespace TensorFlowCore

/-- The counts of one node. -/
inductive Counts where
  | packed (pending deadCount : BitVec 3) (hasStarted : Bool)
  | large (pending deadCount : ℤ)
  deriving DecidableEq

/-- `PendingCounts::NodeState`. -/
inductive NodeState where
  | pendingNotReady
  | pendingReady
  | started
  | completed
  deriving DecidableEq

namespace Counts

def kMaxCountForPackedCounts : ℕ := 7

/-- `set_initial_count`. -/
def setInitialCount (pendingCount maxDeadCount : ℕ) : Counts :=
  if kMaxCountForPackedCounts < pendingCount ∨ kMaxCountForPackedCounts < maxDeadCount then
    .large pendingCount 0
  else .packed (BitVec.ofNat 3 pendingCount) 0 false

/-- `node_state`. -/
def nodeState : Counts → NodeState
  | .packed pending _ true => if pending = 0 then .started else .completed
  | .packed pending _ false => if pending = 0 then .pendingReady else .pendingNotReady
  | .large pending _ =>
    if 0 < pending then .pendingNotReady
    else if pending = 0 then .pendingReady
    else if pending = -1 then .started
    else .completed

/-- `mark_started`. -/
def markStarted : Counts → Counts
  | .packed pending deadCount _ => .packed pending deadCount true
  | .large _ deadCount => .large (-1) deadCount

/-- `mark_completed`. -/
def markCompleted : Counts → Counts
  | .packed _ deadCount hasStarted => .packed 1 deadCount hasStarted
  | .large _ deadCount => .large (-2) deadCount

/-- The field `pending`. -/
def rawPending : Counts → ℤ
  | .packed pending _ _ => pending.toNat
  | .large pending _ => pending

/-- `pending`: 0 once the node is ready. -/
def pending (c : Counts) : ℤ := if c.nodeState = .pendingNotReady then c.rawPending else 0

/-- `decrement_pending`; it returns the `rawPending` of the result. -/
def decrementPending (v : ℕ) : Counts → Counts
  | .packed pending deadCount hasStarted =>
    .packed (pending - BitVec.ofNat 3 v) deadCount hasStarted
  | .large pending deadCount => .large (pending - v) deadCount

/-- `mark_live`: clear the lowest bit of the pending count of a Merge that has not started. -/
def markLive (c : Counts) : Counts :=
  if c.nodeState = .pendingNotReady then
    match c with
    | .packed pending deadCount hasStarted => .packed (pending &&& 6) deadCount hasStarted
    | .large pending deadCount => .large (pending - pending % 2) deadCount
  else c

/-- `dead_count`. -/
def deadCount : Counts → ℤ
  | .packed _ deadCount _ => deadCount.toNat
  | .large _ deadCount => deadCount

/-- `increment_dead_count`. -/
def incrementDeadCount (c : Counts) : Counts :=
  if c.nodeState = .pendingNotReady then
    match c with
    | .packed pending deadCount hasStarted => .packed pending (deadCount + 1) hasStarted
    | .large pending deadCount => .large pending (deadCount + 1)
  else c

/-! ### What the counts stand for -/

/-- The counts stand for a node that has not started, with `p` pending and `d` dead inputs. -/
def Holds (p d : ℕ) : Counts → Prop
  | .packed pending deadCount hasStarted =>
    pending.toNat = p ∧ deadCount.toNat = d ∧ hasStarted = false
  | .large pending deadCount => pending = p ∧ deadCount = d

/-- The dead count can still be incremented `k` times. -/
def Fits (k : ℕ) : Counts → Prop
  | .packed _ deadCount _ => deadCount.toNat + k < 8
  | .large _ _ => True

variable {c : Counts} {p d k v : ℕ}

theorem holds_setInitialCount (p k : ℕ) :
    Holds p 0 (setInitialCount p k) ∧ Fits k (setInitialCount p k) := by
  rw [setInitialCount, kMaxCountForPackedCounts]
  split
  · exact ⟨⟨rfl, rfl⟩, trivial⟩
  · rename_i h
    refine ⟨⟨?_, rfl, rfl⟩, ?_⟩
    · rw [BitVec.toNat_ofNat]
      omega
    · show 0 + k < 8
      omega

theorem Fits.mono {k' : ℕ} (hk : Fits k c) (h : k' ≤ k) : Fits k' c := by
  cases c with
  | packed pending dead started =>
    rw [Fits] at hk ⊢
    omega
  | large pending dead => trivial

section

variable (h : Holds p d c)
include h

/-- A node that has not started is ready as soon as nothing is pending. -/
theorem Holds.nodeState : c.nodeState = if p = 0 then .pendingReady else .pendingNotReady := by
  cases c with
  | packed pending dead started =>
    obtain ⟨hp, -, rfl⟩ := h
    have : pending = 0 ↔ p = 0 := by
      rw [← hp, BitVec.toNat_eq]
      rfl
    simp only [Counts.nodeState, this]
  | large pending dead =>
    obtain ⟨rfl, -⟩ := h
    simp only [Counts.nodeState]
    split_ifs <;> first | rfl | omega

theorem Holds.notReady (hp : 0 < p) : c.nodeState = .pendingNotReady := by
  rw [h.nodeState, if_neg (Nat.pos_iff_ne_zero.1 hp)]

theorem Holds.rawPending : c.rawPending = p := by
  cases c with
  | packed pending dead started => exact congrArg Nat.cast h.1
  | large pending dead => exact h.1

theorem Holds.pending : c.pending = p := by
  rw [Counts.pending, h.nodeState, h.rawPending]
  by_cases hp : p = 0
  · rw [if_pos hp, if_neg (by decide), hp]
    rfl
  · rw [if_neg hp, if_pos rfl]

theorem Holds.deadCount : c.deadCount = d := by
  cases c with
  | packed pending dead started => exact congrArg Nat.cast h.2.1
  | large pending dead => exact h.2

theorem Holds.decrementPending (hv : v ≤ p) : Holds (p - v) d (c.decrementPending v) := by
  cases c with
  | packed pending dead started =>
    obtain ⟨hp, hd, hs⟩ := h
    refine ⟨?_, hd, hs⟩
    have := pending.isLt
    rw [BitVec.toNat_sub, BitVec.toNat_ofNat]
    omega
  | large pending dead =>
    obtain ⟨rfl, rfl⟩ := h
    exact ⟨by omega, rfl⟩

end

theorem Fits.decrementPending (hk : Fits k c) : Fits k (c.decrementPending v) := by
  cases c with
  | packed pending dead started => exact hk
  | large pending dead => trivial

theorem Holds.markLive (h : Holds p d c) : Holds (p - p % 2) d c.markLive := by
  unfold Counts.markLive
  by_cases hp : p = 0
  · subst hp
    rw [h.nodeState, if_pos rfl, if_neg (by decide)]
    exact h
  rw [if_pos (h.notReady (Nat.pos_of_ne_zero hp))]
  cases c with
  | packed pending dead started =>
    obtain ⟨rfl, hd, hs⟩ := h
    refine ⟨?_, hd, hs⟩
    revert pending
    decide
  | large pending dead =>
    obtain ⟨rfl, rfl⟩ := h
    exact ⟨by omega, rfl⟩

theorem Fits.markLive (hk : Fits k c) : Fits k c.markLive := by
  unfold Counts.markLive
  split
  · cases c with
    | packed pending dead started => exact hk
    | large pending dead => trivial
  · exact hk

theorem Holds.incrementDeadCount (h : Holds p d c) (hp : 0 < p) (hk : Fits (k + 1) c) :
    Holds p (d + 1) c.incrementDeadCount ∧ Fits k c.incrementDeadCount := by
  unfold Counts.incrementDeadCount
  rw [if_pos (h.notReady hp)]
  cases c with
  | packed pending dead started =>
    obtain ⟨hp, rfl, hs⟩ := h
    have hk' : dead.toNat + (k + 1) < 8 := hk
    have hdead : (dead + 1).toNat = dead.toNat + 1 := by
      rw [BitVec.toNat_add]
      show (dead.toNat + 1) % 8 = _
      omega
    refine ⟨⟨hp, hdead, hs⟩, ?_⟩
    rw [Fits, hdead]
    omega
  | large pending dead =>
    obtain ⟨rfl, rfl⟩ := h
    exact ⟨⟨rfl, rfl⟩, trivial⟩

variable (h : c.nodeState ≠ .pendingNotReady)
include h

/-- Once a node is ready or started, marking it live or dead changes nothing. -/
theorem markLive_of_ready : c.markLive = c := if_neg h

theorem incrementDeadCount_of_ready : c.incrementDeadCount = c := if_neg h

theorem pending_of_ready : c.pending = 0 := if_neg h

end Counts

/-!
## What `PendingCounts` represents

`Counter` is what the counts of a node are for: two unbounded counters and a state. `Agree` says
that the answers of `node_state`, `pending` and `dead_count` are those of a counter, after each of
the operations that the executor issues. This holds of both forms of the counts (`agree_iff`), but
for the packed form of a Merge that is started while its pending count is still 1: `has_started`
together with a pending count that is not 0 encodes a node that has completed.
-/

/-- A node's counts, with no regard to how they are stored. -/
structure Counter where
  state : NodeState
  pending : ℕ
  deadCount : ℕ

/-- The operations that the executor issues for a node. -/
inductive CountsOp where
  | decrementPending (v : ℕ)
  | markLive
  | incrementDeadCount
  | markStarted
  | markCompleted
  deriving DecidableEq

namespace Counter

/-- The state of a node that has not started. -/
def waiting (pending deadCount : ℕ) : Counter :=
  ⟨if pending = 0 then .pendingReady else .pendingNotReady, pending, deadCount⟩

theorem waiting_of_ne {p : ℕ} (hp : p ≠ 0) (d : ℕ) : waiting p d = ⟨.pendingNotReady, p, d⟩ :=
  congrArg (mk · p d) (if_neg hp)

/-- What an operation does. Once the node is ready, arrivals do not count any more. -/
def exec (c : Counter) : CountsOp → Counter
  | .decrementPending v =>
    if c.state = .pendingNotReady then .waiting (c.pending - v) c.deadCount else c
  | .markLive =>
    if c.state = .pendingNotReady then .waiting (c.pending - c.pending % 2) c.deadCount else c
  | .incrementDeadCount =>
    if c.state = .pendingNotReady then .waiting c.pending (c.deadCount + 1) else c
  | .markStarted => { c with state := .started }
  | .markCompleted => { c with state := .completed }

/-- `node_state`, `pending` and `dead_count`. -/
def answers (c : Counter) : NodeState × ℤ × ℤ :=
  (c.state, if c.state = .pendingNotReady then c.pending else 0, c.deadCount)

/-- The executor may issue the operation: it counts down what is pending, it counts `k` more dead
inputs at most, and it starts a node that is ready, or a dead Merge that has all its control
inputs. -/
def MayIssue (c : Counter) (k : ℕ) : CountsOp → Prop
  | .decrementPending v => v = 0 ∨ c.state = .pendingNotReady ∧ v ≤ c.pending
  | .markLive => True
  | .incrementDeadCount => 0 < k
  | .markStarted => c.state = .pendingReady ∨ c.state = .pendingNotReady ∧ c.pending = 1
  | .markCompleted => c.state = .started

/-- How many more dead inputs may be counted. -/
def deadLeft (k : ℕ) : CountsOp → ℕ
  | .incrementDeadCount => k - 1
  | _ => k

/-- The executor may issue the operations in this order. -/
def Issued : Counter → ℕ → List CountsOp → Prop
  | _, _, [] => True
  | c, k, op :: ops => c.MayIssue k op ∧ (c.exec op).Issued (deadLeft k op) ops

/-- No node is started before it is ready. -/
def StartsReady : Counter → List CountsOp → Prop
  | _, [] => True
  | c, op :: ops => (op = .markStarted → c.state = .pendingReady) ∧ (c.exec op).StartsReady ops

end Counter

namespace Counts

/-- What an operation does. -/
def exec (c : Counts) : CountsOp → Counts
  | .decrementPending v => c.decrementPending v
  | .markLive => c.markLive
  | .incrementDeadCount => c.incrementDeadCount
  | .markStarted => c.markStarted
  | .markCompleted => c.markCompleted

def answers (c : Counts) : NodeState × ℤ × ℤ := (c.nodeState, c.pending, c.deadCount)

/-- The answers are those of the counter, after each of the operations. -/
def Agree (c : Counts) (counter : Counter) : List CountsOp → Prop
  | [] => c.answers = counter.answers
  | op :: ops => c.answers = counter.answers ∧ (c.exec op).Agree (counter.exec op) ops

/-- The counts are in the overflow table. -/
def IsLarge : Counts → Prop
  | .packed .. => False
  | .large .. => True

/-- The counts encode a node that has started, or completed. -/
def Encodes : NodeState → Counts → Prop
  | .started, .packed pending _ hasStarted => pending = 0 ∧ hasStarted = true
  | .started, .large pending _ => pending = -1
  | .completed, .packed pending _ hasStarted => pending ≠ 0 ∧ hasStarted = true
  | .completed, .large pending _ => pending = -2
  | _, _ => False

/-- The counts represent the counter, and `k` more dead inputs can be counted. -/
inductive Represents (c : Counts) : Counter → ℕ → Prop where
  | waiting {p d k : ℕ} (hc : Holds p d c) (hk : Fits k c) : Represents c (.waiting p d) k
  | running {state : NodeState} {p d k : ℕ} (hc : Encodes state c) (hd : c.deadCount = d) :
    Represents c ⟨state, p, d⟩ k

variable {c : Counts} {counter : Counter} {state : NodeState} {op : CountsOp} {ops : List CountsOp}
  {p d k : ℕ}

theorem Encodes.nodeState (h : Encodes state c) : c.nodeState = state := by
  cases c with
  | packed pending dead started =>
    cases state with
    | pendingNotReady => exact h.elim
    | pendingReady => exact h.elim
    | started =>
      obtain ⟨hp, rfl⟩ : pending = 0 ∧ started = true := h
      exact if_pos hp
    | completed =>
      obtain ⟨hp, rfl⟩ : pending ≠ 0 ∧ started = true := h
      exact if_neg hp
  | large pending dead =>
    cases state with
    | pendingNotReady => exact h.elim
    | pendingReady => exact h.elim
    | started =>
      obtain rfl : pending = -1 := h
      rfl
    | completed =>
      obtain rfl : pending = -2 := h
      rfl

theorem Encodes.ne_notReady (h : Encodes state c) : state ≠ .pendingNotReady := by
  rintro rfl
  cases c with
  | packed pending dead started => exact h
  | large pending dead => exact h

theorem Encodes.ne_ready (h : Encodes state c) : state ≠ .pendingReady := by
  rintro rfl
  cases c with
  | packed pending dead started => exact h
  | large pending dead => exact h

/-! ### The answers -/

theorem Holds.answers (h : Holds p d c) : c.answers = (Counter.waiting p d).answers := by
  rw [Counts.answers, h.nodeState, h.pending, h.deadCount]
  obtain rfl | hp := eq_or_ne p 0
  · rfl
  · rw [Counter.waiting_of_ne hp, if_neg hp]
    rfl

theorem Represents.answers (h : Represents c counter k) : c.answers = counter.answers := by
  cases h with
  | waiting hc hk => exact hc.answers
  | running hc hd =>
    have hstate := hc.nodeState
    rw [Counts.answers, pending_of_ready (hstate ▸ hc.ne_notReady), hstate, hd, Counter.answers,
      if_neg hc.ne_notReady]

/-! ### The operations -/

theorem decrementPending_zero (c : Counts) : c.decrementPending 0 = c := by
  cases c with
  | packed pending dead started => exact congrArg (packed · dead started) (BitVec.sub_zero pending)
  | large pending dead => exact congrArg (large · dead) (Int.sub_zero pending)

theorem deadCount_markStarted (c : Counts) : c.markStarted.deadCount = c.deadCount := by
  cases c with
  | packed pending dead started => rfl
  | large pending dead => rfl

theorem deadCount_markCompleted (c : Counts) : c.markCompleted.deadCount = c.deadCount := by
  cases c with
  | packed pending dead started => rfl
  | large pending dead => rfl

/-- Starting a node is recorded, if nothing is pending or if the counts are in the overflow
table. -/
theorem Holds.encodes_markStarted (h : Holds p d c) (hp : p = 0 ∨ c.IsLarge) :
    Encodes .started c.markStarted := by
  cases c with
  | packed pending dead started =>
    have hzero : p = 0 := hp.resolve_right id
    refine ⟨?_, rfl⟩
    rw [BitVec.toNat_eq, h.1, hzero]
    rfl
  | large pending dead => rfl

/-- A node that is started too early is recorded as completed when its counts are packed. -/
theorem Holds.nodeState_markStarted (h : Holds p d c) (hp : p ≠ 0) (hc : ¬ c.IsLarge) :
    c.markStarted.nodeState = .completed := by
  cases c with
  | packed pending dead started =>
    refine if_neg fun hzero ↦ hp ?_
    rw [← h.1, hzero]
    rfl
  | large pending dead => exact (hc trivial).elim

theorem Encodes.markCompleted (h : Encodes .started c) : Encodes .completed c.markCompleted := by
  cases c with
  | packed pending dead started => exact ⟨by decide, h.2⟩
  | large pending dead => rfl

/-- Counts keep the layout that they were made with. -/
theorem isLarge_exec (c : Counts) (op : CountsOp) : (c.exec op).IsLarge ↔ c.IsLarge := by
  cases c with
  | packed pending dead started =>
    cases op with
    | decrementPending v => rfl
    | markLive =>
      show (Counts.markLive _).IsLarge ↔ _
      unfold Counts.markLive
      split <;> rfl
    | incrementDeadCount =>
      show (Counts.incrementDeadCount _).IsLarge ↔ _
      unfold Counts.incrementDeadCount
      split <;> rfl
    | markStarted => rfl
    | markCompleted => rfl
  | large pending dead =>
    cases op with
    | decrementPending v => rfl
    | markLive =>
      show (Counts.markLive _).IsLarge ↔ _
      unfold Counts.markLive
      split <;> rfl
    | incrementDeadCount =>
      show (Counts.incrementDeadCount _).IsLarge ↔ _
      unfold Counts.incrementDeadCount
      split <;> rfl
    | markStarted => rfl
    | markCompleted => rfl

/-- A node that waits goes on being represented. -/
theorem represents_exec_waiting (hc : Holds p d c) (hk : Fits k c)
    (hop : (Counter.waiting p d).MayIssue k op) (hstart : op = .markStarted → p = 0 ∨ c.IsLarge) :
    Represents (c.exec op) ((Counter.waiting p d).exec op) (Counter.deadLeft k op) := by
  cases op with
  | decrementPending v =>
    have hv : v ≤ p := by
      obtain rfl | ⟨-, hv⟩ := hop
      · exact Nat.zero_le p
      · exact hv
    have hexec : (Counter.waiting p d).exec (.decrementPending v) = .waiting (p - v) d := by
      obtain rfl | hp := eq_or_ne p 0
      · rw [Nat.zero_sub]
        rfl
      · rw [Counter.waiting_of_ne hp]
        rfl
    rw [hexec]
    exact .waiting (hc.decrementPending hv) hk.decrementPending
  | markLive =>
    have hexec : (Counter.waiting p d).exec .markLive = .waiting (p - p % 2) d := by
      obtain rfl | hp := eq_or_ne p 0
      · rfl
      · rw [Counter.waiting_of_ne hp]
        rfl
    rw [hexec]
    exact .waiting hc.markLive hk.markLive
  | incrementDeadCount =>
    obtain rfl | hp := eq_or_ne p 0
    · have hready : c.nodeState ≠ .pendingNotReady := by
        rw [hc.nodeState]
        decide
      have hexec : c.exec .incrementDeadCount = c := incrementDeadCount_of_ready hready
      rw [hexec]
      exact .waiting hc (hk.mono (Nat.sub_le k 1))
    · have hleft : k - 1 + 1 = k := Nat.sub_add_cancel hop
      obtain ⟨hc', hk'⟩ := hc.incrementDeadCount (Nat.pos_of_ne_zero hp) (hleft.symm ▸ hk)
      rw [Counter.waiting_of_ne hp]
      exact .waiting hc' hk'
  | markStarted =>
    exact .running (hc.encodes_markStarted (hstart rfl))
      ((deadCount_markStarted c).trans hc.deadCount)
  | markCompleted =>
    -- a node that has not started cannot complete
    have hstarted : (if p = 0 then NodeState.pendingReady else .pendingNotReady) = .started := hop
    split at hstarted <;> cases hstarted

/-- Every operation that may be issued does to the packed counts what it does to a counter. -/
theorem represents_exec_running (hc : Encodes state c) (hd : c.deadCount = d)
    (hop : (Counter.mk state p d).MayIssue k op) :
    Represents (c.exec op) ((Counter.mk state p d).exec op) (Counter.deadLeft k op) := by
  have hstate : c.nodeState ≠ .pendingNotReady := hc.nodeState ▸ hc.ne_notReady
  cases op with
  | decrementPending v =>
    obtain rfl : v = 0 := hop.resolve_right fun h ↦ hc.ne_notReady h.1
    have hexec : c.exec (.decrementPending 0) = c := decrementPending_zero c
    have hexec' : (Counter.mk state p d).exec (.decrementPending 0) = ⟨state, p, d⟩ :=
      if_neg hc.ne_notReady
    rw [hexec, hexec']
    exact .running hc hd
  | markLive =>
    have hexec : c.exec .markLive = c := markLive_of_ready hstate
    have hexec' : (Counter.mk state p d).exec .markLive = ⟨state, p, d⟩ := if_neg hc.ne_notReady
    rw [hexec, hexec']
    exact .running hc hd
  | incrementDeadCount =>
    have hexec : c.exec .incrementDeadCount = c := incrementDeadCount_of_ready hstate
    have hexec' : (Counter.mk state p d).exec .incrementDeadCount = ⟨state, p, d⟩ :=
      if_neg hc.ne_notReady
    rw [hexec, hexec']
    exact .running hc hd
  | markStarted =>
    obtain h | ⟨h, -⟩ := hop
    · exact (hc.ne_ready h).elim
    · exact (hc.ne_notReady h).elim
  | markCompleted =>
    obtain rfl : state = .started := hop
    exact .running hc.markCompleted ((deadCount_markCompleted c).trans hd)

/-- Each operation of the executor is represented, but for the start of a node whose counts are
packed and that is not ready. -/
theorem Represents.exec (h : Represents c counter k) (hop : counter.MayIssue k op)
    (hstart : op = .markStarted → counter.state = .pendingReady ∨ c.IsLarge) :
    Represents (c.exec op) (counter.exec op) (Counter.deadLeft k op) := by
  cases h with
  | @waiting p d _ hc hk =>
    refine represents_exec_waiting hc hk hop fun h ↦ (hstart h).imp_left fun hready ↦ ?_
    by_contra hp
    rw [Counter.waiting_of_ne hp] at hready
    cases hready
  | running hc hd => exact represents_exec_running hc hd hop

/-- The counts of a node that is started too early differ. -/
theorem Represents.not_agree (h : Represents c counter k) (hc : ¬ c.IsLarge)
    (hwait : counter.state = .pendingNotReady) : ¬ c.Agree counter (.markStarted :: ops) := by
  intro hagree
  have hnext : (c.exec .markStarted).answers = (counter.exec .markStarted).answers := by
    obtain - | ⟨op, ops⟩ := ops
    · exact hagree.2
    · exact hagree.2.1
  have hcompleted : c.markStarted.nodeState = .completed := by
    cases h with
    | @waiting p d _ hholds hk =>
      refine hholds.nodeState_markStarted ?_ hc
      rintro rfl
      cases hwait
    | running henc hd => exact (henc.ne_notReady hwait).elim
  have hstarted : c.markStarted.nodeState = .started := congrArg Prod.fst hnext
  rw [hcompleted] at hstarted
  cases hstarted

/-- The answers are those of the counter if and only if the counts are in the overflow table or the
node is never started before it is ready. -/
theorem Represents.agree_iff (h : Represents c counter k) (hops : counter.Issued k ops) :
    c.Agree counter ops ↔ c.IsLarge ∨ counter.StartsReady ops := by
  induction ops generalizing c counter k with
  | nil => exact ⟨fun _ ↦ .inr trivial, fun _ ↦ h.answers⟩
  | cons op ops ih =>
    obtain ⟨hop, htail⟩ := hops
    by_cases hstart : op = .markStarted → counter.state = .pendingReady ∨ c.IsLarge
    · have hiff := ih (h.exec hop hstart) htail
      rw [isLarge_exec] at hiff
      refine (and_iff_right h.answers).trans (hiff.trans ?_)
      refine or_congr_right' fun hc ↦ (and_iff_right fun hs ↦ (hstart hs).resolve_right hc).symm
    · rw [Classical.not_imp, not_or] at hstart
      obtain ⟨rfl, hready, hc⟩ := hstart
      have hwait : counter.state = .pendingNotReady := (hop.resolve_left hready).1
      refine iff_of_false (h.not_agree hc hwait) (not_or.2 ⟨hc, fun h' ↦ hready (h'.1 rfl)⟩)

/-- The answers of the counts of a node are those of a counter, for each sequence of operations that
the executor issues, if and only if the counts are in the overflow table or the node is never
started before it is ready. -/
theorem agree_setInitialCount_iff (p maxDead : ℕ) (ops : List CountsOp)
    (hops : (Counter.waiting p 0).Issued maxDead ops) :
    (setInitialCount p maxDead).Agree (.waiting p 0) ops ↔
      (setInitialCount p maxDead).IsLarge ∨ (Counter.waiting p 0).StartsReady ops :=
  have hinit := holds_setInitialCount p maxDead
  Represents.agree_iff (.waiting hinit.1 hinit.2) hops

/-- A Merge of two inputs, both of which arrive dead, that is started as a dead node. -/
theorem agree_setInitialCount_iff_deadMerge :
    (setInitialCount 1 2).Agree (.waiting 1 0) [.incrementDeadCount, .incrementDeadCount,
      .markStarted] ↔
      (setInitialCount 1 2).IsLarge ∨
        (Counter.waiting 1 0).StartsReady [.incrementDeadCount, .incrementDeadCount,
          .markStarted] :=
  agree_setInitialCount_iff 1 2 _
    ⟨Nat.two_pos, Nat.one_pos, .inr ⟨rfl, rfl⟩, trivial⟩

/-- The packed counts of that Merge answer that it has completed as soon as it has started. -/
theorem not_agree_deadMerge :
    ¬ ∀ (p maxDead : ℕ) (ops : List CountsOp), (Counter.waiting p 0).Issued maxDead ops →
      (setInitialCount p maxDead).Agree (.waiting p 0) ops := by
  intro h
  obtain ⟨-, -, -, hanswers⟩ := h 1 2 [.incrementDeadCount, .incrementDeadCount, .markStarted]
    ⟨Nat.two_pos, Nat.one_pos, .inr ⟨rfl, rfl⟩, trivial⟩
  have hstarted : NodeState.completed = .started := congrArg Prod.fst hanswers
  cases hstarted

end Counts

end TensorFlowCore
