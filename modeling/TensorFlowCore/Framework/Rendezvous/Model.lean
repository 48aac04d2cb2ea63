import Mathlib.Data.List.AList
import TensorFlowCore.Core.Status
import TensorFlowCore.Support.GuardedRun

/-!
# `LocalRendezvousImpl`

The rendezvous of `tensorflow/core/framework/rendezvous.cc`: a table of items keyed by the hash of
the rendezvous key, under one mutex. `send`, `recvAsync` and `startAbort` are the three critical
sections, translated branch by branch; each returns, beside the new state, the done callbacks that
its caller runs **after** dropping the lock.

`System` puts the critical sections of any number of clients together. A callback that has left the
lock but has not run yet sits in `pending`, and running it is a step of its own, so every
interleaving of critical sections with late callbacks is a run. `history` records what happened,
newest event first; no step reads it.

A `Tensor` is an arbitrary inhabited type, whose `default` is the empty tensor `Tensor()`. The
reference counts of device contexts guard memory only and are left out.
-/

namespace TensorFlowCore.Rendezvous

/-- `Rendezvous::Args`. A `DeviceContext*` is its address, `none` for the null pointer. -/
structure Args where
  deviceContext : Option ℕ := none
  allocAttrs : UInt32 := 0
  deriving DecidableEq

/-- A done callback is named by the `RecvAsync` call it was passed to. -/
abbrev DoneCallback := ℕ

/-- `LocalRendezvousImpl::Item`: a waiting receiver, a stored message or a consumed marker. -/
structure Item (τ : Type*) where
  waiter : Option DoneCallback := none
  value : τ
  isDead : Bool := false
  hasBeenRecvd : Bool := false
  sendDevContext : Option ℕ := none
  recvDevContext : Option ℕ := none
  sendAllocAttrs : UInt32 := 0
  recvAllocAttrs : UInt32 := 0

/-- `KeyHash`: the table is keyed by the hash of the full key. -/
def keyHash (fullKey : ByteString) : UInt64 := hash64 fullKey

/-- The state of a `LocalRendezvousImpl`. -/
structure LocalRendezvousImpl (τ : Type*) where
  tolerateDupRecv : Bool
  table : AList fun _ : UInt64 ↦ Item τ
  status : Status

/-- A call of a done callback, with everything it is passed. -/
structure Invocation (τ : Type*) where
  done : DoneCallback
  status : Status
  sendArgs : Args
  recvArgs : Args
  value : τ
  isDead : Bool

variable {τ : Type*} [Inhabited τ]

namespace LocalRendezvousImpl

/-- `LocalRendezvousImpl(tolerate_dup_recv)`. -/
def init (tolerateDupRecv : Bool) : LocalRendezvousImpl τ where
  tolerateDupRecv := tolerateDupRecv
  table := ∅
  status := .ok

/-- The item of a message that no receiver waits for yet. -/
def messageItem (sendArgs : Args) (val : τ) (isDead : Bool) : Item τ where
  value := val
  isDead := isDead
  sendDevContext := sendArgs.deviceContext
  sendAllocAttrs := sendArgs.allocAttrs

/-- What `Send` leaves of an item whose waiter it takes: a completed item, which keeps the message
only when duplicate receives are tolerated. -/
def completedItem (tolerateDupRecv : Bool) (item : Item τ) (sendArgs : Args) (val : τ)
    (isDead : Bool) : Item τ :=
  let item := { item with hasBeenRecvd := true, waiter := none, recvDevContext := none }
  if tolerateDupRecv then
    { item with
      value := val
      isDead := isDead
      sendDevContext := sendArgs.deviceContext.or item.sendDevContext
      sendAllocAttrs := sendArgs.allocAttrs }
  else item

/-- The item of a receiver that waits for its message. -/
def waiterItem (recvArgs : Args) (done : DoneCallback) : Item τ where
  waiter := some done
  value := default
  recvDevContext := recvArgs.deviceContext
  recvAllocAttrs := recvArgs.allocAttrs

/-- What `RecvAsync` leaves of an item it has read: the message is dropped unless duplicate
receives are tolerated. -/
def consumedItem (tolerateDupRecv : Bool) (item : Item τ) : Item τ :=
  { item with
    value := if tolerateDupRecv then item.value else default
    hasBeenRecvd := true }

/-- The critical section of `Send`, its returned status and the waiter it runs afterwards. -/
def send (r : LocalRendezvousImpl τ) (key : ByteString) (sendArgs : Args) (val : τ)
    (isDead : Bool) : LocalRendezvousImpl τ × Status × Option (Invocation τ) :=
  if r.status ≠ .ok then (r, r.status, none)
  else
    match r.table.lookup (keyHash key) with
    | none =>
      ({ r with table := r.table.insert (keyHash key) (messageItem sendArgs val isDead) },
        .ok, none)
    | some item =>
      match item.waiter with
      | none => (r, .aborted (ascii "Duplicated send: " ++ key), none)
      | some waiter =>
        let item' := completedItem r.tolerateDupRecv item sendArgs val isDead
        ({ r with table := r.table.insert (keyHash key) item' }, .ok,
          some ⟨waiter, .ok, sendArgs, ⟨item.recvDevContext, item.recvAllocAttrs⟩, val, isDead⟩)

/-- The critical section of `RecvAsync`, and the call of `done` it makes afterwards, if any. -/
def recvAsync (r : LocalRendezvousImpl τ) (key : ByteString) (recvArgs : Args)
    (done : DoneCallback) : LocalRendezvousImpl τ × Option (Invocation τ) :=
  if r.status ≠ .ok then (r, some ⟨done, r.status, {}, recvArgs, default, false⟩)
  else
    match r.table.lookup (keyHash key) with
    | some item =>
      if item.hasBeenRecvd && !r.tolerateDupRecv then
        (r, some ⟨done, .aborted (ascii "Duplicated recv: " ++ key), {}, recvArgs, default, false⟩)
      else if item.waiter.isNone || r.tolerateDupRecv then
        ({ r with table := r.table.insert (keyHash key) (consumedItem r.tolerateDupRecv item) },
          some ⟨done, .ok, ⟨item.sendDevContext, item.sendAllocAttrs⟩, recvArgs, item.value,
            item.isDead⟩)
      else
        (r, some ⟨done, .aborted (ascii "Duplicated recv: " ++ key), {}, recvArgs, default, false⟩)
    | none =>
      ({ r with table := r.table.insert (keyHash key) (waiterItem recvArgs done) }, none)

/-- The call that aborting makes for an item that has a waiter. -/
def abortInvocation (status : Status) (item : Item τ) : Option (Invocation τ) :=
  item.waiter.map fun waiter ↦ ⟨waiter, status, {}, {}, default, false⟩

/-- The critical section of `StartAbort`, and the waiters it runs afterwards. -/
def startAbort (r : LocalRendezvousImpl τ) (status : Status) :
    LocalRendezvousImpl τ × List (Invocation τ) :=
  if r.status ≠ .ok then (r, [])
  else
    ({ r with status := status, table := ∅ },
      r.table.entries.filterMap fun entry ↦ abortInvocation status entry.2)

/-! ### What a critical section can do -/

omit [Inhabited τ] in
/-- Everything `Send` can do: report the abort status, store its message, reject a duplicate, or
hand its message to the receiver that waits. -/
theorem send_cases (r : LocalRendezvousImpl τ) (key : ByteString) (sendArgs : Args) (val : τ)
    (isDead : Bool) :
    (r.status ≠ .ok ∧ r.send key sendArgs val isDead = (r, r.status, none)) ∨
    (r.status = .ok ∧ r.table.lookup (keyHash key) = none ∧
      r.send key sendArgs val isDead =
        ({ r with table := r.table.insert (keyHash key) (messageItem sendArgs val isDead) },
          .ok, none)) ∨
    (r.status = .ok ∧ ∃ item, r.table.lookup (keyHash key) = some item ∧ item.waiter = none ∧
      r.send key sendArgs val isDead =
        (r, .aborted (ascii "Duplicated send: " ++ key), none)) ∨
    (r.status = .ok ∧ ∃ item waiter, r.table.lookup (keyHash key) = some item ∧
      item.waiter = some waiter ∧
      r.send key sendArgs val isDead =
        ({ r with table := r.table.insert (keyHash key)
                    (completedItem r.tolerateDupRecv item sendArgs val isDead) },
          .ok,
          some ⟨waiter, .ok, sendArgs, ⟨item.recvDevContext, item.recvAllocAttrs⟩, val,
            isDead⟩)) := by
  by_cases hst : r.status = .ok
  · right
    rcases hl : r.table.lookup (keyHash key) with - | item
    · exact Or.inl ⟨hst, rfl, by simp [send, hst, hl]⟩
    · rcases hw : item.waiter with - | waiter
      · exact Or.inr (Or.inl ⟨hst, item, rfl, hw, by simp [send, hst, hl, hw]⟩)
      · exact Or.inr (Or.inr ⟨hst, item, waiter, rfl, hw, by simp [send, hst, hl, hw]⟩)
  · exact Or.inl ⟨hst, by simp [send, hst]⟩

/-- Everything `RecvAsync` can do: report the abort status, reject a duplicate, read the item that
is there, or wait. -/
theorem recvAsync_cases (r : LocalRendezvousImpl τ) (key : ByteString) (recvArgs : Args)
    (done : DoneCallback) :
    (r.status ≠ .ok ∧ r.recvAsync key recvArgs done =
      (r, some ⟨done, r.status, {}, recvArgs, default, false⟩)) ∨
    (r.status = .ok ∧ r.tolerateDupRecv = false ∧
      (∃ item, r.table.lookup (keyHash key) = some item ∧
        (item.hasBeenRecvd = true ∨ item.waiter ≠ none)) ∧
      r.recvAsync key recvArgs done =
        (r, some ⟨done, .aborted (ascii "Duplicated recv: " ++ key), {}, recvArgs, default,
          false⟩)) ∨
    (r.status = .ok ∧ ∃ item, r.table.lookup (keyHash key) = some item ∧
      (r.tolerateDupRecv = true ∨ (item.hasBeenRecvd = false ∧ item.waiter = none)) ∧
      r.recvAsync key recvArgs done =
        ({ r with table := r.table.insert (keyHash key) (consumedItem r.tolerateDupRecv item) },
          some ⟨done, .ok, ⟨item.sendDevContext, item.sendAllocAttrs⟩, recvArgs, item.value,
            item.isDead⟩)) ∨
    (r.status = .ok ∧ r.table.lookup (keyHash key) = none ∧
      r.recvAsync key recvArgs done =
        ({ r with table := r.table.insert (keyHash key) (waiterItem recvArgs done) }, none)) := by
  by_cases hst : r.status = .ok
  · right
    rcases hl : r.table.lookup (keyHash key) with - | item
    · exact Or.inr (Or.inr ⟨hst, rfl, by simp [recvAsync, hst, hl]⟩)
    · rcases htol : r.tolerateDupRecv with _ | _
      · rcases hrecvd : item.hasBeenRecvd with _ | _
        · rcases hw : item.waiter with - | waiter
          · exact Or.inr (Or.inl ⟨hst, item, rfl, Or.inr ⟨hrecvd, hw⟩,
              by simp [recvAsync, hst, hl, htol, hrecvd, hw]⟩)
          · exact Or.inl ⟨hst, rfl, ⟨item, rfl, Or.inr (by simp [hw])⟩,
              by simp [recvAsync, hst, hl, htol, hrecvd, hw]⟩
        · exact Or.inl ⟨hst, rfl, ⟨item, rfl, Or.inl hrecvd⟩,
            by simp [recvAsync, hst, hl, htol, hrecvd]⟩
      · exact Or.inr (Or.inl ⟨hst, item, rfl, Or.inl rfl, by simp [recvAsync, hst, hl, htol]⟩)
  · exact Or.inl ⟨hst, by simp [recvAsync, hst]⟩

end LocalRendezvousImpl

/-! ### Clients and late callbacks -/

/-- What a run did: a `Send` with the status it returned, a `RecvAsync`, a `StartAbort`, or the
call of a done callback. -/
inductive Event (τ : Type*) where
  | send (key : ByteString) (val : τ) (isDead : Bool) (status : Status)
  | recvAsync (key : ByteString) (done : DoneCallback)
  | startAbort (status : Status)
  | called (inv : Invocation τ)

/-- The rendezvous with the callbacks its clients still have to run. -/
structure System (τ : Type*) where
  rendezvous : LocalRendezvousImpl τ
  pending : List (Invocation τ)
  nextDone : DoneCallback
  history : List (Event τ)

/-- One step of some client: a critical section, or running the `i`-th pending callback. -/
inductive Action (τ : Type*) where
  | send (key : ByteString) (sendArgs : Args) (val : τ) (isDead : Bool)
  | recvAsync (key : ByteString) (recvArgs : Args)
  | startAbort (status : Status)
  | callDone (i : ℕ)

/-- The key an action passes to the rendezvous. -/
def Action.key? : Action τ → Option ByteString
  | .send key _ _ _ => some key
  | .recvAsync key _ => some key
  | .startAbort _ => none
  | .callDone _ => none

/-- The keys that a list of actions uses. -/
def keysUsed (as : List (Action τ)) : Set ByteString :=
  {key | ∃ a ∈ as, a.key? = some key}

namespace System

/-- A fresh rendezvous with no client yet. -/
def init (tolerateDupRecv : Bool) : System τ where
  rendezvous := .init tolerateDupRecv
  pending := []
  nextDone := 0
  history := []

/-- One step. `StartAbort` requires a status that is not OK (its `CHECK`), and only a pending
callback can be run. -/
def step (s : System τ) : Action τ → Option (System τ)
  | .send key sendArgs val isDead =>
    let (r, status, waiter) := s.rendezvous.send key sendArgs val isDead
    some { s with
      rendezvous := r
      pending := s.pending ++ waiter.toList
      history := .send key val isDead status :: s.history }
  | .recvAsync key recvArgs =>
    let (r, call) := s.rendezvous.recvAsync key recvArgs s.nextDone
    some
      { rendezvous := r
        pending := s.pending ++ call.toList
        nextDone := s.nextDone + 1
        history := .recvAsync key s.nextDone :: s.history }
  | .startAbort status =>
    if status = .ok then none
    else
      let (r, calls) := s.rendezvous.startAbort status
      some { s with
        rendezvous := r
        pending := s.pending ++ calls
        history := .startAbort status :: s.history }
  | .callDone i =>
    (s.pending[i]?).map fun inv ↦
      { s with pending := s.pending.eraseIdx i, history := .called inv :: s.history }

variable {s : System τ}

theorem step_send {key : ByteString} {sendArgs : Args} {val : τ} {isDead : Bool}
    {r : LocalRendezvousImpl τ} {status : Status} {waiter : Option (Invocation τ)}
    (h : s.rendezvous.send key sendArgs val isDead = (r, status, waiter)) :
    s.step (.send key sendArgs val isDead) = some
      { s with
        rendezvous := r
        pending := s.pending ++ waiter.toList
        history := .send key val isDead status :: s.history } := by
  simp only [step, h]

theorem step_recvAsync {key : ByteString} {recvArgs : Args} {r : LocalRendezvousImpl τ}
    {call : Option (Invocation τ)}
    (h : s.rendezvous.recvAsync key recvArgs s.nextDone = (r, call)) :
    s.step (.recvAsync key recvArgs) = some
      { rendezvous := r
        pending := s.pending ++ call.toList
        nextDone := s.nextDone + 1
        history := .recvAsync key s.nextDone :: s.history } := by
  simp only [step, h]

theorem step_startAbort {status : Status} {s' : System τ}
    (h : s.step (.startAbort status) = some s') : status ≠ .ok ∧
      s' = { s with
        rendezvous := (s.rendezvous.startAbort status).1
        pending := s.pending ++ (s.rendezvous.startAbort status).2
        history := .startAbort status :: s.history } := by
  simp only [step] at h
  split at h
  · cases h
  · exact ⟨‹_›, (Option.some.inj h).symm⟩

theorem step_callDone {i : ℕ} {s' : System τ} (h : s.step (.callDone i) = some s') :
    ∃ inv, s.pending[i]? = some inv ∧
      s' = { s with pending := s.pending.eraseIdx i, history := .called inv :: s.history } := by
  obtain ⟨inv, hi, rfl⟩ := Option.map_eq_some_iff.1 h
  exact ⟨inv, hi, rfl⟩

end System

end TensorFlowCore.Rendezvous
