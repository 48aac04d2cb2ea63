import Mathlib.Data.Int.Notation
import TensorFlowCore.Support.GuardedRun
import TensorFlowCore.Support.KeyedList

/-!
# `CancellationManager`

The manager of `tensorflow/core/framework/cancellation.cc` with any number of clients. Each step is
a critical section of a call, or what a call does outside of them: `StartCancel` runs the callbacks,
in any order and while the lock is free, and `DeregisterCallback` waits for the notification. An
action names what the call returns, and it is enabled only if the code returns that.
-/

namespace TensorFlowCore

open Option

/-- A token is an `int64`. A callback is registered with any token below the next one,
`kInvalidToken` too. -/
abbrev CancellationToken := ℤ

namespace CancellationManager

/-- Where a client is in the call that it makes. -/
inductive Client (F : Type) where
  | idle
  /-- In `StartCancel`, between its two critical sections. -/
  | cancelling (callbacksToRun : List (CancellationToken × F))
      (running : Option (CancellationToken × F))
  /-- In `StartCancel`, before it notifies. -/
  | notifying
  /-- In `DeregisterCallback`, waiting for the notification. -/
  | waiting (token : CancellationToken)

/-- What a client does. -/
inductive Action (C F : Type) where
  | getCancellationToken (c : C)
  | registerCallback (c : C) (token : CancellationToken) (callback : F) (registered : Bool)
  | startCancel (c : C)
  | runCallback (c : C) (token : CancellationToken) (callback : F)
  | callbackReturns (c : C) (token : CancellationToken) (callback : F)
  | finishCancel (c : C)
  | notify (c : C)
  /-- `DeregisterCallback` returns, or it waits. -/
  | deregisterCallback (c : C) (token : CancellationToken) (returned : Option Bool)
  /-- `DeregisterCallback` returns false after it has waited. -/
  | stopWaiting (c : C) (token : CancellationToken)

namespace Action

variable {C F : Type}

/-- The token with which `RegisterCallback` is called. -/
def registers? : Action C F → Option CancellationToken
  | .registerCallback _ token _ _ => some token
  | _ => none

/-- The token whose callback is called. -/
def runs? : Action C F → Option CancellationToken
  | .runCallback _ token _ => some token
  | _ => none

/-- The token with which `DeregisterCallback` returns. -/
def deregisters? : Action C F → Option CancellationToken
  | .deregisterCallback _ token (some _) => some token
  | .stopWaiting _ token => some token
  | _ => none

end Action

end CancellationManager

open CancellationManager in
/-- The manager, with the clients that use it. -/
structure CancellationManager (C F : Type) where
  isCancelling : Bool
  isCancelled : Bool
  nextCancellationToken : CancellationToken
  callbacks : List (CancellationToken × F)
  /-- The notification `cancelled_notification_` has been notified. -/
  notified : Bool
  client : C → Client F

namespace CancellationManager

variable {C F : Type} [DecidableEq C] [DecidableEq F]

def init : CancellationManager C F where
  isCancelling := false
  isCancelled := false
  nextCancellationToken := 0
  callbacks := []
  notified := false
  client := fun _ ↦ .idle

/-- `RegisterCallback` registers the callback, and `StartCancel` begins to cancel. -/
def isOpen (s : CancellationManager C F) : Bool := !s.isCancelled && !s.isCancelling

def setClient (s : CancellationManager C F) (c : C) (client : Client F) : CancellationManager C F :=
  { s with client := Function.update s.client c client }

def isIdle (s : CancellationManager C F) (c : C) : Bool :=
  match s.client c with
  | .idle => true
  | _ => false

/-- One step of a client. A client that is in a call goes on with it before it makes another one. -/
def step (s : CancellationManager C F) : Action C F → Option (CancellationManager C F)
  | .getCancellationToken c =>
    if s.isIdle c then some { s with nextCancellationToken := s.nextCancellationToken +
      1 } else none
  | .registerCallback c token callback registered =>
    -- a token that has not been given out fails a `CHECK`
    if s.isIdle c ∧ token < s.nextCancellationToken ∧ registered = s.isOpen then
      some (if registered then { s with callbacks := KeyedList.set token callback s.callbacks
        } else s)
    else none
  | .startCancel c =>
    if s.isIdle c then
      some (if s.isOpen then
          { s with isCancelling := true, callbacks := [] }.setClient c
            (.cancelling s.callbacks none)
        else s)
    else none
  | .runCallback c token callback =>
    match s.client c with
    | .cancelling callbacksToRun none =>
      if KeyedList.get? token callbacksToRun = some callback then
        some (s.setClient c (.cancelling (KeyedList.erase token callbacksToRun)
          (some (token, callback))))
      else none
    | _ => none
  | .callbackReturns c token callback =>
    match s.client c with
    | .cancelling callbacksToRun (some running) =>
      if running = (token, callback) then some (s.setClient c
        (.cancelling callbacksToRun none)) else none
    | _ => none
  | .finishCancel c =>
    match s.client c with
    | .cancelling [] none =>
      some ({ s with isCancelling := false, isCancelled := true }.setClient c .notifying)
    | _ => none
  | .notify c =>
    match s.client c with
    | .notifying => some ({ s with notified := true }.setClient c .idle)
    | _ => none
  | .deregisterCallback c token returned =>
    if ¬ s.isIdle c then none
    else if s.isCancelled then if returned = some false then some s else none
    else if s.isCancelling then if returned =
    none then some (s.setClient c (.waiting token)) else none
    else if returned = some true then some { s with callbacks := KeyedList.erase token s.callbacks }
    else none
  | .stopWaiting c token =>
    match s.client c with
    | .waiting token' => if token' = token ∧ s.notified then some (s.setClient c .idle) else none
    | _ => none

end CancellationManager

end TensorFlowCore

/-!
## The steps of the `CancellationManager`

`Inv` is the invariant of the manager: one client at most is between the two critical sections of
`StartCancel`, and from there on there are no callbacks to register or to deregister.

A callback that is registered goes through three stages: it is `Registered`, then `Scheduled` by the
client that cancels, then it is `Running`. When it is not in any of them, its token is `Gone`. The
step lemmas say how a callback leaves a stage.
-/

namespace TensorFlowCore.CancellationManager

open GuardedRun KeyedList Option

variable {C F : Type} {s s' : CancellationManager C F} {a : Action C F}
  {c d : C} {x : Client F} {token t : CancellationToken} {f : F}

theorem isIdle_iff : s.isIdle c = true ↔ s.client c = .idle := by
  unfold isIdle
  split
  · exact iff_of_true rfl ‹_›
  · exact iff_of_false Bool.false_ne_true ‹_›

theorem isOpen_iff : s.isOpen = true ↔ s.isCancelled = false ∧ s.isCancelling = false := by
  rw [isOpen, Bool.and_eq_true, Bool.not_eq_true', Bool.not_eq_true']

variable [DecidableEq C]

@[simp] theorem client_setClient_self : (s.setClient c x).client c = x := Function.update_self ..

theorem client_setClient_of_ne (h : d ≠ c) : (s.setClient c x).client d = s.client d :=
  Function.update_of_ne h ..

/-! ### What a step does -/

variable [DecidableEq F]

theorem step_getCancellationToken (h : s.step (.getCancellationToken c) = some s') :
    s' = { s with nextCancellationToken := s.nextCancellationToken + 1 } :=
  (some.inj (ite_none_right_eq_some.1 h).2).symm

theorem step_registerCallback {registered : Bool}
    (h : s.step (.registerCallback c token f registered) = some s') :
    registered = s.isOpen ∧
    s' = if registered then { s with callbacks := set token f s.callbacks } else s := by
  obtain ⟨⟨-, -, hreg⟩, hs⟩ := ite_none_right_eq_some.1 h
  exact ⟨hreg, (some.inj hs).symm⟩

theorem step_startCancel (h : s.step (.startCancel c) = some s') :
    s.client c = .idle ∧ s' = if s.isOpen then
      { s with isCancelling := true, callbacks := [] }.setClient c
      (.cancelling s.callbacks none) else s := by
  obtain ⟨hidle, hs⟩ := ite_none_right_eq_some.1 h
  exact ⟨isIdle_iff.1 hidle, (some.inj hs).symm⟩

theorem step_runCallback (h : s.step (.runCallback c token f) = some s') :
    ∃ callbacksToRun, s.client c = .cancelling callbacksToRun none ∧
    get? token callbacksToRun = some f ∧
      s' = s.setClient c (.cancelling (erase token callbacksToRun) (some (token, f))) := by
  rw [step] at h
  split at h
  · obtain ⟨hget, hs⟩ := ite_none_right_eq_some.1 h
    exact ⟨_, ‹_›, hget, (some.inj hs).symm⟩
  · cases h

theorem step_callbackReturns (h : s.step (.callbackReturns c token f) = some s') :
    ∃ callbacksToRun, s.client c = .cancelling callbacksToRun (some (token, f)) ∧
      s' = s.setClient c (.cancelling callbacksToRun none) := by
  rw [step] at h
  split at h
  · obtain ⟨rfl, hs⟩ := ite_none_right_eq_some.1 h
    exact ⟨_, ‹_›, (some.inj hs).symm⟩
  · cases h

theorem step_finishCancel (h : s.step (.finishCancel c) = some s') :
    s.client c = .cancelling [] none ∧
      s' = { s with isCancelling := false, isCancelled := true }.setClient c .notifying := by
  rw [step] at h
  split at h
  · exact ⟨‹_›, (some.inj h).symm⟩
  · cases h

theorem step_notify (h : s.step (.notify c) = some s') :
    s.client c = .notifying ∧ s' = { s with notified := true }.setClient c .idle := by
  rw [step] at h
  split at h
  · exact ⟨‹_›, (some.inj h).symm⟩
  · cases h

/-- The three branches of `DeregisterCallback`. -/
theorem step_deregisterCallback {returned : Option Bool}
    (h : s.step (.deregisterCallback c token returned) = some s') : s.client c = .idle ∧
      (s.isCancelled = true ∧ returned = some false ∧ s' = s ∨
        s.isCancelled = false ∧ s.isCancelling = true ∧ returned = none ∧
        s' = s.setClient c (.waiting token) ∨
        s.isOpen = true ∧ returned = some true ∧
        s' = { s with callbacks := erase token s.callbacks }) := by
  rw [step] at h
  obtain ⟨hidle, h⟩ := ite_none_left_eq_some.1 h
  refine ⟨isIdle_iff.1 (not_not.1 hidle), ?_⟩
  split at h
  · rename_i hcancelled
    obtain ⟨hret, hs⟩ := ite_none_right_eq_some.1 h
    exact .inl ⟨hcancelled, hret, (some.inj hs).symm⟩
  · rename_i hcancelled
    rw [Bool.not_eq_true] at hcancelled
    split at h
    · rename_i hcancelling
      obtain ⟨hret, hs⟩ := ite_none_right_eq_some.1 h
      exact .inr (.inl ⟨hcancelled, hcancelling, hret, (some.inj hs).symm⟩)
    · rename_i hcancelling
      rw [Bool.not_eq_true] at hcancelling
      obtain ⟨hret, hs⟩ := ite_none_right_eq_some.1 h
      exact .inr (.inr ⟨isOpen_iff.2 ⟨hcancelled, hcancelling⟩, hret, (some.inj hs).symm⟩)

theorem step_stopWaiting (h : s.step (.stopWaiting c token) = some s') :
    s.client c = .waiting token ∧ s.notified = true ∧ s' = s.setClient c .idle := by
  rw [step] at h
  split at h
  · obtain ⟨⟨rfl, hn⟩, hs⟩ := ite_none_right_eq_some.1 h
    exact ⟨‹_›, hn, (some.inj hs).symm⟩
  · cases h

/-! ### The invariant -/

/-- The client is between the two critical sections of `StartCancel`. -/
def Client.IsCancelling : Client F → Prop
  | .cancelling .. => True
  | _ => False

/-- The invariant of the manager. -/
structure Inv (s : CancellationManager C F) : Prop where
  cancelling : ∀ c, (s.client c).IsCancelling → s.isCancelling = true
  unique : ∀ c d, (s.client c).IsCancelling → (s.client d).IsCancelling → c = d
  exclusive : s.isCancelling = true → s.isCancelled = false
  swapped : s.isOpen = false → s.callbacks = []
  notified : s.notified = true → s.isCancelled = true
  notifying : ∀ c, s.client c = .notifying → s.isCancelled = true

omit [DecidableEq C] [DecidableEq F] in
theorem inv_init : Inv (init : CancellationManager C F) where
  cancelling _ h := h.elim
  unique _ _ h _ := h.elim
  exclusive h := (Bool.false_ne_true h).elim
  swapped _ := rfl
  notified h := (Bool.false_ne_true h).elim
  notifying _ h := nomatch h

omit [DecidableEq F] in
/-- A client that is not cancelling does not start to. -/
theorem Inv.setClient (h : Inv s) (hx : x.IsCancelling → (s.client c).IsCancelling)
    (hn : x = .notifying → s.isCancelled = true) : Inv (s.setClient c x) := by
  have hclient : ∀ d, ((s.setClient c x).client d).IsCancelling → (s.client d).IsCancelling := by
    intro d hd
    obtain rfl | hne := eq_or_ne d c
    · rw [client_setClient_self] at hd
      exact hx hd
    · rwa [client_setClient_of_ne hne] at hd
  refine ⟨fun d hd ↦ h.cancelling d (hclient d hd), fun d e hd he ↦ h.unique d e (hclient d hd)
    (hclient e he),
    h.exclusive, h.swapped, h.notified, fun d hd ↦ ?_⟩
  obtain rfl | hne := eq_or_ne d c
  · rw [client_setClient_self] at hd
    exact hn hd
  · rw [client_setClient_of_ne hne] at hd
    exact h.notifying d hd

omit [DecidableEq C] [DecidableEq F] in
/-- There is nobody who cancels while callbacks can be registered. -/
theorem Inv.not_isCancelling (h : Inv s) (hs : s.isCancelling = false) :
    ¬ (s.client c).IsCancelling :=
  fun hc ↦ Bool.false_ne_true (hs.symm.trans (h.cancelling c hc))

/-- One client cancels at a time, and the flags follow it. -/
theorem Inv.step (h : Inv s) (hs : s.step a = some s') : Inv s' := by
  cases a with
  | getCancellationToken c =>
    obtain rfl := step_getCancellationToken hs
    exact ⟨h.cancelling, h.unique, h.exclusive, h.swapped, h.notified, h.notifying⟩
  | registerCallback c token callback registered =>
    obtain ⟨hreg, rfl⟩ := step_registerCallback hs
    cases registered with
    | true =>
      refine ⟨h.cancelling, h.unique, h.exclusive, fun hclosed ↦ ?_, h.notified, h.notifying⟩
      exact (Bool.false_ne_true (hclosed.symm.trans hreg.symm)).elim
    | false => exact h
  | startCancel c =>
    obtain ⟨-, rfl⟩ := step_startCancel hs
    split
    · rename_i hopen
      obtain ⟨hcancelled, hcancelling⟩ := isOpen_iff.1 hopen
      have hclient : ∀ d,
          ((CancellationManager.setClient { s with isCancelling := true, callbacks := [] } c
          (.cancelling s.callbacks none)).client d).IsCancelling → d = c := by
        intro d hd
        by_contra hne
        rw [client_setClient_of_ne hne] at hd
        exact h.not_isCancelling hcancelling hd
      refine ⟨fun _ _ ↦ rfl, fun d e hd he ↦ (hclient d hd).trans (hclient e he).symm,
        fun _ ↦ hcancelled,
        fun _ ↦ rfl, h.notified, fun d hd ↦ ?_⟩
      obtain rfl | hne := eq_or_ne d c
      · rw [client_setClient_self] at hd
        cases hd
      · rw [client_setClient_of_ne hne] at hd
        exact h.notifying d hd
    · exact h
  | runCallback c token callback =>
    obtain ⟨callbacksToRun, hc, -, rfl⟩ := step_runCallback hs
    exact h.setClient (fun _ ↦ hc ▸ trivial) nofun
  | callbackReturns c token callback =>
    obtain ⟨callbacksToRun, hc, rfl⟩ := step_callbackReturns hs
    exact h.setClient (fun _ ↦ hc ▸ trivial) nofun
  | finishCancel c =>
    obtain ⟨hc, rfl⟩ := step_finishCancel hs
    have hcancels : (s.client c).IsCancelling := hc ▸ trivial
    have hclient : ∀ d,
        ¬ ((CancellationManager.setClient { s with isCancelling := false, isCancelled := true } c
        .notifying).client d).IsCancelling := by
      intro d hd
      obtain rfl | hne := eq_or_ne d c
      · rw [client_setClient_self] at hd
        exact hd
      · rw [client_setClient_of_ne hne] at hd
        exact hne (h.unique d c hd hcancels)
    refine ⟨fun d hd ↦ (hclient d hd).elim, fun d _ hd ↦ (hclient d hd).elim,
      fun hf ↦ (Bool.false_ne_true hf).elim, fun _ ↦ ?_, fun _ ↦ rfl, fun _ _ ↦ rfl⟩
    refine h.swapped (Bool.not_eq_true _ ▸ fun hopen ↦ ?_)
    exact h.not_isCancelling (isOpen_iff.1 hopen).2 hcancels
  | notify c =>
    obtain ⟨hc, rfl⟩ := step_notify hs
    have hcancelled := h.notifying c hc
    have h' : Inv { s with notified := true } :=
      ⟨h.cancelling, h.unique, h.exclusive, h.swapped, fun _ ↦ hcancelled, h.notifying⟩
    exact h'.setClient False.elim nofun
  | deregisterCallback c token returned =>
    obtain ⟨-, ⟨-, -, rfl⟩ | ⟨-, -, -, rfl⟩ | ⟨hopen, -, rfl⟩⟩ := step_deregisterCallback hs
    · exact h
    · exact h.setClient False.elim nofun
    · refine ⟨h.cancelling, h.unique, h.exclusive, fun hclosed ↦ ?_, h.notified, h.notifying⟩
      exact (Bool.false_ne_true (hclosed.symm.trans hopen)).elim
  | stopWaiting c token =>
    obtain ⟨-, -, rfl⟩ := step_stopWaiting hs
    exact h.setClient False.elim nofun

/-! ### The stages of a callback -/

/-- The client is not about to run a callback of the token, and it is not running one. -/
def Client.Without (token : CancellationToken) : Client F → Prop
  | .cancelling callbacksToRun running =>
    get? token callbacksToRun = none ∧ ∀ f, running ≠ some (token, f)
  | _ => True

/-- No callback of the token is running or can be run. -/
structure Gone (token : CancellationToken) (s : CancellationManager C F) : Prop where
  callbacks : get? token s.callbacks = none
  client : ∀ c, (s.client c).Without token

/-- The callback is registered. -/
structure Registered (token : CancellationToken) (f : F) (s : CancellationManager C F) : Prop where
  isOpen : s.isOpen = true
  callbacks : get? token s.callbacks = some f

/-- The client will run the callback. -/
def Scheduled (c : C) (token : CancellationToken) (f : F) (s : CancellationManager C F) : Prop :=
  ∃ callbacksToRun running, s.client c = .cancelling callbacksToRun running ∧
    get? token callbacksToRun = some f ∧ ∀ g, running ≠ some (token, g)

/-- The client runs the callback. -/
def Running (c : C) (token : CancellationToken) (f : F) (s : CancellationManager C F) : Prop :=
  ∃ callbacksToRun, s.client c = .cancelling callbacksToRun (some (token, f)) ∧
    get? token callbacksToRun = none

omit [DecidableEq C] [DecidableEq F] in
theorem Client.without_of_not (h : ¬ x.IsCancelling) : x.Without token := by
  cases x with
  | cancelling callbacksToRun running => exact (h trivial).elim
  | idle => trivial
  | notifying => trivial
  | waiting t => trivial

omit [DecidableEq C] [DecidableEq F] in
theorem gone_init : Gone token (init : CancellationManager C F) := ⟨rfl, fun _ ↦ trivial⟩

omit [DecidableEq F] in
theorem Gone.setClient (h : Gone token s) (hx : x.Without token) :
    Gone token (s.setClient c x) := by
  refine ⟨h.callbacks, fun d ↦ ?_⟩
  obtain rfl | hne := eq_or_ne d c
  · rwa [client_setClient_self]
  · rw [client_setClient_of_ne hne]
    exact h.client d

omit [DecidableEq C] [DecidableEq F] in
/-- After the cancellation, nothing is left of the callbacks. -/
theorem Inv.gone (h : Inv s) (hs : s.isCancelled = true) : Gone token s := by
  have hclosed : s.isOpen = false := by rw [isOpen, hs, Bool.not_true, Bool.false_and]
  have hidle : s.isCancelling = false :=
    Bool.eq_false_iff.2 fun hc ↦ Bool.false_ne_true ((h.exclusive hc).symm.trans hs)
  refine ⟨?_, fun c ↦ Client.without_of_not (h.not_isCancelling hidle)⟩
  rw [h.swapped hclosed]
  rfl

/-- What is gone does not come back, unless it is registered. -/
theorem Gone.step (h : Gone token s) (hs : s.step a = some s') (ha : a.registers? ≠ some token) :
    a.runs? ≠ some token ∧ Gone token s' := by
  cases a with
  | getCancellationToken c =>
    obtain rfl := step_getCancellationToken hs
    exact ⟨nofun, h.callbacks, h.client⟩
  | registerCallback c t callback registered =>
    obtain ⟨-, rfl⟩ := step_registerCallback hs
    have hne : token ≠ t := fun heq ↦ ha (congrArg some heq.symm)
    cases registered with
    | true => exact ⟨nofun, (get?_set_of_ne hne).trans h.callbacks, h.client⟩
    | false => exact ⟨nofun, h⟩
  | startCancel c =>
    obtain ⟨-, rfl⟩ := step_startCancel hs
    refine ⟨nofun, ?_⟩
    split
    · have h' : Gone token { s with isCancelling := true, callbacks := [] } := ⟨rfl, h.client⟩
      exact h'.setClient ⟨h.callbacks, nofun⟩
    · exact h
  | runCallback c t callback =>
    obtain ⟨callbacksToRun, hc, hget, rfl⟩ := step_runCallback hs
    have hwithout : (Client.cancelling callbacksToRun none).Without token := hc ▸ h.client c
    have hne : t ≠ token := by
      rintro rfl
      cases hget.symm.trans hwithout.1
    refine ⟨fun heq ↦ hne (some.inj heq), h.setClient ⟨?_, fun g heq ↦ ?_⟩⟩
    · rw [get?_erase_of_ne hne.symm]
      exact hwithout.1
    · exact hne (congrArg Prod.fst (some.inj heq))
  | callbackReturns c t callback =>
    obtain ⟨callbacksToRun, hc, rfl⟩ := step_callbackReturns hs
    have hwithout : (Client.cancelling callbacksToRun (some (t, callback))).Without token :=
      hc ▸ h.client c
    exact ⟨nofun, h.setClient ⟨hwithout.1, nofun⟩⟩
  | finishCancel c =>
    obtain ⟨-, rfl⟩ := step_finishCancel hs
    have h' : Gone token { s with isCancelling := false, isCancelled := true } :=
      ⟨h.callbacks, h.client⟩
    exact ⟨nofun, h'.setClient trivial⟩
  | notify c =>
    obtain ⟨-, rfl⟩ := step_notify hs
    have h' : Gone token { s with notified := true } := ⟨h.callbacks, h.client⟩
    exact ⟨nofun, h'.setClient trivial⟩
  | deregisterCallback c t returned =>
    obtain ⟨-, ⟨-, -, rfl⟩ | ⟨-, -, -, rfl⟩ | ⟨-, -, rfl⟩⟩ := step_deregisterCallback hs
    · exact ⟨nofun, h⟩
    · exact ⟨nofun, h.setClient trivial⟩
    · refine ⟨nofun, ?_, h.client⟩
      show get? token (erase t s.callbacks) = none
      rw [get?_erase, h.callbacks, ite_self]
  | stopWaiting c t =>
    obtain ⟨-, -, rfl⟩ := step_stopWaiting hs
    exact ⟨nofun, h.setClient trivial⟩

/-- Nothing is left of the callback when `DeregisterCallback` returns. -/
theorem Inv.gone_of_deregisters (h : Inv s) (hs : s.step a = some s')
    (ha : a.deregisters? = some token) : Gone token s' := by
  cases a with
  | deregisterCallback c t returned =>
    obtain ⟨-, ⟨hcancelled, rfl, rfl⟩ | ⟨-, -, rfl, -⟩ | ⟨hopen, rfl, rfl⟩⟩ :=
      step_deregisterCallback hs
    · exact h.gone hcancelled
    · cases ha
    · obtain rfl : t = token := some.inj ha
      exact ⟨get?_erase_self,
        fun c ↦ Client.without_of_not (h.not_isCancelling (isOpen_iff.1 hopen).2)⟩
  | stopWaiting c t =>
    obtain ⟨-, hnotified, rfl⟩ := step_stopWaiting hs
    exact (h.gone (h.notified hnotified)).setClient trivial
  | _ => cases ha

end TensorFlowCore.CancellationManager
