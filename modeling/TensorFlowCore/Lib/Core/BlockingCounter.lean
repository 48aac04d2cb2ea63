import TensorFlowCore.Core.Integers
import TensorFlowCore.Support.GuardedRun

/-!
# `BlockingCounter`

The counter of `tensorflow/core/lib/core/blocking_counter.h`, on which a caller waits for the
closures that it has handed to a thread pool. A closure does its work and then calls
`DecrementCount`. The caller schedules the closures one after the other, does its own share of the
work, and calls `Wait`.

Each critical section of `mu_` is one step, and the threads of the pool may take the closures in any
order. A counter that starts at the number of the closures makes the caller wait for all of them,
and for nothing else (`waitsForAll_of_run`).
-/

namespace TensorFlowCore

open List

namespace BlockingCounter

open GuardedRun

/-- Where the caller is: at the loop that schedules the closures, of which some are left, about to
look at the count, asleep on `cond_var_`, or behind `Wait`. -/
inductive Caller (γ : Type) where
  | scheduling (closures : List γ)
  | waiting
  | asleep
  | returned
  deriving DecidableEq

/-- The counter, with the caller and the closures. -/
structure System (γ : Type) where
  count : ℤ
  caller : Caller γ
  /-- The closures that no thread has taken. -/
  scheduled : List γ
  /-- The closures that threads are working at. -/
  working : List γ
  /-- The closures that are about to call `DecrementCount`. -/
  worked : List γ
  finished : List γ
  /-- A `CHECK` has failed. -/
  crashed : Bool
  deriving DecidableEq

/-- A step of the caller, or of a thread with the `i`-th closure. -/
inductive Action where
  | schedule
  | take (i : ℕ)
  | work (i : ℕ)
  | decrementCount (i : ℕ)
  | share
  | wait
  /-- A `cond_var_.wait` may return without a notification. -/
  | wakeUp

variable {γ : Type}

/-- The constructor, and the closures that the caller is going to schedule. -/
def start (initialCount : ℤ) (closures : List γ) : System γ where
  count := initialCount
  caller := .scheduling closures
  scheduled := []
  working := []
  worked := []
  finished := []
  crashed := decide (initialCount < 0)

/-- `notify_all`. -/
def Caller.notify : Caller γ → Caller γ
  | asleep => waiting
  | caller => caller

/-- The `CHECK` of `DecrementCount`, and the notification. -/
def decrementCount (s : System γ) : System γ where
  __ := s
  count := s.count - 1
  caller := if s.count - 1 = 0 then s.caller.notify else s.caller
  crashed := decide (s.count - 1 < 0)

def step (s : System γ) (action : Action) : Option (System γ) :=
  if s.crashed then none
  else
    match action, s.caller with
    | .schedule, .scheduling (c :: closures) =>
      some { s with caller := .scheduling closures, scheduled := s.scheduled ++ [c] }
    | .share, .scheduling [] => some { s with caller := .waiting }
    | .wait, .waiting => some { s with caller := if 0 < s.count then .asleep else .returned }
    | .wakeUp, .asleep => some { s with caller := .waiting }
    | .take i, _ =>
      s.scheduled[i]?.map fun c ↦
        { s with scheduled := s.scheduled.eraseIdx i, working := s.working ++ [c] }
    | .work i, _ =>
      s.working[i]?.map fun c ↦
        { s with working := s.working.eraseIdx i, worked := s.worked ++ [c] }
    | .decrementCount i, _ =>
      s.worked[i]?.map fun c ↦
        decrementCount { s with worked := s.worked.eraseIdx i, finished := s.finished ++ [c] }
    | _, _ => none

/-- The closures that the caller has not scheduled. -/
def Caller.closures : Caller γ → List γ
  | scheduling closures => closures
  | _ => []

@[simp] theorem Caller.closures_notify (caller : Caller γ) :
    caller.notify.closures = caller.closures := by
  cases caller <;> rfl

/-- The closures that have not called `DecrementCount`. -/
def System.pending (s : System γ) : List γ :=
  s.caller.closures ++ (s.scheduled ++ (s.working ++ s.worked))

/-- The counter counts the closures that are pending, and nobody sleeps when there are none. -/
structure Inv (closures : List γ) (s : System γ) : Prop where
  notCrashed : s.crashed = false
  count : s.count = s.pending.length
  perm : (s.pending ++ s.finished).Perm closures
  awake : s.caller = .asleep → s.count ≠ 0
  returned : s.caller = .returned → s.count = 0

theorem inv_start (closures : List γ) : Inv closures (start closures.length closures) where
  notCrashed := decide_eq_false (Int.not_lt.2 (Int.natCast_nonneg closures.length))
  count := by simp [start, System.pending, Caller.closures]
  perm := by simp [start, System.pending, Caller.closures]
  awake := nofun
  returned := nofun

theorem eraseIdx_append_perm {l m : List γ} {i : ℕ} {c : γ} (h : l[i]? = some c) :
    (l.eraseIdx i ++ (m ++ [c])).Perm (l ++ m) := by
  obtain ⟨hlt, rfl⟩ := List.getElem?_eq_some_iff.1 h
  rw [← append_assoc]
  refine (perm_append_singleton _ _).trans ?_
  exact (getElem_cons_eraseIdx_perm hlt).append_right m

variable {closures : List γ} {s s' : System γ}

/-- A step that moves a closure on leaves the closures as they are. -/
theorem Inv.of_perm (h : Inv closures s) (hnotCrashed : s'.crashed = s.crashed)
    (hcount : s'.count = s.count) (hpending : s'.pending.Perm s.pending)
    (hfinished : s'.finished = s.finished) (hawake : s'.caller = .asleep → s'.count ≠ 0)
    (hreturned : s'.caller = .returned → s'.count = 0) :
    Inv closures s' where
  notCrashed := hnotCrashed.trans h.notCrashed
  count := by rw [hcount, h.count, hpending.length_eq]
  perm := by rw [hfinished]; exact (hpending.append_right _).trans h.perm
  awake := hawake
  returned := hreturned

/-- The decrement that leaves no count wakes the caller. -/
theorem inv_decrementCount (h : Inv closures s) {i : ℕ} {c : γ} (hc : s.worked[i]? = some c) :
    Inv closures (decrementCount { s with worked := s.worked.eraseIdx i, finished := s.finished ++
      [c] }) := by
  obtain ⟨hlt, -⟩ := List.getElem?_eq_some_iff.1 hc
  have hlength : (s.worked.eraseIdx i).length + 1 = s.worked.length := by
    rw [length_eraseIdx_of_lt hlt]
    omega
  have hcount : s.count - 1 =
      (s.caller.closures ++ (s.scheduled ++ (s.working ++ s.worked.eraseIdx i))).length := by
    rw [h.count, System.pending]
    simp only [length_append]
    omega
  have hclosures : (if s.count - 1 = 0 then s.caller.notify else s.caller).closures =
      s.caller.closures := by
    split
    · exact s.caller.closures_notify
    · rfl
  refine ⟨decide_eq_false ?_, ?_, ?_, ?_, ?_⟩
  · dsimp only
    omega
  · rw [System.pending, decrementCount]
    rw [hclosures, hcount]
  · rw [System.pending, decrementCount]
    rw [hclosures]
    refine Perm.trans ?_ h.perm
    simp only [System.pending, append_assoc]
    exact (((eraseIdx_append_perm hc).append_left _).append_left _).append_left _
  · dsimp only [decrementCount]
    split
    · intro hasleep
      cases hcaller : s.caller <;> rw [hcaller] at hasleep <;> cases hasleep
    · exact fun _ ↦ ‹_›
  · dsimp only [decrementCount]
    intro hreturned
    -- a caller that has returned has seen that nothing is pending
    have hzero : s.count = 0 := by
      refine h.returned ?_
      split at hreturned
      · cases hcaller : s.caller <;> rw [hcaller] at hreturned <;> first | rfl | cases hreturned
      · exact hreturned
    omega

/-- The count is that of the closures that have not come to their decrement. -/
theorem inv_step (h : Inv closures s) {action : Action} (hstep : step s action = some s') :
    Inv closures s' := by
  have hnot : ¬s.crashed = true := Bool.eq_false_iff.1 h.notCrashed
  rw [step.eq_def, if_neg hnot] at hstep
  split at hstep
  · next c cs hcaller =>
    cases hstep
    refine h.of_perm rfl rfl ?_ rfl nofun nofun
    simp only [System.pending, hcaller, Caller.closures, append_assoc, cons_append, nil_append]
    exact (perm_middle.append_left cs).trans perm_middle
  · next hcaller =>
    cases hstep
    refine h.of_perm rfl rfl ?_ rfl nofun nofun
    simp only [System.pending, hcaller, Caller.closures]
    exact Perm.refl _
  · next hcaller =>
    cases hstep
    have hnonneg : 0 ≤ s.count := h.count ▸ Int.natCast_nonneg _
    refine h.of_perm rfl rfl ?_ rfl ?_ ?_
    · simp only [System.pending, hcaller]
      split <;> exact Perm.refl _
    · dsimp only
      split
      · exact fun _ ↦ by omega
      · exact nofun
    · dsimp only
      split
      · exact nofun
      · exact fun _ ↦ by omega
  · next hcaller =>
    cases hstep
    refine h.of_perm rfl rfl ?_ rfl nofun nofun
    simp only [System.pending, hcaller, Caller.closures]
    exact Perm.refl _
  · obtain ⟨c, hc, rfl⟩ := Option.map_eq_some_iff.1 hstep
    refine h.of_perm rfl rfl (Perm.append_left _ ?_) rfl h.awake h.returned
    rw [← append_assoc, ← append_assoc s.scheduled]
    exact (eraseIdx_append_perm hc).append_right _
  · obtain ⟨c, hc, rfl⟩ := Option.map_eq_some_iff.1 hstep
    exact h.of_perm rfl rfl (((eraseIdx_append_perm hc).append_left _).append_left _)
      rfl h.awake h.returned
  · obtain ⟨c, hc, rfl⟩ := Option.map_eq_some_iff.1 hstep
    exact inv_decrementCount h hc
  · cases hstep

/-- What the caller of `Wait` relies on: no `CHECK` fails, `Wait` returns only when all closures
have called `DecrementCount`, and as long as it has not there is a step to be made. -/
structure WaitsForAll (closures : List γ) (t : System γ) : Prop where
  notCrashed : t.crashed = false
  notBefore : t.caller = .returned → t.finished.Perm closures
  after : t.finished.Perm closures → t.caller ≠ .asleep ∧ t.count = 0
  progress : t.caller ≠ .returned → ∃ action, action ≠ .wakeUp ∧ (step t action).isSome = true

theorem Inv.pending_eq_nil_iff (h : Inv closures s) :
    s.pending = [] ↔ s.finished.Perm closures := by
  constructor
  · intro hnil
    have hperm := h.perm
    rwa [hnil] at hperm
  · intro hperm
    have hlength := (h.perm.trans hperm.symm).length_eq
    rw [length_append] at hlength
    exact length_eq_zero_iff.1 (by omega)

/-- A closure that is pending can move on. -/
theorem Inv.exists_step (h : Inv closures s) (hpending : s.pending ≠ []) :
    ∃ action, action ≠ .wakeUp ∧ (step s action).isSome = true := by
  have hnot : ¬s.crashed = true := Bool.eq_false_iff.1 h.notCrashed
  by_cases hworked : s.worked = []
  · by_cases hworking : s.working = []
    · by_cases hscheduled : s.scheduled = []
      · cases hcaller : s.caller with
        | scheduling cs =>
          cases cs with
          | nil => exact ⟨.share, nofun, by simp [step, hnot, hcaller]⟩
          | cons c cs => exact ⟨.schedule, nofun, by simp [step, hnot, hcaller]⟩
        | waiting => exact ⟨.wait, nofun, by simp [step, hnot, hcaller]⟩
        | asleep => simp [System.pending, Caller.closures, *] at hpending
        | returned => simp [System.pending, Caller.closures, *] at hpending
      · obtain ⟨c, cs, hcs⟩ := exists_cons_of_ne_nil hscheduled
        exact ⟨.take 0, nofun, by simp [step, hnot, hcs]⟩
    · obtain ⟨c, cs, hcs⟩ := exists_cons_of_ne_nil hworking
      exact ⟨.work 0, nofun, by simp [step, hnot, hcs]⟩
  · obtain ⟨c, cs, hcs⟩ := exists_cons_of_ne_nil hworked
    exact ⟨.decrementCount 0, nofun, by simp [step, hnot, hcs]⟩

/-- `Wait` returns after the last decrement, and not before. -/
theorem Inv.waitsForAll (h : Inv closures s) : WaitsForAll closures s where
  notCrashed := h.notCrashed
  notBefore hreturned := by
    refine h.pending_eq_nil_iff.1 (length_eq_zero_iff.1 ?_)
    have hcount := h.count
    rw [h.returned hreturned] at hcount
    omega
  after hperm := by
    have hcount := h.count
    rw [h.pending_eq_nil_iff.2 hperm] at hcount
    exact ⟨fun hasleep ↦ h.awake hasleep hcount, hcount⟩
  progress hreturned := by
    by_cases hpending : s.pending = []
    · have hnot : ¬s.crashed = true := Bool.eq_false_iff.1 h.notCrashed
      cases hcaller : s.caller with
      | scheduling cs =>
        obtain rfl : cs = [] := by
          rw [System.pending, hcaller] at hpending
          exact (append_eq_nil_iff.1 hpending).1
        exact ⟨.share, nofun, by simp [step, hnot, hcaller]⟩
      | waiting => exact ⟨.wait, nofun, by simp [step, hnot, hcaller]⟩
      | asleep =>
        refine absurd ?_ (h.awake hcaller)
        rw [h.count, hpending]
        rfl
      | returned => exact absurd hcaller hreturned
    · exact h.exists_step hpending

/-- **A counter that starts at the number of the closures waits for all of them.** -/
theorem waitsForAll_of_run {actions : List Action} {t : System γ}
    (hrun : run step (start closures.length closures) actions = some t) : WaitsForAll closures t :=
  (run_invariant (fun _ hinv hstep ↦ inv_step hinv hstep) (inv_start closures) hrun).waitsForAll

end BlockingCounter

end TensorFlowCore
