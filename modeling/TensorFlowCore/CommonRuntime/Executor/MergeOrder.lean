import Mathlib.Data.List.Count
import Mathlib.Data.List.Perm.Subperm
import TensorFlowCore.CommonRuntime.Executor.Model

/-!
# The order in which the inputs of a Merge arrive

`ActivateNode` decides from the counts of a Merge, each time an edge arrives, whether the Merge is
ready. `trace` is this decision in terms of what has arrived: how many control edges, live values
and dead values (`madeReady_eq_trace`). Its outcome does not depend on the order (`trace_eq`), but
for a dead Enter: that kills the Merge if everything it waits for has arrived before, and counts as
any other dead input otherwise (`mergeOrder_iff`).
-/

namespace TensorFlowCore.Executor

open List

/-! ### What arrives, and what becomes ready -/

/-- How an edge arrives at a Merge. -/
inductive Arriving where
  | control
  | live
  | dead
  | deadEnter
  deriving DecidableEq

/-- How much has arrived. -/
structure Arrived where
  controls : ℕ := 0
  live : ℕ := 0
  dead : ℕ := 0

namespace Arrived

/-- One more edge. -/
def add (s : Arrived) : Arriving → Arrived
  | .control => { s with controls := s.controls + 1 }
  | .live => { s with live := s.live + 1 }
  | .dead | .deadEnter => { s with dead := s.dead + 1 }

/-- Whether the arrival of an edge makes a Merge with `C` control and `D` data inputs ready, with
`is_dead`. -/
def fires (C D : ℕ) (s : Arrived) : Arriving → List Bool
  | .control => if s.controls + 1 = C ∧ (s.live = 1 ∨ s.dead = D) then [decide (s.dead = D)] else []
  | .live => if s.controls = C ∧ s.live = 0 then [false] else []
  | .dead => if s.controls = C ∧ s.live = 0 ∧ s.dead + 1 = D then [true] else []
  | .deadEnter => if s.controls = C ∧ s.live = 0 then [true] else []

/-- How often the Merge is made ready while `xs` arrive, with `is_dead` each time. -/
def trace (C D : ℕ) : Arrived → List Arriving → List Bool
  | _, [] => []
  | s, x :: xs => s.fires C D x ++ trace C D (s.add x) xs

variable {C D : ℕ} {s : Arrived} {x : Arriving} {xs ys : List Arriving}

@[simp] theorem trace_cons : s.trace C D (x :: xs) = s.fires C D x ++ (s.add x).trace C D xs := rfl

/-- What has arrived after `xs`. -/
def addAll (s : Arrived) (xs : List Arriving) : Arrived where
  controls := s.controls + xs.count .control
  live := s.live + xs.count .live
  dead := s.dead + xs.count .dead + xs.count .deadEnter

theorem addAll_cons : s.addAll (x :: xs) = (s.add x).addAll xs := by
  cases x <;> simp [addAll, add] <;> omega

/-- The inputs that have arrived are inputs of the Merge, with one live value at most. -/
structure Within (C D : ℕ) (s : Arrived) : Prop where
  controls : s.controls ≤ C
  data : s.live + s.dead ≤ D
  live : s.live ≤ 1

theorem le_addAll (s : Arrived) (xs : List Arriving) :
    s.controls ≤ (s.addAll xs).controls ∧ s.live ≤ (s.addAll xs).live ∧
    s.dead ≤ (s.addAll xs).dead := by
  refine ⟨Nat.le_add_right _ _, Nat.le_add_right _ _, ?_⟩
  rw [addAll, Nat.add_assoc]
  exact Nat.le_add_right _ _

theorem Within.of_addAll (h : (s.addAll xs).Within C D) : s.Within C D := by
  obtain ⟨hc, hl, hd⟩ := s.le_addAll xs
  exact ⟨Nat.le_trans hc h.controls, Nat.le_trans (Nat.add_le_add hl hd) h.data,
    Nat.le_trans hl h.live⟩

/-! ### Runs without a dead Enter -/

/-- What the Merge has been made ready with, when dead Enters are as other dead inputs. -/
def outcome (C D : ℕ) (s : Arrived) : List Bool :=
  if s.controls = C ∧ s.live = 1 then [false]
  else if s.controls = C ∧ s.dead = D then [true]
  else []

/-- An arrival adds to the outcome exactly what it fires. -/
theorem outcome_add (h : (s.add x).Within C D) (hx : x ≠ .deadEnter ∨ D = 1) :
    s.outcome C D ++ s.fires C D x = (s.add x).outcome C D := by
  obtain ⟨hc, hd, hl⟩ := h
  cases x with
  | control =>
    simp only [add] at hc hd hl
    simp only [outcome, fires, add]
    have hne : s.controls ≠ C := by omega
    rw [if_neg (fun h ↦ hne h.1), if_neg (fun h ↦ hne h.1), nil_append]
    by_cases hlast : s.controls + 1 = C
    · by_cases hlive : s.live = 1
      · have hdead : s.dead ≠ D := by omega
        simp [hlast, hlive, hdead]
      · by_cases hdead : s.dead = D <;> simp [hlast, hlive, hdead]
    · simp [hlast]
  | live =>
    simp only [add] at hc hd hl
    simp only [outcome, fires, add]
    have hlive : s.live = 0 := by omega
    have hdead : s.dead ≠ D := by omega
    simp [hlive, hdead]
  | dead =>
    simp only [add] at hc hd hl
    simp only [outcome, fires, add]
    have hdead : s.dead ≠ D := by omega
    by_cases hlive : s.live = 1
    · have hnext : s.dead + 1 ≠ D := by omega
      simp [hlive, hdead, hnext]
    · have hzero : s.live = 0 := by omega
      by_cases hcontrols : s.controls = C
      · by_cases hnext : s.dead + 1 = D
        · simp [hzero, hdead, hcontrols, hnext]
        · simp [hzero, hdead, hnext]
      · simp [hcontrols]
  | deadEnter =>
    obtain rfl : D = 1 := hx.resolve_left fun h ↦ h rfl
    simp only [add] at hc hd hl
    simp only [outcome, fires, add]
    have hlive : s.live = 0 := by omega
    have hdead : s.dead = 0 := by omega
    simp [hlive, hdead]

theorem outcome_append_trace (h : (s.addAll xs).Within C D) (hx : Arriving.deadEnter ∉ xs ∨ D = 1) :
    s.outcome C D ++ s.trace C D xs = (s.addAll xs).outcome C D := by
  induction xs generalizing s with
  | nil => exact append_nil _
  | cons x xs ih =>
    rw [addAll_cons] at h ⊢
    have hhead : x ≠ .deadEnter ∨ D = 1 := hx.imp_left fun hnot heq ↦ hnot (heq ▸ mem_cons_self)
    have htail : Arriving.deadEnter ∉ xs ∨ D = 1 := hx.imp_left fun hnot hmem ↦
      hnot (mem_cons_of_mem _ hmem)
    rw [trace_cons, ← append_assoc, outcome_add h.of_addAll hhead, ih h htail]

theorem length_outcome_le (C D : ℕ) (s : Arrived) : (s.outcome C D).length ≤ 1 := by
  unfold outcome
  split_ifs <;> simp

theorem addAll_perm (h : ys.Perm xs) : s.addAll ys = s.addAll xs := by
  simp only [addAll, h.count_eq]

/-- The order does not matter, unless a dead Enter arrives at a Merge that has other inputs. -/
theorem trace_eq (h : (s.addAll xs).Within C D) (hx : Arriving.deadEnter ∉ xs ∨ D = 1)
    (hp : ys.Perm xs) : s.trace C D ys = s.trace C D xs ∧ (s.trace C D ys).length ≤ 1 := by
  have hxs := outcome_append_trace h hx
  have hys : s.outcome C D ++ s.trace C D ys = (s.addAll ys).outcome C D :=
    outcome_append_trace (by rwa [addAll_perm hp]) (by rwa [hp.mem_iff])
  rw [addAll_perm hp] at hys
  refine ⟨append_cancel_left (hys.trans hxs.symm), ?_⟩
  have hlength := congrArg length hys
  rw [length_append] at hlength
  have hle := length_outcome_le C D (s.addAll xs)
  omega

/-! ### Runs with a dead Enter -/

/-- A Merge that still waits for a control edge has not been made ready. -/
theorem trace_of_waiting (h : (s.addAll xs).controls < C) : s.trace C D xs = [] := by
  induction xs generalizing s with
  | nil => rfl
  | cons x xs ih =>
    rw [addAll_cons] at h
    have hnext := Nat.lt_of_le_of_lt ((s.add x).le_addAll xs).1 h
    rw [trace_cons, ih h, append_nil]
    cases x with
    | control => exact if_neg fun hlast ↦ Nat.ne_of_lt hnext hlast.1
    | live => exact if_neg fun hlast ↦ Nat.ne_of_lt hnext hlast.1
    | dead => exact if_neg fun hlast ↦ Nat.ne_of_lt hnext hlast.1
    | deadEnter => exact if_neg fun hlast ↦ Nat.ne_of_lt hnext hlast.1

/-- A Merge that waits for data only is made ready by each dead Enter. -/
theorem trace_of_data (hcontrols : s.controls = C) (hlive : s.live = 0)
    (hxs : ∀ x ∈ xs, x = .dead ∨ x = .deadEnter) (hdead : (s.addAll xs).dead < D) :
    s.trace C D xs = List.replicate (xs.count .deadEnter) true := by
  induction xs generalizing s with
  | nil => rfl
  | cons x xs ih =>
    obtain ⟨hx, hrest⟩ := forall_mem_cons.1 hxs
    rw [addAll_cons] at hdead
    have hnext := Nat.lt_of_le_of_lt ((s.add x).le_addAll xs).2.2 hdead
    obtain rfl | rfl := hx
    · have hfires : s.fires C D .dead = [] := if_neg fun h ↦ Nat.ne_of_lt hnext h.2.2
      rw [trace_cons, hfires, nil_append, ih (s := s.add .dead) hcontrols hlive hrest hdead,
        count_cons_of_ne (by decide)]
    · have hfires : s.fires C D .deadEnter = [true] := if_pos ⟨hcontrols, hlive⟩
      rw [trace_cons, hfires, ih (s := s.add .deadEnter) hcontrols hlive hrest hdead,
        count_cons_self, replicate_succ]
      rfl

theorem trace_append : s.trace C D (xs ++ ys) = s.trace C D xs ++ (s.addAll xs).trace C D ys := by
  induction xs generalizing s with
  | nil => rfl
  | cons x xs ih => rw [cons_append, trace_cons, trace_cons, ih, append_assoc, addAll_cons]

theorem trace_of_controls (hlive : s.live = 0) (hdead : s.dead ≠ D) (k : ℕ) :
    s.trace C D (List.replicate k .control) = [] := by
  induction k generalizing s with
  | zero => rfl
  | succ k ih =>
    have hfires : s.fires C D .control = [] :=
      if_neg fun h ↦ h.2.elim (fun hone ↦ Nat.zero_ne_one (hlive.symm.trans hone)) hdead
    rw [replicate_succ, trace_cons, hfires, nil_append, ih (s := s.add .control) hlive hdead]

theorem trace_of_deadEnters (hcontrols : s.controls = C) (hlive : s.live = 0) (k : ℕ) :
    s.trace C D (List.replicate k .deadEnter) = List.replicate k true := by
  induction k generalizing s with
  | zero => rfl
  | succ k ih =>
    have hfires : s.fires C D .deadEnter = [true] := if_pos ⟨hcontrols, hlive⟩
    rw [replicate_succ, trace_cons, hfires, ih (s := s.add .deadEnter) hcontrols hlive]
    rfl

/-- The members of `xs` that arrive in the way `x`. -/
def each (xs : List Arriving) (x : Arriving) : List Arriving := List.replicate (xs.count x) x

/-- The control edges first, and then the dead Enters. -/
theorem perm_controlsFirst (xs : List Arriving) :
    (each xs .control ++ (each xs .deadEnter ++ (each xs .live ++ each xs .dead))).Perm xs := by
  refine perm_iff_count.2 fun x ↦ ?_
  cases x <;> simp [each, count_replicate]

/-- The control edges last. -/
theorem perm_controlsLast (xs : List Arriving) :
    (each xs .deadEnter ++ (each xs .live ++ (each xs .dead ++ each xs .control))).Perm xs := by
  refine perm_iff_count.2 fun x ↦ ?_
  cases x <;> simp [each, count_replicate]

/-- Where a dead Enter can arrive last or first, two orders differ. -/
theorem dead_lt_of_perm (hcontrols : xs.count .control = C) (hD : D ≠ 1)
    (henter : xs.count .deadEnter ≠ 0)
    (hdata : xs.count .live + (xs.count .dead + xs.count .deadEnter) ≤ D)
    (hall : ∀ ys, ys.Perm xs → ({} : Arrived).trace C D ys = ({} : Arrived).trace C D xs ∧
      (({} : Arrived).trace C D ys).length ≤ 1) :
    C = 0 ∧ xs.count .deadEnter = 1 ∧ xs.count .live = 0 ∧ xs.count .dead + 1 < D := by
  obtain ⟨hfirst, hlength⟩ := hall _ (perm_controlsFirst xs)
  obtain ⟨hlast, -⟩ := hall _ (perm_controlsLast xs)
  -- after the control edges each dead Enter fires
  have hstart : ({} : Arrived).trace C D (each xs .control) = [] :=
    trace_of_controls rfl (show 0 ≠ D by omega) _
  have hafter : ({} : Arrived).addAll (each xs .control) = { controls := C } := by
    simp [addAll, each, count_replicate, hcontrols]
  have henters : ({ controls := C } : Arrived).trace C D (each xs .deadEnter) =
      replicate (xs.count .deadEnter) true := trace_of_deadEnters (s := { controls := C }) rfl rfl _
  rw [trace_append, hstart, hafter, nil_append, trace_append, henters] at hfirst hlength
  rw [length_append, length_replicate] at hlength
  have honce : xs.count .deadEnter = 1 := by omega
  have hone : ({ controls := C } : Arrived).addAll (each xs .deadEnter) =
      { controls := C, dead := 1 } := by
    simp [addAll, each, honce]
  have hrest : ({ controls := C, dead := 1 } : Arrived).trace C D (each xs .live ++ each xs .dead) =
      [] := by
    rw [← hone]
    exact eq_nil_of_length_eq_zero (by omega)
  -- so nothing else may fire: no live value arrives, and not all the data
  have hlive : xs.count .live = 0 := by
    by_contra hne
    obtain ⟨k, hk⟩ := Nat.exists_eq_succ_of_ne_zero hne
    have hfires : ({ controls := C, dead := 1 } : Arrived).fires C D .live = [false] :=
      if_pos ⟨rfl, rfl⟩
    rw [each, hk, replicate_succ, cons_append, trace_cons, hfires] at hrest
    cases hrest
  have hdead : xs.count .dead + 1 ≠ D := by
    intro heq
    have hwithin : (({ controls := C, dead := 1 } : Arrived).addAll (each xs .live ++
      each xs .dead)).Within
        C D := by
      constructor <;> simp [addAll, each, count_replicate, hlive]
      omega
    have houtcome := outcome_append_trace hwithin (.inl (by simp [each]))
    rw [hrest, append_nil] at houtcome
    have hadd : ({ controls := C, dead := 1 } : Arrived).addAll (each xs .live ++ each xs .dead) =
        { controls := C, dead := D } := by
      simp [addAll, each, count_replicate, hlive]
      omega
    rw [hadd] at houtcome
    simp [outcome, Ne.symm hD] at houtcome
  refine ⟨?_, honce, hlive, by omega⟩
  -- a control edge that arrives last would leave the Merge waiting
  by_contra hC
  rw [hone, hrest, honce] at hfirst
  rw [← hfirst, ← append_assoc, ← append_assoc, trace_append] at hlast
  have hwaits : (({} : Arrived).addAll (each xs .deadEnter ++ each xs .live ++
      each xs .dead)).controls < C := by
    simp [addAll, each, count_replicate]
    omega
  have hleft : (({} : Arrived).addAll (each xs .deadEnter ++ each xs .live ++ each xs .dead)).dead ≠
      D := by
    simp [addAll, each, count_replicate]
    omega
  have hnone : (({} : Arrived).addAll (each xs .deadEnter ++ each xs .live ++ each xs .dead)).live =
      0 := by
    simp [addAll, each, count_replicate, hlive]
  have hempty : (({} : Arrived).addAll (each xs .deadEnter ++ each xs .live ++ each xs .dead)).trace
    C D
      (each xs .control) = [] := trace_of_controls hnone hleft _
  rw [trace_of_waiting hwaits, hempty] at hlast
  cases hlast

/-- **When the order of arrival does not matter.** -/
theorem trace_perm_iff (h : (({} : Arrived).addAll xs).Within C D) :
    (∀ ys, ys.Perm xs → ({} : Arrived).trace C D ys = ({} : Arrived).trace C D xs ∧
      (({} : Arrived).trace C D ys).length ≤ 1) ↔
      xs.count .deadEnter = 0 ∨ xs.count .control < C ∨ D = 1 ∨
        C = 0 ∧ xs.count .deadEnter = 1 ∧ xs.count .live = 0 ∧ xs.count .dead + 1 < D := by
  have hcontrols : xs.count .control ≤ C := by simpa [addAll] using h.controls
  have hdata : xs.count .live + (xs.count .dead + xs.count .deadEnter) ≤ D := by
    simpa [addAll, Nat.add_assoc] using h.data
  constructor
  · intro hall
    by_cases henter : xs.count .deadEnter = 0
    · exact .inl henter
    by_cases hwaits : xs.count .control < C
    · exact .inr (.inl hwaits)
    by_cases hD : D = 1
    · exact .inr (.inr (.inl hD))
    · exact .inr (.inr (.inr (dead_lt_of_perm (by omega) hD henter hdata hall)))
  · rintro (hnone | hwaits | hone | ⟨rfl, honce, hlive, hdead⟩) ys hp
    · exact trace_eq h (.inl (count_eq_zero.1 hnone)) hp
    · have hlt : (({} : Arrived).addAll xs).controls < C := by simpa [addAll] using hwaits
      rw [trace_of_waiting hlt, trace_of_waiting (by rwa [addAll_perm hp])]
      exact ⟨rfl, Nat.zero_le _⟩
    · exact trace_eq h (.inr hone) hp
    · have hmem : ∀ x ∈ xs, x = .dead ∨ x = .deadEnter := by
        intro x hx
        have hpos := count_pos_iff.2 hx
        cases x with
        | control => omega
        | live => omega
        | dead => exact .inl rfl
        | deadEnter => exact .inr rfl
      have hlt : (({} : Arrived).addAll xs).dead < D := by
        simp only [addAll]
        omega
      rw [trace_of_data (s := {}) rfl rfl hmem hlt, trace_of_data (s := {}) rfl rfl
        (fun x hx ↦ hmem x (hp.mem_iff.1 hx)) (by rwa [addAll_perm hp]), hp.count_eq, honce]
      exact ⟨rfl, Nat.le_refl _⟩

end Arrived

/-! ### What the counts of a Merge stand for -/

open Counts

/-- The counts of a Merge after some of its inputs have arrived. Once it is ready, dead inputs are
not counted any more. -/
structure Reflects (C D : ℕ) (s : Arrived) (c : Counts) : Prop where
  holds : ∃ d, Holds (1 - s.live + 2 * (C - s.controls)) d c ∧
    (1 - s.live + 2 * (C - s.controls) ≠ 0 → d = s.dead)
  fits : Fits (D - s.dead) c

/-- What an arrival pushes. -/
def Arrival.pushed (a : Arrival) : List Bool := if a.dstReady then [a.dstDead] else []

section Arrive

variable {C D : ℕ} {s : Arrived} {c : Counts} {dst : Node}

/-- The counts of a Merge follow the arrival of a control edge. -/
theorem Reflects.control (h : Reflects C D s c) (hnext : (s.add .control).Within C D)
    (hD : dst.numInputs = D) :
    Reflects C D (s.add .control) (dst.arriveControlAtMerge c).counts ∧
      (dst.arriveControlAtMerge c).pushed = s.fires C D .control := by
  obtain ⟨hcontrols, hdata, hlive⟩ := hnext
  simp only [Arrived.add] at hcontrols hdata hlive
  obtain ⟨d, hholds, hd⟩ := h.holds
  obtain rfl : d = s.dead := hd (by omega)
  have hafter : Holds (1 - s.live + 2 * (C - (s.controls + 1))) s.dead (c.decrementPending 2) := by
    have hdec := hholds.decrementPending (v := 2) (by omega)
    rwa [show 1 - s.live + 2 * (C - s.controls) - 2 = 1 - s.live + 2 *
      (C - (s.controls + 1)) by omega] at hdec
  refine ⟨⟨⟨s.dead, hafter, fun _ ↦ rfl⟩, h.fits.decrementPending⟩, ?_⟩
  have hready : ((c.decrementPending 2).pending = 0 ∨ (c.decrementPending 2).pending = 1 ∧
    s.dead = D) ↔
      s.controls + 1 = C ∧ (s.live = 1 ∨ s.dead = D) := by
    rw [hafter.pending]
    omega
  have hdead : (c.decrementPending 2).deadCount = dst.numInputs ↔ s.dead = D := by
    rw [hafter.deadCount, hD]
    exact Int.natCast_inj
  simp only [Arrival.pushed, Node.arriveControlAtMerge, Arrived.fires, hdead, decide_eq_true_eq,
    hready]

theorem Reflects.live (h : Reflects C D s c) (hnext : (s.add .live).Within C D) :
    Reflects C D (s.add .live) c.markLive ∧ (c.pending = 1 ↔ s.controls = C ∧ s.live = 0) := by
  obtain ⟨hcontrols, hdata, hlive⟩ := hnext
  simp only [Arrived.add] at hcontrols hdata hlive
  obtain ⟨d, hholds, hd⟩ := h.holds
  obtain rfl : d = s.dead := hd (by omega)
  have hafter := hholds.markLive
  rw [show 1 - s.live + 2 * (C - s.controls) - (1 - s.live + 2 * (C - s.controls)) % 2 =
    1 - (s.live + 1) + 2 * (C - s.controls) by omega] at hafter
  refine ⟨⟨⟨s.dead, hafter, fun _ ↦ rfl⟩, h.fits.markLive⟩, ?_⟩
  rw [hholds.pending]
  omega

/-- A dead input, whether it comes from an Enter or not. -/
theorem Reflects.dead (h : Reflects C D s c) (hcontrols : s.controls ≤ C) (hlive : s.live ≤ 1)
    (hdead : s.dead + 1 ≤ D) : Reflects C D { s with dead := s.dead + 1 } c.incrementDeadCount ∧
      (c.incrementDeadCount.pending = 1 ↔ s.controls = C ∧ s.live = 0) ∧
      (s.controls = C ∧ s.live = 0 → c.incrementDeadCount.deadCount = (s.dead + 1 : ℕ)) := by
  obtain ⟨d, hholds, hd⟩ := h.holds
  by_cases hzero : 1 - s.live + 2 * (C - s.controls) = 0
  · -- the Merge is ready
    have hready : c.nodeState ≠ .pendingNotReady := by
      rw [hholds.nodeState, if_pos hzero]
      decide
    rw [incrementDeadCount_of_ready hready]
    refine ⟨⟨⟨d, hholds, fun hne ↦ absurd hzero hne⟩, h.fits.mono (by dsimp only; omega)⟩, ?_,
      fun hall ↦ ?_⟩
    · rw [hholds.pending]
      omega
    · omega
  · obtain rfl := hd hzero
    obtain ⟨hafter, hfits⟩ :=
      hholds.incrementDeadCount (k := D - (s.dead + 1)) (Nat.pos_of_ne_zero hzero)
      (h.fits.mono (by omega))
    refine ⟨⟨⟨_, hafter, fun _ ↦ rfl⟩, hfits⟩, ?_, fun _ ↦ hafter.deadCount⟩
    rw [hafter.pending]
    omega

end Arrive

/-! ### Deliveries -/

variable {τ : Type} {g : Graph} {m : NodeId}

/-- An in-edge reaches `ActivateNode`, which is called for its source with `is_dead` and
`outputs`. -/
structure Delivery (τ : Type) where
  edge : Edge
  isDead : Bool
  outputs : List (Entry τ)

namespace Delivery

/-- How the edge arrives at a Merge. -/
def arriving (g : Graph) (d : Delivery τ) : Arriving :=
  if d.edge.isControlEdge then .control
  else if (d.edge.entry d.outputs).isSome then .live
  else if (g.node d.edge.src).isEnter then .deadEnter
  else .dead

/-- The loop body of `ActivateNode` for the edge. -/
def activate (g : Graph) (x : IterationState τ × List (NodeId × Bool)) (d : Delivery τ) :
    IterationState τ × List (NodeId × Bool) :=
  activateEdge g (g.node d.edge.src).isEnter d.isDead d.outputs x d.edge

end Delivery

/-- With which `is_dead`, each time, `m` is made ready when the edges reach `ActivateNode` in this
order, in a new iteration. -/
def madeReady (g : Graph) (m : NodeId) (deliveries : List (Delivery τ)) : List Bool :=
  ((deliveries.foldl (Delivery.activate g) (.new g 0, [])).2.filter fun r ↦ r.1 = m).map Prod.snd

/-- In any order of these deliveries the Merge is made ready once at most, or in none, with the same
flag. -/
def OrderIndependent (g : Graph) (m : NodeId) (deliveries : List (Delivery τ)) : Prop :=
  ∀ deliveries', deliveries'.Perm deliveries →
    madeReady g m deliveries' = madeReady g m deliveries ∧ (madeReady g m deliveries').length ≤ 1

section Deliveries

variable {C D : ℕ} {s : Arrived} {c : Counts}

/-- What one delivery does to the counts of a Merge. -/
theorem Reflects.arrive (h : Reflects C D s c) (d : Delivery τ)
    (hnext : (s.add (d.arriving g)).Within C D) (hmerge : (g.node m).isMerge = true)
    (hD : (g.node m).numInputs = D) :
    ∃ a, a = (g.node m).arrive (g.node d.edge.src).isEnter d.isDead d.edge.isControlEdge
        (d.edge.entry d.outputs).isSome c ∧
      Reflects C D (s.add (d.arriving g)) a.counts ∧ a.pushed = s.fires C D (d.arriving g) := by
  refine ⟨_, rfl, ?_⟩
  rw [Node.arrive, if_pos hmerge]
  unfold Delivery.arriving at hnext ⊢
  cases hcontrol : d.edge.isControlEdge with
  | true =>
    rw [hcontrol, if_pos rfl] at hnext
    rw [if_pos rfl, if_pos rfl]
    exact h.control hnext hD
  | false =>
    rw [hcontrol, if_neg Bool.false_ne_true] at hnext
    rw [if_neg Bool.false_ne_true, if_neg Bool.false_ne_true]
    cases hvalue : (d.edge.entry d.outputs).isSome with
    | true =>
      rw [hvalue, if_pos rfl] at hnext
      rw [if_pos rfl, if_pos rfl]
      obtain ⟨hreflects, hready⟩ := h.live hnext
      refine ⟨hreflects, ?_⟩
      simp only [Arrival.pushed, Arrived.fires, hready, decide_eq_true_eq]
    | false =>
      rw [hvalue, if_neg Bool.false_ne_true] at hnext
      rw [if_neg Bool.false_ne_true, if_neg Bool.false_ne_true]
      cases henter : (g.node d.edge.src).isEnter with
      | true =>
        rw [henter, if_pos rfl] at hnext
        rw [if_pos rfl]
        obtain ⟨hreflects, hready, -⟩ := h.dead hnext.controls hnext.live
          (Nat.le_trans (Nat.le_add_left _ _) hnext.data)
        refine ⟨hreflects, ?_⟩
        simp only [Arrival.pushed, Arrived.fires, hready, or_true, decide_true, and_true,
          decide_eq_true_eq]
      | false =>
        rw [henter, if_neg Bool.false_ne_true] at hnext
        rw [if_neg Bool.false_ne_true]
        obtain ⟨hreflects, hready, hcount⟩ := h.dead hnext.controls hnext.live
          (Nat.le_trans (Nat.le_add_left _ _) hnext.data)
        refine ⟨hreflects, ?_⟩
        have hdead : c.incrementDeadCount.pending = 1 ∧
          c.incrementDeadCount.deadCount = (g.node m).numInputs ↔
            s.controls = C ∧ s.live = 0 ∧ s.dead + 1 = D := by
          rw [hready, hD, ← and_assoc]
          exact and_congr_right fun hall ↦ by rw [hcount hall, Int.natCast_inj]
        simp only [Arrival.pushed, Arrived.fires, Bool.false_eq_true, or_false, decide_eq_true_eq]
        by_cases hfires : s.controls = C ∧ s.live = 0 ∧ s.dead + 1 = D
        · rw [if_pos (hdead.2 hfires), if_pos hfires, decide_eq_true (hdead.2 hfires).2]
        · rw [if_neg (mt hdead.1 hfires), if_neg hfires]

/-- What the deliveries of a Merge make of an iteration in which its counts stand for `s`. -/
theorem madeReady_foldl (hmerge : (g.node m).isMerge = true) (hD : (g.node m).numInputs = D)
    {deliveries : List (Delivery τ)} (hdst : ∀ d ∈ deliveries, d.edge.dst = m)
    (hwithin : (s.addAll (deliveries.map (Delivery.arriving g))).Within C D) {it : IterationState τ}
    {ready : List (NodeId × Bool)} (h : Reflects C D s (it.counts m)) :
    ((deliveries.foldl (Delivery.activate g) (it, ready)).2.filter fun r ↦ r.1 = m).map Prod.snd =
      (ready.filter fun r ↦ r.1 = m).map Prod.snd ++
        s.trace C D (deliveries.map (Delivery.arriving g)) := by
  induction deliveries generalizing s it ready with
  | nil => exact (append_nil _).symm
  | cons d deliveries ih =>
    obtain ⟨hd, hrest⟩ := forall_mem_cons.1 hdst
    rw [map_cons, Arrived.addAll_cons] at hwithin
    obtain ⟨a, ha, hnext, hpushed⟩ := h.arrive d hwithin.of_addAll hmerge hD
    have htrigger : (g.node m).isControlTrigger = false := by
      have hkind : (g.node m).kind = .merge := of_decide_eq_true hmerge
      rw [Node.isControlTrigger, hkind]
      rfl
    obtain ⟨it', hstep, hcounts⟩ : ∃ it', Delivery.activate g (it, ready) d =
        (it', ready ++ a.pushed.map fun dead ↦ (m, dead)) ∧ it'.counts m = a.counts := by
      simp only [Delivery.activate, activateEdge, hd, ← ha, htrigger, Bool.not_false, Bool.and_true]
      cases hready : a.dstReady with
      | true =>
        rw [Arrival.pushed, hready, pushReady, if_pos rfl, if_pos rfl]
        exact ⟨_, rfl, Function.update_self _ _ _⟩
      | false =>
        rw [Arrival.pushed, hready, pushReady, if_neg Bool.false_ne_true, if_neg Bool.false_ne_true]
        exact ⟨_, by rw [map_nil, append_nil], Function.update_self _ _ _⟩
    rw [foldl_cons, hstep, ih hrest hwithin (hcounts ▸ hnext), map_cons, Arrived.trace_cons,
      ← hpushed, ← append_assoc]
    congr 1
    rw [filter_append, map_append]
    congr 1
    simp [filter_map, Function.comp_def]

/-- The inputs of a Merge before anything has arrived. -/
theorem reflects_new (hmerge : (g.node m).isMerge = true) {k : ℕ} (hk : k ≤ (g.inEdges m).length) :
    Reflects ((g.inEdges m).countP Edge.isControlEdge) k {}
      ((IterationState.new g 0 : IterationState τ).counts m) := by
  have hcounts : (IterationState.new g 0 : IterationState τ).counts m =
      .setInitialCount (1 + 2 * (g.inEdges m).countP Edge.isControlEdge) (g.inEdges m).length :=
      if_pos hmerge
  obtain ⟨hholds, hfits⟩ := holds_setInitialCount
    (1 + 2 * (g.inEdges m).countP Edge.isControlEdge) (g.inEdges m).length
  rw [hcounts]
  exact ⟨⟨0, hholds, fun _ ↦ rfl⟩, hfits.mono hk⟩

/-- Each in-edge is delivered once at most, and one of them at most brings a live value. -/
structure Deliverable (g : Graph) (m : NodeId) (deliveries : List (Delivery τ)) : Prop where
  nodup : (deliveries.map Delivery.edge).Nodup
  mem : ∀ d ∈ deliveries, d.edge ∈ g.inEdges m
  live : deliveries.countP (fun d ↦ d.arriving g = .live) ≤ 1

theorem Delivery.arriving_eq_control_iff {d : Delivery τ} :
    d.arriving g = .control ↔ d.edge.isControlEdge = true := by
  unfold Delivery.arriving
  split_ifs with hcontrol <;> simp [hcontrol]

theorem count_data (xs : List Arriving) :
    xs.count .live + xs.count .dead + xs.count .deadEnter = xs.countP fun x ↦
      !decide (x = .control) := by
  induction xs with
  | nil => rfl
  | cons x xs ih =>
    cases x <;> simp <;> omega

theorem count_arriving (deliveries : List (Delivery τ)) (x : Arriving) :
    (deliveries.map (Delivery.arriving g)).count x = deliveries.countP fun d ↦
      d.arriving g = x := by
  rw [count, countP_map]
  exact countP_congr fun d _ ↦ by simp

/-- No more arrives at a Merge than it has edges of each kind. -/
theorem Deliverable.within {deliveries : List (Delivery τ)} (h : Deliverable g m deliveries)
    (hinputs : (g.node m).numInputs = (g.inEdges m).countP fun e ↦ !e.isControlEdge) :
    (({} : Arrived).addAll (deliveries.map (Delivery.arriving g))).Within
      ((g.inEdges m).countP Edge.isControlEdge) (g.node m).numInputs := by
  have hsub : (deliveries.map Delivery.edge).Subperm (g.inEdges m) := by
    refine subperm_of_subset h.nodup fun e he ↦ ?_
    obtain ⟨d, hd, rfl⟩ := mem_map.1 he
    exact h.mem d hd
  have hcontrols := hsub.countP_le Edge.isControlEdge
  have hdata := hsub.countP_le fun e ↦ !e.isControlEdge
  rw [countP_map] at hcontrols hdata
  have hlive := h.live
  refine ⟨?_, ?_, ?_⟩
  · show 0 + (deliveries.map (Delivery.arriving g)).count .control ≤ _
    rw [Nat.zero_add, count_arriving]
    refine (countP_congr fun d _ ↦ ?_).trans_le hcontrols
    rw [decide_eq_true_eq, Delivery.arriving_eq_control_iff]
    rfl
  · show 0 + (deliveries.map (Delivery.arriving g)).count .live +
      (0 + (deliveries.map (Delivery.arriving g)).count .dead +
        (deliveries.map (Delivery.arriving g)).count .deadEnter) ≤ _
    rw [hinputs, Nat.zero_add, Nat.zero_add, ← Nat.add_assoc, count_data, countP_map]
    refine (countP_congr fun d _ ↦ ?_).trans_le hdata
    rw [Function.comp_apply, Function.comp_apply, Bool.not_eq_true', Bool.not_eq_true',
      decide_eq_false_iff_not, Delivery.arriving_eq_control_iff, Bool.not_eq_true]
  · show 0 + (deliveries.map (Delivery.arriving g)).count .live ≤ 1
    rwa [Nat.zero_add, count_arriving]

theorem Deliverable.perm {deliveries deliveries' : List (Delivery τ)}
    (h : Deliverable g m deliveries) (hp : deliveries'.Perm deliveries) :
    Deliverable g m deliveries' :=
  ⟨((hp.map _).nodup_iff).2 h.nodup, fun d hd ↦ h.mem d (hp.mem_iff.1 hd),
    (hp.countP_eq _).trans_le h.live⟩

/-- The counts decide as `trace` says. -/
theorem madeReady_eq_trace {deliveries : List (Delivery τ)} (hmerge : (g.node m).isMerge = true)
    (hinputs : (g.node m).numInputs = (g.inEdges m).countP fun e ↦ !e.isControlEdge)
    (h : Deliverable g m deliveries) :
    madeReady g m deliveries = ({} : Arrived).trace ((g.inEdges m).countP Edge.isControlEdge)
      (g.node m).numInputs (deliveries.map (Delivery.arriving g)) :=
  madeReady_foldl hmerge rfl (fun d hd ↦ of_decide_eq_true (mem_filter.1 (h.mem d hd)).2)
    (h.within hinputs) (reflects_new hmerge (hinputs ▸ countP_le_length))

/-- Every order of what arrives is an order of the deliveries. -/
theorem exists_perm_map {α β : Type} {f : α → β} {l : List α} {ys : List β}
    (hp : ys.Perm (l.map f)) : ∃ l' : List α, l'.Perm l ∧ l'.map f = ys := by
  have hcomp := congrFun₂ (eq_map_comp_perm f) ys l
  obtain ⟨l', hl', hl⟩ := hcomp.mpr hp
  exact ⟨l', hl, hl'.symm⟩

/-- **When the order in which its inputs arrive does not matter to a Merge.** -/
theorem mergeOrder_iff {deliveries : List (Delivery τ)} (hmerge : (g.node m).isMerge = true)
    (hinputs : (g.node m).numInputs = (g.inEdges m).countP fun e ↦ !e.isControlEdge)
    (h : Deliverable g m deliveries) :
    OrderIndependent g m deliveries ↔
      deliveries.countP (fun d ↦ d.arriving g = .deadEnter) = 0 ∨
        deliveries.countP (fun d ↦ d.arriving g = .control) <
          (g.inEdges m).countP Edge.isControlEdge ∨
        (g.node m).numInputs = 1 ∨
        (g.inEdges m).countP Edge.isControlEdge = 0 ∧
          deliveries.countP (fun d ↦ d.arriving g = .deadEnter) = 1 ∧
          deliveries.countP (fun d ↦ d.arriving g = .live) = 0 ∧
          deliveries.countP (fun d ↦ d.arriving g = .dead) + 1 < (g.node m).numInputs := by
  have hiff := Arrived.trace_perm_iff (h.within hinputs)
  rw [count_arriving, count_arriving, count_arriving, count_arriving] at hiff
  rw [← hiff, ← madeReady_eq_trace hmerge hinputs h]
  constructor
  · intro hall ys hys
    obtain ⟨deliveries', hp, rfl⟩ := exists_perm_map hys
    rw [← madeReady_eq_trace hmerge hinputs (h.perm hp)]
    exact hall deliveries' hp
  · intro hall deliveries' hp
    rw [madeReady_eq_trace hmerge hinputs (h.perm hp)]
    exact hall _ (hp.map _)

/-! ### A loop on the untaken branch of a conditional -/

/-- A Merge with an Enter, a NextIteration and a control edge as inputs. -/
def mergeGraph : Graph where
  nodes := [0, 1, 2, 3]
  node
    | 0 => ⟨.enter "loop" false 1, 1, 1⟩
    | 1 => ⟨.nextIteration, 1, 1⟩
    | 2 => ⟨.other, 0, 0⟩
    | _ => ⟨.merge, 2, 2⟩
  edges := [⟨0, 0, some 0, 3, 0⟩, ⟨1, 1, some 0, 3, 1⟩, ⟨2, 2, none, 3, 0⟩]

/-- The dead Enter and the control edge. -/
def deadEnterDelivery : Delivery ℕ := ⟨⟨0, 0, some 0, 3, 0⟩, true, [none]⟩

def controlDelivery : Delivery ℕ := ⟨⟨2, 2, none, 3, 0⟩, false, []⟩

/-- A live Enter and the control edge can come in either order. -/
theorem orderIndependent_liveEnter :
    OrderIndependent mergeGraph 3 [⟨⟨0, 0, some 0, 3, 0⟩, false, [some 5]⟩, controlDelivery] :=
  (mergeOrder_iff rfl rfl ⟨by decide, by decide, by decide⟩).2 (.inl (by decide))

/-- If the control edge comes last, the Merge is never made ready. -/
theorem not_orderIndependent_deadEnter :
    ¬ OrderIndependent mergeGraph 3 [controlDelivery, deadEnterDelivery] := fun h ↦
  absurd (h [deadEnterDelivery, controlDelivery] (Perm.swap _ _ _)).1 (by decide)

end Deliveries

end TensorFlowCore.Executor
