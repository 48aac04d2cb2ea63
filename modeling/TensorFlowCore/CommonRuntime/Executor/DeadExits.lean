import Mathlib.Data.List.Flatten
import TensorFlowCore.CommonRuntime.Executor.Model

/-!
# Dead exits

When a frame is done, `CleanupFramesIterations` propagates its dead Exit nodes to the parent
iteration with a copy of the loop of `ActivateNode`. The copy treats every kind of destination as
the original does, but it schedules a ControlTrigger as dead where `ActivateNode` never does. So the
two agree exactly when the dead exits do not make a ControlTrigger ready.
-/

namespace TensorFlowCore.Executor

open Counts List

variable {τ : Type} {g : Graph} {it it' : IterationState τ} {exits : List NodeId} {t : NodeId}
  {es : List Edge}

/-- The dead exits, propagated by `ActivateNode` with outputs that have no value. -/
def activateDeadExits (g : Graph) (exits : List NodeId) (it : IterationState τ) :
    IterationState τ × List (NodeId × Bool) :=
  exits.foldl (fun x v ↦
    let y := activateNode g v true (List.replicate (g.node v).numOutputs none) x.1
    (y.1, x.2 ++ y.2)) (it, [])

/-- The two ways to propagate dead exits have the same effect on the counts of the parent iteration,
make the same nodes ready and give them the same `is_dead`. -/
def DeadExitsAgree (g : Graph) (exits : List NodeId) (it : IterationState τ) : Prop :=
  (propagateDeadExits g exits it).1.counts = (activateDeadExits g exits it).1.counts ∧
    (propagateDeadExits g exits it).2 = (activateDeadExits g exits it).2

/-- The number of edges that lead from the dead exits to `t`. -/
def numDeadExitEdges (g : Graph) (exits : List NodeId) (t : NodeId) : ℕ :=
  (exits.flatMap g.outEdges).countP fun e ↦ e.dst = t

/-- The counts can take `k` more dead inputs, as the debug checks of `decrement_pending` and
`increment_dead_count` ask. -/
def Expects (k : ℕ) (c : Counts) : Prop := ∃ p d, Holds p d c ∧ k ≤ p ∧ Fits k c

/-! ### One edge -/

theorem pushReady_append (dst : NodeId) (dead ready : Bool) (it : IterationState τ)
    (r₁ r₂ : List (NodeId × Bool)) :
    pushReady dst dead ready (it, r₁ ++ r₂) =
      ((pushReady dst dead ready (it, r₂)).1, r₁ ++ (pushReady dst dead ready (it, r₂)).2) := by
  cases ready <;> simp [pushReady]

/-- What was ready before stays in front. -/
theorem foldl_activateEdge (fromEnter isDead : Bool) (outputs : List (Entry τ)) (es : List Edge)
    (it : IterationState τ) (r : List (NodeId × Bool)) :
    es.foldl (activateEdge g fromEnter isDead outputs) (it, r) =
      ((es.foldl (activateEdge g fromEnter isDead outputs) (it, [])).1,
        r ++ (es.foldl (activateEdge g fromEnter isDead outputs) (it, [])).2) := by
  induction es generalizing it r with
  | nil => simp
  | cons e es ih =>
    have hstep : activateEdge g fromEnter isDead outputs (it, r) e =
        ((activateEdge g fromEnter isDead outputs (it, []) e).1,
          r ++ (activateEdge g fromEnter isDead outputs (it, []) e).2) := by
      conv_lhs => rw [← append_nil r]
      exact pushReady_append ..
    rcases hy : activateEdge g fromEnter isDead outputs (it, []) e with ⟨it₁, r₁⟩
    rw [hy] at hstep
    rw [foldl_cons, hstep, ih, foldl_cons, hy, ih it₁ r₁, append_assoc]

/-- A ControlTrigger is never scheduled dead. -/
def reschedule (g : Graph) (x : NodeId × Bool) : NodeId × Bool :=
  (x.1, x.2 && !(g.node x.1).isControlTrigger)

/-- An arrival from a dead Exit is an arrival of `ActivateNode`. -/
theorem arriveFromDeadExit_eq {dst : Node} (control : Bool) {c : Counts}
    (hc : dst.isMerge = false → Expects 1 c) :
    (dst.arrive false true control false c).counts = (dst.arriveFromDeadExit control c).counts ∧
      (dst.arrive false true control false c).dstDead =
        (dst.arriveFromDeadExit control c).dstDead ∧
      (dst.arrive false true control false c).dstReady =
        (dst.arriveFromDeadExit control c).dstReady := by
  cases hmerge : dst.isMerge with
  | true => cases control <;> simp [Node.arrive, Node.arriveFromDeadExit, hmerge]
  | false =>
    obtain ⟨p, d, hp, hle, hfits⟩ := hc hmerge
    have hdead := (hp.incrementDeadCount (k := 0) hle hfits).1.deadCount
    simp [Node.arrive, Node.arriveFromDeadExit, hmerge, hdead]

theorem Expects.arrive {dst : Node} {control : Bool} {c : Counts} {k : ℕ}
    (hmerge : dst.isMerge = false) (hc : Expects (k + 1) c) :
    Expects k (dst.arriveFromDeadExit control c).counts := by
  obtain ⟨p, d, hp, hle, hfits⟩ := hc
  obtain ⟨hholds, hfits'⟩ := hp.incrementDeadCount (Nat.lt_of_lt_of_le k.succ_pos hle) hfits
  simp only [Node.arriveFromDeadExit, hmerge]
  exact ⟨p - 1, d + 1, hholds.decrementPending (by omega), by omega, hfits'.decrementPending⟩

/-- The state of the copy and the state of `ActivateNode` after the same edges. -/
structure Related (g : Graph) (x y : IterationState τ × List (NodeId × Bool)) : Prop where
  counts : x.1.counts = y.1.counts
  ready : y.2 = x.2.map (reschedule g)

theorem Related.edge {x y : IterationState τ × List (NodeId × Bool)} {e : Edge}
    {outputs : List (Entry τ)} (hxy : Related g x y) (hentry : e.entry outputs = none)
    (hexp : (g.node e.dst).isMerge = false → Expects 1 (x.1.counts e.dst)) :
    Related g (deadExitEdge g x e) (activateEdge g false true outputs y e) := by
  obtain ⟨it₁, r₁⟩ := x
  obtain ⟨it₂, r₂⟩ := y
  obtain ⟨hcounts, rfl⟩ := hxy
  obtain ⟨h₁, h₂, h₃⟩ := arriveFromDeadExit_eq e.isControlEdge hexp
  simp only at hcounts h₁ h₂ h₃
  simp only [deadExitEdge, activateEdge, hentry, Option.isSome_none, ← hcounts, h₁, h₂, h₃,
    pushReady]
  split
  · exact ⟨by simp [hcounts], by simp [reschedule]⟩
  · exact ⟨by simp [hcounts], rfl⟩

/-! ### All edges -/

theorem deadExitEdge_counts (x : IterationState τ × List (NodeId × Bool)) (e : Edge) :
    (deadExitEdge g x e).1.counts = Function.update x.1.counts e.dst
      ((g.node e.dst).arriveFromDeadExit e.isControlEdge (x.1.counts e.dst)).counts := by
  obtain ⟨it, r⟩ := x
  simp only [deadExitEdge, pushReady]
  split <;> rfl

/-- The counts that an edge leaves expect the edges that are still to come. -/
theorem Expects.edge {x : IterationState τ × List (NodeId × Bool)} {e : Edge}
    (ht : (g.node t).isMerge = false)
    (hexp : Expects ((e :: es).countP fun e ↦ e.dst = t) (x.1.counts t)) :
    Expects (es.countP fun e ↦ e.dst = t) ((deadExitEdge g x e).1.counts t) := by
  rw [deadExitEdge_counts]
  by_cases hdst : e.dst = t
  · subst hdst
    rw [countP_cons_of_pos (by simp)] at hexp
    rw [Function.update_self]
    exact hexp.arrive ht
  · rw [countP_cons_of_neg (by simpa using hdst)] at hexp
    rwa [Function.update_of_ne (Ne.symm hdst)]

theorem Expects.mono {c : Counts} {k k' : ℕ} (hc : Expects k c) (h : k' ≤ k) : Expects k' c := by
  obtain ⟨p, d, hp, hle, hfits⟩ := hc
  exact ⟨p, d, hp, Nat.le_trans h hle, hfits.mono h⟩

theorem Related.foldl {x y : IterationState τ × List (NodeId × Bool)} (hxy : Related g x y)
    (hexp : ∀ t, (g.node t).isMerge = false → (0 < es.countP fun e ↦ e.dst = t) →
      Expects (es.countP fun e ↦ e.dst = t) (x.1.counts t)) :
    Related g (es.foldl (deadExitEdge g) x) (es.foldl (activateEdge g false true []) y) := by
  induction es generalizing x y with
  | nil => exact hxy
  | cons e es ih =>
    refine ih (hxy.edge (by cases h : e.srcOutput <;> simp [Edge.entry, h]) fun hmerge ↦ ?_)
      fun t ht hpos ↦ (hexp t ht (hpos.trans_le (sublist_cons_self e es).countP_le)).edge ht
    have hcount : ((e :: es).countP fun e' ↦ e'.dst = e.dst) =
        (es.countP fun e' ↦ e'.dst = e.dst) + 1 := countP_cons_of_pos (by simp)
    exact (hexp e.dst hmerge (by omega)).mono (by omega)

theorem propagateDeadExits_eq (g : Graph) (exits : List NodeId) (it : IterationState τ) :
    propagateDeadExits g exits it =
      (exits.flatMap g.outEdges).foldl (deadExitEdge g) (it, []) := by
  rw [foldl_flatMap]
  rfl

/-- Outputs without values are no outputs. -/
theorem activateEdge_replicate (fromEnter isDead : Bool) (n : ℕ) :
    @activateEdge τ g fromEnter isDead (List.replicate n none) =
      activateEdge g fromEnter isDead [] := by
  funext x e
  have hentry : e.entry (replicate n (none : Entry τ)) = e.entry [] := by
    cases h : e.srcOutput with
    | none => simp [Edge.entry, h]
    | some slot =>
      rw [Edge.entry, Edge.entry, h, Option.bind_some, getD_eq_getElem?_getD, getElem?_replicate]
      split <;> rfl
  simp only [activateEdge, hentry]

theorem activateDeadExits_eq (hexit : ∀ v ∈ exits, (g.node v).kind = .exit)
    (it : IterationState τ) :
    activateDeadExits g exits it =
      (exits.flatMap g.outEdges).foldl (activateEdge g false true []) (it, []) := by
  rw [foldl_flatMap, activateDeadExits]
  refine foldl_ext _ _ _ fun x v hv ↦ ?_
  have hkind : (g.node v).isEnter = false := by rw [Node.isEnter, hexit v hv]
  rw [activateNode, activateEdge_replicate, hkind]
  exact (foldl_activateEdge ..).symm

/-! ### ControlTriggers -/

/-- The nodes that an edge makes ready. -/
theorem deadExitEdge_ready (it : IterationState τ) (r : List (NodeId × Bool)) (e : Edge) :
    (deadExitEdge g (it, r) e).2 = r ++
      if ((g.node e.dst).arriveFromDeadExit e.isControlEdge (it.counts e.dst)).dstReady then
        [(e.dst, ((g.node e.dst).arriveFromDeadExit e.isControlEdge (it.counts e.dst)).dstDead)]
      else [] := by
  simp only [deadExitEdge, pushReady]
  split <;> simp_all

/-- What becomes ready is what an edge leads to. -/
theorem countP_pos_of_mem {x : IterationState τ × List (NodeId × Bool)} {y : NodeId × Bool}
    (hy : y ∈ (es.foldl (deadExitEdge g) x).2) : y ∈ x.2 ∨ 0 < es.countP fun e ↦ e.dst = y.1 := by
  induction es generalizing x with
  | nil => exact .inl hy
  | cons e es ih =>
    obtain hmem | hpos := ih hy
    · rw [deadExitEdge_ready, mem_append] at hmem
      refine hmem.imp_right fun hmem ↦ ?_
      split at hmem
      · rw [mem_singleton.1 hmem]
        exact countP_pos_iff.2 ⟨e, mem_cons_self, decide_eq_true rfl⟩
      · cases hmem
    · exact .inr (hpos.trans_le (sublist_cons_self e es).countP_le)

/-- A node that is not a Merge is scheduled, and then as dead, when the edges that arrive are all it
was waiting for. -/
theorem mem_foldl_deadExitEdge (ht : (g.node t).isMerge = false) {p d : ℕ}
    (hp : Holds p d (it.counts t)) (hle : (es.countP fun e ↦ e.dst = t) ≤ p)
    (hfits : Fits (es.countP fun e ↦ e.dst = t) (it.counts t)) (r : List (NodeId × Bool)) :
    (t, true) ∈ (es.foldl (deadExitEdge g) (it, r)).2 ↔ (t, true) ∈ r ∨
      (0 < es.countP fun e ↦ e.dst = t) ∧ (es.countP fun e ↦ e.dst = t) = p := by
  induction es generalizing it p d r with
  | nil => simp
  | cons e es ih =>
    have hcounts := deadExitEdge_counts (g := g) (it, r) e
    have hready := deadExitEdge_ready (g := g) it r e
    rcases hx : deadExitEdge g (it, r) e with ⟨it₁, r₁⟩
    rw [hx] at hcounts hready
    simp only at hcounts hready
    rw [foldl_cons, hx]
    by_cases hdst : e.dst = t
    · subst hdst
      rw [countP_cons_of_pos (by simp)] at hle hfits ⊢
      obtain ⟨hholds, hfits'⟩ := hp.incrementDeadCount (by omega) hfits
      have hholds' := hholds.decrementPending (v := 1) (by omega)
      have hraw := hholds'.rawPending
      simp only [Node.arriveFromDeadExit, ht, Bool.false_eq_true, if_false] at hcounts hready
      have hthis : it₁.counts e.dst =
          ((it.counts e.dst).incrementDeadCount).decrementPending 1 := by
        rw [hcounts, Function.update_self]
      rw [ih (hthis ▸ hholds') (by omega) (hthis ▸ hfits'.decrementPending), hready, hraw]
      generalize (es.countP fun e' ↦ e'.dst = e.dst) = k at hle ⊢
      by_cases hone : p = 1
      · obtain rfl : k = 0 := by omega
        simp [hone]
      · have hwait : ¬ ((p - 1 : ℕ) : ℤ) = 0 := by omega
        have hcount : (0 < k ∧ k = p - 1) ↔ (0 < k + 1 ∧ k + 1 = p) := by omega
        simp only [decide_eq_true_iff, if_neg hwait, append_nil, hcount]
    · rw [countP_cons_of_neg (by simpa using hdst)] at hle hfits ⊢
      have hthis : it₁.counts t = it.counts t := by
        rw [hcounts, Function.update_of_ne (Ne.symm hdst)]
      rw [ih (hthis ▸ hp) hle (hthis ▸ hfits), hready]
      refine or_congr_left ?_
      rw [mem_append]
      refine or_iff_left fun hmem ↦ hdst ?_
      split at hmem
      · exact (Prod.mk.inj (mem_singleton.1 hmem)).1.symm
      · cases hmem

/-- **The copy agrees with `ActivateNode` exactly when the dead exits make no ControlTrigger
ready**: every ControlTrigger that they lead to still waits for other inputs. -/
theorem deadExitsAgree_iff (hexit : ∀ v ∈ exits, (g.node v).kind = .exit)
    (hexp : ∀ t, (g.node t).isMerge = false → 0 < numDeadExitEdges g exits t →
      Expects (numDeadExitEdges g exits t) (it.counts t)) :
    DeadExitsAgree g exits it ↔ ∀ t, (g.node t).isControlTrigger = true →
      0 < numDeadExitEdges g exits t → numDeadExitEdges g exits t < (it.counts t).pending := by
  have hrel : Related g (propagateDeadExits g exits it) (activateDeadExits g exits it) := by
    rw [propagateDeadExits_eq, activateDeadExits_eq hexit]
    exact Related.foldl ⟨rfl, rfl⟩ hexp
  rw [DeadExitsAgree, hrel.ready, and_iff_right hrel.counts]
  have hmem : ∀ t, (g.node t).isControlTrigger = true → 0 < numDeadExitEdges g exits t →
      ((t, true) ∈ (propagateDeadExits g exits it).2 ↔
        (it.counts t).pending ≤ numDeadExitEdges g exits t) := by
    intro t ht hpos
    have hmerge : (g.node t).isMerge = false := by
      rw [Node.isControlTrigger, decide_eq_true_iff] at ht
      simp [Node.isMerge, ht]
    obtain ⟨p, d, hp, hle, hfits⟩ := hexp t hmerge hpos
    rw [propagateDeadExits_eq, mem_foldl_deadExitEdge hmerge hp hle hfits, hp.pending]
    simp only [not_mem_nil, false_or]
    change numDeadExitEdges g exits t ≤ p at hle
    change 0 < numDeadExitEdges g exits t ∧ numDeadExitEdges g exits t = p ↔ _
    omega
  constructor
  · intro hagree t ht hpos
    by_contra hlt
    have hpush := (hmem t ht hpos).2 (by omega)
    rw [hagree] at hpush
    obtain ⟨⟨t', dead⟩, -, heq⟩ := mem_map.1 hpush
    obtain ⟨rfl, hdead⟩ := Prod.mk.inj heq
    simp [ht] at hdead
  · intro hwait
    conv_lhs => rw [← map_id (propagateDeadExits g exits it).2]
    refine map_congr_left fun ⟨t, dead⟩ hpush ↦ ?_
    cases ht : (g.node t).isControlTrigger with
    | false => simp [reschedule, ht]
    | true =>
      cases dead with
      | false => simp [reschedule]
      | true =>
        have hpos : 0 < numDeadExitEdges g exits t := by
          rw [propagateDeadExits_eq] at hpush
          exact (countP_pos_of_mem hpush).resolve_left not_mem_nil
        have := (hmem t ht hpos).1 hpush
        have := hwait t ht hpos
        omega

/-- A Switch whose output is dead, a loop on it that consists of an Enter and an Exit, and a node
that runs after the loop. -/
def deadLoop (last : NodeKind) : Graph where
  nodes := [0, 1, 2, 3]
  node
    | 0 => ⟨.switch, 0, 1⟩
    | 1 => ⟨.enter "loop" false 1, 1, 1⟩
    | 2 => ⟨.exit, 1, 1⟩
    | _ => ⟨last, 0, 0⟩
  edges := [⟨0, 0, some 0, 1, 0⟩, ⟨1, 1, some 0, 2, 0⟩, ⟨2, 2, none, 3, 0⟩]

/-- After the loop the iteration of the root frame waits for one more input of an ordinary node. -/
theorem deadExitsAgree_deadLoop :
    DeadExitsAgree (deadLoop .other) [2] (IterationState.new (deadLoop .other) 0 :
      IterationState Unit) := by
  refine (deadExitsAgree_iff (by simp [deadLoop]) fun t ht _ ↦ ?_).2 fun t ht ↦ ?_
  · have hinitial : (deadLoop .other).initialCounts t =
        .setInitialCount ((deadLoop .other).inEdges t).length
          ((deadLoop .other).inEdges t).length := by
      rw [Graph.initialCounts, ht]
      rfl
    obtain ⟨hholds, hfits⟩ := holds_setInitialCount ((deadLoop .other).inEdges t).length
      ((deadLoop .other).inEdges t).length
    have hle : numDeadExitEdges (deadLoop .other) [2] t ≤
        ((deadLoop .other).inEdges t).length := by
      rw [Graph.inEdges, ← countP_eq_length_filter, numDeadExitEdges, flatMap_singleton]
      exact Sublist.countP_le filter_sublist
    show Expects _ ((deadLoop .other).initialCounts t)
    rw [hinitial]
    exact ⟨_, _, hholds, hle, hfits.mono hle⟩
  · match t with
    | 0 | 1 | 2 | t + 3 => simp [deadLoop, Node.isControlTrigger] at ht

/-- A ControlTrigger after the loop: in a run of the executor it becomes ready and is scheduled as
dead, where `ActivateNode` schedules it as live. -/
theorem not_deadExitsAgree_deadLoop :
    (GuardedRun.run (Machine.step (deadLoop .controlTrigger) false)
        (Machine.init (deadLoop .controlTrigger) : Machine Unit)
        [.start 0, .finish 0 [none], .start 0, .finish 0 [none], .start 0, .finish 0 [none]]).map
        Machine.ready = some [⟨3, 0, 0, true⟩] ∧
      ¬ DeadExitsAgree (deadLoop .controlTrigger) [2]
        (IterationState.new (deadLoop .controlTrigger) 0 : IterationState Unit) := by
  refine ⟨by decide +kernel, fun hagree ↦ ?_⟩
  have hcopy : (propagateDeadExits (deadLoop .controlTrigger) [2]
      (IterationState.new (deadLoop .controlTrigger) 0 : IterationState Unit)).2 = [(3, true)] := by
    decide +kernel
  have horiginal : (activateDeadExits (deadLoop .controlTrigger) [2]
      (IterationState.new (deadLoop .controlTrigger) 0 : IterationState Unit)).2 =
      [(3, false)] := by
    decide +kernel
  have := hagree.2
  rw [hcopy, horiginal] at this
  exact absurd this (by decide)

end TensorFlowCore.Executor
