import TensorFlowCore.CommonRuntime.Executor.Propagation

/-!
# Frames never alias iterations

Every action of a `Machine` keeps the invariant of the frames, for every graph, every interleaving
of the threads and whatever the kernels compute. It follows that in every run the live iterations of
a frame are a contiguous range, no longer than `max_parallel_iterations`, and that each of them is
found in its own slot of the circular buffer (`iterationsOk_of_run`).
-/

namespace TensorFlowCore.Executor

open ExceptPost GuardedRun List RingBuffer

variable {τ : Type} {g : Graph} {vlog : Bool} {s : State τ} {f : FrameState τ} {T : List TaggedNode}
  {t : TaggedNode} {m m' : Machine τ}

/-! ### Steps -/

theorem Inv.mark (h : Inv s T) (ht : t ∈ T) (vlog : Bool) (change : Counts → Counts) :
    Post (s.mark vlog change t) (Inv · T) (· = .nullDeref) := by
  rw [State.mark]
  split
  · refine (post_deref (Q := fun f ↦ s.frames t.inputFrame = some f) fun f hf ↦ hf).bind
      fun f hf ↦ ?_
    refine (post_deref (Q := fun it ↦ f.getIteration t.inputIter = some it) fun it hit ↦ hit).bind
      fun it hit ↦ post_ok.2 ?_
    have hsame := sameCounters_setIteration f t.inputIter
      (some { it with counts := Function.update it.counts t.node (change (it.counts t.node)) })
    refine h.setFrame hf hsame.toSameFrame (fun hgood ↦ ?_) ((h.deferred hf).of_same hsame)
      (fun u hu ↦ .inl hu) fun _ hok ↦ hok
    obtain ⟨lo, hinv⟩ := h.ok hf hgood
    exact ⟨lo, hinv.activate (R := []) hit rfl (by simp) rfl nofun (h.zeroOk ht hf hgood)⟩
  · exact post_ok.2 h

theorem post_inputEntries (s : State τ) (t : TaggedNode) :
    Post (s.inputEntries t) (fun _ ↦ True) (· = .nullDeref) := by
  refine (post_deref (Q := fun _ ↦ True) fun _ _ ↦ trivial).bind fun f _ ↦ ?_
  exact (post_deref (Q := fun _ ↦ True) fun _ _ ↦ trivial).bind fun it _ ↦ post_ok.2 trivial

namespace Machine

/-- The nodes that have been scheduled and are not done. -/
def outstanding (m : Machine τ) : List TaggedNode := m.ready ++ m.running.map Task.tagged

/-- The invariant of the frames. -/
def FramesInv (m : Machine τ) : Prop := Inv m.state m.outstanding

/-- An action that is enabled keeps the invariant, or dereferences a null pointer. -/
theorem FramesInv.exec (h : m.FramesInv) {a : Action τ} {r : Except Fault (Machine τ)}
    (hr : m.exec g vlog a = some r) : Post r FramesInv (· = .nullDeref) := by
  cases a with
  | start k =>
    obtain ⟨t, hk, rfl⟩ := Option.map_eq_some_iff.1 hr
    obtain ⟨hlt, ht⟩ := List.getElem?_eq_some_iff.1 hk
    have hperm : (t :: m.ready.eraseIdx k).Perm m.ready := by
      subst ht
      exact getElem_cons_eraseIdx_perm hlt
    refine (h.mark (mem_append_left _ (mem_of_getElem? hk)) vlog .markStarted).bind
      fun state hstate ↦ ?_
    refine (post_inputEntries state t).bind fun inputs _ ↦ post_ok.2 ?_
    refine hstate.mono (Perm.subperm ?_)
    show (m.ready.eraseIdx k ++ (m.running ++ [(⟨t, inputs⟩ : Task τ)]).map Task.tagged).Perm
      m.outstanding
    rw [map_append, map_cons, map_nil, ← append_assoc]
    exact (perm_append_singleton t _).trans (hperm.append_right _)
  | finish k outputs =>
    obtain ⟨task, hk, rfl⟩ := Option.map_eq_some_iff.1 hr
    obtain ⟨hlt, htask⟩ := List.getElem?_eq_some_iff.1 hk
    have hperm : (task.tagged :: (m.ready ++ (m.running.eraseIdx k).map Task.tagged)).Perm
        m.outstanding := by
      subst htask
      refine perm_middle.symm.trans (Perm.append_left _ ?_)
      exact (getElem_cons_eraseIdx_perm hlt).map Task.tagged
    have hmem : task.tagged ∈ m.outstanding := hperm.mem_iff.1 mem_cons_self
    refine (h.mark hmem vlog .markCompleted).bind fun state hstate ↦ ?_
    refine ((hstate.mono hperm.subperm).propagateOutputs outputs).bind ?_
    rintro ⟨state', ready⟩ hstate'
    refine post_ok.2 (hstate'.mono (Perm.subperm ?_))
    show (m.ready ++ ready ++ (m.running.eraseIdx k).map Task.tagged).Perm _
    rw [append_assoc]
    exact perm_append_comm_assoc _ _ _
  | fail k =>
    obtain ⟨task, hk, rfl⟩ := Option.map_eq_some_iff.1 hr
    have hmem : task.tagged ∈ m.outstanding :=
      mem_append_right _ (mem_map_of_mem (mem_of_getElem? hk))
    refine (h.mark hmem vlog .markCompleted).bind fun state hstate ↦ post_ok.2 ?_
    exact hstate.mono (((eraseIdx_sublist ..).map Task.tagged).append_left _).subperm

/-- At first there is the root frame, and its root nodes are outstanding in iteration 0. -/
theorem framesInv_init (g : Graph) : (init g : Machine τ).FramesInv := by
  have hroot : ∀ {k f}, (State.init g : State τ).frames k = some f → k = 0 ∧ f.parent = none ∧
      f.maxParallelIterations = 1 ∧ f.nextIterRoots = [] := by
    intro k f hf
    simp only [State.init] at hf
    split at hf
    · rename_i hk
      cases hf
      exact ⟨hk, rfl, rfl, rfl⟩
    · cases hf
  refine ⟨fun hf ↦ ?_, fun t ht ↦ ?_, fun {k f} hf _ ↦ ⟨0, ?_⟩, fun hf _ hne ↦ ?_, fun hf hp ↦ ?_,
    fun hf hne ↦ ?_, fun hf hp ↦ ?_⟩
  · rw [(hroot hf).1]
    exact Nat.one_pos
  · obtain ht | ht := mem_append.1 ht
    · obtain ⟨v, -, rfl⟩ := mem_map.1 ht
      exact Nat.one_pos
    · cases ht
  · have htags : ∀ t ∈ (init g : Machine τ).outstanding, t.inputFrame = 0 ∧ t.inputIter = 0 := by
      intro t ht
      obtain ht | ht := mem_append.1 ht
      · obtain ⟨v, -, rfl⟩ := mem_map.1 ht
        exact ⟨rfl, rfl⟩
      · cases ht
    have hkids : kidsOf (init g : Machine τ).state k = [] := kidsOf_eq_nil fun k' f' i hf' hp ↦ by
      rw [(hroot hf').2.1] at hp
      cases hp
    obtain ⟨rfl, -⟩ := hroot hf
    cases hf
    have hslot : ∀ {k it}, (if k = 0 then some { IterationState.new (τ := τ) g 0 with
        outstandingOps := (g.rootNodes.length : ℤ) } else none) = some it →
        k = 0 ∧ it = { IterationState.new g
        0 with outstandingOps := (g.rootNodes.length : ℤ) } := by
      intro k it hit
      split at hit
      · rename_i hk
        exact ⟨hk, (Option.some.inj hit).symm⟩
      · cases hit
    rw [hkids]
    refine ⟨⟨Nat.zero_le _, le_rfl, fun i _ hi ↦ ?_, fun k it hit ↦ ?_⟩, rfl, le_rfl, le_rfl,
      fun _ ↦ rfl, fun k it hit ↦ ?_, fun k it hit ↦ ?_, fun t ht _ ↦ ?_, nofun, fun _ ↦ .inl rfl⟩
    · obtain rfl : i = 0 := Nat.lt_one_iff.1 hi
      exact ⟨_, rfl, rfl⟩
    · obtain ⟨rfl, rfl⟩ := hslot hit
      exact ⟨le_rfl, Nat.one_pos, rfl⟩
    · obtain ⟨rfl, rfl⟩ := hslot hit
      have hle : (init g : Machine τ).outstanding.countP (inSlot 0 1 0) ≤ g.rootNodes.length :=
        countP_le_length.trans (by simp [outstanding, init])
      exact Int.ofNat_le.2 hle
    · obtain ⟨rfl, rfl⟩ := hslot hit
      rfl
    · rw [(htags t ht).2]
      rfl
  · exact absurd (hroot hf).2.2.2 hne
  · rw [(hroot hf).2.1] at hp
    cases hp
  · exact absurd (hroot hf).2.1 hne
  · rw [(hroot hf).2.1] at hp
    cases hp

theorem framesInv_of_run {as : List (Action τ)} (hrun : run (step g vlog) (init g) as = some m) :
    m.FramesInv := by
  refine run_invariant (fun _ hI hstep ↦ ?_) (framesInv_init g) hrun
  obtain ⟨r, hr, hok⟩ := Option.bind_eq_some_iff.1 hstep
  cases r with
  | error e => cases hok
  | ok m₁ =>
    cases hok
    exact (hI.exec hr).of_ok rfl

end Machine

/-! ### Iterations -/

/-- An iteration that has been started and not deleted. -/
def FrameState.Live (f : FrameState τ) (i : ℕ) : Prop := ∃ k it, f.iterations k = some it ∧
    it.iter = i

/-- The live iterations are those from `lo` to `iteration_count`, and each is in its own slot. -/
structure IterationsOk (f : FrameState τ) (lo : ℕ) : Prop where
  live_iff : ∀ i, f.Live i ↔ lo ≤ i ∧ i ≤ f.iterationCount
  length : f.numOutstandingIterations + lo = f.iterationCount + 1
  le_max : f.numOutstandingIterations ≤ f.maxParallelIterations
  size : f.bufferSize = f.maxParallelIterations + 1
  /-- `SetIteration` for the next iteration overwrites nothing. -/
  next_free : f.getIteration (f.iterationCount + 1) = none
  get : ∀ i, f.Live i → ∃ it, f.getIteration i = some it ∧ it.iter = i
  /-- The test of `IsIterationDone` for the preceding iteration. -/
  prev : ∀ i, f.Live i → i ≠ 0 → (f.getIteration (i - 1) = none ↔ ¬f.Live (i - 1))
  pending : 0 < f.numPendingInputs → ∀ i ≤ f.iterationCount, f.Live i

/-- What the ring of the invariant says about the live iterations. -/
theorem FrameInv.iterationsOk {fid : FrameId} {kids : List ℕ} {lo : ℕ}
    (h : FrameInv fid T kids f lo) (hsize : f.bufferSize = f.maxParallelIterations + 1) :
    IterationsOk f lo := by
  have hlength := h.outstanding
  have hmax := h.outstanding_le
  have hlive : ∀ i, f.Live i ↔ lo ≤ i ∧ i ≤ f.iterationCount := fun i ↦ by
    rw [← Nat.lt_add_one_iff (n := f.iterationCount)]
    exact h.window.mem_iff
  have hget : ∀ i, f.Live i → ∃ it, f.getIteration i = some it ∧ it.iter = i := fun i hi ↦ by
    obtain ⟨hlo, hhi⟩ := (hlive i).1 hi
    exact h.window.get i hlo (Nat.lt_succ_of_le hhi)
  refine ⟨hlive, hlength, hmax, hsize, h.window.next_eq_none (by omega), hget,
    fun i hi hne ↦ ⟨fun hnone hprev ↦ ?_, fun hprev ↦ ?_⟩, fun hpos i hi ↦ (hlive i).2 ⟨?_, hi⟩⟩
  · obtain ⟨it, hit, -⟩ := hget _ hprev
    rw [hnone] at hit
    cases hit
  · -- the preceding iteration is the one before the window
    obtain ⟨hlo, hhi⟩ := (hlive i).1 hi
    have hfirst : lo = i - 1 + 1 := by
      by_contra hother
      exact hprev ((hlive _).2 (by omega))
    have hwindow := h.window
    rw [hfirst] at hwindow
    exact hwindow.prev_eq_none (by omega)
  · rw [h.pending hpos]
    exact Nat.zero_le i

/-- In every run the live iterations of a frame with at least one parallel iteration are a
contiguous range, no longer than `max_parallel_iterations`, each in its own slot, and no action runs
out of the fuel that the model gives to the clean-up. -/
theorem iterationsOk_of_run (g : Graph) (vlog : Bool) (as : List (Action τ)) (m : Machine τ)
    (hrun : run (Machine.step g vlog) (Machine.init g) as = some m) :
    (∀ fid f, m.state.frames fid = some f → f.parent ≠ none → 1 ≤ f.maxParallelIterations →
      ∃ lo, IterationsOk f lo) ∧
    ∀ a, m.exec g vlog a ≠ some (.error .outOfFuel) := by
  have h := Machine.framesInv_of_run hrun
  refine ⟨fun fid f hf hparent hmax ↦ ?_, fun a ha ↦ ?_⟩
  · obtain ⟨lo, hinv⟩ := h.ok hf hmax
    exact ⟨lo, hinv.iterationsOk (h.size hf hparent)⟩
  · cases (h.exec ha).of_error rfl

/-- A loop without end: an Enter, a Merge and a NextIteration, with at most two iterations at a
time. -/
def enterLoop : Graph where
  nodes := [0, 1, 2]
  node v :=
    if v = 0 then ⟨.enter "loop" false 2, 0, 1⟩
    else if v = 1 then ⟨.merge, 2, 1⟩
    else ⟨.nextIteration, 1, 1⟩
  edges := [⟨0, 0, some 0, 1, 0⟩, ⟨1, 1, some 0, 2, 0⟩, ⟨2, 2, some 0, 1, 1⟩]

/-- Nine nodes of the loop have run, and iteration 4 is in slot 1 of the three of the frame. -/
theorem iterationsOk_of_run_enterLoop :
    ∃ m, run (Machine.step enterLoop false) (Machine.init enterLoop : Machine Unit)
        (replicate 9 [.start 0, .finish 0 [some ()]]).flatten = some m ∧
      (∃ f it, m.state.frames 1 = some f ∧ f.parent ≠ none ∧ 1 ≤ f.maxParallelIterations ∧
        f.bufferSize = 3 ∧ f.iterations 1 = some it ∧ it.iter = 4) ∧
      (∀ fid f, m.state.frames fid = some f → f.parent ≠ none → 1 ≤ f.maxParallelIterations →
        ∃ lo, IterationsOk f lo) ∧
      ∀ a, m.exec enterLoop false a ≠ some (.error .outOfFuel) :=
  ⟨_, rfl, ⟨_, _, rfl, nofun, by decide, rfl, rfl, rfl⟩,
    iterationsOk_of_run enterLoop false (replicate 9 [.start 0, .finish 0 [some ()]]).flatten _ rfl⟩

/-- In every run an iteration is not done, and so not deleted, while a node of it has been scheduled
and has not finished, or a frame that it has started is there. -/
theorem notDone_of_run (g : Graph) (vlog : Bool) (as : List (Action τ)) (m : Machine τ)
    (hrun : run (Machine.step g vlog) (Machine.init g) as = some m) {fid : FrameId}
    {f : FrameState τ} (hf : m.state.frames fid = some f) (hmax : 1 ≤ f.maxParallelIterations)
    (i : ℕ) (hi : (∃ t ∈ m.outstanding, t.inputFrame = fid ∧ t.inputIter = i) ∨
      ∃ k child, m.state.frames k = some child ∧ child.parent = some (fid, i)) :
    f.isIterationDone i = .ok false := by
  have h := Machine.framesInv_of_run hrun
  obtain ⟨lo, hinv⟩ := h.ok hf hmax
  obtain ⟨it, hit, hne⟩ : ∃ it, f.getIteration i = some it ∧
      ¬(it.outstandingOps = 0 ∧ it.outstandingFrameCount = 0) := by
    obtain ⟨t, ht, htf, rfl⟩ | ⟨k, child, hk, hparent⟩ := hi
    · obtain ⟨it, hit⟩ := Option.isSome_iff_exists.1 (hinv.live t ht htf)
      have hops := hinv.ops_le _ it hit
      have hpos := countP_pos_iff.2 ⟨t, ht, inSlot_self htf f.bufferSize⟩
      exact ⟨it, hit, fun hzero ↦ by omega⟩
    · have hkid : i ∈ kidsOf m.state fid := mem_kidsOf (h.lt hk) hk hparent
      obtain ⟨it, hit⟩ := Option.isSome_iff_exists.1 (hinv.live_kids i hkid)
      have hkids := hinv.kids_eq _ it hit
      have hpos : 0 < (kidsOf m.state fid).countP fun j ↦ j % f.bufferSize = i % f.bufferSize :=
        countP_pos_iff.2 ⟨i, hkid, decide_eq_true rfl⟩
      exact ⟨it, hit, fun hzero ↦ by omega⟩
  rw [FrameState.isIterationDone, hit]
  exact if_neg hne

/-- The iteration of the root frame is not done while the loop is there. -/
theorem notDone_of_run_enterLoop :
    ∃ m f, run (Machine.step enterLoop false) (Machine.init enterLoop : Machine Unit)
        [.start 0, .finish 0 [some ()]] = some m ∧ m.state.frames 0 = some f ∧
      f.isIterationDone 0 = .ok false :=
  ⟨_, _, rfl, rfl, notDone_of_run enterLoop false [.start 0, .finish 0 [some ()]] _ rfl rfl
    (by decide) 0
    (.inr ⟨1, _, rfl, rfl⟩)⟩

end TensorFlowCore.Executor
