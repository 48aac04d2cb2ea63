import TensorFlowCore.CommonRuntime.Executor.FrameInvariant

/-!
# Operations on one frame

`ActivateNode`, `IncrementIteration`, `AddLoopInv` and the loop of `CleanupFramesIterations` keep
the invariant of a frame that was created with at least one parallel iteration (`FrameOk`), and none
of them runs out of fuel.
-/

namespace TensorFlowCore.Executor

open ExceptPost List RingBuffer

variable {τ : Type} {g : Graph} {fid : FrameId} {f f' : FrameState τ} {T R : List TaggedNode}
  {kids : List ℕ} {lo iter : ℕ}

/-- The invariant, for a frame with at least one parallel iteration. -/
def FrameOk (fid : FrameId) (T : List TaggedNode) (kids : List ℕ) (f : FrameState τ) : Prop :=
  1 ≤ f.maxParallelIterations → ∃ lo, FrameInv fid T kids f lo

theorem FrameOk.mono (h : FrameOk fid T kids f) (hR : R.Subperm T) : FrameOk fid R kids f :=
  fun hgood ↦ (h hgood).imp fun _ hinv ↦ hinv.mono hR

/-- What no operation changes. -/
structure SameFrame (f f' : FrameState τ) : Prop where
  frameName : f'.frameName = f.frameName
  parent : f'.parent = f.parent
  max : f'.maxParallelIterations = f.maxParallelIterations
  size : f'.bufferSize = f.bufferSize

theorem SameFrame.refl (f : FrameState τ) : SameFrame f f := ⟨rfl, rfl, rfl, rfl⟩

theorem SameFrame.trans {f₁ f₂ f₃ : FrameState τ} (h₁ : SameFrame f₁ f₂) (h₂ : SameFrame f₂ f₃) :
    SameFrame f₁ f₃ :=
  ⟨h₂.frameName.trans h₁.frameName, h₂.parent.trans h₁.parent, h₂.max.trans h₁.max,
    h₂.size.trans h₁.size⟩

/-- Only the states of iterations have changed. -/
structure SameCounters (f f' : FrameState τ) : Prop extends SameFrame f f' where
  iterationCount : f'.iterationCount = f.iterationCount
  numPendingInputs : f'.numPendingInputs = f.numPendingInputs
  numOutstanding : f'.numOutstandingIterations = f.numOutstandingIterations
  nextIterRoots : f'.nextIterRoots = f.nextIterRoots
  invValues : f'.invValues = f.invValues
  deadExits : f'.deadExits = f.deadExits

theorem SameCounters.refl (f : FrameState τ) : SameCounters f f :=
  ⟨.refl f, rfl, rfl, rfl, rfl, rfl, rfl⟩

theorem SameCounters.trans {f₁ f₂ f₃ : FrameState τ} (h₁ : SameCounters f₁ f₂)
    (h₂ : SameCounters f₂ f₃) : SameCounters f₁ f₃ :=
  ⟨h₁.toSameFrame.trans h₂.toSameFrame, h₂.iterationCount.trans h₁.iterationCount,
    h₂.numPendingInputs.trans h₁.numPendingInputs, h₂.numOutstanding.trans h₁.numOutstanding,
    h₂.nextIterRoots.trans h₁.nextIterRoots, h₂.invValues.trans h₁.invValues,
    h₂.deadExits.trans h₁.deadExits⟩

theorem SameCounters.zeroOk (h : SameCounters f f') : ZeroOk f' ↔ ZeroOk f := by
  rw [ZeroOk, ZeroOk, h.numOutstanding, h.iterationCount, h.numPendingInputs]

theorem sameCounters_setIteration (f : FrameState τ) (i : ℕ) (x : Option (IterationState τ)) :
    SameCounters f (f.setIteration i x) :=
  ⟨⟨rfl, rfl, rfl, rfl⟩, rfl, rfl, rfl, rfl, rfl, rfl⟩

/-! ### Activation -/

/-- What activating edges does to an iteration, apart from counts and inputs. -/
structure Activates (it it' : IterationState τ) (n : ℕ) : Prop where
  iter : it'.iter = it.iter
  ops : it'.outstandingOps = it.outstandingOps + n
  frames : it'.outstandingFrameCount = it.outstandingFrameCount

theorem activates_pushReady (dst : NodeId) (dead ready : Bool) {it₀ it : IterationState τ}
    {r : List (NodeId × Bool)} (h : Activates it₀ it r.length) :
    Activates it₀ (pushReady dst dead ready (it, r)).1
      (pushReady dst dead ready (it, r)).2.length := by
  obtain ⟨hiter, hops, hframes⟩ := h
  cases ready with
  | false => exact ⟨hiter, hops, hframes⟩
  | true =>
    refine ⟨hiter, ?_, hframes⟩
    simp only [pushReady, if_true, length_append, length_singleton, hops]
    push_cast
    omega

theorem activates_activateNode (v : NodeId) (isDead : Bool) (outputs : List (Entry τ))
    (it : IterationState τ) :
    Activates it (activateNode g v isDead outputs it).1
      (activateNode g v isDead outputs it).2.length := by
  have hfold : ∀ (es : List Edge) (x : IterationState τ × List (NodeId × Bool)),
      Activates it x.1 x.2.length →
        Activates it (es.foldl (activateEdge g (g.node v).isEnter isDead outputs) x).1
          (es.foldl (activateEdge g (g.node v).isEnter isDead outputs) x).2.length := by
    intro es
    induction es with
    | nil => exact fun x hx ↦ hx
    | cons e es ih =>
      rintro ⟨it', r⟩ hx
      exact ih _ (activates_pushReady _ _ _ ⟨hx.iter, hx.ops, hx.frames⟩)
  exact hfold _ _ ⟨rfl, by simp, rfl⟩

theorem activates_propagateDeadExits (exits : List NodeId) (it : IterationState τ) :
    Activates it (propagateDeadExits g exits it).1 (propagateDeadExits g exits it).2.length := by
  have hedges : ∀ (es : List Edge) (x : IterationState τ × List (NodeId × Bool)),
      Activates it x.1 x.2.length →
        Activates it (es.foldl (deadExitEdge g) x).1 (es.foldl (deadExitEdge g) x).2.length := by
    intro es
    induction es with
    | nil => exact fun x hx ↦ hx
    | cons e es ih =>
      rintro ⟨it', r⟩ hx
      exact ih _ (activates_pushReady _ _ _ ⟨hx.iter, hx.ops, hx.frames⟩)
  have hexits : ∀ (vs : List NodeId) (x : IterationState τ × List (NodeId × Bool)),
      Activates it x.1 x.2.length →
        Activates it (vs.foldl (fun x v ↦ (g.outEdges v).foldl (deadExitEdge g) x) x).1
          (vs.foldl (fun x v ↦ (g.outEdges v).foldl (deadExitEdge g) x) x).2.length := by
    intro vs
    induction vs with
    | nil => exact fun x hx ↦ hx
    | cons v vs ih => exact fun x hx ↦ ih _ (hedges _ x hx)
  exact hexits _ _ ⟨rfl, by simp, rfl⟩

theorem mem_tag {ready : List (NodeId × Bool)} {t : TaggedNode} (ht : t ∈ tag fid iter ready) :
    t.inputFrame = fid ∧ t.inputIter = iter := by
  obtain ⟨⟨v, dead⟩, -, rfl⟩ := mem_map.1 ht
  exact ⟨rfl, rfl⟩

theorem length_tag (ready : List (NodeId × Bool)) : (tag fid iter ready).length = ready.length :=
  length_map _

theorem post_deref {α : Type} {x : Option α} {Q : α → Prop} (h : ∀ a, x = some a → Q a) :
    Post (deref x) Q (· = .nullDeref) := by
  cases x with
  | none => exact post_error.2 rfl
  | some a => exact post_ok.2 (h a rfl)

/-- What an operation that activates nodes returns. -/
structure Result (fid : FrameId) (T : List TaggedNode) (kids : List ℕ) (f : FrameState τ)
    (x : FrameState τ × List TaggedNode) : Prop where
  ok : FrameOk fid (x.2 ++ T) kids x.1
  same : SameFrame f x.1
  tags : ∀ t ∈ x.2, t.inputFrame = fid

theorem FrameOk.activateNode (h : FrameOk fid T kids f) (v : NodeId) (isDead : Bool)
    (outputs : List (Entry τ)) (hzero : 1 ≤ f.maxParallelIterations → iter = 0 → ZeroOk f) :
    Post (f.activateNode g fid v isDead iter outputs)
      (fun x ↦ Result fid T kids f x ∧ SameCounters f x.1) (· = .nullDeref) := by
  refine (post_deref (Q := fun it ↦ f.getIteration iter = some it) fun it hit ↦ hit).bind
    fun it hit ↦ post_ok.2 ?_
  have hact := activates_activateNode (g := g) v isDead outputs it
  have hsame := sameCounters_setIteration f iter
    (some (Executor.activateNode g v isDead outputs it).1)
  refine ⟨⟨fun hgood ↦ ?_, hsame.toSameFrame, fun t ht ↦ (mem_tag ht).1⟩, hsame⟩
  obtain ⟨lo, hinv⟩ := h hgood
  refine ⟨lo, hinv.activate hit hact.iter ?_ hact.frames (fun t ht ↦ mem_tag ht) (hzero hgood)⟩
  rw [length_tag]
  exact hact.ops

/-- Two operations in a row. -/
theorem Result.append {x : FrameState τ × List TaggedNode} {f' : FrameState τ}
    {ready : List TaggedNode} (h₁ : Result fid T kids f (f', ready))
    (h₂ : Result fid (ready ++ T) kids f' x) : Result fid T kids f (x.1, ready ++ x.2) := by
  refine ⟨h₂.ok.mono ?_, h₁.same.trans h₂.same, fun t ht ↦ ?_⟩
  · rw [append_assoc]
    exact (perm_append_comm_assoc ready x.2 T).subperm
  · rcases mem_append.1 ht with ht | ht
    · exact h₁.tags t ht
    · exact h₂.tags t ht

section

variable (h : FrameOk fid T kids f)
include h

theorem FrameOk.activateEach (values : List (NodeId × Entry τ))
    (hzero : 1 ≤ f.maxParallelIterations → iter = 0 → ZeroOk f) :
    Post (f.activateEach g fid iter values)
      (fun x ↦ Result fid T kids f x ∧ SameCounters f x.1) (· = .nullDeref) := by
  induction values generalizing f T with
  | nil => exact post_ok.2 ⟨⟨h, .refl f, by simp⟩, .refl f⟩
  | cons value rest ih =>
    obtain ⟨v, entry⟩ := value
    refine (h.activateNode v entry.isNone [entry] hzero).bind ?_
    rintro ⟨f₁, ready⟩ ⟨hres₁, hsame₁⟩
    refine (ih hres₁.ok fun hgood hi ↦ ?_).bind ?_
    · exact hsame₁.zeroOk.2 (hzero (hsame₁.max ▸ hgood) hi)
    · rintro ⟨f₂, ready'⟩ ⟨hres₂, hsame₂⟩
      exact post_ok.2 ⟨hres₁.append hres₂, hsame₁.trans hsame₂⟩

theorem FrameOk.activateIterations (v : NodeId) (entry : Entry τ) (iters : List ℕ)
    (hiters : ∀ i ∈ iters, i ≠ 0) : Post (f.activateIterations g fid v entry iters)
      (fun x ↦ Result fid T kids f x ∧ SameCounters f x.1) (· = .nullDeref) := by
  induction iters generalizing f T with
  | nil => exact post_ok.2 ⟨⟨h, .refl f, by simp⟩, .refl f⟩
  | cons i rest ih =>
    refine (h.activateNode v entry.isNone [entry] fun _ hi ↦
      absurd hi (hiters i mem_cons_self)).bind ?_
    rintro ⟨f₁, ready⟩ ⟨hres₁, hsame₁⟩
    refine (ih hres₁.ok fun j hj ↦ hiters j (mem_cons_of_mem _ hj)).bind ?_
    rintro ⟨f₂, ready'⟩ ⟨hres₂, hsame₂⟩
    exact post_ok.2 ⟨hres₁.append hres₂, hsame₁.trans hsame₂⟩

/-- Fields that the invariant does not read. -/
theorem FrameOk.of_eq (hiter : f'.iterations = f.iterations) (hsame : SameFrame f f')
    (hcount : f'.iterationCount = f.iterationCount)
    (hout : f'.numOutstandingIterations = f.numOutstandingIterations)
    (hpend : f'.numPendingInputs ≤ f.numPendingInputs) : FrameOk fid T kids f' := fun hgood ↦
  (h (hsame.max ▸ hgood)).imp fun _ hinv ↦ hinv.of_eq hiter hsame.size hcount hout hsame.max hpend

/-- `AddLoopInv`. -/
theorem FrameOk.addLoopInv (v : NodeId) (entry : Entry τ) : Post (f.addLoopInv g fid v entry)
      (fun x ↦ Result fid T kids f x ∧ x.1.iterationCount = f.iterationCount ∧
        x.1.numOutstandingIterations = f.numOutstandingIterations ∧
        x.1.numPendingInputs = f.numPendingInputs ∧ x.1.nextIterRoots = f.nextIterRoots)
      (· = .nullDeref) := by
  have h' : FrameOk fid T kids { f with invValues := f.invValues ++ [(v, entry)] } :=
    h.of_eq rfl ⟨rfl, rfl, rfl, rfl⟩ rfl rfl le_rfl
  refine (h'.activateIterations v entry _ fun i hi ↦ ?_).mono ?_ fun e he ↦ he
  · have := (mem_range'_1.1 hi).1
    omega
  · rintro x ⟨hres, hsame⟩
    have hfields : SameFrame f { f with invValues := f.invValues ++ [(v, entry)] } :=
      ⟨rfl, rfl, rfl, rfl⟩
    exact ⟨⟨hres.ok, hfields.trans hres.same, hres.tags⟩, hsame.iterationCount,
      hsame.numOutstanding, hsame.numPendingInputs, hsame.nextIterRoots⟩

theorem FrameOk.enterLoopInv (isConstant : Bool) (v : NodeId) (entry : Entry τ) :
    Post (f.enterLoopInv g fid isConstant v entry)
      (fun x ↦ Result fid T kids f x ∧ x.1.iterationCount = f.iterationCount ∧
        x.1.numOutstandingIterations = f.numOutstandingIterations ∧
        x.1.numPendingInputs = f.numPendingInputs ∧ x.1.nextIterRoots = f.nextIterRoots)
      (· = .nullDeref) := by
  cases isConstant with
  | true => exact h.addLoopInv v entry
  | false => exact post_ok.2 ⟨⟨h, .refl f, by simp⟩, rfl, rfl, rfl, rfl⟩

/-- `IncrementIteration`, in a frame that may have one more iteration. -/
theorem FrameOk.incrementIteration
    (hlt : 1 ≤ f.maxParallelIterations → f.numOutstandingIterations < f.maxParallelIterations) :
    Post (f.incrementIteration g fid)
      (fun x ↦ Result fid T kids f x ∧ x.1.iterationCount = f.iterationCount + 1 ∧
        x.1.nextIterRoots = [] ∧ x.1.numPendingInputs = f.numPendingInputs)
      (· = .nullDeref) := by
  have h₀ : FrameOk fid T kids (f.newIteration g) := fun hgood ↦
    (h hgood).imp fun _ hinv ↦ hinv.newIteration (hlt hgood)
  have hnonzero : ∀ {P : Prop}, 1 ≤ (f.newIteration g).maxParallelIterations →
      f.iterationCount + 1 = 0 → P := fun _ hi ↦ absurd hi (Nat.succ_ne_zero _)
  have hfields : SameFrame f (f.newIteration g) := ⟨rfl, rfl, rfl, rfl⟩
  refine Post.bind (Q := fun x ↦ Result fid T kids f x ∧
    x.1.iterationCount = f.iterationCount + 1 ∧ x.1.nextIterRoots = [] ∧
    x.1.numPendingInputs = f.numPendingInputs) ?_ ?_
  · refine (h₀.activateEach _ hnonzero).bind ?_
    rintro ⟨f₁, ready⟩ ⟨hres, hsame⟩
    refine post_ok.2 ⟨⟨hres.ok.of_eq rfl ⟨rfl, rfl, rfl, rfl⟩ rfl rfl le_rfl, ?_, hres.tags⟩,
      hsame.iterationCount, rfl, hsame.numPendingInputs⟩
    exact (hfields.trans hres.same).trans ⟨rfl, rfl, rfl, rfl⟩
  · rintro ⟨f₁, ready⟩ ⟨hres₁, hcount₁, hroots₁, hpend₁⟩
    refine (hres₁.ok.activateEach f₁.invValues fun _ hi ↦
      absurd hi (Nat.succ_ne_zero _)).bind ?_
    rintro ⟨f₂, ready'⟩ ⟨hres₂, hsame₂⟩
    exact post_ok.2 ⟨hres₁.append hres₂, hsame₂.iterationCount.trans hcount₁,
      hsame₂.nextIterRoots.trans hroots₁, hsame₂.numPendingInputs.trans hpend₁⟩

end

/-! ### Clean-up -/

/-- While iterations are deferred, as many as possible are outstanding. -/
def Deferred (f : FrameState τ) : Prop :=
  1 ≤ f.maxParallelIterations → f.nextIterRoots ≠ [] →
    f.numOutstandingIterations = f.maxParallelIterations

/-- What `IsIterationDone` tests. -/
theorem post_isIterationDone (f : FrameState τ) (iter : ℕ) :
    Post (f.isIterationDone iter)
      (fun done ↦ done = true → ∃ it, f.getIteration iter = some it ∧ it.outstandingOps = 0 ∧
        it.outstandingFrameCount = 0 ∧ (iter = 0 → f.numPendingInputs = 0) ∧
        (iter ≠ 0 → f.getIteration (iter - 1) = none))
      (· = .nullDeref) := by
  refine (post_deref (Q := fun it ↦ f.getIteration iter = some it) fun it hit ↦ hit).bind
    fun it hit ↦ ?_
  split
  · rename_i hidle
    split
    · rename_i hi
      refine post_ok.2 fun hdone ↦ ⟨it, hit, hidle.1, hidle.2, fun _ ↦ of_decide_eq_true hdone,
        fun hne ↦ absurd hi hne⟩
    · rename_i hi
      exact post_ok.2 fun hdone ↦ ⟨it, hit, hidle.1, hidle.2, fun h ↦ absurd h hi, fun _ ↦
        Option.isNone_iff_eq_none.1 hdone⟩
  · exact post_ok.2 nofun

/-- The loop of `CleanupFramesIterations`. It goes through the iterations from `iter` to the last
one, and at most one that it starts itself. -/
theorem FrameOk.cleanupIterations (h : FrameOk fid T kids f) (hdef : Deferred f) {fuel : ℕ}
    (hfuel : f.iterationCount + 1 - iter + (if f.nextIterRoots.isEmpty then 0 else 1) < fuel)
    (hzero : 1 ≤ f.maxParallelIterations → iter = 0 → ZeroOk f) :
    Post (f.cleanupIterations g fid fuel iter)
      (fun x ↦ Result fid T kids f x ∧ Deferred x.1 ∧ x.1.numPendingInputs = f.numPendingInputs)
      (· = .nullDeref) := by
  induction fuel generalizing f T iter with
  | zero => omega
  | succ fuel ih =>
    have hrefl : Post (.ok (f, []) : Except Fault (FrameState τ × List TaggedNode))
        (fun x ↦ Result fid T kids f x ∧ Deferred x.1 ∧ x.1.numPendingInputs = f.numPendingInputs)
        (· = .nullDeref) := post_ok.2 ⟨⟨h, .refl f, by simp⟩, hdef, rfl⟩
    rw [FrameState.cleanupIterations]
    split
    case isFalse => exact hrefl
    rename_i hle
    refine (post_isIterationDone f iter).bind fun done hdone ↦ ?_
    cases done with
    | false => exact hrefl
    | true =>
      obtain ⟨it, hit, hops, hframes, hfirst, hprev⟩ := hdone rfl
      have hdel : FrameOk fid T kids (f.deleteIteration iter) := fun hgood ↦ by
        obtain ⟨lo, hinv⟩ := h hgood
        exact ⟨lo + 1, hinv.deleteIteration hle hit hops hframes hfirst hprev (hzero hgood)⟩
      have hlt : 1 ≤ f.maxParallelIterations →
          f.numOutstandingIterations - 1 < f.maxParallelIterations := fun hgood ↦ by
        obtain ⟨lo, hinv⟩ := h hgood
        have := hinv.outstanding_le
        omega
      have hfields : SameFrame f (f.deleteIteration iter) := ⟨rfl, rfl, rfl, rfl⟩
      by_cases hroots : f.nextIterRoots.isEmpty = true
      · have hroots' : (f.deleteIteration iter).nextIterRoots.isEmpty = true := hroots
        simp only [if_true, hroots', ok_bind]
        rw [if_pos hroots] at hfuel
        refine (ih hdel (fun _ hne ↦ absurd (isEmpty_iff.1 hroots) hne) ?_ fun _ hi ↦
          absurd hi (Nat.succ_ne_zero _)).bind ?_
        · show f.iterationCount + 1 - (iter + 1) +
            (if f.nextIterRoots.isEmpty then 0 else 1) < fuel
          rw [if_pos hroots]
          omega
        · rintro ⟨f₂, ready'⟩ ⟨hres₂, hdef₂, hpend₂⟩
          exact post_ok.2 ⟨⟨hres₂.ok, hfields.trans hres₂.same, hres₂.tags⟩, hdef₂, hpend₂⟩
      · have hroots' : ¬ (f.deleteIteration iter).nextIterRoots.isEmpty = true := hroots
        simp only [if_true, if_neg hroots']
        rw [if_neg hroots] at hfuel
        refine (hdel.incrementIteration hlt).bind ?_
        rintro ⟨f₁, ready⟩ ⟨hres₁, hcount₁, hroots₁, hpend₁⟩
        simp only at hcount₁ hroots₁ hpend₁
        refine (ih hres₁.ok (fun _ hne ↦ absurd hroots₁ hne) ?_ fun _ hi ↦
          absurd hi (Nat.succ_ne_zero _)).bind ?_
        · rw [hcount₁, hroots₁]
          show f.iterationCount + 1 + 1 - (iter + 1) + 0 < fuel
          omega
        · rintro ⟨f₂, ready'⟩ ⟨hres₂, hdef₂, hpend₂⟩
          have hres := hres₁.append hres₂
          exact post_ok.2 ⟨⟨hres.ok, hfields.trans hres.same, hres.tags⟩, hdef₂,
            hpend₂.trans hpend₁⟩

end TensorFlowCore.Executor
