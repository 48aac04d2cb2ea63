import Mathlib.Data.List.Perm.Subperm
import TensorFlowCore.CommonRuntime.Executor.Model
import TensorFlowCore.Support.ExceptPost
import TensorFlowCore.Support.RingBuffer

/-!
# The iterations of a frame

The live iterations of a frame are a window of the circular buffer `iterations`. `FrameInv` says so,
and it says what keeps an iteration alive: the nodes outstanding in it and its child frames. It is
about one frame; `T` is the list of all outstanding nodes and `kids` lists the parent iterations of
the frame's children.

Nodes and children are assigned to iterations through the slot they are looked up in. An Enter that
arrives after the frame has got all its inputs enters iteration 0 although this may have been
deleted, and then finds another iteration in the slot; `zero` says that this can only be in a frame
that will never be done, and so the window survives that as well.

`Evolves` describes the operations on a frame by what they do to the invariant.
-/

namespace TensorFlowCore.Executor

open ExceptPost Function List RingBuffer

variable {τ : Type} {g : Graph} {fid : FrameId} {f f' : FrameState τ} {T R : List TaggedNode}
  {kids : List ℕ} {lo iter : ℕ}

/-- An outstanding node of the frame that is looked up in slot `k` of `size`. -/
def inSlot (fid : FrameId) (size k : ℕ) (t : TaggedNode) : Bool :=
  t.inputFrame = fid ∧ t.inputIter % size = k

/-- Iteration 0 has not been deleted, or the frame will never be done. -/
def ZeroOk (f : FrameState τ) : Prop :=
  f.numOutstandingIterations = f.iterationCount + 1 ∨ f.numPendingInputs < 0

/-- The iterations from `lo` on are live. -/
structure FrameInv (fid : FrameId) (T : List TaggedNode) (kids : List ℕ) (f : FrameState τ)
    (lo : ℕ) : Prop where
  window : Window IterationState.iter f.bufferSize f.iterations lo (f.iterationCount + 1)
  outstanding : f.numOutstandingIterations + lo = f.iterationCount + 1
  outstanding_le : f.numOutstandingIterations ≤ f.maxParallelIterations
  size_le : f.maxParallelIterations ≤ f.bufferSize
  pending : 0 < f.numPendingInputs → lo = 0
  ops_le : ∀ k it, f.iterations k = some it →
    (T.countP (inSlot fid f.bufferSize k) : ℤ) ≤ it.outstandingOps
  kids_eq : ∀ k it, f.iterations k = some it →
    it.outstandingFrameCount = kids.countP fun i ↦ i % f.bufferSize = k
  live : ∀ t ∈ T, t.inputFrame = fid → (f.getIteration t.inputIter).isSome
  live_kids : ∀ i ∈ kids, (f.getIteration i).isSome
  zero : (∃ t ∈ T, t.inputFrame = fid ∧ t.inputIter = 0) ∨ 0 ∈ kids → ZeroOk f

theorem inSlot_self {t : TaggedNode} (ht : t.inputFrame = fid) (size : ℕ) :
    inSlot fid size (t.inputIter % size) t = true := by simp [inSlot, ht]

namespace FrameInv

section

variable (h : FrameInv fid T kids f lo)
include h

theorem zeroOk_iff : ZeroOk f ↔ lo = 0 ∨ f.numPendingInputs < 0 := by
  have := h.outstanding
  rw [ZeroOk]
  omega

/-- Nodes that are no longer outstanding do not matter. -/
theorem mono (hR : R.Subperm T) : FrameInv fid R kids f lo where
  __ := h
  ops_le k it hit := by
    have := h.ops_le k it hit
    have := hR.countP_le (inSlot fid f.bufferSize k)
    omega
  live t ht := h.live t (hR.subset ht)
  zero := by
    rintro (⟨t, ht, hzero⟩ | hkids)
    · exact h.zero (Or.inl ⟨t, hR.subset ht, hzero⟩)
    · exact h.zero (Or.inr hkids)

/-- The order of the children does not matter. -/
theorem perm_kids {kids' : List ℕ} (hperm : kids.Perm kids') : FrameInv fid T kids' f lo where
  __ := h
  kids_eq k it hit := by rw [h.kids_eq k it hit, hperm.countP_eq]
  live_kids i hi := h.live_kids i (hperm.mem_iff.2 hi)
  zero hzero := h.zero (hzero.imp_right hperm.mem_iff.2)

/-- Nodes of other frames do not matter. -/
theorem append_other (hR : ∀ t ∈ R, t.inputFrame ≠ fid) : FrameInv fid (R ++ T) kids f lo where
  __ := h
  ops_le k it hit := by
    have hnone : R.countP (inSlot fid f.bufferSize k) = 0 :=
      countP_eq_zero.2 fun t ht ↦ by simp [inSlot, hR t ht]
    rw [countP_append, hnone, Nat.zero_add]
    exact h.ops_le k it hit
  live t ht hfid := by
    rcases mem_append.1 ht with ht | ht
    · exact absurd hfid (hR t ht)
    · exact h.live t ht hfid
  zero := by
    rintro (⟨t, ht, hfid, hzero⟩ | hkids)
    · rcases mem_append.1 ht with ht | ht
      · exact absurd hfid (hR t ht)
      · exact h.zero (Or.inl ⟨t, ht, hfid, hzero⟩)
    · exact h.zero (Or.inr hkids)

/-- The iteration that is found in the slot of `i`. -/
theorem exists_iter {i : ℕ} {it : IterationState τ} (hit : f.getIteration i = some it) :
    lo ≤ it.iter ∧ it.iter < f.iterationCount + 1 ∧ it.iter % f.bufferSize = i % f.bufferSize :=
  h.window.own _ it hit

/-- A change of the state of one iteration, and of what is outstanding in it. -/
theorem edit {i : ℕ} {it it' : IterationState τ} {T' : List TaggedNode} {kids' : List ℕ}
    (hit : f.getIteration i = some it) (hiter : it'.iter = it.iter) (hT : ∀ k ≠ i % f.bufferSize,
      T'.countP (inSlot fid f.bufferSize k) ≤ T.countP (inSlot fid f.bufferSize k))
    (hops : (T'.countP (inSlot fid f.bufferSize (i % f.bufferSize)) : ℤ) ≤ it'.outstandingOps)
    (hkids : ∀ k ≠ i % f.bufferSize, (kids'.countP fun j ↦ j % f.bufferSize = k) =
      kids.countP fun j ↦ j % f.bufferSize = k) (hframes : it'.outstandingFrameCount =
      kids'.countP fun j ↦ j % f.bufferSize = i % f.bufferSize)
    (hlive : ∀ t ∈ T', t.inputFrame = fid → t ∈ T ∨ t.inputIter = i)
    (hliveKids : ∀ j ∈ kids', j ∈ kids ∨ j = i)
    (hzero : (∃ t ∈ T', t.inputFrame = fid ∧ t.inputIter = 0) ∨ 0 ∈ kids' → ZeroOk f) :
    FrameInv fid T' kids' (f.setIteration i (some it')) lo := by
  obtain ⟨hlo, hhi, hmod⟩ := h.exists_iter hit
  have hwin : Window IterationState.iter f.bufferSize
      (update f.iterations (i % f.bufferSize) (some it')) lo (f.iterationCount + 1) := by
    rw [← hmod]
    exact h.window.modify hlo hhi hiter
  have hsome : ∀ j, (f.getIteration j).isSome →
      ((f.setIteration i (some it')).getIteration j).isSome := by
    intro j hj
    by_cases hji : j % f.bufferSize = i % f.bufferSize
    · simp [FrameState.getIteration, FrameState.setIteration, hji]
    · simpa [FrameState.getIteration, FrameState.setIteration, hji] using hj
  have hsomei : (f.getIteration i).isSome := by rw [hit, Option.isSome_some]
  refine ⟨hwin, h.outstanding, h.outstanding_le, h.size_le, h.pending, fun k x hx ↦ ?_,
    fun k x hx ↦ ?_, fun t ht hfid ↦ hsome _ ?_, fun j hj ↦ hsome j ?_, hzero⟩
  · change update f.iterations (i % f.bufferSize) (some it') k = some x at hx
    change (T'.countP (inSlot fid f.bufferSize k) : ℤ) ≤ _
    by_cases hk : k = i % f.bufferSize
    · subst hk
      rw [update_self] at hx
      rwa [← Option.some.inj hx]
    · rw [update_of_ne hk] at hx
      have := h.ops_le k x hx
      have := hT k hk
      omega
  · change update f.iterations (i % f.bufferSize) (some it') k = some x at hx
    change _ = ((kids'.countP fun j ↦ j % f.bufferSize = k : ℕ) : ℤ)
    by_cases hk : k = i % f.bufferSize
    · subst hk
      rw [update_self] at hx
      rwa [← Option.some.inj hx]
    · rw [update_of_ne hk] at hx
      rw [hkids k hk]
      exact h.kids_eq k x hx
  · rcases hlive t ht hfid with ht | hti
    · exact h.live t ht hfid
    · rwa [hti]
  · rcases hliveKids j hj with hj | rfl
    · exact h.live_kids j hj
    · exact hsomei

/-- Nodes become ready in an iteration. -/
theorem activate {i : ℕ} {it it' : IterationState τ} (hit : f.getIteration i = some it)
    (hiter : it'.iter = it.iter) (hops : it'.outstandingOps = it.outstandingOps + R.length)
    (hframes : it'.outstandingFrameCount = it.outstandingFrameCount)
    (hR : ∀ t ∈ R, t.inputFrame = fid ∧ t.inputIter = i) (hzero : i = 0 → ZeroOk f) :
    FrameInv fid (R ++ T) kids (f.setIteration i (some it')) lo := by
  refine h.edit hit hiter (fun k hk ↦ ?_) ?_ (fun _ _ ↦ rfl) ?_ (fun t ht _ ↦ ?_)
    (fun j hj ↦ Or.inl hj) ?_
  · have hnone : R.countP (inSlot fid f.bufferSize k) = 0 :=
      countP_eq_zero.2 fun t ht ↦ by simp [inSlot, hR t ht, Ne.symm hk]
    rw [countP_append, hnone, Nat.zero_add]
  · have hle := h.ops_le _ it hit
    have hlen : R.countP (inSlot fid f.bufferSize (i % f.bufferSize)) ≤ R.length :=
      countP_le_length
    rw [countP_append, hops]
    omega
  · rw [hframes]
    exact h.kids_eq _ it hit
  · rcases mem_append.1 ht with ht | ht
    · exact Or.inr (hR t ht).2
    · exact Or.inl ht
  · rintro (⟨t, ht, hfid, hiter⟩ | hkids)
    · rcases mem_append.1 ht with ht | ht
      · exact hzero ((hR t ht).2.symm.trans hiter)
      · exact h.zero (Or.inl ⟨t, ht, hfid, hiter⟩)
    · exact h.zero (Or.inr hkids)

end

/-- A node is done. -/
theorem finish {t : TaggedNode} {it it' : IterationState τ} (h : FrameInv fid (t :: T) kids f lo)
    (hfid : t.inputFrame = fid) (hit : f.getIteration t.inputIter = some it)
    (hiter : it'.iter = it.iter) (hops : it'.outstandingOps = it.outstandingOps - 1)
    (hframes : it'.outstandingFrameCount = it.outstandingFrameCount) :
    FrameInv fid T kids (f.setIteration t.inputIter (some it')) lo := by
  refine h.edit hit hiter (fun k _ ↦ ?_) ?_ (fun _ _ ↦ rfl) ?_
    (fun u hu _ ↦ Or.inl (mem_cons_of_mem _ hu)) (fun j hj ↦ Or.inl hj) fun hz ↦ h.zero ?_
  · exact (sublist_cons_self t T).countP_le
  · have hle := h.ops_le _ it hit
    rw [countP_cons_of_pos (inSlot_self hfid _)] at hle
    rw [hops]
    omega
  · rw [hframes]
    exact h.kids_eq _ it hit
  · refine hz.imp_left ?_
    rintro ⟨u, hu, hzero⟩
    exact ⟨u, mem_cons_of_mem _ hu, hzero⟩

/-- A child frame is created. -/
theorem addKid {i : ℕ} {it : IterationState τ} (h : FrameInv fid T kids f lo)
    (hit : f.getIteration i = some it) (it' : IterationState τ) (hiter : it'.iter = it.iter)
    (hops : it'.outstandingOps = it.outstandingOps)
    (hframes : it'.outstandingFrameCount = it.outstandingFrameCount + 1)
    (hzero : i = 0 → ZeroOk f) : FrameInv fid T (i :: kids) (f.setIteration i (some it')) lo := by
  refine h.edit hit hiter (fun _ _ ↦ le_rfl) (hops ▸ h.ops_le _ it hit) (fun k hk ↦ ?_) ?_
    (fun t ht _ ↦ Or.inl ht) (fun j hj ↦ (mem_cons.1 hj).symm) ?_
  · rw [countP_cons_of_neg (by simpa using Ne.symm hk)]
  · rw [hframes, h.kids_eq _ it hit, countP_cons_of_pos (by simp)]
    rfl
  · rintro (ht | hkids)
    · exact h.zero (Or.inl ht)
    · rcases mem_cons.1 hkids with hi | hkids
      · exact hzero hi.symm
      · exact h.zero (Or.inr hkids)

/-- A child frame is deleted. -/
theorem removeKid {i : ℕ} {it : IterationState τ} (h : FrameInv fid T (i :: kids) f lo)
    (hit : f.getIteration i = some it) (it' : IterationState τ) (hiter : it'.iter = it.iter)
    (hops : it'.outstandingOps = it.outstandingOps)
    (hframes : it'.outstandingFrameCount = it.outstandingFrameCount - 1) :
    FrameInv fid T kids (f.setIteration i (some it')) lo := by
  refine h.edit hit hiter (fun _ _ ↦ le_rfl) (hops ▸ h.ops_le _ it hit) (fun k hk ↦ ?_) ?_
    (fun t ht _ ↦ Or.inl ht) (fun j hj ↦ Or.inl (mem_cons_of_mem _ hj)) fun hz ↦ h.zero ?_
  · rw [countP_cons_of_neg (by simpa using Ne.symm hk)]
  · have hold := h.kids_eq _ it hit
    rw [countP_cons_of_pos (by simp)] at hold
    rw [hframes, hold]
    omega
  · exact hz.imp_right (mem_cons_of_mem _)

variable (h : FrameInv fid T kids f lo)
include h

/-- Fields that the invariant does not read. -/
theorem of_eq (hiter : f'.iterations = f.iterations) (hsize : f'.bufferSize = f.bufferSize)
    (hcount : f'.iterationCount = f.iterationCount)
    (hout : f'.numOutstandingIterations = f.numOutstandingIterations)
    (hmax : f'.maxParallelIterations = f.maxParallelIterations)
    (hpend : f'.numPendingInputs ≤ f.numPendingInputs) : FrameInv fid T kids f' lo := by
  obtain ⟨h₁, h₂, h₃, h₄, h₅, h₆, h₇, h₈, h₉, h₁₀⟩ := h
  refine ⟨?_, ?_, ?_, ?_, fun hpos ↦ h₅ (by omega), ?_, ?_, ?_, ?_, fun hz ↦ ?_⟩
  · rwa [hiter, hsize, hcount]
  · rwa [hout, hcount]
  · rwa [hout, hmax]
  · rwa [hmax, hsize]
  · rwa [hiter, hsize]
  · rwa [hiter, hsize]
  · simpa only [FrameState.getIteration, hiter, hsize] using h₈
  · simpa only [FrameState.getIteration, hiter, hsize] using h₉
  · have := h₁₀ hz
    rw [ZeroOk] at this ⊢
    omega

/-- `IncrementIteration` starts a new iteration in a free slot. -/
theorem newIteration (hlt : f.numOutstandingIterations < f.maxParallelIterations) :
    FrameInv fid T kids (f.newIteration g) lo := by
  have hout := h.outstanding
  have hsize := h.size_le
  have hroom : f.iterationCount + 1 < lo + f.bufferSize := by omega
  have hfree := h.window.next_eq_none hroom
  have hsome : ∀ j, (f.getIteration j).isSome → ((f.newIteration g).getIteration j).isSome := by
    intro j hj
    have hne : j % f.bufferSize ≠ (f.iterationCount + 1) % f.bufferSize := fun heq ↦ by
      rw [FrameState.getIteration, heq, hfree] at hj
      cases hj
    simpa [FrameState.getIteration, FrameState.newIteration, FrameState.setIteration, hne] using hj
  have hnone : ∀ k, k = (f.iterationCount + 1) % f.bufferSize →
      T.countP (inSlot fid f.bufferSize k) = 0 ∧
        (kids.countP fun i ↦ i % f.bufferSize = k) = 0 := by
    rintro k rfl
    refine ⟨countP_eq_zero.2 fun t ht hslot ↦ ?_, countP_eq_zero.2 fun i hi hslot ↦ ?_⟩
    · obtain ⟨hfid, hmod⟩ : t.inputFrame = fid ∧ _ := by simpa [inSlot] using hslot
      have := h.live t ht hfid
      rw [FrameState.getIteration, hmod, hfree] at this
      cases this
    · have hmod := of_decide_eq_true hslot
      have := h.live_kids i hi
      rw [FrameState.getIteration, hmod, hfree] at this
      cases this
  refine ⟨h.window.push hroom rfl, ?_, ?_, hsize, h.pending, fun k x hx ↦ ?_, fun k x hx ↦ ?_,
    fun t ht hfid ↦ hsome _ (h.live t ht hfid), fun j hj ↦ hsome j (h.live_kids j hj),
    fun hz ↦ ?_⟩
  · simp only [FrameState.newIteration]
    push_cast
    omega
  · simp only [FrameState.newIteration, FrameState.setIteration]
    omega
  · change update f.iterations _ _ k = some x at hx
    change (T.countP (inSlot fid f.bufferSize k) : ℤ) ≤ _
    by_cases hk : k = (f.iterationCount + 1) % f.bufferSize
    · rw [(hnone k hk).1]
      rw [hk, update_self] at hx
      rw [← Option.some.inj hx]
      exact le_rfl
    · rw [update_of_ne hk] at hx
      exact h.ops_le k x hx
  · change update f.iterations _ _ k = some x at hx
    change _ = ((kids.countP fun i ↦ i % f.bufferSize = k : ℕ) : ℤ)
    by_cases hk : k = (f.iterationCount + 1) % f.bufferSize
    · rw [(hnone k hk).2]
      rw [hk, update_self] at hx
      rw [← Option.some.inj hx]
      rfl
    · rw [update_of_ne hk] at hx
      exact h.kids_eq k x hx
  · have := h.zero hz
    rw [ZeroOk] at this ⊢
    simp only [FrameState.newIteration, FrameState.setIteration]
    push_cast
    omega

/-- The iteration that `IsIterationDone` finds to be done is the first one of the window. -/
theorem iter_eq_lo {it : IterationState τ} (hit : f.getIteration iter = some it)
    (hfirst : iter = 0 → f.numPendingInputs = 0)
    (hprev : iter ≠ 0 → f.getIteration (iter - 1) = none) (hzero : iter = 0 → ZeroOk f) :
    it.iter = lo := by
  obtain ⟨hlo, hhi, hmod⟩ := h.exists_iter hit
  have hlen := h.window.length_le
  by_cases hi : iter = 0
  · subst hi
    obtain rfl : lo = 0 := by
      have := h.zeroOk_iff.1 (hzero rfl)
      have := hfirst rfl
      omega
    exact (eq_of_mod_eq (Nat.zero_le _) (by omega) hmod.symm).symm
  · by_contra hne
    obtain ⟨x, hx, -⟩ := h.window.get (it.iter - 1) (by omega) (by omega)
    have hsub : (it.iter - 1) % f.bufferSize = (iter - 1) % f.bufferSize := by
      refine Nat.ModEq.add_right_cancel' 1 ?_
      rw [Nat.sub_add_cancel (by omega), Nat.sub_add_cancel (by omega)]
      exact hmod
    rw [hsub] at hx
    have := hprev hi
    rw [FrameState.getIteration, hx] at this
    cases this

/-- The deletion of an iteration that is done. -/
theorem deleteIteration {it : IterationState τ} (hle : iter ≤ f.iterationCount)
    (hit : f.getIteration iter = some it) (hops : it.outstandingOps = 0)
    (hframes : it.outstandingFrameCount = 0) (hfirst : iter = 0 → f.numPendingInputs = 0)
    (hprev : iter ≠ 0 → f.getIteration (iter - 1) = none) (hzero : iter = 0 → ZeroOk f) :
    FrameInv fid T kids (f.deleteIteration iter) (lo + 1) := by
  have hout := h.outstanding
  have hmax := h.outstanding_le
  have hiter := h.iter_eq_lo hit hfirst hprev hzero
  obtain ⟨-, hhi, hmod⟩ := h.exists_iter hit
  rw [hiter] at hhi hmod
  -- Nothing is outstanding in the slot that is emptied.
  have hnoTag : ∀ t ∈ T, t.inputFrame = fid → t.inputIter % f.bufferSize ≠ lo % f.bufferSize := by
    intro t ht hfid hslot
    have hle := h.ops_le _ it hit
    have hpos : 0 < T.countP (inSlot fid f.bufferSize (iter % f.bufferSize)) :=
      countP_pos_iff.2 ⟨t, ht, by simp [inSlot, hfid, hslot, hmod]⟩
    omega
  have hnoKid : ∀ i ∈ kids, i % f.bufferSize ≠ lo % f.bufferSize := by
    intro i hi hslot
    have heq := h.kids_eq _ it hit
    have hpos : 0 < kids.countP fun j ↦ j % f.bufferSize = iter % f.bufferSize :=
      countP_pos_iff.2 ⟨i, hi, by simp [hslot, hmod]⟩
    omega
  have hget : ∀ k, (f.deleteIteration iter).iterations k =
      update f.iterations (lo % f.bufferSize) none k := by
    intro k
    rw [hmod]
    rfl
  have hsome : ∀ i, i % f.bufferSize ≠ lo % f.bufferSize → (f.getIteration i).isSome →
      ((f.deleteIteration iter).getIteration i).isSome := by
    intro i hne hi
    rw [FrameState.getIteration, hget]
    change (update f.iterations (lo % f.bufferSize) none (i % f.bufferSize)).isSome
    rwa [update_of_ne hne]
  refine ⟨?_, ?_, ?_, h.size_le, fun hpos ↦ ?_, fun k x hx ↦ ?_, fun k x hx ↦ ?_,
    fun t ht hfid ↦ hsome _ (hnoTag t ht hfid) (h.live t ht hfid),
    fun i hi ↦ hsome i (hnoKid i hi) (h.live_kids i hi), fun hz ↦ ?_⟩
  · rw [funext hget]
    exact h.window.pop hhi
  · simp only [FrameState.deleteIteration, FrameState.setIteration]
    push_cast
    omega
  · simp only [FrameState.deleteIteration, FrameState.setIteration]
    omega
  · exfalso
    change 0 < f.numPendingInputs at hpos
    obtain rfl := h.pending hpos
    by_cases hi : iter = 0
    · have := hfirst hi
      omega
    · obtain ⟨x, hx, -⟩ := h.window.get (iter - 1) (Nat.zero_le _) (by omega)
      have := hprev hi
      rw [FrameState.getIteration, hx] at this
      cases this
  · rw [hget] at hx
    by_cases hk : k = lo % f.bufferSize
    · rw [hk, update_self] at hx
      cases hx
    · rw [update_of_ne hk] at hx
      exact h.ops_le k x hx
  · rw [hget] at hx
    by_cases hk : k = lo % f.bufferSize
    · rw [hk, update_self] at hx
      cases hx
    · rw [update_of_ne hk] at hx
      exact h.kids_eq k x hx
  · right
    change f.numPendingInputs < 0
    rcases h.zeroOk_iff.1 (h.zero hz) with rfl | hneg
    · rcases hz with ⟨t, ht, hfid, hti⟩ | hkid
      · exact absurd (by rw [hti]) (hnoTag t ht hfid)
      · exact absurd rfl (hnoKid 0 hkid)
    · exact hneg

end FrameInv

end TensorFlowCore.Executor
