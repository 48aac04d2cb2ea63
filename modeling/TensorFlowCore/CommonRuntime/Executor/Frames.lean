import Mathlib.Data.List.Nodup
import TensorFlowCore.CommonRuntime.Executor.FrameOperations

/-!
# The frames of an executor

The invariant of all frames of an executor (`Inv`): each frame has the invariant of its iterations,
its children are counted in them, and the name of a child is longer than that of its parent. Finding
or creating the output frame and iteration of a node keeps it (`Inv.findOrCreateOutputFrameIter`).
-/

namespace TensorFlowCore.Executor

open ExceptPost List Option RingBuffer

variable {τ : Type} {g : Graph} {s s' : State τ} {fid k : FrameId} {f f' : FrameState τ}
  {T T' R : List TaggedNode} {t : TaggedNode} {iter : ℕ}

/-! ### Children -/

/-- The iteration of the frame `p` that a frame is a child of. -/
def kidOf (p : FrameId) (x : Option (FrameState τ)) : Option ℕ :=
  x.bind fun f ↦ f.parent.bind fun q ↦ if q.1 = p then some q.2 else none

/-- The iterations of the frame `p` that have children, once for each child. -/
def kidsOf (s : State τ) (p : FrameId) : List ℕ :=
  (List.range s.numFrames).filterMap fun k ↦ kidOf p (s.frames k)

theorem kidOf_some {i : ℕ} (hp : f.parent = some (p, i)) : kidOf p (some f) = some i := by
  simp [kidOf, hp]

/-- A frame that exists is a kid of its parent iteration. -/
theorem mem_kidsOf {i : ℕ} (hk : k < s.numFrames) (hf : s.frames k = some f)
    (hp : f.parent = some (p, i)) : i ∈ kidsOf s p :=
  mem_filterMap.2 ⟨k, mem_range.2 hk, by rw [hf, kidOf_some hp]⟩

/-- An update that keeps the parent keeps the kids of every frame. -/
theorem kidsOf_setFrame_congr {x : Option (FrameState τ)} (h : kidOf p x = kidOf p (s.frames fid)) :
    kidsOf (s.setFrame fid x) p = kidsOf s p := by
  refine filterMap_congr fun k _ ↦ ?_
  by_cases hk : k = fid
  · simp [State.setFrame, hk, h]
  · simp [State.setFrame, hk]

theorem kidsOf_setFrame (hf : s.frames fid = some f) (hp : f'.parent = f.parent) (p : FrameId) :
    kidsOf (s.setFrame fid (some f')) p = kidsOf s p := by
  refine kidsOf_setFrame_congr ?_
  simp [hf, kidOf, hp]

/-- The frame `fid` is deleted. -/
theorem kidsOf_delete {i : ℕ} (hlt : fid < s.numFrames) (hf : s.frames fid = some f)
    (hp : f.parent = some (p, i)) : (kidsOf s p).Perm (i :: kidsOf (s.setFrame fid none) p) := by
  obtain ⟨l₁, l₂, hl⟩ := append_of_mem (mem_range.2 hlt)
  have hnodup : (l₁ ++ fid :: l₂).Nodup := hl ▸ nodup_range
  rw [nodup_middle, nodup_cons, mem_append, not_or] at hnodup
  have hcongr : ∀ l : List ℕ, fid ∉ l →
      (l.filterMap fun k ↦ kidOf p ((s.setFrame fid none).frames k)) =
        l.filterMap fun k ↦ kidOf p (s.frames k) := fun l hl ↦
    filterMap_congr fun k hk ↦ by
      have hne : k ≠ fid := fun heq ↦ hl (heq ▸ hk)
      simp [State.setFrame, hne]
  have hnone : kidOf p ((s.setFrame fid none).frames fid) = none := by
    simp [State.setFrame, kidOf]
  have hsome : kidOf p (s.frames fid) = some i := by rw [hf, kidOf_some hp]
  rw [kidsOf, kidsOf, show (s.setFrame fid none).numFrames = s.numFrames from rfl, hl,
    filterMap_append, filterMap_append,
    filterMap_cons_some (f := fun k ↦ kidOf p (s.frames k)) hsome,
    filterMap_cons_none (f := fun k ↦ kidOf p ((s.setFrame fid none).frames k)) hnone,
    hcongr l₁ hnodup.1.1, hcongr l₂ hnodup.1.2]
  exact perm_middle

theorem kidsOf_delete_of_ne {q : FrameId} (hf : s.frames fid = some f)
    (hp : ∀ i, f.parent ≠ some (q, i)) : kidsOf (s.setFrame fid none) q = kidsOf s q := by
  refine kidsOf_setFrame_congr ?_
  rw [hf, kidOf, kidOf, bind_none, bind_some]
  cases hpar : f.parent with
  | none => rfl
  | some x =>
    rw [bind_some, if_neg]
    rintro rfl
    exact hp x.2 hpar

/-! ### The invariant -/

/-- The invariant of the frames, when the nodes of `T` are outstanding. -/
structure Inv (s : State τ) (T : List TaggedNode) : Prop where
  lt : ∀ {k f}, s.frames k = some f → k < s.numFrames
  tags_lt : ∀ t ∈ T, t.inputFrame < s.numFrames
  ok : ∀ {k f}, s.frames k = some f → FrameOk k T (kidsOf s k) f
  deferred : ∀ {k f}, s.frames k = some f → Deferred f
  parent_lt : ∀ {k f p i}, s.frames k = some f → f.parent = some (p, i) → p < k
  size : ∀ {k f}, s.frames k = some f → f.parent ≠ none →
    f.bufferSize = f.maxParallelIterations + 1
  name_lt : ∀ {k f p i fp}, s.frames k = some f → f.parent = some (p, i) → s.frames p = some fp →
    fp.frameName.length < f.frameName.length

theorem setFrame_self (s : State τ) (fid : FrameId) (x : Option (FrameState τ)) :
    (s.setFrame fid x).frames fid = x := Function.update_self ..

theorem setFrame_of_ne (h : k ≠ fid) (x : Option (FrameState τ)) :
    (s.setFrame fid x).frames k = s.frames k := Function.update_of_ne h ..

theorem FrameOk.of_other {kids : List ℕ} (h : FrameOk k T kids f)
    (hR : ∀ t ∈ R, t.inputFrame ≠ k) : FrameOk k (R ++ T) kids f := fun hgood ↦
  (h hgood).imp fun _ hinv ↦ hinv.append_other hR

/-- One frame changes, and with it what is outstanding. -/
theorem Inv.setFrame (h : Inv s T) (hf : s.frames fid = some f) (hsame : SameFrame f f')
    (hok : FrameOk fid T' (kidsOf s fid) f') (hdef : Deferred f')
    (htags : ∀ t ∈ T', t ∈ T ∨ t.inputFrame = fid)
    (hother : ∀ {k kids} {f : FrameState τ}, k ≠ fid → FrameOk k T kids f → FrameOk k T' kids f) :
    Inv (s.setFrame fid (some f')) T' := by
  have hcases : ∀ {k fk}, (s.setFrame fid (some f')).frames k = some fk →
      (k = fid ∧ fk = f') ∨ (k ≠ fid ∧ s.frames k = some fk) := by
    intro k fk hk
    by_cases heq : k = fid
    · rw [heq, setFrame_self] at hk
      exact Or.inl ⟨heq, (some.inj hk).symm⟩
    · rw [setFrame_of_ne heq] at hk
      exact Or.inr ⟨heq, hk⟩
  refine ⟨fun {k fk} hk ↦ ?_, fun t ht ↦ ?_, fun {k fk} hk ↦ ?_, fun {k fk} hk ↦ ?_,
    fun {k fk p i} hk hp ↦ ?_, fun {k fk} hk hp ↦ ?_, fun {k fk p i fp} hk hp hfp ↦ ?_⟩
  · rcases hcases hk with ⟨rfl, -⟩ | ⟨-, hk⟩
    · exact h.lt hf
    · exact h.lt hk
  · rcases htags t ht with ht | rfl
    · exact h.tags_lt t ht
    · exact h.lt hf
  · rw [kidsOf_setFrame hf hsame.parent]
    rcases hcases hk with ⟨rfl, rfl⟩ | ⟨hne, hk⟩
    · exact hok
    · exact hother hne (h.ok hk)
  · rcases hcases hk with ⟨-, rfl⟩ | ⟨-, hk⟩
    · exact hdef
    · exact h.deferred hk
  · rcases hcases hk with ⟨rfl, rfl⟩ | ⟨-, hk⟩
    · exact h.parent_lt hf (hsame.parent ▸ hp)
    · exact h.parent_lt hk hp
  · rcases hcases hk with ⟨-, rfl⟩ | ⟨-, hk⟩
    · rw [hsame.size, hsame.max]
      exact h.size hf (hsame.parent ▸ hp)
    · exact h.size hk hp
  · have hold : ∃ fk₀ fp₀, s.frames k = some fk₀ ∧ fk₀.parent = some (p, i) ∧
        s.frames p = some fp₀ ∧ fk₀.frameName = fk.frameName ∧ fp₀.frameName = fp.frameName := by
      rcases hcases hk with ⟨hkf, rfl⟩ | ⟨-, hk'⟩ <;>
        rcases hcases hfp with ⟨hpf, rfl⟩ | ⟨-, hfp'⟩
      · exact ⟨f, f, hkf ▸ hf, hsame.parent ▸ hp, hpf ▸ hf, hsame.frameName.symm,
          hsame.frameName.symm⟩
      · exact ⟨f, fp, hkf ▸ hf, hsame.parent ▸ hp, hfp', hsame.frameName.symm, rfl⟩
      · exact ⟨fk, f, hk', hp, hpf ▸ hf, rfl, hsame.frameName.symm⟩
      · exact ⟨fk, fp, hk', hp, hfp', rfl, rfl⟩
    obtain ⟨fk₀, fp₀, hk₀, hp₀, hfp₀, hname, hname'⟩ := hold
    rw [← hname, ← hname']
    exact h.name_lt hk₀ hp₀ hfp₀

/-- An operation on one frame that makes nodes ready in it. -/
theorem Inv.setResult (h : Inv s T) (hf : s.frames fid = some f)
    {x : FrameState τ × List TaggedNode} (hx : Result fid T (kidsOf s fid) f x)
    (hdef : Deferred x.1) : Inv (s.setFrame fid (some x.1)) (x.2 ++ T) := by
  refine h.setFrame hf hx.same hx.ok hdef (fun t ht ↦ ?_) fun hne hok ↦ hok.of_other fun t ht heq ↦
    hne (heq.symm.trans (hx.tags t ht))
  rcases mem_append.1 ht with ht | ht
  · exact Or.inr (hx.tags t ht)
  · exact Or.inl ht

theorem Deferred.of_same (h : Deferred f) (hsame : SameCounters f f') : Deferred f' := by
  rw [Deferred, hsame.max, hsame.nextIterRoots, hsame.numOutstanding]
  exact h

/-- Where a node is outstanding in iteration 0, this iteration has not been deleted. -/
theorem Inv.zeroOk (h : Inv s T) (ht : t ∈ T) (hf : s.frames t.inputFrame = some f)
    (hgood : 1 ≤ f.maxParallelIterations) (hzero : t.inputIter = 0) : ZeroOk f := by
  obtain ⟨lo, hinv⟩ := h.ok hf hgood
  exact hinv.zero (Or.inl ⟨t, ht, rfl, hzero⟩)

/-! ### Child frames -/

theorem kidsOf_create (hf : s.frames fid = some f) (hsame : f'.parent = f.parent)
    (child : FrameState τ) (p : FrameId) :
    kidsOf { (s.setFrame fid (some f')).setFrame s.numFrames (some child) with
        numFrames := s.numFrames + 1 } p = kidsOf s p ++ (kidOf p (some child)).toList := by
  have hlast : ((s.setFrame fid (some f')).setFrame s.numFrames (some child)).frames s.numFrames =
      some child := setFrame_self ..
  have hold : ((range s.numFrames).filterMap fun k ↦
      kidOf p (((s.setFrame fid (some f')).setFrame s.numFrames (some child)).frames k)) =
        kidsOf s p := by
    rw [← kidsOf_setFrame hf hsame]
    refine filterMap_congr fun k hk ↦ ?_
    rw [setFrame_of_ne (mem_range.1 hk).ne]
  rw [kidsOf, range_succ, filterMap_append]
  refine congrArg₂ _ hold ?_
  simp only [filterMap_cons, filterMap_nil, hlast]
  cases kidOf p (some child) <;> rfl

/-- A frame just created. -/
theorem frameInv_create {T : List TaggedNode} (hT : ∀ t ∈ T, t.inputFrame ≠ fid)
    (hiter : f.iterations = fun i ↦ if i = 0 then some (.new g 0) else none)
    (hcount : f.iterationCount = 0) (hout : f.numOutstandingIterations = 1)
    (hsize : f.bufferSize = f.maxParallelIterations + 1) (hmax : 1 ≤ f.maxParallelIterations) :
    FrameInv fid T [] f 0 := by
  have hslot : ∀ k it, f.iterations k = some it → k = 0 ∧ it = .new g 0 := by
    intro k it hit
    rw [hiter] at hit
    simp only at hit
    split at hit
    · rename_i hk
      exact ⟨hk, (some.inj hit).symm⟩
    · cases hit
  refine ⟨⟨Nat.zero_le _, by omega, fun i _ hi ↦ ?_, fun k it hit ↦ ?_⟩, by omega, by omega,
    by omega, fun _ ↦ rfl, fun k it hit ↦ ?_, fun k it hit ↦ ?_, fun t ht hfid ↦
      absurd hfid (hT t ht), by simp, ?_⟩
  · obtain rfl : i = 0 := by omega
    exact ⟨.new g 0, by simp [hiter], rfl⟩
  · obtain ⟨rfl, rfl⟩ := hslot k it hit
    refine ⟨Nat.zero_le _, ?_, Nat.zero_mod _⟩
    show 0 < _
    omega
  · obtain ⟨rfl, rfl⟩ := hslot k it hit
    rw [countP_eq_zero.2 fun t ht ↦ by simp [inSlot, hT t ht]]
    exact le_rfl
  · obtain ⟨rfl, rfl⟩ := hslot k it hit
    rfl
  · rintro (⟨t, ht, hfid, -⟩ | hkid)
    · exact absurd hfid (hT t ht)
    · cases hkid

/-- The name of a child is longer than that of its parent. -/
theorem length_makeFrameName (f : FrameState τ) (iter : ℕ) (name : String) :
    f.frameName.length < (State.makeFrameName f iter name).length := by
  simp only [State.makeFrameName, String.length_append]
  have : (";" : String).length = 1 := rfl
  omega

/-- The frame found under a name has this name. -/
theorem findFrame_some {name : String} (h : s.findFrame name = some k) :
    ∃ f, s.frames k = some f ∧ f.frameName = name := by
  have := find?_some h
  obtain ⟨f, hf, hname⟩ := (any_eq_true _ _).1 this
  exact ⟨f, hf, of_decide_eq_true hname⟩

theorem kidOf_none (hp : ∀ i, f.parent ≠ some (p, i)) : kidOf p (some f) = none := by
  rw [kidOf, bind_some]
  cases hpar : f.parent with
  | none => rfl
  | some x =>
    rw [bind_some, if_neg]
    rintro rfl
    exact hp x.2 hpar

theorem kidsOf_eq_nil (h : ∀ k f i, s.frames k = some f → f.parent ≠ some (p, i)) :
    kidsOf s p = [] := by
  refine filterMap_eq_nil_iff.2 fun k _ ↦ ?_
  cases hk : s.frames k with
  | none => rfl
  | some f => exact kidOf_none fun i ↦ h k f i hk

/-- The creation of a child frame in an iteration where a node is outstanding. -/
theorem Inv.create (h : Inv s T) (ht : t ∈ T) (hf : s.frames t.inputFrame = some f)
    {it : IterationState τ} (hit : f.getIteration t.inputIter = some it) {child : FrameState τ}
    (hparent : child.parent = some (t.inputFrame, t.inputIter))
    (hiter : child.iterations = fun i ↦ if i = 0 then some (.new g 0) else none)
    (hcount : child.iterationCount = 0) (hout : child.numOutstandingIterations = 1)
    (hsize : child.bufferSize = child.maxParallelIterations + 1)
    (hname : f.frameName.length < child.frameName.length) (hroots : child.nextIterRoots = []) :
    Inv { (s.setFrame t.inputFrame (some (f.setIteration t.inputIter
        (some { it with outstandingFrameCount := it.outstandingFrameCount + 1 })))).setFrame
          s.numFrames (some child) with numFrames := s.numFrames + 1 } T := by
  set f₁ := f.setIteration t.inputIter
    (some { it with outstandingFrameCount := it.outstandingFrameCount + 1 }) with hf₁
  have hlt := h.lt hf
  have hkids := kidsOf_create hf (show f₁.parent = f.parent from rfl) child
  have hcases : ∀ {k fk},
      ((s.setFrame t.inputFrame (some f₁)).setFrame s.numFrames (some child)).frames k = some fk →
        (k = s.numFrames ∧ fk = child) ∨ (k < s.numFrames ∧
          ((k = t.inputFrame ∧ fk = f₁) ∨ (k ≠ t.inputFrame ∧ s.frames k = some fk))) := by
    intro k fk hk
    by_cases hn : k = s.numFrames
    · rw [hn, setFrame_self] at hk
      exact Or.inl ⟨hn, (some.inj hk).symm⟩
    · rw [setFrame_of_ne hn] at hk
      by_cases hfid : k = t.inputFrame
      · rw [hfid, setFrame_self] at hk
        exact Or.inr ⟨hfid ▸ hlt, Or.inl ⟨hfid, (some.inj hk).symm⟩⟩
      · rw [setFrame_of_ne hfid] at hk
        exact Or.inr ⟨h.lt hk, Or.inr ⟨hfid, hk⟩⟩
  have hold : ∀ {k fk},
      ((s.setFrame t.inputFrame (some f₁)).setFrame s.numFrames (some child)).frames k = some fk →
        k < s.numFrames → ∃ f₀, s.frames k = some f₀ ∧ SameCounters f₀ fk := by
    intro k fk hk hlt
    rcases hcases hk with ⟨rfl, -⟩ | ⟨-, ⟨rfl, rfl⟩ | ⟨-, hk⟩⟩
    · exact absurd hlt (lt_irrefl _)
    · exact ⟨f, hf, sameCounters_setIteration ..⟩
    · exact ⟨fk, hk, .refl fk⟩
  refine ⟨fun {k fk} hk ↦ ?_, fun u hu ↦ (h.tags_lt u hu).trans (Nat.lt_succ_self _),
    fun {k fk} hk ↦ ?_, fun {k fk} hk ↦ ?_, fun {k fk p i} hk hp ↦ ?_, fun {k fk} hk hp ↦ ?_,
    fun {k fk p i fp} hk hp hfp ↦ ?_⟩
  · show k < s.numFrames + 1
    rcases hcases hk with ⟨rfl, -⟩ | ⟨hkn, -⟩
    · exact Nat.lt_succ_self _
    · exact Nat.lt_succ_of_lt hkn
  · rw [hkids]
    rcases hcases hk with ⟨rfl, rfl⟩ | ⟨hkn, ⟨rfl, rfl⟩ | ⟨hne, hk⟩⟩
    · intro hgood
      have hnoKids : kidsOf s s.numFrames = [] := kidsOf_eq_nil fun k f i hk hp ↦
        absurd (h.lt hk) (h.parent_lt hk hp).not_gt
      have hnoKid : kidOf s.numFrames (some fk) = none := kidOf_none fun i hp ↦ by
        rw [hparent] at hp
        exact hlt.ne (Prod.mk.inj (some.inj hp)).1
      rw [hnoKids, hnoKid]
      exact ⟨0, frameInv_create (fun u hu ↦ (h.tags_lt u hu).ne) hiter hcount hout hsize hgood⟩
    · intro hgood
      obtain ⟨lo, hinv⟩ := h.ok hf hgood
      rw [kidOf_some hparent]
      have hkid := hinv.addKid hit
        { it with outstandingFrameCount := it.outstandingFrameCount + 1 } rfl rfl rfl
        (h.zeroOk ht hf hgood)
      exact ⟨lo, hkid.perm_kids (perm_append_singleton _ _).symm⟩
    · have hnoKid : kidOf k (some child) = none := kidOf_none fun i hp ↦ by
        rw [hparent] at hp
        exact hne (Prod.mk.inj (some.inj hp)).1.symm
      rw [hnoKid]
      simpa using h.ok hk
  · rcases hcases hk with ⟨-, rfl⟩ | ⟨hkn, -⟩
    · exact fun _ hne ↦ absurd hroots hne
    · obtain ⟨f₀, hf₀, hsame⟩ := hold hk hkn
      exact (h.deferred hf₀).of_same hsame
  · rcases hcases hk with ⟨rfl, rfl⟩ | ⟨hkn, -⟩
    · rw [hparent] at hp
      exact (Prod.mk.inj (some.inj hp)).1 ▸ hlt
    · obtain ⟨f₀, hf₀, hsame⟩ := hold hk hkn
      exact h.parent_lt hf₀ (hsame.parent ▸ hp)
  · rcases hcases hk with ⟨rfl, rfl⟩ | ⟨hkn, -⟩
    · exact hsize
    · obtain ⟨f₀, hf₀, hsame⟩ := hold hk hkn
      rw [hsame.size, hsame.max]
      exact h.size hf₀ (hsame.parent ▸ hp)
  · have hpn : p < s.numFrames := by
      rcases hcases hk with ⟨rfl, rfl⟩ | ⟨hkn, -⟩
      · rw [hparent] at hp
        exact (Prod.mk.inj (some.inj hp)).1 ▸ hlt
      · obtain ⟨f₀, hf₀, hsame⟩ := hold hk hkn
        exact (h.parent_lt hf₀ (hsame.parent ▸ hp)).trans hkn
    obtain ⟨fp₀, hfp₀, hsamep⟩ := hold hfp hpn
    rw [hsamep.frameName]
    rcases hcases hk with ⟨rfl, rfl⟩ | ⟨hkn, -⟩
    · rw [hparent] at hp
      cases hp
      rw [hf] at hfp₀
      exact some.inj hfp₀ ▸ hname
    · obtain ⟨f₀, hf₀, hsame⟩ := hold hk hkn
      rw [hsame.frameName]
      exact h.name_lt hf₀ (hsame.parent ▸ hp) hfp₀

/-- The child frame that an Enter finds or creates has a longer name than the frame it is in. -/
theorem Inv.findOrCreateChildFrame (h : Inv s T) (ht : t ∈ T) (name : String)
    (parallelIterations : ℕ) :
    Post (s.findOrCreateChildFrame g t.inputFrame t.inputIter name parallelIterations)
      (fun x ↦ Inv x.1 T ∧ ∀ f fo, x.1.frames t.inputFrame = some f → x.1.frames x.2 = some fo →
        f.frameName.length < fo.frameName.length)
      (· = .nullDeref) := by
  refine (post_deref (Q := fun f ↦ s.frames t.inputFrame = some f) fun f hf ↦ hf).bind
    fun f hf ↦ ?_
  have hlen := length_makeFrameName f t.inputIter name
  cases hfind : s.findFrame (State.makeFrameName f t.inputIter name) with
  | some child =>
    simp only [hfind]
    refine post_ok.2 ⟨h, fun f₁ fo hf₁ hfo ↦ ?_⟩
    obtain ⟨fc, hfc, hname⟩ := findFrame_some hfind
    rw [hf] at hf₁
    rw [hfc] at hfo
    rw [← some.inj hf₁, ← some.inj hfo, hname]
    exact hlen
  | none =>
    simp only [hfind]
    refine (post_deref (Q := fun it ↦ f.getIteration t.inputIter = some it) fun it hit ↦ hit).bind
      fun it hit ↦ post_ok.2 ⟨h.create ht hf hit rfl rfl rfl rfl rfl hlen rfl,
      fun f₁ fo hf₁ hfo ↦ ?_⟩
    have hne : t.inputFrame ≠ s.numFrames := (h.lt hf).ne
    simp only [setFrame_of_ne hne, setFrame_self] at hf₁ hfo
    rw [← some.inj hf₁, ← some.inj hfo]
    exact hlen

/-! ### Propagation -/

/-- What the clean-up and the activation in the output frame need. -/
structure OutputOk (g : Graph) (s : State τ) (t : TaggedNode) (output : Option (FrameId × ℕ)) :
    Prop where
  zero : ∀ {o i fo}, output = some (o, i) → s.frames o = some fo →
    1 ≤ fo.maxParallelIterations → i = 0 → ZeroOk fo
  enter : (g.node t.node).isEnter = true → ∀ {o i f fo}, output = some (o, i) →
    s.frames t.inputFrame = some f → s.frames o = some fo →
    f.frameName.length < fo.frameName.length

theorem outputOk_none (g : Graph) (s : State τ) (t : TaggedNode) : OutputOk g s t none :=
  ⟨nofun, nofun⟩

/-- A `NextIteration` starts, joins or defers the next iteration of its own frame. -/
theorem Inv.nextIteration (h : Inv s T) (hkind : (g.node t.node).kind = .nextIteration)
    (outputs : List (Entry τ)) :
    Post (s.findOrCreateOutputFrameIter g t outputs)
      (fun x ↦ Inv x.1 (x.2.2 ++ T) ∧ OutputOk g x.1 t x.2.1) (· = .nullDeref) := by
  have hnext : ∀ s' : State τ, OutputOk g s' t (some (t.inputFrame, t.inputIter + 1)) := fun s' ↦
    ⟨fun heq _ _ hi ↦ by
      cases heq
      exact absurd hi (Nat.succ_ne_zero _), fun hent ↦ by simp [Node.isEnter, hkind] at hent⟩
  simp only [State.findOrCreateOutputFrameIter, hkind]
  split
  · exact post_ok.2 ⟨h, outputOk_none ..⟩
  refine (post_deref (Q := fun f ↦ s.frames t.inputFrame = some f) fun f hf ↦ hf).bind
    fun f hf ↦ ?_
  split
  · split
    · rename_i hfull
      refine post_ok.2 ⟨h.setResult hf (x := (_, [])) ⟨?_, ⟨rfl, rfl, rfl, rfl⟩, by simp⟩
        fun _ _ ↦ hfull, outputOk_none ..⟩
      exact (h.ok hf).of_eq rfl ⟨rfl, rfl, rfl, rfl⟩ rfl rfl le_rfl
    · rename_i hnotFull
      refine ((h.ok hf).incrementIteration fun hgood ↦ ?_).bind ?_
      · obtain ⟨lo, hinv⟩ := h.ok hf hgood
        exact lt_of_le_of_ne hinv.outstanding_le hnotFull
      · rintro ⟨f₁, ready⟩ ⟨hres, -, hroots, -⟩
        exact post_ok.2 ⟨h.setResult hf hres fun _ hne ↦ absurd hroots hne, hnext _⟩
  · exact post_ok.2 ⟨h, hnext s⟩

/-- An `Exit` goes on in the parent iteration, or is remembered as dead. -/
theorem Inv.exit (h : Inv s T) (hkind : (g.node t.node).kind = .exit) (outputs : List (Entry τ)) :
    Post (s.findOrCreateOutputFrameIter g t outputs)
      (fun x ↦ Inv x.1 (x.2.2 ++ T) ∧ OutputOk g x.1 t x.2.1) (· = .nullDeref) := by
  simp only [State.findOrCreateOutputFrameIter, hkind]
  refine (post_deref (Q := fun f ↦ s.frames t.inputFrame = some f) fun f hf ↦ hf).bind
    fun f hf ↦ ?_
  split
  · split
    · have hdef₀ : Deferred f := h.deferred hf
      have hdef : Deferred { f with deadExits := f.deadExits ++ [t.node] } := fun hgood hne ↦
        hdef₀ hgood hne
      refine post_ok.2 ⟨h.setResult hf (x := (_, [])) ⟨?_, ⟨rfl, rfl, rfl, rfl⟩, by simp⟩ hdef,
        outputOk_none ..⟩
      exact (h.ok hf).of_eq rfl ⟨rfl, rfl, rfl, rfl⟩ rfl rfl le_rfl
    · exact post_ok.2 ⟨h, outputOk_none ..⟩
  · -- The parent iteration has this frame as a child.
    refine post_ok.2 ⟨h, fun hpar hfo hgood hi ↦ ?_,
      fun hent ↦ by simp [Node.isEnter, hkind] at hent⟩
    obtain ⟨lo, hinv⟩ := h.ok hfo hgood
    exact hinv.zero (Or.inr (hi ▸ mem_kidsOf (h.lt hf) hf hpar))

/-- An `Enter` finds its child frame or creates it; the parent iteration counts it from then on. -/
theorem Inv.enter (h : Inv s T) (ht : t ∈ T) {name : String} {isConstant : Bool}
    {parallelIterations : ℕ}
    (hkind : (g.node t.node).kind = .enter name isConstant parallelIterations)
    (outputs : List (Entry τ)) :
    Post (s.findOrCreateOutputFrameIter g t outputs)
      (fun x ↦ Inv x.1 (x.2.2 ++ T) ∧ OutputOk g x.1 t x.2.1) (· = .nullDeref) := by
  simp only [State.findOrCreateOutputFrameIter, hkind]
  refine (h.findOrCreateChildFrame ht name parallelIterations).bind ?_
  rintro ⟨s₁, child⟩ ⟨h₁, hname⟩
  simp only at h₁ hname
  refine (post_deref (Q := fun f ↦ s₁.frames child = some f) fun f hf ↦ hf).bind fun f hf ↦ ?_
  refine ((h₁.ok hf).enterLoopInv isConstant t.node (outputs.getD 0 none)).bind ?_
  rintro ⟨f₁, ready⟩ ⟨hres, hcount, hout, hpend, hroots⟩
  simp only at hcount hout hpend hroots
  have hdef : Deferred { f₁ with numPendingInputs := f₁.numPendingInputs - 1 } := fun hgood hne ↦ by
    have := h₁.deferred hf (hres.same.max ▸ hgood) (hroots ▸ hne)
    show f₁.numOutstandingIterations = f₁.maxParallelIterations
    rw [hout, this]
    exact congrArg Nat.cast hres.same.max.symm
  have hres' : Result child T (kidsOf s₁ child) f
      ({ f₁ with numPendingInputs := f₁.numPendingInputs - 1 }, ready) :=
    ⟨hres.ok.of_eq rfl ⟨rfl, rfl, rfl, rfl⟩ rfl rfl (by simp),
      hres.same.trans ⟨rfl, rfl, rfl, rfl⟩, hres.tags⟩
  refine post_ok.2 ⟨h₁.setResult hf hres' hdef, fun {o i fo} heq hfo hgood _ ↦ ?_,
    fun _ {o i fi fo} heq hfi hfo ↦ ?_⟩
  · cases heq
    rw [setFrame_self] at hfo
    cases hfo
    -- Before the last input iteration 0 is still there; after it, the frame cannot be done.
    obtain ⟨lo, hlo⟩ := h₁.ok hf (hres.same.max ▸ hgood)
    have := hlo.outstanding
    have := hlo.pending
    rw [ZeroOk]
    simp only [hout, hcount, hpend]
    omega
  · cases heq
    rw [setFrame_self] at hfo
    cases hfo
    have hne : t.inputFrame ≠ child := fun hself ↦ by
      have := hname f f (hself ▸ hf) hf
      exact lt_irrefl _ this
    rw [setFrame_of_ne hne] at hfi
    exact (hname fi f hfi hf).trans_eq (congrArg String.length hres.same.frameName.symm)

/-- One case for each kind of node that changes frames or iterations. -/
theorem Inv.findOrCreateOutputFrameIter (h : Inv s T) (ht : t ∈ T) (outputs : List (Entry τ)) :
    Post (s.findOrCreateOutputFrameIter g t outputs)
      (fun x ↦ Inv x.1 (x.2.2 ++ T) ∧ OutputOk g x.1 t x.2.1) (· = .nullDeref) := by
  have hstay : OutputOk g s t (some (t.inputFrame, t.inputIter)) ∨
      (g.node t.node).isEnter = true := by
    cases hent : (g.node t.node).isEnter with
    | true => exact Or.inr rfl
    | false =>
      refine Or.inl ⟨fun heq hfo hgood hi ↦ ?_, fun h ↦ by simp [hent] at h⟩
      cases heq
      exact h.zeroOk ht hfo hgood hi
  cases hkind : (g.node t.node).kind with
  | nextIteration => exact h.nextIteration hkind outputs
  | exit => exact h.exit hkind outputs
  | enter name isConstant parallelIterations => exact h.enter ht hkind outputs
  | _ =>
    simp only [State.findOrCreateOutputFrameIter, hkind]
    exact post_ok.2 ⟨h, hstay.resolve_right (by simp [Node.isEnter, hkind])⟩

end TensorFlowCore.Executor
