import TensorFlowCore.CommonRuntime.Executor.Frames

/-!
# Clean-up and propagation keep the invariant of the frames

`CleanupFramesIterations` works on a frame and, once this is done, on the frames above it, whose
names are shorter. So the frame that an Enter has entered, whose name is longer, is as it was when
its own clean-up starts, and `PropagateOutputs` keeps the invariant (`Inv.propagateOutputs`).
-/

namespace TensorFlowCore.Executor

open ExceptPost List RingBuffer

variable {τ : Type} {g : Graph} {s s' : State τ} {fid k : FrameId} {f f' : FrameState τ}
  {T T' R : List TaggedNode} {t : TaggedNode} {iter : ℕ}

/-- Fewer outstanding nodes may be left, as when a kernel fails. -/
theorem Inv.mono (h : Inv s T) (hR : R.Subperm T) : Inv s R where
  lt := h.lt
  tags_lt t ht := h.tags_lt t (hR.subset ht)
  ok hf := (h.ok hf).mono hR
  deferred := h.deferred
  parent_lt := h.parent_lt
  size := h.size
  name_lt := h.name_lt

/-! ### Deletion of a frame -/

theorem frames_delete (hk : (s.setFrame fid none).frames k = some f) :
    k ≠ fid ∧ s.frames k = some f := by
  by_cases heq : k = fid
  · rw [heq, setFrame_self] at hk
    cases hk
  · rw [setFrame_of_ne heq] at hk
    exact ⟨heq, hk⟩

/-- The root frame is deleted. -/
theorem Inv.deleteRoot (h : Inv s T) (hf : s.frames fid = some f) (hp : f.parent = none) :
    Inv (s.setFrame fid none) T where
  lt hk := h.lt (frames_delete hk).2
  tags_lt := h.tags_lt
  ok hk := by
    rw [kidsOf_delete_of_ne hf fun i ↦ by rw [hp]; exact nofun]
    exact h.ok (frames_delete hk).2
  deferred hk := h.deferred (frames_delete hk).2
  parent_lt hk := h.parent_lt (frames_delete hk).2
  size hk := h.size (frames_delete hk).2
  name_lt hk hp hfp := h.name_lt (frames_delete hk).2 hp (frames_delete hfp).2

/-- A frame is deleted and the parent iteration has one child less. -/
theorem Inv.delete {p : FrameId} {i : ℕ} {fp fp' : FrameState τ} (h : Inv s T)
    (hf : s.frames fid = some f) (hp : f.parent = some (p, i)) (hfp : s.frames p = some fp)
    (hsame : SameCounters fp fp')
    (hok : ∀ {kids}, FrameOk p T (i :: kids) fp → FrameOk p T' kids fp')
    (htags : ∀ t ∈ T', t ∈ T ∨ t.inputFrame = p)
    (hother : ∀ {k kids} {f : FrameState τ}, k ≠ p → FrameOk k T kids f → FrameOk k T' kids f) :
    Inv ((s.setFrame p (some fp')).setFrame fid none) T' := by
  have hpf : p ≠ fid := (h.parent_lt hf hp).ne
  have hcases : ∀ {k fk}, ((s.setFrame p (some fp')).setFrame fid none).frames k = some fk →
      (k = p ∧ fk = fp') ∨ (k ≠ p ∧ k ≠ fid ∧ s.frames k = some fk) := by
    intro k fk hk
    obtain ⟨hne, hk⟩ := frames_delete hk
    by_cases heq : k = p
    · rw [heq, setFrame_self] at hk
      exact .inl ⟨heq, (Option.some.inj hk).symm⟩
    · rw [setFrame_of_ne heq] at hk
      exact .inr ⟨heq, hne, hk⟩
  have hold : ∀ {k fk}, ((s.setFrame p (some fp')).setFrame fid none).frames k = some fk →
      ∃ f₀, s.frames k = some f₀ ∧ SameCounters f₀ fk := by
    intro k fk hk
    obtain ⟨rfl, rfl⟩ | ⟨-, -, hk⟩ := hcases hk
    · exact ⟨fp, hfp, hsame⟩
    · exact ⟨fk, hk, .refl fk⟩
  have hf' : (s.setFrame p (some fp')).frames fid = some f := by
    rw [setFrame_of_ne hpf.symm, hf]
  have hkids : ∀ q, kidsOf (s.setFrame p (some fp')) q = kidsOf s q :=
    kidsOf_setFrame hfp hsame.parent
  refine ⟨fun hk ↦ ?_, fun t ht ↦ ?_, fun {k fk} hk ↦ ?_, fun hk ↦ ?_, fun hk hpk ↦ ?_,
    fun hk hpk ↦ ?_, fun hk hpk hfq ↦ ?_⟩
  · obtain ⟨f₀, hf₀, -⟩ := hold hk
    exact h.lt hf₀
  · obtain ht | rfl := htags t ht
    · exact h.tags_lt t ht
    · exact h.lt hfp
  · obtain ⟨rfl, rfl⟩ | ⟨hne, -, hk⟩ := hcases hk
    · have hperm := kidsOf_delete (s := s.setFrame k (some fk)) (h.lt hf) hf' hp
      rw [hkids] at hperm
      exact hok fun hgood ↦ (h.ok hfp hgood).imp fun _ hinv ↦ hinv.perm_kids hperm
    · rw [kidsOf_delete_of_ne hf' fun j hj ↦ by
        rw [hp] at hj
        exact hne (Prod.mk.inj (Option.some.inj hj)).1.symm, hkids]
      exact hother hne (h.ok hk)
  · obtain ⟨f₀, hf₀, hsame⟩ := hold hk
    exact (h.deferred hf₀).of_same hsame
  · obtain ⟨f₀, hf₀, hsame⟩ := hold hk
    exact h.parent_lt hf₀ (hsame.parent ▸ hpk)
  · obtain ⟨f₀, hf₀, hsame⟩ := hold hk
    rw [hsame.size, hsame.max]
    exact h.size hf₀ (hsame.parent ▸ hpk)
  · obtain ⟨f₀, hf₀, hsame⟩ := hold hk
    obtain ⟨fq₀, hfq₀, hsameq⟩ := hold hfq
    rw [hsame.frameName, hsameq.frameName]
    exact h.name_lt hf₀ (hsame.parent ▸ hpk) hfq₀

/-! ### Clean-up -/

/-- The frames are old ones with what no operation changes. -/
def FramesFrom (s s' : State τ) : Prop :=
  ∀ k f', s'.frames k = some f' → ∃ f, s.frames k = some f ∧ SameFrame f f'

/-- No frame is created on the way, whatever is updated or deleted. -/
theorem FramesFrom.trans {s₁ s₂ s₃ : State τ} (h₁ : FramesFrom s₁ s₂) (h₂ : FramesFrom s₂ s₃) :
    FramesFrom s₁ s₃ := by
  intro k f₃ hf₃
  obtain ⟨f₂, hf₂, hsame₂⟩ := h₂ k f₃ hf₃
  obtain ⟨f₁, hf₁, hsame₁⟩ := h₁ k f₂ hf₂
  exact ⟨f₁, hf₁, hsame₁.trans hsame₂⟩

theorem framesFrom_setFrame (hf : s.frames fid = some f) (hsame : SameFrame f f') :
    FramesFrom s (s.setFrame fid (some f')) := by
  intro k fk hk
  by_cases heq : k = fid
  · rw [heq, setFrame_self] at hk
    exact ⟨f, heq ▸ hf, Option.some.inj hk ▸ hsame⟩
  · rw [setFrame_of_ne heq] at hk
    exact ⟨fk, hk, .refl fk⟩

theorem framesFrom_delete (s : State τ) (fid : FrameId) : FramesFrom s (s.setFrame fid none) :=
  fun _ f hk ↦ ⟨f, (frames_delete hk).2, .refl f⟩

/-- What the clean-up of the frame `fid` does to the others: frames with longer names are as they
were. -/
structure CleansUp (fid : FrameId) (s s' : State τ) : Prop where
  framesFrom : FramesFrom s s'
  longer : ∀ {f k fk}, s.frames fid = some f → s'.frames k = some fk →
    f.frameName.length < fk.frameName.length → s.frames k = some fk

/-- The dead exits of a frame that is done become ready in the parent iteration, which loses a
child. -/
theorem Inv.propagateDeadExits {p : FrameId} {i : ℕ} {fp : FrameState τ} {it : IterationState τ}
    (h : Inv s T) (hf : s.frames fid = some f) (hp : f.parent = some (p, i))
    (hfp : s.frames p = some fp) (hit : fp.getIteration i = some it) (exits : List NodeId) :
    Inv ((s.setFrame p (some (fp.setIteration i (some
        { (Executor.propagateDeadExits g exits it).1 with outstandingFrameCount :=
            (Executor.propagateDeadExits g exits it).1.outstandingFrameCount - 1 })))).setFrame fid
          none) (tag p i (Executor.propagateDeadExits g exits it).2 ++ T) := by
  have hact := activates_propagateDeadExits (g := g) exits it
  refine h.delete hf hp hfp (sameCounters_setIteration ..) (fun {kids} hok hgood ↦ ?_)
    (fun t ht ↦ ?_) fun hne hok ↦ hok.of_other fun t ht heq ↦ hne (heq.symm.trans (mem_tag ht).1)
  · obtain ⟨lo, hinv⟩ := hok hgood
    have hactive := hinv.activate hit hact.iter (by rw [length_tag]; exact hact.ops) hact.frames
      (fun t ht ↦ mem_tag ht) fun hi ↦ hinv.zero (.inr (hi ▸ mem_cons_self))
    have hget : (fp.setIteration i (some (Executor.propagateDeadExits g exits it).1)).getIteration
      i =
        some (Executor.propagateDeadExits g exits it).1 := Function.update_self ..
    have hremoved := hactive.removeKid hget
      { (Executor.propagateDeadExits g exits it).1 with outstandingFrameCount :=
          (Executor.propagateDeadExits g exits it).1.outstandingFrameCount - 1 } rfl rfl rfl
    have htwice : ∀ x y, (fp.setIteration i x).setIteration i y = fp.setIteration i y :=
      fun x y ↦ by
      simp [FrameState.setIteration]
    rw [htwice] at hremoved
    exact ⟨lo, hremoved⟩
  · obtain ht | ht := mem_append.1 ht
    · exact .inr (mem_tag ht).1
    · exact .inl ht

/-- `CleanupFramesIterations` returns, and changes no frame with a longer name. -/
theorem Inv.cleanupFramesIterations {fuel : ℕ} (h : Inv s T) (hfuel : fid < fuel)
    (hzero : ∀ {f}, s.frames fid = some f → 1 ≤ f.maxParallelIterations → iter = 0 → ZeroOk f) :
    Post (s.cleanupFramesIterations g fuel fid iter)
      (fun x ↦ Inv x.1 (x.2 ++ T) ∧ CleansUp fid s x.1) (· = .nullDeref) := by
  induction fuel generalizing s T fid iter with
  | zero => exact absurd hfuel (Nat.not_lt_zero _)
  | succ fuel ih =>
    rw [State.cleanupFramesIterations]
    refine (post_deref (Q := fun f ↦ s.frames fid = some f) fun f hf ↦ hf).bind fun f hf ↦ ?_
    have hrounds : f.iterationCount + 1 - iter + (if f.nextIterRoots.isEmpty then 0 else 1) <
        f.iterationCount + 3 := by
      have hone : (if f.nextIterRoots.isEmpty then 0 else 1) ≤ 1 := by split <;> decide
      omega
    refine ((h.ok hf).cleanupIterations (h.deferred hf) hrounds (hzero hf)).bind ?_
    rintro ⟨f₁, ready⟩ ⟨hres, hdef, -⟩
    have h₁ := h.setResult hf hres hdef
    have hf₁ : (s.setFrame fid (some f₁)).frames fid = some f₁ := setFrame_self ..
    have hname : f₁.frameName = f.frameName := hres.same.frameName
    -- a frame with a longer name is another frame
    have hother : ∀ {k fk}, f.frameName.length < fk.frameName.length → k = fid →
        (s.setFrame fid (some f₁)).frames k ≠ some fk := by
      rintro k fk hlen rfl hk
      rw [setFrame_self] at hk
      cases hk
      rw [hname] at hlen
      exact lt_irrefl _ hlen
    have hclean₁ : CleansUp fid s (s.setFrame fid (some f₁)) := by
      refine ⟨framesFrom_setFrame hf hres.same, fun {f₀ k fk} hf₀ hk hlen ↦ ?_⟩
      rw [hf] at hf₀
      cases hf₀
      have hne : k ≠ fid := fun heq ↦ hother hlen heq hk
      rwa [setFrame_of_ne hne] at hk
    simp only
    split
    case isFalse => exact post_ok.2 ⟨h₁, hclean₁⟩
    cases hpar : f₁.parent with
    | none =>
      simp only
      split
      · exact post_ok.2 ⟨h₁.deleteRoot hf₁ hpar, hclean₁.framesFrom.trans (framesFrom_delete _ _),
          fun hf₀ hk hlen ↦ hclean₁.longer hf₀ (frames_delete hk).2 hlen⟩
      · exact post_error.2 rfl
    | some q =>
      obtain ⟨p, i⟩ := q
      have hpf : p < fid := h₁.parent_lt hf₁ hpar
      simp only
      refine (post_deref (Q := fun fp ↦ (s.setFrame fid (some f₁)).frames p = some fp)
        fun fp hfp ↦ hfp).bind fun fp hfp ↦ ?_
      refine (post_deref (Q := fun it ↦ fp.getIteration i = some it) fun it hit ↦ hit).bind
        fun it hit ↦ ?_
      have h₂ := h₁.propagateDeadExits (g := g) hf₁ hpar hfp hit f₁.deadExits
      have hzero₂ : ∀ {fp'}, fp' = fp.setIteration i (some
          { (Executor.propagateDeadExits g f₁.deadExits it).1 with outstandingFrameCount :=
            (Executor.propagateDeadExits g f₁.deadExits it).1.outstandingFrameCount - 1 }) →
          1 ≤ fp'.maxParallelIterations → i = 0 → ZeroOk fp' := by
        rintro _ rfl hgood hi
        obtain ⟨lo, hinv⟩ := h₁.ok hfp hgood
        exact (sameCounters_setIteration ..).zeroOk.2
          (hinv.zero (.inr (hi ▸ mem_kidsOf (h₁.lt hf₁) hf₁ hpar)))
      refine (ih h₂ (Nat.lt_of_lt_of_le hpf (Nat.le_of_lt_succ hfuel)) fun {fp'} hfp' hgood
        hi ↦ hzero₂ ?_ hgood hi).bind ?_
      · have hfp₂ := (frames_delete hfp').2
        rw [setFrame_self] at hfp₂
        exact (Option.some.inj hfp₂).symm
      · rintro ⟨s₃, ready'⟩ ⟨h₃, hclean₃⟩
        refine post_ok.2 ⟨h₃.mono ?_, ?_, fun {f₀ k fk} hf₀ hk hlen ↦ ?_⟩
        · refine Perm.subperm (perm_iff_count.2 fun u ↦ ?_)
          simp only [count_append]
          omega
        · have hp := framesFrom_setFrame hfp (sameCounters_setIteration fp i (some
            { (Executor.propagateDeadExits g f₁.deadExits it).1 with outstandingFrameCount :=
              (Executor.propagateDeadExits g f₁.deadExits it).1.outstandingFrameCount - 1
            })).toSameFrame
          exact (hclean₁.framesFrom.trans (hp.trans (framesFrom_delete _ fid))).trans
            hclean₃.framesFrom
        · -- the name of the parent is shorter still
          rw [hf] at hf₀
          cases hf₀
          have hplen := h₁.name_lt hf₁ hpar hfp
          rw [hname] at hplen
          have hfp₂ : ((State.setFrame (s.setFrame fid (some f₁)) p (some (fp.setIteration i (some
              { (Executor.propagateDeadExits g f₁.deadExits it).1 with outstandingFrameCount :=
                (Executor.propagateDeadExits g f₁.deadExits it).1.outstandingFrameCount - 1
              })))).setFrame fid none).frames p = some (fp.setIteration i (some
              { (Executor.propagateDeadExits g f₁.deadExits it).1 with outstandingFrameCount :=
                (Executor.propagateDeadExits g f₁.deadExits it).1.outstandingFrameCount -
                  1 })) := by
            rw [setFrame_of_ne hpf.ne, setFrame_self]
          have hk₂ := hclean₃.longer hfp₂ hk (hplen.trans hlen)
          have hk₁ := (frames_delete hk₂).2
          have hkp : k ≠ p := fun heq ↦ by
            rw [heq, setFrame_self] at hk₁
            cases hk₁
            exact lt_asymm hplen hlen
          rw [setFrame_of_ne hkp] at hk₁
          exact hclean₁.longer hf hk₁ hlen

/-! ### Propagation -/

theorem OutputOk.setFrame {output : Option (FrameId × ℕ)} (h : OutputOk g s t output)
    (hf : s.frames fid = some f) (hsame : SameCounters f f') :
    OutputOk g (s.setFrame fid (some f')) t output := by
  have hold : ∀ {k fk}, (s.setFrame fid (some f')).frames k = some fk →
      ∃ f₀, s.frames k = some f₀ ∧ SameCounters f₀ fk := by
    intro k fk hk
    by_cases heq : k = fid
    · rw [heq, setFrame_self] at hk
      exact ⟨f, heq ▸ hf, Option.some.inj hk ▸ hsame⟩
    · rw [setFrame_of_ne heq] at hk
      exact ⟨fk, hk, .refl fk⟩
  refine ⟨fun houtput hfo hgood hi ↦ ?_, fun henter {o i fi fo} houtput hfi hfo ↦ ?_⟩
  · obtain ⟨f₀, hf₀, hsame₀⟩ := hold hfo
    exact hsame₀.zeroOk.2 (h.zero houtput hf₀ (hsame₀.max ▸ hgood) hi)
  · obtain ⟨f₀, hf₀, hsame₀⟩ := hold hfi
    obtain ⟨f₁, hf₁, hsame₁⟩ := hold hfo
    rw [hsame₀.frameName, hsame₁.frameName]
    exact h.enter henter houtput hf₀ hf₁

/-- The successors become ready in an iteration that is live, so they are outstanding there. -/
theorem Inv.activateOutput {output : Option (FrameId × ℕ)} (h : Inv s T)
    (houtput : OutputOk g s t output) (outputs : List (Entry τ)) :
    Post (s.activateOutput g t outputs output)
      (fun x ↦ Inv x.1 (x.2 ++ T) ∧ OutputOk g x.1 t output) (· = .nullDeref) := by
  cases output with
  | none => exact post_ok.2 ⟨h, houtput⟩
  | some q =>
    obtain ⟨o, i⟩ := q
    refine (post_deref (Q := fun f ↦ s.frames o = some f) fun f hf ↦ hf).bind fun f hf ↦ ?_
    refine ((h.ok hf).activateNode t.node t.isDead outputs (houtput.zero rfl hf)).bind ?_
    rintro ⟨f₁, ready⟩ ⟨hres, hsame⟩
    exact post_ok.2 ⟨h.setResult hf hres ((h.deferred hf).of_same hsame),
      houtput.setFrame hf hsame⟩

/-- A node is done and its frame is cleaned up. -/
theorem Inv.finishNode (h : Inv s (t :: T)) :
    Post (s.finishNode g t)
      (fun x ↦ Inv x.1 (x.2 ++ T) ∧ CleansUp t.inputFrame s x.1 ∧
        ∃ f, s.frames t.inputFrame = some f) (· = .nullDeref) := by
  refine (post_deref (Q := fun f ↦ s.frames t.inputFrame = some f) fun f hf ↦ hf).bind fun f hf ↦ ?_
  refine (post_deref (Q := fun it ↦ f.getIteration t.inputIter = some it) fun it hit ↦ hit).bind
    fun it hit ↦ ?_
  have hsame := sameCounters_setIteration f t.inputIter
    (some { it with outstandingOps := it.outstandingOps - 1 })
  have h₁ : Inv (s.setFrame t.inputFrame (some (f.setIteration t.inputIter
      (some { it with outstandingOps := it.outstandingOps - 1 })))) T := by
    refine h.setFrame hf hsame.toSameFrame (fun hgood ↦ ?_) ((h.deferred hf).of_same hsame)
      (fun u hu ↦ .inl (mem_cons_of_mem t hu))
      fun _ hok ↦ hok.mono (sublist_cons_self t T).subperm
    obtain ⟨lo, hinv⟩ := h.ok hf hgood
    exact ⟨lo, hinv.finish rfl hit rfl rfl rfl⟩
  refine (h₁.cleanupFramesIterations (Nat.lt_succ_self _) fun {f₁} hf₁ hgood hi ↦ ?_).mono ?_
    fun e he ↦ he
  · rw [setFrame_self] at hf₁
    cases hf₁
    exact hsame.zeroOk.2 (h.zeroOk mem_cons_self hf hgood hi)
  · rintro x ⟨hx, hclean⟩
    refine ⟨hx, ⟨(framesFrom_setFrame hf hsame.toSameFrame).trans hclean.framesFrom,
      fun {f₀ k fk} hf₀ hk hlen ↦ ?_⟩, f, hf⟩
    rw [hf] at hf₀
    cases hf₀
    have hk₁ := hclean.longer (setFrame_self ..) hk hlen
    have hne : k ≠ t.inputFrame := fun heq ↦ by
      rw [heq, setFrame_self] at hk₁
      cases hk₁
      exact lt_irrefl _ hlen
    rwa [setFrame_of_ne hne] at hk₁

/-- `PropagateOutputs` keeps the invariant: the node is no longer outstanding, the nodes that have
become ready are. -/
theorem Inv.propagateOutputs (h : Inv s (t :: T)) (outputs : List (Entry τ)) :
    Post (s.propagateOutputs g t outputs) (fun x ↦ Inv x.1 (x.2 ++ T)) (· = .nullDeref) := by
  refine (h.findOrCreateOutputFrameIter mem_cons_self outputs).bind ?_
  rintro ⟨s₁, output, ready₁⟩ ⟨h₁, houtput₁⟩
  refine (h₁.activateOutput houtput₁ outputs).bind ?_
  rintro ⟨s₂, ready₂⟩ ⟨h₂, houtput₂⟩
  have hperm : (ready₂ ++ (ready₁ ++ t :: T)).Perm (t :: (ready₂ ++ (ready₁ ++ T))) :=
    (perm_middle.append_left ready₂).trans perm_middle
  refine ((h₂.mono hperm.symm.subperm).finishNode (g := g)).bind ?_
  rintro ⟨s₃, ready₃⟩ ⟨h₃, hclean, f, hf⟩
  have hlast : Post (s₃.cleanupEntered g t output)
      (fun x ↦ Inv x.1 (x.2 ++ (ready₃ ++ (ready₂ ++ (ready₁ ++ T))))) (· = .nullDeref) := by
    cases output with
    | none => exact post_ok.2 h₃
    | some q =>
      obtain ⟨o, i⟩ := q
      rw [State.cleanupEntered]
      split
      · rename_i henter
        refine (h₃.cleanupFramesIterations (Nat.lt_succ_self o) fun {fo} hfo hgood hi ↦ ?_).mono
          (fun x hx ↦ hx.1) fun e he ↦ he
        -- the frame that was entered is as it was before the clean-up of the other one
        obtain ⟨fo₂, hfo₂, hsame⟩ := hclean.framesFrom o fo hfo
        have hlen := houtput₂.enter henter rfl hf hfo₂
        rw [← hsame.frameName] at hlen
        exact houtput₂.zero rfl (hclean.longer hf hfo hlen) hgood hi
      · exact post_ok.2 h₃
  refine hlast.bind ?_
  rintro ⟨s₄, ready₄⟩ h₄
  refine post_ok.2 (h₄.mono (Perm.subperm ?_))
  refine perm_iff_count.2 fun u ↦ ?_
  simp only [count_append]
  omega

end TensorFlowCore.Executor
