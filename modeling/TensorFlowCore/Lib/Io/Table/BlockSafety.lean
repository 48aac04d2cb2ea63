import TensorFlowCore.Lib.Io.Table.Block

/-!
# Iterators read inside of their block

Every step of an iterator whose sums do not overflow reads inside of the block, whatever its
contents are, and what is left to be done gets less with every step that does not begin anew
(`blockReads_safely`). A length that overflows `uint32` with the other one is let through
(`not_readsSafely`).
-/

namespace TensorFlowCore.Table

open List Option

/-! ### Entries -/

theorem length_getVarintLoop_lt {w maxShift shift : ℕ} {result v : BitVec w} {p rest : ByteString}
    (h : getVarintLoop w maxShift shift result p = some (v, rest)) : rest.length < p.length := by
  induction p generalizing shift result with
  | nil => cases h
  | cons byte p ih =>
    rw [getVarintLoop] at h
    rw [length_cons]
    split at h
    · split at h
      · exact (ih h).trans (Nat.lt_succ_self _)
      · rw [← (Prod.mk.inj (some.inj h)).2]
        exact Nat.lt_succ_self _
    · cases h

theorem length_getVarint32Ptr_lt {p rest : ByteString} {v : UInt32}
    (h : getVarint32Ptr p = some (v, rest)) : rest.length < p.length := by
  have hslow : ∀ {p : ByteString}, getVarint32PtrFallback p = some (v, rest) →
      rest.length < p.length := fun h ↦ by
    obtain ⟨⟨v', rest'⟩, hloop, heq⟩ := map_eq_some_iff.1 h
    rw [← (Prod.mk.inj heq).2]
    exact length_getVarintLoop_lt hloop
  unfold getVarint32Ptr at h
  split at h
  · split at h
    · rw [← (Prod.mk.inj (some.inj h)).2]
      exact Nat.lt_succ_self _
    · exact hslow h
  · exact hslow h

variable {q p : ByteString} {shared nonShared valueLength : ℕ}

/-- The lengths take some bytes. -/
theorem length_decodeLengths_lt (h : decodeLengths q = some (shared, nonShared, valueLength, p)) :
    p.length < q.length := by
  unfold decodeLengths at h
  split at h
  · split at h
    · obtain ⟨-, -, -, rfl⟩ := h
      simp only [length_cons]
      omega
    · obtain ⟨⟨s, p₁⟩, h₁, h⟩ := bind_eq_some_iff.1 h
      obtain ⟨⟨n, p₂⟩, h₂, h⟩ := bind_eq_some_iff.1 h
      obtain ⟨⟨v, p₃⟩, h₃, h⟩ := bind_eq_some_iff.1 h
      obtain ⟨-, -, -, rfl⟩ := h
      exact (length_getVarint32Ptr_lt h₃).trans
        ((length_getVarint32Ptr_lt h₂).trans (length_getVarint32Ptr_lt h₁))
  · cases h

theorem decodeEntry_eq_some (h : decodeEntry q = some (shared, nonShared, valueLength, p)) :
    decodeLengths q = some (shared, nonShared, valueLength, p) ∧
      uint32 (nonShared + valueLength) ≤ uint32 p.length := by
  obtain ⟨⟨s, n, v, p'⟩, hlengths, h⟩ := bind_eq_some_iff.1 h
  dsimp only at h
  split at h
  · cases h
  · rename_i hle
    obtain ⟨rfl, rfl, rfl, rfl⟩ := h
    exact ⟨hlengths, Nat.not_lt.1 hle⟩

/-- Where the sum of its lengths does not overflow, an entry that is accepted fits. -/
theorem fits_of_decodeEntry (h : decodeEntry q = some (shared, nonShared, valueLength, p))
    (hq : q.length < 2 ^ 32)
    (hsum : nonShared + valueLength < 2 ^ 32 ∨ p.length < uint32 (nonShared + valueLength)) :
    nonShared + valueLength ≤ p.length := by
  obtain ⟨hlengths, hle⟩ := decodeEntry_eq_some h
  have hlt := length_decodeLengths_lt hlengths
  have hp : uint32 p.length = p.length := Nat.mod_eq_of_lt (hlt.trans hq)
  rw [hp] at hle
  rcases hsum with hsum | hsum
  · rwa [uint32, Nat.mod_eq_of_lt hsum] at hle
  · omega

/-! ### Iterators over one block -/

/-- The iterators read the same block. -/
structure SameBlock (it it' : Iter) : Prop where
  data_eq : it'.data = it.data
  restarts_eq : it'.restarts = it.restarts
  numRestarts_eq : it'.numRestarts = it.numRestarts

theorem SameBlock.trans {it it' it'' : Iter} (h : SameBlock it it') (h' : SameBlock it' it'') :
    SameBlock it it'' :=
  ⟨h'.data_eq.trans h.data_eq, h'.restarts_eq.trans h.restarts_eq,
    h'.numRestarts_eq.trans h.numRestarts_eq⟩

theorem sameBlock_seekToRestartPoint (it : Iter) (index : ℕ) :
    SameBlock it (it.seekToRestartPoint index) :=
  ⟨rfl, rfl, rfl⟩

theorem sameBlock_corruptionError (it : Iter) : SameBlock it it.corruptionError := ⟨rfl, rfl, rfl⟩

/-- The sums of the lengths of the entries do not overflow. -/
def EntriesFit (it : Iter) (offsets : List ℕ) : Prop :=
  ∀ offset ∈ offsets, ∀ shared nonShared valueLength p,
  decodeLengths (it.entryAt offset) = some (shared, nonShared, valueLength, p) →
    nonShared + valueLength < 2 ^ 32 ∨ p.length < uint32 (nonShared + valueLength)

theorem length_entryAt_le (it : Iter) (offset : ℕ) :
    (it.entryAt offset).length ≤ it.restarts - offset := by
  rw [Iter.entryAt, length_drop, length_take]
  omega

/-- No entry was found, and the iterator is not valid any more; or the one at the next offset was
found, and what is the next offset now is further on. -/
def Iter.ParsesTo (it : Iter) (result : Iter × Bool) : Prop :=
  result.2 = false ∧ result.1.valid = false ∨
    result.2 = true ∧ it.nextEntryOffset < it.restarts ∧ result.1.current = it.nextEntryOffset ∧
      it.nextEntryOffset < result.1.nextEntryOffset

theorem Iter.ParsesTo.current_lt {it : Iter} {result : Iter × Bool} (h : it.ParsesTo result)
    (hvalid : result.1.valid) : result.1.current < result.1.nextEntryOffset := by
  rcases h with ⟨-, hinvalid⟩ | ⟨-, -, hcurrent, hnext⟩
  · exact nomatch hinvalid.symm.trans hvalid
  · exact hcurrent ▸ hnext

/-- One parse stays in the block, at the next entry or behind the last. -/
theorem parsesTo_parseNextKey (it : Iter) (hrestarts : it.restarts < 2 ^ 32)
    (hfit : EntriesFit it (Reader.parses it)) :
    SameBlock it it.parseNextKey.1 ∧ it.ParsesTo it.parseNextKey := by
  have hinvalid : ∀ it : Iter, it.current = it.restarts → it.valid = false := fun it h ↦ by
    rw [Iter.valid, h]
    exact decide_eq_false (Nat.lt_irrefl _)
  rw [Iter.parseNextKey]
  split
  · exact ⟨⟨rfl, rfl, rfl⟩, .inl ⟨rfl, hinvalid _ rfl⟩⟩
  · rename_i hcurrent
    have hlt : it.nextEntryOffset < it.restarts := Nat.not_le.1 hcurrent
    split
    · exact ⟨sameBlock_corruptionError it, .inl ⟨rfl, hinvalid _ rfl⟩⟩
    · rename_i shared nonShared valueLength p hdecode
      split
      · exact ⟨sameBlock_corruptionError it, .inl ⟨rfl, hinvalid _ rfl⟩⟩
      · obtain ⟨hlengths, -⟩ := decodeEntry_eq_some hdecode
        have hq := length_entryAt_le it it.nextEntryOffset
        have hp : p.length < (it.entryAt it.nextEntryOffset).length :=
          length_decodeLengths_lt hlengths
        have hsum := hfit it.nextEntryOffset
          (by rw [Reader.parses, if_pos hlt]; exact mem_singleton_self _)
          shared nonShared valueLength p hlengths
        have hfits : nonShared + valueLength ≤ p.length :=
          fits_of_decodeEntry hdecode (hq.trans_lt ((Nat.sub_le _ _).trans_lt hrestarts)) hsum
        refine ⟨⟨rfl, rfl, rfl⟩, .inr ⟨rfl, hlt, rfl, ?_⟩⟩
        -- the value ends before the restart array, so that its end is not reduced
        show it.nextEntryOffset < uint32 (it.restarts - p.length + nonShared + valueLength)
        rw [uint32, Nat.mod_eq_of_lt (by omega)]
        omega

theorem restartsReadFrom_lt {it : Iter} {current index i : ℕ}
    (h : i ∈ it.restartsReadFrom current index) : i < it.numRestarts := by
  fun_induction Iter.restartsReadFrom it current index with
  | case1 index hlt hbefore ih =>
    rcases mem_cons.1 h with rfl | h
    · exact hlt
    · exact ih h
  | case2 index hlt hbefore =>
    rw [mem_singleton.1 h]
    exact hlt
  | case3 index hge => cases h

/-! ### The invariant -/

/-- The iterator reads a block of these contents, and its binary search looks at restart points that
there are. -/
structure Sound (contents : ByteString) (r : Reader) : Prop where
  data_eq : r.it.data = contents
  restarts_lt : r.it.restarts < 2 ^ 32
  fits : r.it.restarts + r.it.numRestarts * 4 + 4 ≤ contents.length
  pos : 0 < r.it.numRestarts
  bounds : ∀ target left right, r.phase = .searching target left right → left ≤ right ∧
    right < r.it.numRestarts
  /-- The next entry comes behind the current one; `Seek` moves the one and not the other. -/
  behind : r.phase = .idle → r.it.valid → r.it.current < r.it.nextEntryOffset

/-- What is left to be done, at most. -/
def Reader.work (r : Reader) : ℕ :=
  match r.phase with
  | .idle => if r.it.valid then r.it.restarts - r.it.current else 0
  | .searching _ left right => right - left + r.it.restarts + 2
  | .scanning _ => r.it.restarts - r.it.nextEntryOffset + 1

variable {contents : ByteString} {r r' : Reader} {a : ReadAction}

section

variable {it : Iter} (h : Sound contents r) (hit : SameBlock r.it it)
include h hit

theorem Sound.of_sameBlock {phase : Phase}
    (hphase : ∀ target left right, phase = .searching target left right → left ≤ right ∧
      right < r.it.numRestarts)
    (hbehind : phase = .idle → it.valid → it.current < it.nextEntryOffset) :
    Sound contents { it, phase } where
  data_eq := hit.data_eq.trans h.data_eq
  restarts_lt := hit.restarts_eq.trans_lt h.restarts_lt
  fits := by
    show it.restarts + it.numRestarts * 4 + 4 ≤ _
    rw [hit.restarts_eq, hit.numRestarts_eq]
    exact h.fits
  pos := hit.numRestarts_eq ▸ h.pos
  bounds target left right heq := by
    show _ ∧ right < it.numRestarts
    rw [hit.numRestarts_eq]
    exact hphase target left right heq
  behind := hbehind

theorem Sound.idle (hbehind : it.valid → it.current < it.nextEntryOffset) : Sound contents { it } :=
  h.of_sameBlock hit nofun fun _ ↦ hbehind

theorem Sound.invalid (hvalid : it.valid = false) : Sound contents { it } :=
  h.idle hit fun hv ↦ nomatch hvalid.symm.trans hv

end

theorem valid_corruptionError (it : Iter) : it.corruptionError.valid = false :=
  decide_eq_false (Nat.lt_irrefl it.restarts)

theorem middle_bounds {left right : ℕ} (hlt : left < right) (hsum : left + right + 1 < 2 ^ 32) :
    left < middle left right ∧ middle left right ≤ right := by
  rw [middle, uint32, Nat.mod_eq_of_lt hsum]
  omega

theorem work_idle_le {it : Iter} : Reader.work { it } ≤ it.restarts := by
  show (if it.valid then it.restarts - it.current else 0) ≤ _
  split <;> omega

section

variable (h : Sound contents r)
include h

/-- A round of the binary search. -/
theorem Sound.searchRound {target : ByteString} {left right : ℕ}
    (hphase : r.phase = .searching target left right)
    (hsum : left < right → left + right + 1 < 2 ^ 32) :
    Sound contents (r.searchRound target left right) ∧ (r.searchRound target left right).work <
      r.work := by
  have hwork : r.work = right - left + r.it.restarts + 2 := by
    rw [Reader.work, hphase]
  obtain ⟨hle, hright⟩ := h.bounds target left right hphase
  rw [hwork, Reader.searchRound]
  split
  · rename_i hlt
    obtain ⟨hmid, hmid'⟩ := middle_bounds hlt (hsum hlt)
    have hcorrupt : Sound contents { it := r.it.corruptionError } ∧
        Reader.work { it := r.it.corruptionError } < right - left + r.it.restarts + 2 := by
      refine ⟨h.invalid (sameBlock_corruptionError _) (valid_corruptionError _),
        (work_idle_le).trans_lt ?_⟩
      show r.it.restarts < _
      omega
    dsimp only
    split
    · exact hcorrupt
    · split
      · exact hcorrupt
      · split
        · refine ⟨h.of_sameBlock ⟨rfl, rfl, rfl⟩ (fun t l rt heq ↦ ?_) nofun, ?_⟩
          · obtain ⟨-, rfl, rfl⟩ := Phase.searching.inj heq
            exact ⟨hmid', hright⟩
          · show right - middle left right + r.it.restarts + 2 < _
            omega
        · have hpred : uint32 (middle left right + (2 ^ 32 - 1)) = middle left right - 1 := by
            have := hsum hlt
            rw [uint32]
            omega
          rw [hpred]
          refine ⟨h.of_sameBlock ⟨rfl, rfl, rfl⟩ (fun t l rt heq ↦ ?_) nofun, ?_⟩
          · obtain ⟨-, rfl, rfl⟩ := Phase.searching.inj heq
            omega
          · show middle left right - 1 - left + r.it.restarts + 2 < _
            omega
  · refine ⟨h.of_sameBlock (sameBlock_seekToRestartPoint _ _) nofun nofun, ?_⟩
    show r.it.restarts - _ + 1 < _
    omega

/-- A round of the linear search. -/
theorem Sound.scanRound {target : ByteString} (hphase : r.phase = .scanning target)
    (hfit : EntriesFit r.it (Reader.parses r.it)) :
    Sound contents (r.scanRound target) ∧ (r.scanRound target).work < r.work := by
  have hwork : r.work = r.it.restarts - r.it.nextEntryOffset + 1 := by
    rw [Reader.work, hphase]
  obtain ⟨hsame, hparses⟩ := parsesTo_parseNextKey r.it h.restarts_lt hfit
  rw [hwork, Reader.scanRound]
  rcases hparse : r.it.parseNextKey with ⟨it, found⟩
  rw [hparse] at hsame hparses
  have hrestarts : it.restarts = r.it.restarts := hsame.restarts_eq
  rcases hparses with ⟨rfl, hinvalid⟩ | ⟨rfl, hlt, hcurrent, hnext⟩
  · refine ⟨h.invalid hsame hinvalid, ?_⟩
    show (if it.valid then _ else 0) < _
    rw [if_neg (by rw [show it.valid = false from hinvalid]; decide)]
    omega
  · dsimp only at hcurrent hnext ⊢
    split
    · refine ⟨h.of_sameBlock hsame nofun nofun, ?_⟩
      show it.restarts - it.nextEntryOffset + 1 < _
      omega
    · refine ⟨h.idle hsame fun _ ↦ hcurrent ▸ hnext, ?_⟩
      show (if it.valid then it.restarts - it.current else 0) < _
      split <;> omega

/-- Every step keeps the invariant, and one that does not begin anew leaves less to be done. -/
theorem Sound.step (hno : r.NoOverflow a) (hstep : r.step a = some r') :
    Sound contents r' ∧ (a.goesOn → r'.work < r.work) := by
  rcases r with ⟨it, phase⟩
  cases a with
  | seekToFirst =>
    cases phase with
    | idle =>
      cases hstep
      obtain ⟨hsame, hparses⟩ := parsesTo_parseNextKey (it.seekToRestartPoint 0) h.restarts_lt hno.1
      refine ⟨h.idle ((sameBlock_seekToRestartPoint it 0).trans hsame) fun hvalid ↦ ?_, nofun⟩
      exact hparses.current_lt hvalid
    | searching | scanning => cases hstep
  | seek target =>
    cases phase with
    | idle =>
      cases hstep
      refine ⟨h.of_sameBlock ⟨rfl, rfl, rfl⟩ (fun t left right heq ↦ ?_) nofun, nofun⟩
      obtain ⟨-, rfl, rfl⟩ := Phase.searching.inj heq
      exact ⟨Nat.zero_le _, Nat.sub_lt h.pos Nat.one_pos⟩
    | searching | scanning => cases hstep
  | next =>
    cases phase with
    | idle =>
      obtain ⟨hvalid, hstep⟩ := ite_none_right_eq_some.1 hstep
      cases hstep
      have hdecodes : Reader.decodes ⟨it, .idle⟩ .next = Reader.parses it := if_pos hvalid
      obtain ⟨hsame, hparses⟩ := parsesTo_parseNextKey it h.restarts_lt (hdecodes ▸ hno.1)
      refine ⟨h.idle hsame fun hvalid ↦ ?_, fun _ ↦ ?_⟩
      · exact hparses.current_lt hvalid
      · have hlt : it.current < it.restarts := of_decide_eq_true hvalid
        have hbehind : it.current < it.nextEntryOffset := h.behind rfl hvalid
        have hrestarts : it.next.restarts = it.restarts := hsame.restarts_eq
        show (if it.next.valid then it.next.restarts - it.next.current else 0) <
          if it.valid then it.restarts - it.current else 0
        rw [if_pos hvalid, hrestarts]
        rcases hparses with ⟨-, hinvalid⟩ | ⟨-, -, hcurrent, -⟩
        · rw [if_neg (by rw [show it.next.valid = false from hinvalid]; decide)]
          omega
        · rw [show it.next.current = it.nextEntryOffset from hcurrent]
          split <;> omega
    | searching | scanning => cases hstep
  | advance =>
    cases phase with
    | idle => cases hstep
    | searching target left right =>
      cases hstep
      have := h.searchRound rfl (of_decide_eq_true hno.2)
      exact ⟨this.1, fun _ ↦ this.2⟩
    | scanning target =>
      cases hstep
      have := h.scanRound rfl hno.1
      exact ⟨this.1, fun _ ↦ this.2⟩

theorem Sound.work_le : r.work ≤ contents.length := by
  rcases r with ⟨it, phase⟩
  have hfits : it.restarts + it.numRestarts * 4 + 4 ≤ contents.length := h.fits
  cases phase with
  | idle => exact work_idle_le.trans (by omega)
  | searching target left right =>
    have hright : right < it.numRestarts := (h.bounds target left right rfl).2
    show right - left + it.restarts + 2 ≤ _
    omega
  | scanning target =>
    show it.restarts - it.nextEntryOffset + 1 ≤ _
    omega

/-- A step reads inside of the block. -/
theorem Sound.stepReadsInside (hno : r.NoOverflow a) : r.StepReadsInside a := by
  have hfits := h.fits
  have hindex : ∀ index ∈ r.restartsRead a, index < r.it.numRestarts := by
    intro index hmem
    rcases r with ⟨it, phase⟩
    cases a with
    | seekToFirst =>
      cases phase with
      | idle =>
        rcases mem_cons.1 hmem with rfl | hmem
        · exact h.pos
        · exact restartsReadFrom_lt hmem
      | searching | scanning => cases hmem
    | seek target => cases phase <;> cases hmem
    | next =>
      cases phase with
      | idle => exact restartsReadFrom_lt (mem_ite_nil_right.1 hmem).2
      | searching | scanning => cases hmem
    | advance =>
      cases phase with
      | idle => cases hmem
      | searching target left right =>
        rw [mem_singleton.1 hmem]
        obtain ⟨hle, hright⟩ := h.bounds target left right rfl
        split
        · rename_i hlt
          exact (middle_bounds hlt (of_decide_eq_true hno.2 hlt)).2.trans_lt hright
        · exact hle.trans_lt hright
      | scanning target => exact restartsReadFrom_lt hmem
  refine ⟨fun offset hoffset shared nonShared valueLength p hdecode ↦ ?_, ?_, fun index hmem ↦ ?_⟩
  · obtain ⟨hlengths, -⟩ := decodeEntry_eq_some hdecode
    have hlt := length_decodeLengths_lt hlengths
    have hle := length_entryAt_le r.it offset
    refine ⟨by omega, by
      omega, fits_of_decodeEntry hdecode ?_ (hno.1 offset hoffset _ _ _ _ hlengths)⟩
    exact hle.trans_lt ((Nat.sub_le _ _).trans_lt h.restarts_lt)
  · rw [h.data_eq]
    omega
  · have := hindex index hmem
    rw [h.data_eq]
    omega

end

/-- The contents of a block are taken to be empty, or its restart array fits in them. -/
theorem blockNew_cases (contents : ByteString) :
    (Block.new contents).size = 0 ∨
      (1 + numRestarts contents contents.length) * 4 ≤ contents.length ∧
        Block.new contents = ⟨contents, contents.length,
          uint32 (contents.length - (1 + numRestarts contents contents.length) * 4)⟩ := by
  rw [Block.new]
  dsimp only
  split
  · exact .inl rfl
  · split
    · exact .inl rfl
    · exact .inr ⟨by omega, rfl⟩

/-- A new iterator meets the invariant. -/
theorem sound_newIterator {it : Iter} (h : (Block.new contents).newIterator = .entries it) :
    Sound contents { it } := by
  rcases blockNew_cases contents with hzero | ⟨hle, hnew⟩
  · rw [Block.newIterator, if_pos (by rw [hzero]; decide)] at h
    cases h
  · rw [hnew, Block.newIterator] at h
    split at h
    · cases h
    · split at h
      · cases h
      · rename_i hnum
        obtain rfl := Iterator.entries.inj h
        have hrestarts :=
          Nat.mod_le (contents.length - (1 + numRestarts contents contents.length) * 4) (2 ^ 32)
        refine ⟨rfl, Nat.mod_lt _ (by decide), ?_, Nat.pos_of_ne_zero hnum, nofun,
          fun _ hvalid ↦ ?_⟩
        · show uint32 _ + numRestarts contents contents.length * 4 + 4 ≤ _
          rw [uint32]
          omega
        · exact absurd (of_decide_eq_true hvalid) (Nat.lt_irrefl _)

/-! ### The steps of a `Seek` -/

section Seek

variable {it : Iter} {target : ByteString}

/-- The loops of a call go on, and no sum overflows. -/
def GoesOnSafely (r : Reader) : Prop :=
  ∀ n, GuardedRun.Along Reader.step Reader.NoOverflow r (replicate n .advance)

theorem GoesOnSafely.step (h : GoesOnSafely r) (hstep : r.step .advance = some r') :
    GoesOnSafely r' :=
  fun n ↦ (h (n + 1)).2 r' hstep

theorem GoesOnSafely.noOverflow (h : GoesOnSafely r) : r.NoOverflow .advance := (h 1).1

theorem run_advance {n : ℕ} {s : Reader} (hstep : r.step .advance = some r')
    (hrun : GuardedRun.run Reader.step r' (replicate n .advance) = some s) :
    GuardedRun.run Reader.step r (replicate (n + 1) .advance) = some s := by
  rw [replicate_succ, GuardedRun.run_cons, hstep]
  exact hrun

/-- The rounds of the binary search end where it does: by induction on their number. -/
theorem exists_run_searching {left right rounds : ℕ}
    (h : Sound contents ⟨it, .searching target left right⟩) (hrounds : right - left ≤ rounds)
    (hsafe : GoesOnSafely ⟨it, .searching target left right⟩) :
    ∃ n, GuardedRun.run Reader.step ⟨it, .searching target left right⟩ (replicate n .advance) =
      some (match it.searchRestarts target rounds left right with
        | none => { it := it.corruptionError }
        | some j => ⟨it.seekToRestartPoint j, .scanning target⟩) := by
  induction rounds generalizing left right with
  | zero =>
    refine ⟨1, run_advance rfl (n := 0) (congrArg some ?_)⟩
    rw [Reader.searchRound, if_neg (by omega)]
    rfl
  | succ rounds ih =>
    have hsum := of_decide_eq_true hsafe.noOverflow.2
    obtain ⟨hround, -⟩ := h.searchRound rfl hsum
    have hnext := hsafe.step rfl
    have hstep : Reader.step ⟨it, .searching target left right⟩ .advance =
        some (Reader.searchRound ⟨it, .searching target left right⟩ target left right) := rfl
    rw [Reader.searchRound] at hround hnext hstep
    rw [Iter.searchRestarts]
    by_cases hlt : left < right
    · obtain ⟨hmid, hmid'⟩ := middle_bounds hlt (hsum hlt)
      rw [if_pos hlt] at hround hnext hstep ⊢
      dsimp only at hround hnext hstep ⊢
      rcases hdecode : decodeEntry (it.entryAt (it.getRestartPoint (middle left right))) with
        _ | ⟨shared, nonShared, valueLength, p⟩ <;> rw [hdecode] at hround hnext hstep <;>
        rw [show decodeEntry (drop (it.getRestartPoint (uint32 (left + right + 1) / 2))
          (take it.restarts it.data)) = _ from hdecode]
      · exact ⟨1, run_advance hstep (n := 0) rfl⟩
      · dsimp only at hround hnext hstep ⊢
        by_cases hshared : shared ≠ 0
        · rw [if_pos hshared] at hstep ⊢
          exact ⟨1, run_advance hstep (n := 0) rfl⟩
        · rw [if_neg hshared] at hround hnext hstep ⊢
          by_cases hkey : p.take nonShared < target
          · rw [if_pos hkey] at hround hnext hstep ⊢
            obtain ⟨n, hn⟩ := ih hround (by omega) hnext
            exact ⟨n + 1, run_advance hstep hn⟩
          · have hpred : uint32 (middle left right + (2 ^ 32 - 1)) = middle left right - 1 := by
              have := hsum hlt
              rw [uint32]
              omega
            rw [if_neg hkey, hpred] at hround hnext hstep
            rw [if_neg hkey]
            obtain ⟨n, hn⟩ := ih hround (by omega) hnext
            exact ⟨n + 1, run_advance hstep hn⟩
    · rw [if_neg hlt] at hstep ⊢
      exact ⟨1, run_advance hstep (n := 0) rfl⟩

/-- The rounds of the linear search end where it does. -/
theorem exists_run_scanning {k : ℕ} (h : Sound contents ⟨it, .scanning target⟩)
    (hk : Reader.work ⟨it, .scanning target⟩ ≤ k) (hsafe : GoesOnSafely ⟨it, .scanning target⟩) :
    ∃ n, GuardedRun.run Reader.step ⟨it, .scanning target⟩ (replicate n .advance) =
      some { it := Iter.scanTo target k it } := by
  induction k generalizing it with
  | zero => exact absurd hk (Nat.not_le.2 (Nat.succ_pos _))
  | succ k ih =>
    obtain ⟨hround, hwork⟩ := h.scanRound rfl hsafe.noOverflow.1
    have hnext := hsafe.step rfl
    have hstep : Reader.step ⟨it, .scanning target⟩ .advance =
        some (Reader.scanRound ⟨it, .scanning target⟩ target) := rfl
    rw [Reader.scanRound] at hround hwork hnext hstep
    rw [Iter.scanTo]
    dsimp only at hround hwork hnext hstep
    rcases hparse : it.parseNextKey with ⟨it', found⟩
    rw [hparse] at hround hwork hnext hstep
    cases found with
    | false => exact ⟨1, run_advance hstep (n := 0) rfl⟩
    | true =>
      dsimp only at hround hwork hnext hstep ⊢
      by_cases hkey : it'.key < target
      · rw [if_pos hkey] at hround hwork hnext hstep ⊢
        obtain ⟨n, hn⟩ := ih hround (Nat.le_of_lt_succ (hwork.trans_le hk)) hnext
        exact ⟨n + 1, run_advance hstep hn⟩
      · rw [if_neg hkey] at hstep ⊢
        exact ⟨1, run_advance hstep (n := 0) rfl⟩

/-- **The steps of a `Seek` end in what `Seek` returns.** -/
theorem exists_run_seek (h : Sound contents { it })
    (hsafe : GoesOnSafely ⟨it, .searching target 0 (it.numRestarts - 1)⟩) :
    ∃ n, GuardedRun.run Reader.step { it } (.seek target :: replicate n .advance) =
      some { it := it.seek target } := by
  have hsound : Sound contents ⟨it, .searching target 0 (it.numRestarts - 1)⟩ :=
    h.of_sameBlock ⟨rfl, rfl, rfl⟩ (fun t left right heq ↦ by
      obtain ⟨-, rfl, rfl⟩ := Phase.searching.inj heq
      exact ⟨Nat.zero_le _, Nat.sub_lt h.pos Nat.one_pos⟩) nofun
  have hrounds : it.numRestarts - 1 - 0 ≤ it.numRestarts := by omega
  obtain ⟨n, hn⟩ := exists_run_searching hsound hrounds hsafe
  rw [Iter.seek]
  cases hsearch : it.searchRestarts target it.numRestarts 0 (it.numRestarts - 1) with
  | none =>
    rw [hsearch] at hn
    exact ⟨n, hn⟩
  | some j =>
    rw [hsearch] at hn
    have hscan : Sound contents ⟨it.seekToRestartPoint j, .scanning target⟩ :=
      h.of_sameBlock (sameBlock_seekToRestartPoint it j) nofun nofun
    have hgoes : GoesOnSafely ⟨it.seekToRestartPoint j, .scanning target⟩ := fun m ↦
      ((GuardedRun.along_append_of_run hn).1 (replicate_add .. ▸ hsafe (n + m))).2
    obtain ⟨m, hm⟩ := exists_run_scanning (k := it.data.length + 1) hscan
      ((hscan.work_le.trans (h.data_eq ▸ le_rfl)).trans (Nat.le_succ _)) hgoes
    refine ⟨n + m, ?_⟩
    rw [replicate_add, ← cons_append, GuardedRun.run_append]
    exact (congrArg (Option.bind · _) hn).trans hm

end Seek

/-- **What an iterator reads lies in the block, and its loops end**, if the sums that are taken in
`uint32` do not overflow. -/
theorem blockReads_safely (contents : ByteString) (actions : List ReadAction)
    (h : ∀ it, (Block.new contents).newIterator = .entries it →
      GuardedRun.Along Reader.step Reader.NoOverflow { it } actions) :
    ReadsSafely contents actions := by
  intro it hit
  have hsound := sound_newIterator hit
  refine ⟨(h it hit).imp_of_invariant (fun hs hno hstep ↦ (hs.step hno hstep).1)
    (fun hs hno ↦ hs.stepReadsInside hno) hsound, ?_⟩
  rintro before steps after rfl hgoesOn hrun
  obtain ⟨s, hrun⟩ := isSome_iff_exists.1 hrun
  obtain ⟨u, hbefore, hsteps⟩ := GuardedRun.run_append_eq_some.1 hrun
  obtain ⟨halong, halong'⟩ := (GuardedRun.along_append_of_run hbefore).1 (h it hit)
  have hu : Sound contents u := GuardedRun.run_invariant_of_along (I := Sound contents)
    (fun _ hs hno hstep ↦ (hs.step hno hstep).1) hsound halong hbefore
  refine (GuardedRun.length_le_of_along (μ := Reader.work) (fun ha hs hno hstep ↦ ?_) hu
    ((GuardedRun.along_append_of_run hsteps).1 halong').1 hsteps).trans hu.work_le
  exact ⟨(hs.step hno hstep).1, (hs.step hno hstep).2 (hgoesOn _ ha)⟩

/-- One entry, of the key `a` and the value `x`. -/
theorem blockReads_safely_oneEntry :
    ReadsSafely [0, 1, 1, 97, 120, 0, 0, 0, 0, 1, 0, 0, 0]
      [.seekToFirst, .next, .seek [97], .advance, .advance, .next] :=
  blockReads_safely _ _ fun it hit ↦ by
    obtain rfl :=
      Iterator.entries.inj
        ((rfl : (Block.new _).newIterator = .entries (Iter.new _ 5 1)).symm.trans hit)
    decide +kernel

/-- An entry whose key has `2 ^ 32 - 1` bytes more than the one before and whose value has one byte
is accepted where no byte is left. -/
theorem not_readsSafely : ¬∀ contents actions, ReadsSafely contents actions := by
  intro h
  have hsafe :=
    (h [0, 255, 255, 255, 255, 15, 1, 0, 0, 0, 0, 1, 0, 0, 0] [.seekToFirst] _ rfl).1.1.1
    0 (by decide +kernel) 0 4294967295 1 [] (by decide +kernel)
  exact absurd hsafe.2.2 (by decide)

end TensorFlowCore.Table
