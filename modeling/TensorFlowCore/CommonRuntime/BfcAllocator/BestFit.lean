import TensorFlowCore.CommonRuntime.BfcAllocator.Representation

/-!
# `FindChunkPtr` is best-fit

The two loops of `FindChunkPtr` go through the bins from the one of the request and through each bin
in the order of its chunks. Since a larger chunk is in no smaller bin, the chunk they stop at is the
least in size and address among all free chunks that are large enough (`firstFit_least`), and there
is none when they find none (`firstFit_eq_none_iff`).
-/

namespace TensorFlowCore.BfcAllocator

open BFCAllocator DoublyLinked ExceptPost GuardedRun List Option

variable {sub : SubAllocator} {a a' : BFCAllocator sub} {rows : ℕ → List ChunkHandle}
  {free : List ChunkHandle} {h : ChunkHandle}

theorem binNumForSize_mono {m n : ℕ} (hmn : m ≤ n) : binNumForSize m ≤ binNumForSize n := by
  have hdiv : max m 256 / kMinAllocationSize ≤ max n 256 / kMinAllocationSize :=
    Nat.div_le_div_right (max_le_max_right 256 hmn)
  have hlog : Nat.log2 (max m 256 / kMinAllocationSize) ≤
      Nat.log2 (max n 256 / kMinAllocationSize) := by
    rw [Nat.log2_eq_log_two, Nat.log2_eq_log_two]
    exact Nat.log_mono_right hdiv
  exact min_le_min_left _ hlog

/-! ### The chunk that the loops stop at -/

theorem BinsOk.binNum_eq (hb : BinsOk a.chunks a.bins) {k : ℕ} (hh : h ∈ a.bins k) :
    k = binNumForSize (a.chunks h).size :=
  (hb.binned h k ((hb.mem k h).1 hh)).2

theorem firstFit_eq_none_iff (hb : BinsOk a.chunks a.bins) {rounded : ℕ} :
    a.firstFit (binNumForSize rounded) rounded = none ↔
      ∀ k, ∀ h ∈ a.bins k, (a.chunks h).size < rounded := by
  rw [firstFit, findSome?_eq_none_iff]
  constructor
  · intro hnone k h hh
    by_contra hsize
    have hk := hb.binNum_eq hh
    have hle : binNumForSize rounded ≤ k := hk ▸ binNumForSize_mono (not_lt.1 hsize)
    have hlt : k < kNumBins := hk ▸ binNumForSize_lt _
    have hfind := map_eq_none_iff.1 (hnone k (mem_range'_1.2 ⟨hle, by omega⟩))
    exact find?_eq_none.1 hfind h hh (decide_eq_true (not_lt.1 hsize))
  · intro hall k _
    refine map_eq_none_iff.2 (find?_eq_none.2 fun h hh ↦ ?_)
    rw [decide_eq_true_iff, not_le]
    exact hall k h hh

/-- Any chunk in a bin that is large enough comes after the one that is found. -/
theorem firstFit_least (hb : BinsOk a.chunks a.bins) {rounded k : ℕ}
    (hfit : a.firstFit (binNumForSize rounded) rounded = some (k, h)) {k' : ℕ} {h' : ChunkHandle}
    (hh' : h' ∈ a.bins k') (hsize : rounded ≤ (a.chunks h').size) :
    h' = h ∨ ChunkLt a.chunks h h' := by
  obtain ⟨before, k₁, after, hrange, hfound, hnone⟩ := findSome?_eq_some_iff.1 hfit
  obtain ⟨h₁, hfind, heq⟩ := map_eq_some_iff.1 hfound
  obtain ⟨rfl, rfl⟩ := Prod.mk.inj heq
  have hk := hb.binNum_eq (mem_of_find?_eq_some hfind)
  have hk' := hb.binNum_eq hh'
  have hmem' : k' ∈ before ++ k₁ :: after := by
    rw [← hrange]
    have hle : binNumForSize rounded ≤ k' := hk' ▸ binNumForSize_mono hsize
    have hlt : k' < kNumBins := hk' ▸ binNumForSize_lt _
    exact mem_range'_1.2 ⟨hle, by omega⟩
  have hsorted : (before ++ k₁ :: after).Pairwise (· < ·) := by
    rw [← hrange]
    exact pairwise_lt_range'
  rcases mem_append.1 hmem' with hbefore | hrest
  · -- the loop has found nothing in this bin
    have hfind' := map_eq_none_iff.1 (hnone k' hbefore)
    exact absurd (decide_eq_true hsize) (find?_eq_none.1 hfind' h' hh')
  rcases mem_cons.1 hrest with rfl | hafter
  · -- the same bin, which is sorted
    obtain ⟨-, l₁, l₂, hbin, hl₁⟩ := find?_eq_some_iff_append.1 hfind
    have hpair := hb.sorted k'
    rw [hbin] at hpair hh'
    rcases mem_append.1 hh' with hmem | hmem
    · have hfalse := hl₁ h' hmem
      rw [decide_eq_true hsize] at hfalse
      cases hfalse
    · exact (mem_cons.1 hmem).imp_right
        ((pairwise_cons.1 (pairwise_append.1 hpair).2.1).1 h')
  · -- a later bin, whose chunks are larger
    have hlt : k₁ < k' := (pairwise_cons.1 (pairwise_append.1 hsorted).2.1).1 k' hafter
    have hsizes : (a.chunks h₁).size < (a.chunks h').size := by
      by_contra hge
      exact (hk' ▸ hk ▸ hlt).not_ge (binNumForSize_mono (not_lt.1 hge))
    right
    rw [ChunkLt, if_pos hsizes.ne]
    exact hsizes

/-! ### Free chunks -/

/-- The chunk belongs to a region and is free: it is neither recycled nor in use. -/
def FreeChunk (a : BFCAllocator sub) (h : ChunkHandle) : Prop :=
  h < a.chunksSize ∧ ¬ (a.chunks h).InUse ∧
    ∃ free, Follows (Chunk.next ∘ a.chunks) a.freeChunksList free ∧ h ∉ free

theorem Rest.freeChunk_iff (hr : Rest a rows free) : FreeChunk a h ↔ ∃ k, h ∈ a.bins k := by
  have hc := hr.core
  constructor
  · rintro ⟨hlt, hfree, free', hfollows, hnot⟩
    obtain rfl : free' = free := hfollows.unique hc.recycled
    have hlive : h ∈ live a.regions rows :=
      (mem_append.1 (hc.perm.mem_iff.2 (mem_range.2 hlt))).resolve_right hnot
    obtain ⟨k, hk⟩ := ne_none_iff_exists'.1 ((hr.settled h hlive).resolve_left hfree)
    exact ⟨k, (hc.bins.mem k h).2 hk⟩
  · rintro ⟨k, hh⟩
    have hk := (hc.bins.mem k h).1 hh
    have hlive := hc.live_of_binned hk
    exact ⟨hc.lt_chunksSize hlive, (hc.bins.binned h k hk).1, free, hc.recycled, fun hmem ↦
      disjoint_of_nodup_append hc.nodup hlive hmem⟩

/-! ### The computation -/

/-- The computation of `FindChunkPtr` after the chunk has been found. -/
theorem findChunkPtr_of_fit {binNum rounded k : ℕ} (numBytes : ℕ)
    (hfit : a.firstFit binNum rounded = some (k, h)) :
    a.findChunkPtr binNum rounded numBytes = a.removeFreeChunkIterFromBin k h >>= fun a₁ ↦
      (if sizeT (rounded * 2) ≤ (a₁.chunks h).size then a₁.splitChunk h rounded else .ok a₁) >>=
        fun a₂ ↦ .ok (some (a₂.chunks h).ptr, a₂.handOut h numBytes) := by
  simp only [findChunkPtr, hfit]
  refine congrArg _ (funext fun a₁ ↦ ?_)
  split
  · rfl
  · rfl

theorem findChunkPtr_of_none {binNum rounded : ℕ} (numBytes : ℕ)
    (hfit : a.firstFit binNum rounded = none) :
    a.findChunkPtr binNum rounded numBytes = .ok (none, a) := by
  simp only [findChunkPtr, hfit]

theorem findChunkPtr_eq_none_iff {binNum rounded numBytes : ℕ} :
    (∃ a', a.findChunkPtr binNum rounded numBytes = .ok (none, a')) ↔
      a.firstFit binNum rounded = none := by
  refine ⟨fun ⟨a', heq⟩ ↦ ?_, fun hnone ↦ ⟨a, findChunkPtr_of_none numBytes hnone⟩⟩
  cases hfit : a.firstFit binNum rounded with
  | none => rfl
  | some x =>
    rw [findChunkPtr_of_fit (k := x.1) (h := x.2) numBytes hfit] at heq
    obtain ⟨a₁, -, heq⟩ := bind_eq_ok_iff.1 heq
    obtain ⟨a₂, -, heq⟩ := bind_eq_ok_iff.1 heq
    exact absurd (Prod.mk.inj (Except.ok.inj heq)).1 (some_ne_none _)

/-- The handle of a new chunk is none of a live one, and the other chunks stay as they are. -/
theorem Core.of_allocateChunk (hc : Core a rows free) (hlive : h ∈ live a.regions rows)
    {hNew : ChunkHandle} {a₁ : BFCAllocator sub} (halloc : a.allocateChunk = .ok (hNew, a₁)) :
    hNew ≠ h ∧ a₁.chunks h = a.chunks h ∧ a₁.nextAllocationId = a.nextAllocationId := by
  unfold BFCAllocator.allocateChunk at halloc
  split at halloc
  next h₁ hlist =>
    cases halloc
    have hrec := hc.recycled
    rw [hlist] at hrec
    refine ⟨?_, rfl, rfl⟩
    rintro rfl
    cases hrec with
    | cons _ => exact disjoint_of_nodup_append hc.nodup hlive mem_cons_self
  next =>
    split at halloc
    · cases halloc
      have hne : a.chunksSize ≠ h := (hc.lt_chunksSize hlive).ne'
      exact ⟨hne, Function.update_of_ne hne.symm _ _, rfl⟩
    · cases halloc

theorem linkNewChunk_ptr_size {hNew : ChunkHandle} (newPtr numBytes : ℕ) (hne : hNew ≠ h) :
    ((a.linkNewChunk h hNew newPtr numBytes).chunks h).ptr = (a.chunks h).ptr ∧
      ((a.linkNewChunk h hNew newPtr numBytes).chunks h).size = numBytes := by
  rcases hnext : (a.chunks h).next with - | n
  · simp [linkNewChunk, setPrev, modifyChunk, hnext, hne.symm]
  · by_cases hnh : n = h
    · simp [linkNewChunk, setPrev, modifyChunk, hnext, hne.symm, hnh]
    · simp [linkNewChunk, setPrev, modifyChunk, hnext, hne.symm, Ne.symm hnh]

theorem of_insertFreeChunkIntoBin {h' : ChunkHandle} (hne : h' ≠ h)
    (hinsert : a.insertFreeChunkIntoBin h' = .ok a') :
    a'.chunks h = a.chunks h ∧ a'.nextAllocationId = a.nextAllocationId := by
  obtain ⟨-, -, hinsert⟩ := bind_eq_ok_iff.1 hinsert
  cases hinsert
  exact ⟨Function.update_of_ne hne.symm _ _, rfl⟩

/-- A split that returns leaves the chunk at its address, with the size asked for. -/
theorem Core.of_splitChunk (hc : Core a rows free) (hlive : h ∈ live a.regions rows) {n : ℕ}
    (hsplit : a.splitChunk h n = .ok a') :
    (a'.chunks h).ptr = (a.chunks h).ptr ∧ (a'.chunks h).size = n ∧
      a'.nextAllocationId = a.nextAllocationId := by
  obtain ⟨⟨hNew, a₁⟩, halloc, hsplit⟩ := bind_eq_ok_iff.1 hsplit
  obtain ⟨hne, hchunk, hid⟩ := hc.of_allocateChunk hlive halloc
  obtain ⟨-, -, hsplit⟩ := bind_eq_ok_iff.1 hsplit
  obtain ⟨regions, -, hinsert⟩ := bind_eq_ok_iff.1 hsplit
  obtain ⟨hchunk', hid'⟩ := of_insertFreeChunkIntoBin hne hinsert
  obtain ⟨hptr, hsize⟩ :=
    linkNewChunk_ptr_size (a := { a₁ with regions }) (sizeT ((a₁.chunks h).ptr + n)) n hne
  refine ⟨?_, ?_, hid'.trans hid⟩
  · rw [hchunk', ← hchunk]
    exact hptr
  · rw [hchunk']
    exact hsize

/-! ### What is handed out -/

/-- What `FindChunkPtr` has to do for a request of `rounded` bytes: to return null exactly when no
free chunk is large enough, and otherwise to hand out the first of these in the order of sizes and
addresses, cut down to less than twice the request. -/
structure FindsBestFit (a : BFCAllocator sub) (rounded : ℕ) : Prop where
  null_iff : ∀ numBytes, (∃ a', a.findChunkPtr (binNumForSize rounded) rounded numBytes =
    .ok (none, a')) ↔
    ∀ h, FreeChunk a h → (a.chunks h).size < rounded
  best : ∀ numBytes p a', a.findChunkPtr (binNumForSize rounded) rounded numBytes =
    .ok (some p, a') →
    ∃ h, FreeChunk a h ∧ rounded ≤ (a.chunks h).size ∧
      (∀ h', FreeChunk a h' → rounded ≤ (a.chunks h').size → h' = h ∨ ChunkLt a.chunks h h') ∧
      (a.chunks h).ptr = p ∧ (a'.chunks h).InUse ∧ (a'.chunks h).ptr = p ∧
      rounded ≤ (a'.chunks h).size ∧ (a'.chunks h).size < 2 * rounded

/-- The bins are searched upwards, and each of them from its smallest chunk. -/
theorem Rest.findsBestFit (hr : Rest a rows free) {rounded : ℕ} (hpos : 0 < rounded) :
    FindsBestFit a rounded := by
  have hbins := hr.core.bins
  refine ⟨fun numBytes ↦ ?_, fun numBytes p a' heq ↦ ?_⟩
  · rw [findChunkPtr_eq_none_iff, firstFit_eq_none_iff hbins]
    exact ⟨fun hall h hfree ↦ (hr.freeChunk_iff.1 hfree).elim fun k hk ↦ hall k h hk,
      fun hall k h hk ↦ hall h (hr.freeChunk_iff.2 ⟨k, hk⟩)⟩
  cases hfit : a.firstFit (binNumForSize rounded) rounded with
  | none =>
    rw [findChunkPtr_of_none numBytes hfit] at heq
    cases heq
  | some x =>
    obtain ⟨k, h⟩ := x
    obtain ⟨hmem, hsize⟩ := firstFit_some hfit
    obtain ⟨a₁, ha₁, hre, hd⟩ := hr.detach hmem hsize
    rw [findChunkPtr_of_fit numBytes hfit, ha₁, ok_bind] at heq
    obtain ⟨a₂, ha₂, heq⟩ := bind_eq_ok_iff.1 heq
    obtain ⟨hp, rfl⟩ := Prod.mk.inj (Except.ok.inj heq)
    have hptr₁ : (a₁.chunks h).ptr = (a.chunks h).ptr := congrFun hre.ptr h
    -- a chunk that is not split is smaller than two requests
    obtain ⟨hptr₂, hle₂, hlt₂, hid₂⟩ : (a₂.chunks h).ptr = (a₁.chunks h).ptr ∧
      rounded ≤ (a₂.chunks h).size ∧
        (a₂.chunks h).size < 2 * rounded ∧ a₂.nextAllocationId = a₁.nextAllocationId := by
      have hlt := hd.core.size_lt hd.live
      split at ha₂
      · obtain ⟨hptr, hsize₂, hid⟩ := hd.core.of_splitChunk hd.live ha₂
        exact ⟨hptr, by omega, by omega, hid⟩
      next hsplit =>
        cases ha₂
        have hle := hd.size_le
        rw [sizeT_of_lt (by omega)] at hsplit
        exact ⟨rfl, hle, by omega, rfl⟩
    have hout : (a₂.handOut h numBytes).chunks h =
        { a₂.chunks h with requestedSize := numBytes, allocationId := a₂.nextAllocationId } :=
      Function.update_self _ _ _
    refine ⟨h, hr.freeChunk_iff.2 ⟨k, hmem⟩, hsize, fun h' hfree hsize' ↦ ?_, ?_, ?_, ?_, ?_⟩
    · obtain ⟨k', hk'⟩ := hr.freeChunk_iff.1 hfree
      exact firstFit_least hbins hfit hk' hsize'
    · rw [← some.inj hp, hptr₂, hptr₁]
    · rw [hout]
      show a₂.nextAllocationId ≠ -1
      rw [hid₂]
      exact (hd.core.id_pos.trans' (by decide)).ne'
    · rw [hout]
      exact some.inj hp
    · rw [hout]
      exact ⟨hle₂, hlt₂⟩

/-- **`FindChunkPtr` is best-fit in every state of a run** whose requests can be rounded up, for
every request of at least one byte. -/
theorem findsBestFit_of_run {totalMemory fuel rounded : ℕ} {allowGrowth : Bool} {cs : List Call}
    {s : Client sub} (htotal : totalMemory < 2 ^ 64) (hfits : ∀ c ∈ cs, FitsRounding c)
    (hrun : run (Client.step fuel) (Client.init sub totalMemory allowGrowth) cs = some s)
    (hpos : 0 < rounded) : FindsBestFit s.allocator rounded := by
  obtain ⟨rows, free, hr⟩ := ((ClientInvariant.init htotal allowGrowth).run hfits hrun).rest
  exact hr.findsBestFit hpos

/-- A request of 512 bytes after two allocations and a deallocation. -/
theorem findsBestFit_mebibyte :
    ∃ s : Client .mebibyte, run (Client.step 1) (Client.init .mebibyte (2 ^ 20) true)
        [.allocateRaw 300, .allocateRaw 5000, .deallocateRaw 4096] = some s ∧
      FindsBestFit s.allocator 512 := by
  obtain ⟨s, hs⟩ := isSome_iff_exists.1 (show (run (Client.step 1)
    (Client.init .mebibyte (2 ^ 20) true)
    [.allocateRaw 300, .allocateRaw 5000, .deallocateRaw 4096]).isSome by decide +kernel)
  exact ⟨s, hs, findsBestFit_of_run (by norm_num) (by simp [FitsRounding]) hs (by norm_num)⟩

/-- `RoundedBytes` maps the largest requests to 0, and the chunk for these is not smaller than 0
bytes. -/
theorem not_findsBestFit_overflow :
    ∃ s : Client .mebibyte, run (Client.step 1) (Client.init .mebibyte (2 ^ 20) true)
        [.allocateRaw 300] = some s ∧
      ¬ FindsBestFit s.allocator (roundedBytes (2 ^ 64 - 255)) := by
  obtain ⟨s, hs⟩ := isSome_iff_exists.1 (show (run (Client.step 1)
    (Client.init .mebibyte (2 ^ 20) true) [.allocateRaw 300]).isSome by decide +kernel)
  refine ⟨s, hs, fun hbest ↦ ?_⟩
  have hzero : roundedBytes (2 ^ 64 - 255) = 0 := by decide +kernel
  rw [hzero] at hbest
  have hdata : ((run (Client.step 1) (Client.init .mebibyte (2 ^ 20) true) [.allocateRaw 300]).bind
    fun s ↦
      (s.allocator.findChunkPtr (binNumForSize 0) 0 (2 ^ 64 - 255)).toOption.bind
        Prod.fst).isSome := by
    decide +kernel
  rw [hs, bind_some] at hdata
  obtain ⟨p, hp⟩ := isSome_iff_exists.1 hdata
  obtain ⟨⟨q, a'⟩, ha', hq⟩ := bind_eq_some_iff.1 hp
  obtain rfl : q = some p := hq
  cases hx : s.allocator.findChunkPtr (binNumForSize 0) 0 (2 ^ 64 - 255) with
  | error e =>
    rw [hx] at ha'
    cases ha'
  | ok x =>
    rw [hx] at ha'
    obtain rfl : x = (some p, a') := some.inj ha'
    obtain ⟨h, -, -, -, -, -, -, -, hlt⟩ := hbest.best _ p a' hx
    exact Nat.not_lt_zero _ hlt

end TensorFlowCore.BfcAllocator
