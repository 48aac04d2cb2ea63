import TensorFlowCore.CommonRuntime.BfcAllocator.Edits

/-!
# The operations on chunks keep the invariant

`InsertFreeChunkIntoBin`, `RemoveFreeChunkFromBin`, `AllocateChunk`, `SplitChunk`, `Merge` and the
end of `Extend`, each against `Core`. The checks in the source never fail here; what can fail is the
entry of an address in `handles_` and the number of chunks, and both only beyond `Bounded`.
-/

namespace TensorFlowCore.BfcAllocator

open AllocationRegion BFCAllocator DoublyLinked ExceptPost Function List Tiling

variable {sub : SubAllocator} {a a' : BFCAllocator sub} {rows : ℕ → List ChunkHandle}
  {free : List ChunkHandle} {h : ChunkHandle}

/-- `Core` for a state of the same shape. -/
theorem Core.of_sameShape (hc : Core a rows free) (hs : SameShape a a')
    (hidle : ∀ h, h ∉ live a.regions rows → allocIds a' h = -1 ∧ binNums a' h = none)
    (hbins : BinsOk a'.chunks a'.bins) (hid : 0 < a'.nextAllocationId)
    (hbytes : a'.stats.bytesInUse = ∑ h ∈ Finset.range a.chunksSize, usedSize (a'.chunks h)) :
    Core a' rows free where
  geometry := by
    have hg := hc.geometry
    rw [hs.regions]
    refine ⟨hg.sorted, hg.inSpace, ?_, ?_⟩
    · rw [hs.ptr, hs.size]
      exact hg.tiles
    · rw [hs.next, hs.prev]
      exact hg.linked
  handles := by
    rw [hs.regions, hs.ptr, Bounded, hs.memoryLimit]
    exact hc.handles
  recycled := by
    rw [hs.next, hs.freeChunksList]
    exact hc.recycled
  perm := by
    rw [hs.regions, hs.chunksSize]
    exact hc.perm
  idle h hh := by
    rw [hs.regions] at hh
    obtain ⟨h₁, h₂⟩ := hidle h hh
    exact ⟨not_not.2 h₁, h₂⟩
  bins := hbins
  accounts := by
    have ha := hc.accounts
    refine ⟨?_, ?_, ?_, ?_, ?_, ?_⟩
    · rw [hs.regions, hs.suballocator]
      exact ha.granted
    · rw [hs.total, hs.regions]
      exact ha.total
    · rw [hs.total, hs.memoryLimit]
      exact ha.total_le
    · rw [hs.memoryLimit]
      exact ha.limit_lt
    · rw [hs.curr]
      exact ha.curr_lt
    · rw [hs.curr]
      exact ha.curr_dvd
  id_pos := hid
  bytesInUse := by rw [hs.chunksSize, hbytes]

/-! ### Bins -/

/-- The only change is that the chunk `h` is filed under `b`. -/
structure Refiled (a a' : BFCAllocator sub) (h : ChunkHandle) (b : Option ℕ) : Prop
    extends SameShape a a' where
  allocIds_eq : allocIds a' = allocIds a
  binNums_eq : binNums a' = Function.update (binNums a) h b

/-- File the chunk `h` under `b`, with what is left of the bins. -/
theorem Core.refile (hc : Core a rows free) {b : Option ℕ} {bins : ℕ → List ChunkHandle}
    (hlive : h ∈ live a.regions rows)
    (hbins : BinsOk (Function.update a.chunks h { a.chunks h with binNum := b }) bins) :
    Core { a with
      chunks := Function.update a.chunks h { a.chunks h with binNum := b }, bins := bins }
      rows free ∧
    Refiled a { a with
      chunks := Function.update a.chunks h { a.chunks h with binNum := b }, bins := bins } h b := by
  have hs : SameShape a { a with
      chunks := update a.chunks h { a.chunks h with binNum := b }, bins := bins } :=
    ⟨rfl, rfl, rfl, rfl, rfl, rfl, rfl, comp_update_self rfl, comp_update_self rfl,
      comp_update_self rfl, comp_update_self rfl⟩
  have hids : allocIds { a with
      chunks := update a.chunks h { a.chunks h with binNum := b }, bins := bins } =
      allocIds a := comp_update_self rfl
  refine ⟨hc.of_sameShape hs (fun x hx ↦ ⟨?_, ?_⟩) hbins hc.id_pos ?_, hs, hids, ?_⟩
  · rw [hids]
    exact not_not.1 (hc.idle x hx).1
  · have hne : x ≠ h := by
      rintro rfl
      exact hx hlive
    simp only [binNums, comp_apply, update_of_ne hne]
    exact (hc.idle x hx).2
  · have : usedSize ∘ update a.chunks h { a.chunks h with binNum := b } =
        usedSize ∘ a.chunks := comp_update_self rfl
    rw [hc.bytesInUse]
    exact Finset.sum_congr rfl fun x _ ↦ (congrFun this x).symm
  · exact comp_update _ _ _ _

/-- A chunk leaves its bin, and nothing else changes. -/
theorem Core.removeFreeChunkIterFromBin (hc : Core a rows free) {k : ℕ} (hh : h ∈ a.bins k) :
    ∃ a', a.removeFreeChunkIterFromBin k h = .ok a' ∧ Core a' rows free ∧ Refiled a a' h none := by
  have hk := (hc.bins.mem k h).1 hh
  have hnodup : (a.bins k).Nodup := (hc.bins.sorted k).imp fun {x y} hlt heq ↦ by
    subst heq
    exact Std.Irrefl.irrefl _ hlt
  have hsorted : ((a.bins k).erase h).Pairwise (ChunkLt a.chunks) :=
    (hc.bins.sorted k).sublist erase_sublist
  have hmem : ∀ x, x ∈ (a.bins k).erase h ↔ x ∈ a.bins k ∧ x ≠ h := fun x ↦ by
    rw [hnodup.mem_erase_iff]
    exact and_comm
  refine ⟨_, ?_, hc.refile (hc.live_of_binned hk) (hc.bins.unbin hk hsorted hmem)⟩
  have hcheck : ¬ (a.chunks h).InUse ∧ (a.chunks h).binNum ≠ none :=
    ⟨(hc.bins.binned h k hk).1, by simp [hk]⟩
  rw [BFCAllocator.removeFreeChunkIterFromBin, check_of hcheck]
  rfl

theorem Core.removeFreeChunkFromBin (hc : Core a rows free) (hb : (a.chunks h).binNum ≠ none) :
    ∃ a', a.removeFreeChunkFromBin h = .ok a' ∧ Core a' rows free ∧ Refiled a a' h none := by
  obtain ⟨k, hk⟩ := Option.ne_none_iff_exists'.1 hb
  obtain ⟨l, hl, hsorted, hmem⟩ :=
    OrderedSet.exists_erase_eq_some (hc.bins.sorted k) ((hc.bins.mem k h).2 hk)
  refine ⟨_, ?_, hc.refile (hc.live_of_binned hk) (hc.bins.unbin hk hsorted hmem)⟩
  simp only [BFCAllocator.removeFreeChunkFromBin, check_of (hc.bins.binned h k hk).1, hk, hl]
  rfl

/-- A free chunk that is in no bin gets into the one of its size. -/
theorem Core.insertFreeChunkIntoBin (hc : Core a rows free) (hlive : h ∈ live a.regions rows)
    (hfree : ¬ (a.chunks h).InUse) (hnone : (a.chunks h).binNum = none) :
    ∃ a', a.insertFreeChunkIntoBin h = .ok a' ∧ Core a' rows free ∧
      Refiled a a' h (some (binNumForSize (a.chunks h).size)) := by
  refine ⟨_, ?_, hc.refile hlive (hc.bins.bin hfree hnone fun x hx heq ↦ ?_)⟩
  · have hcheck : ¬ (a.chunks h).InUse ∧ (a.chunks h).binNum = none := ⟨hfree, hnone⟩
    rw [BFCAllocator.insertFreeChunkIntoBin, check_of hcheck]
    rfl
  · obtain ⟨k, hk⟩ := Option.ne_none_iff_exists'.1 hx
    rw [hc.ptr_inj (hc.live_of_binned hk) hlive heq, hnone] at hk
    cases hk

/-! ### Handles -/

/-- What `AllocateChunk` gives: a handle `h` that is neither in a row nor recycled any more, and a
state `a₁` that differs only there. -/
structure FreshHandle (a : BFCAllocator sub) (rows : ℕ → List ChunkHandle)
    (free : List ChunkHandle) (h : ChunkHandle) (a₁ : BFCAllocator sub) : Prop where
  eq : a₁ = { a with
    chunks := a₁.chunks, freeChunksList := a₁.freeChunksList, chunksSize := a₁.chunksSize }
  other : ∀ x, x ≠ h → a₁.chunks x = a.chunks x
  id : (a₁.chunks h).allocationId = -1
  bin : (a₁.chunks h).binNum = none
  recycled : Follows (Chunk.next ∘ a₁.chunks) a₁.freeChunksList free
  perm : (live a.regions rows ++ h :: free).Perm (List.range a₁.chunksSize)
  size_le : a.chunksSize ≤ a₁.chunksSize

section

variable {a₁ : BFCAllocator sub} (hf : FreshHandle a rows free h a₁)
include hf

theorem FreshHandle.regions_eq : a₁.regions = a.regions := by
  rw [hf.eq]

theorem FreshHandle.memoryLimit_eq : a₁.memoryLimit = a.memoryLimit := by
  rw [hf.eq]

/-- A handle that `AllocateChunk` returns is neither in use nor free to be recycled. -/
theorem FreshHandle.not_mem : h ∉ live a.regions rows ∧ h ∉ free := by
  have hnodup : (live a.regions rows ++ h :: free).Nodup := hf.perm.nodup_iff.2 nodup_range
  rw [nodup_middle, nodup_cons, mem_append, not_or] at hnodup
  exact hnodup.1

end

/-- A handle is recycled or new; only running out of `int` handles is excused. -/
theorem Core.allocateChunk (hc : Core a rows free)
    (hroom : Bounded a → free = [] → a.chunksSize + 1 < 2 ^ 31) :
    Post a.allocateChunk (fun x ↦ ∃ free', FreshHandle a rows free' x.1 x.2) (Excused a) := by
  have hrec := hc.recycled
  rcases hlist : a.freeChunksList with - | h
  · -- no recycled handle: the vector grows
    rw [hlist] at hrec
    cases hrec
    have hperm := hc.perm
    rw [append_nil] at hperm
    by_cases hlt : a.chunksSize + 1 < 2 ^ 31
    · have hother : ∀ x, x ≠ a.chunksSize →
          update a.chunks a.chunksSize {} x = a.chunks x := fun x hx ↦
        update_of_ne hx _ _
      simp only [allocateChunk, hlist, if_pos hlt, post_ok]
      refine ⟨[], ⟨rfl, hother, ?_, ?_, .nil, ?_, ?_⟩⟩
      · simp
      · simp
      · rw [range_succ]
        exact hperm.append_right _
      · exact Nat.le_succ _
    · simp only [allocateChunk, hlist, if_neg hlt, post_error]
      exact fun _ hb ↦ hlt (hroom hb rfl)
  · rw [hlist] at hrec
    cases hrec with
    | @cons h free' hrec =>
      have hidle : h ∉ live a.regions rows := fun hh ↦
        (disjoint_of_nodup_append hc.nodup) hh mem_cons_self
      obtain ⟨huse, hbin⟩ := hc.idle h hidle
      simp only [allocateChunk, hlist, post_ok]
      exact ⟨free', ⟨rfl, fun x _ ↦ rfl, not_not.1 huse, hbin, hrec, hc.perm, le_rfl⟩⟩

section

variable {r : AllocationRegion} {p : ℕ} (hc : Core a rows free) (hr : r ∈ a.regions)
  (hp : r.Contains p)
include hc hr hp

/-- The entry of an address of a region is found, within the memory limit. -/
theorem Core.post_slot : Post (r.slot p) (fun i ↦ r.slot p = .ok i) (Excused a) := by
  refine ⟨fun h ↦ h, fun {e} h ↦ ?_⟩
  rintro - hb
  rw [hc.slot_eq hb hr hp] at h
  cases h

/-- Setting a handle in range changes one entry; else it dies with the excuse of `Excused`. -/
theorem Core.post_setHandle (o : Option ChunkHandle) : Post (setHandle p o a.regions)
      (fun regions ↦ ∃ i, r.slot p = .ok i ∧ regions = a.regions.map (setEntry r.ptr i o))
      (Excused a) := by
  rw [setHandle_eq hc.geometry.sorted hc.geometry.inSpace hr hp]
  exact (hc.post_slot hr hp).map fun i hi ↦ ⟨i, hi, rfl⟩

end

/-- `Core` after a change of rows: chunks that are in use or in a bin are not resized. -/
theorem Core.assemble (hc : Core a rows free) {rows' : ℕ → List ChunkHandle}
    {free' : List ChunkHandle} (hlimit : a'.memoryLimit = a.memoryLimit)
    (hstats : a'.stats = a.stats) (hid : a'.nextAllocationId = a.nextAllocationId)
    (hbins : a'.bins = a.bins) (hacc : Accounts a') (hg : Geometry a'.regions rows' a'.chunks)
    (hh : HandlesOk (Bounded a) a'.regions rows' (Chunk.ptr ∘ a'.chunks))
    (hrec : Follows (Chunk.next ∘ a'.chunks) a'.freeChunksList free')
    (hperm : (live a'.regions rows' ++ free').Perm (List.range a'.chunksSize))
    (hle : a.chunksSize ≤ a'.chunksSize) (hids : allocIds a' = allocIds a)
    (hnums : binNums a' = binNums a)
    (hidle : ∀ x, x ∉ live a'.regions rows' → ¬ (a.chunks x).InUse ∧ (a.chunks x).binNum = none)
    (hkept : ∀ x, (a.chunks x).InUse ∨ (a.chunks x).binNum ≠ none →
      (a'.chunks x).size = (a.chunks x).size ∧ (a'.chunks x).ptr = (a.chunks x).ptr) :
    Core a' rows' free' := by
  have hid' : ∀ x, (a'.chunks x).allocationId = (a.chunks x).allocationId := congrFun hids
  have hnum' : ∀ x, (a'.chunks x).binNum = (a.chunks x).binNum := congrFun hnums
  refine ⟨hg, ?_, hrec, hperm, fun x hx ↦ ?_, ?_, hacc, hid ▸ hc.id_pos, ?_⟩
  · rwa [Bounded, hlimit]
  · rw [Chunk.InUse, hid', hnum']
    exact hidle x hx
  · rw [hbins]
    refine hc.bins.congr hnums fun x hx ↦ ?_
    obtain ⟨hs, hp⟩ := hkept x (Or.inr hx)
    exact ⟨hs, hp, hid' x⟩
  · have hused : ∀ x, usedSize (a'.chunks x) = usedSize (a.chunks x) := by
      intro x
      by_cases huse : (a.chunks x).InUse
      · have huse' : (a'.chunks x).InUse := by rwa [Chunk.InUse, hid']
        rw [usedSize, usedSize, if_pos huse, if_pos huse', (hkept x (Or.inl huse)).1]
      · rw [usedSize, usedSize, if_neg huse, if_neg (by rwa [Chunk.InUse, hid'])]
    rw [hstats, hc.bytesInUse]
    -- handles beyond the old size are not in use
    refine (Finset.sum_subset (Finset.range_subset_range.2 hle) fun x _ hx ↦ ?_).trans
      (Finset.sum_congr rfl fun x _ ↦ (hused x).symm)
    have hnotLive : x ∉ live a.regions rows := fun hlive ↦
      hx (Finset.mem_range.2 (hc.lt_chunksSize hlive))
    rw [usedSize, if_neg (hc.idle x hnotLive).1]

/-! ### Splitting a chunk -/

/-- What `linkNewChunk` leaves of the chunk with handle `x`. -/
structure LinkedChunk (a a' : BFCAllocator sub) (h hNew : ChunkHandle) (numBytes : ℕ)
    (x : ChunkHandle) : Prop where
  ptr : (a'.chunks x).ptr = (a.chunks x).ptr
  size : (a'.chunks x).size = if x = h then numBytes else (a.chunks x).size
  allocationId : (a'.chunks x).allocationId = (a.chunks x).allocationId
  binNum : (a'.chunks x).binNum = (a.chunks x).binNum
  next : (a'.chunks x).next = if x = h then some hNew else (a.chunks x).next
  prev : (a'.chunks x).prev = if (a.chunks h).next = some x then some hNew else (a.chunks x).prev

/-- The new chunk of a split lies between `h` and the chunk that followed it. -/
theorem linkNewChunk_new {hNew : ChunkHandle} {newPtr numBytes : ℕ} (hne : hNew ≠ h)
    (hnb : (a.chunks h).next ≠ some hNew) :
    (a.linkNewChunk h hNew newPtr numBytes).chunks hNew =
      { a.chunks hNew with
        ptr := newPtr
        size := subSizeT (a.chunks h).size numBytes
        allocationId := -1
        prev := some h
        next := (a.chunks h).next } := by
  rcases hnext : (a.chunks h).next with - | n
  · simp [linkNewChunk, setPrev, modifyChunk, hnext, hne]
  · have : hNew ≠ n := fun heq ↦ hnb (heq ▸ hnext)
    simp [linkNewChunk, setPrev, modifyChunk, hnext, hne, this]

/-- A split changes no other chunk than `h` and the neighbour that gets a new `prev`. -/
theorem linkNewChunk_old {hNew : ChunkHandle} {newPtr numBytes : ℕ} (hne : hNew ≠ h)
    (hnb : (a.chunks h).next ≠ some h) {x : ChunkHandle} (hx : x ≠ hNew) :
    LinkedChunk a (a.linkNewChunk h hNew newPtr numBytes) h hNew numBytes x := by
  rcases hnext : (a.chunks h).next with - | n
  · by_cases hxh : x = h
    · subst hxh
      constructor <;>
        simp [linkNewChunk, setPrev, modifyChunk, hnext, hx]
    · constructor <;>
        simp [linkNewChunk, setPrev, modifyChunk, hnext, hx, hxh]
  · have hnh : n ≠ h := fun heq ↦ hnb (heq ▸ hnext)
    by_cases hxn : x = n
    · subst hxn
      constructor <;>
        simp [linkNewChunk, setPrev, modifyChunk, hnext, hx, hnh]
    · by_cases hxh : x = h
      · subst hxh
        constructor <;>
          simp [linkNewChunk, setPrev, modifyChunk, hnext, hx, hxn, Ne.symm hxn]
      · constructor <;>
          simp [linkNewChunk, setPrev, modifyChunk, hnext, hx, hxh, hxn, Ne.symm hxn]

section Split

variable {r : AllocationRegion} {l₁ l₂ : List ChunkHandle}

section

variable (hc : Core a rows free) (hr : r ∈ a.regions)
include hc hr

/-- A chunk of a row, and what the row says about its neighbours. -/
theorem Core.row_links (hrow : rows r.ptr = l₁ ++ h :: l₂) :
    (a.chunks h).next = l₂.head? ∧ (a.chunks h).prev = l₁.getLast? :=
  hc.geometry.linked r hr l₁ h l₂ hrow

theorem Core.row_nodup : (rows r.ptr).Nodup := by
  obtain ⟨rest, hrest, -⟩ := exists_rest hc.geometry.sorted hc.geometry.inSpace hr rows
  have hold := hrest (rows r.ptr)
  rw [update_eq_self] at hold
  exact (nodup_append.1 (hold.nodup_iff.1 (nodup_append.1 hc.nodup).1)).1

/-- A chunk of one row is in no other. -/
theorem Core.row_disjoint {r' : AllocationRegion} (hr' : r' ∈ a.regions) (hne : r'.ptr ≠ r.ptr)
    {x y : ChunkHandle} (hx : x ∈ rows r.ptr) (hy : y ∈ rows r'.ptr) : y ≠ x := by
  obtain ⟨rest, hrest, hmem⟩ := exists_rest hc.geometry.sorted hc.geometry.inSpace hr rows
  have hold := hrest (rows r.ptr)
  rw [update_eq_self] at hold
  have hnodup := hold.nodup_iff.1 (nodup_append.1 hc.nodup).1
  rintro rfl
  exact disjoint_of_nodup_append hnodup hx (hmem r' hr' hne y hy)

end

variable {hNew : ChunkHandle} {free' : List ChunkHandle} {a₁ : BFCAllocator sub} {n i : ℕ}

/-- The states before and after the chunk `h` is cut after `n` bytes, as far as chunks go. -/
structure SplitOff (a a' : BFCAllocator sub) (h hNew : ChunkHandle) (n : ℕ) : Prop where
  old : ∀ x, x ≠ hNew → LinkedChunk a a' h hNew n x
  ptr : (a'.chunks hNew).ptr = (a.chunks h).ptr + n
  size : (a'.chunks hNew).size = (a.chunks h).size - n
  allocationId : (a'.chunks hNew).allocationId = -1
  binNum : (a'.chunks hNew).binNum = none
  next : (a'.chunks hNew).next = (a.chunks h).next
  prev : (a'.chunks hNew).prev = some h

/-- A split of `h` at `n`, once the handle is set: two chunks in place of one. -/
theorem FreshHandle.splitOff (hf : FreshHandle a rows free' hNew a₁) (hne : hNew ≠ h)
    (hnbh : (a.chunks h).next ≠ some h) (hnbNew : (a.chunks h).next ≠ some hNew)
    (hlt : n < (a.chunks h).size) (hsize : (a.chunks h).size < 2 ^ 64)
    {regions : List AllocationRegion}
    (ha' : a' = { a₁ with regions := regions }.linkNewChunk h hNew ((a.chunks h).ptr + n) n) :
    SplitOff a a' h hNew n := by
  set a₀ := { a₁ with regions := regions }
  have hh : a₀.chunks h = a.chunks h := hf.other h hne.symm
  have hnew : a'.chunks hNew = { a₁.chunks hNew with
      ptr := (a.chunks h).ptr + n
      size := (a.chunks h).size - n
      allocationId := -1
      prev := some h
      next := (a.chunks h).next } := by
    rw [ha', linkNewChunk_new hne (by rwa [hh]), hh, subSizeT_of_le hlt.le hsize]
  refine ⟨fun x hx ↦ ?_, by rw [hnew], by rw [hnew], by rw [hnew], by rw [hnew, ← hf.bin],
    by rw [hnew], by rw [hnew]⟩
  have hlinked : LinkedChunk a₀ (a₀.linkNewChunk h hNew ((a.chunks h).ptr + n) n) h hNew n x :=
    linkNewChunk_old hne (by rwa [hh]) hx
  have hx₀ : a₀.chunks x = a.chunks x := hf.other x hx
  rw [← ha'] at hlinked
  obtain ⟨h₁, h₂, h₃, h₄, h₅, h₆⟩ := hlinked
  rw [hx₀] at h₁ h₂ h₃ h₄ h₅ h₆
  rw [hh] at h₆
  exact ⟨h₁, h₂, h₃, h₄, h₅, h₆⟩

/-- The row of the chunk that is cut. -/
theorem SplitOff.row (hs : SplitOff a a' h hNew n) {p q : ℕ}
    (htiles : Tiles kMinAllocationSize (Chunk.ptr ∘ a.chunks) (Chunk.size ∘ a.chunks) p
      (l₁ ++ h :: l₂) q)
    (hlinked : Linked (Chunk.next ∘ a.chunks) (Chunk.prev ∘ a.chunks) (l₁ ++ h :: l₂))
    (hnodup : (l₁ ++ h :: l₂).Nodup) (hold : ∀ x ∈ l₁ ++ h :: l₂, x ≠ hNew) (hn : 0 < n)
    (hlt : n < (a.chunks h).size) (hdvd : kMinAllocationSize ∣ n) :
    Tiles kMinAllocationSize (Chunk.ptr ∘ a'.chunks) (Chunk.size ∘ a'.chunks) p
      (l₁ ++ h :: hNew :: l₂) q ∧
    Linked (Chunk.next ∘ a'.chunks) (Chunk.prev ∘ a'.chunks) (l₁ ++ h :: hNew :: l₂) := by
  constructor
  · refine htiles.split hnodup (fun x hx ↦ (hs.old x (hold x hx)).ptr)
      (fun x hx ↦ (hs.old x (hold x hx)).size) hs.ptr ?_ hn ?_ hdvd
    · rw [comp_apply, comp_apply, hs.size]
      omega
    · rw [comp_apply, hs.size]
      omega
  · exact hlinked.insertAfter hnodup (fun x hx ↦ (hs.old x (hold x hx)).next)
      (fun x hx ↦ (hs.old x (hold x hx)).prev) hs.next hs.prev

/-- Away from the cut chunk, its successor and the new chunk nothing changes. -/
theorem SplitOff.sameLinks (hs : SplitOff a a' h hNew n) {x : ChunkHandle} (hx : x ≠ hNew)
    (hxh : x ≠ h) (hnb : (a.chunks h).next ≠ some x) : SameLinks (a.chunks x) (a'.chunks x) := by
  obtain ⟨h₁, h₂, -, -, h₅, h₆⟩ := hs.old x hx
  rw [if_neg hxh] at h₂ h₅
  rw [if_neg hnb] at h₆
  exact ⟨h₁, h₂, h₅, h₆⟩

/-- The chunk `h` is cut after `n` bytes. -/
theorem Core.linkNewChunk (hc : Core a rows free) (hf : FreshHandle a rows free' hNew a₁)
    (hr : r ∈ a.regions) (hrow : rows r.ptr = l₁ ++ h :: l₂) (hfree : ¬ (a.chunks h).InUse)
    (hnone : (a.chunks h).binNum = none) (hn : 0 < n) (hdvd : kMinAllocationSize ∣ n)
    (hlt : n < (a.chunks h).size) (hi : r.slot ((a.chunks h).ptr + n) = .ok i)
    (ha' : a' = { a₁ with regions := a.regions.map (setEntry r.ptr i (some hNew)) }.linkNewChunk
      h hNew ((a.chunks h).ptr + n) n) :
    Core a' (Function.update rows r.ptr (l₁ ++ h :: hNew :: l₂)) free' ∧
      SplitOff a a' h hNew n ∧ allocIds a' = allocIds a ∧ binNums a' = binNums a := by
  obtain ⟨c₁, f₁, n₁, rfl⟩ : ∃ c f n,
      a₁ = { a with chunks := c, freeChunksList := f, chunksSize := n } := ⟨_, _, _, hf.eq⟩
  have hg := hc.geometry
  obtain ⟨hnotLive, hnotFree⟩ := hf.not_mem
  have hmem : ∀ x ∈ rows r.ptr, x ∈ live a.regions rows := fun x hx ↦ mem_live.2 ⟨r, hr, hx⟩
  have hhrow : h ∈ rows r.ptr := by simp [hrow]
  have hnew : ∀ x ∈ live a.regions rows, x ≠ hNew := fun x hx heq ↦ hnotLive (heq ▸ hx)
  have hnodup := hc.row_nodup hr
  obtain ⟨hnext, -⟩ := hc.row_links hr hrow
  -- the neighbour, if any, is a chunk of the row, after `h`
  have hnb : ∀ x, (a.chunks h).next = some x → x ∈ l₂ := fun x hx ↦
    mem_of_head? (hnext ▸ hx)
  have hnbrow : ∀ x, (a.chunks h).next = some x → x ∈ rows r.ptr := fun x hx ↦ by
    simp [hrow, hnb x hx]
  have hbounds := (hg.tiles r hr).bounds hhrow
  simp only [comp_apply] at hbounds
  have hspace := (hg.inSpace r hr).end_lt
  have hs : SplitOff a a' h hNew n := by
    refine hf.splitOff (hnew h (hmem h hhrow)).symm (fun heq ↦ ?_) (fun heq ↦ ?_) hlt (by omega) ha'
    · rw [hrow] at hnodup
      exact ne_of_mem_after hnodup (hnb h heq) rfl
    · exact hnew hNew (hmem hNew (hnbrow hNew heq)) rfl
  have hids : allocIds a' = allocIds a := by
    funext x
    by_cases hx : x = hNew
    · subst hx
      exact hs.allocationId.trans (not_not.1 (hc.idle x hnotLive).1).symm
    · exact (hs.old x hx).allocationId
  have hnums : binNums a' = binNums a := by
    funext x
    by_cases hx : x = hNew
    · subst hx
      exact hs.binNum.trans (hc.idle x hnotLive).2.symm
    · exact (hs.old x hx).binNum
  have hregions : a'.regions = a.regions.map (setEntry r.ptr i (some hNew)) := by rw [ha']; rfl
  have hlive : (live a'.regions (update rows r.ptr (l₁ ++ h :: hNew :: l₂))).Perm
      (hNew :: live a.regions rows) := by
    rw [hregions, live_map_setEntry]
    refine live_update_perm hg.sorted hg.inSpace hr ?_
    rw [hrow]
    exact (perm_middle.cons h).trans ((Perm.swap _ _ _).trans
      (perm_middle.symm.cons hNew)) |> perm_middle.trans
  refine ⟨hc.assemble ?_ ?_ ?_ ?_ ?_ ?_ ?_ ?_ ?_ ?_ hids hnums ?_ ?_, hs, hids, hnums⟩
  iterate 4
    · rw [ha']
      rfl
  · refine hc.accounts.map_setEntry hregions ?_ ?_ ?_ ?_ <;> rw [ha'] <;> rfl
  · rw [hregions]
    have ht := hg.tiles r hr
    have hl := hg.linked r hr
    rw [hrow] at ht hl hnodup
    obtain ⟨ht', hl'⟩ := hs.row ht hl hnodup (fun x hx ↦ hnew x (hmem x (hrow ▸ hx))) hn hlt hdvd
    refine hg.edit (fun r' hr' hne x hx ↦ ?_) ht' hl' hr
    exact hs.sameLinks (hnew x (mem_live.2 ⟨r', hr', hx⟩)) (hc.row_disjoint hr hr' hne hhrow hx)
      fun heq ↦ hc.row_disjoint hr hr' hne (hnbrow x heq) hx rfl
  · rw [hregions]
    refine hc.handles.insert (fun r' hr' ↦ hg.sorted.ptr_inj hg.inSpace hr' hr)
      (fun x hx ↦ (hs.old x (hnew x hx)).ptr) (fun x ↦ ?_) (hs.ptr.symm ▸ hi)
      fun hb x hx hxi ↦ ?_
    · rw [hrow]
      simp only [mem_append, mem_cons, or_left_comm]
    · have hbx := (hg.tiles r hr).bounds hx
      simp only [comp_apply] at hbx
      have hp : (a.chunks x).ptr = (a.chunks h).ptr + n := by
        refine hc.slot_inj hb hr (hc.contains hr hx) ⟨by omega, by omega⟩ hbx.2.2.1 ?_ hxi hi
        rw [Nat.sub_add_comm hbounds.1]
        exact dvd_add hbounds.2.2.1 hdvd
      by_cases hxh : x = h
      · subst hxh
        omega
      · rcases hc.disjoint (hmem x hx) (hmem h hhrow) hxh with hle | hle <;> omega
  · have hlist : a'.freeChunksList = f₁ := by rw [ha']; rfl
    rw [hlist]
    refine hf.recycled.congr fun x hx ↦ ?_
    have hxNew : x ≠ hNew := fun heq ↦ hnotFree (heq ▸ hx)
    have hxh : x ≠ h := by
      rintro rfl
      have hdisj := disjoint_of_nodup_append (hf.perm.nodup_iff.2 nodup_range)
      exact hdisj (hmem x hhrow) (mem_cons_of_mem _ hx)
    simp only [comp_apply, (hs.old x hxNew).next, if_neg hxh]
    exact congrArg Chunk.next (hf.other x hxNew).symm
  · have hsize : a'.chunksSize = n₁ := by rw [ha']; rfl
    rw [hsize]
    refine ((hlive.append_right free').trans ?_).trans hf.perm
    exact perm_middle.symm
  · have hsize : a'.chunksSize = n₁ := by rw [ha']; rfl
    exact hsize ▸ hf.size_le
  · intro x hx
    exact hc.idle x fun hx' ↦ hx (hlive.mem_iff.2 (mem_cons_of_mem _ hx'))
  · intro x hx
    have hxNew : x ≠ hNew := by
      rintro rfl
      obtain ⟨h₁, h₂⟩ := hc.idle x hnotLive
      exact hx.elim h₁ (absurd h₂)
    have hxh : x ≠ h := by
      rintro rfl
      exact hx.elim hfree (absurd hnone)
    exact ⟨by rw [(hs.old x hxNew).size, if_neg hxh], (hs.old x hxNew).ptr⟩

/-- `SplitChunk`: the chunk `h` keeps its first `n` bytes, and a new free chunk `hNew` takes the
rest. -/
theorem Core.splitChunk (hc : Core a rows free) (hr : r ∈ a.regions)
    (hrow : rows r.ptr = l₁ ++ h :: l₂) (hfree : ¬ (a.chunks h).InUse)
    (hnone : (a.chunks h).binNum = none) (hn : 0 < n) (hdvd : kMinAllocationSize ∣ n)
    (hlt : n < (a.chunks h).size) :
    Post (a.splitChunk h n)
      (fun a' ↦ ∃ hNew free' i b, hNew ∉ live a.regions rows ∧
        Core a' (Function.update rows r.ptr (l₁ ++ h :: hNew :: l₂)) free' ∧
        a'.regions = a.regions.map (setEntry r.ptr i (some hNew)) ∧
        a'.memoryLimit = a.memoryLimit ∧ allocIds a' = allocIds a ∧
        binNums a' = Function.update (binNums a) hNew (some b) ∧
        (∀ x ∈ live a.regions rows, (a'.chunks x).ptr = (a.chunks x).ptr) ∧
        (a'.chunks h).size = n)
      (Excused a) := by
  have hhrow : h ∈ rows r.ptr := by simp [hrow]
  have hlive : h ∈ live a.regions rows := mem_live.2 ⟨r, hr, hhrow⟩
  have hbounds := (hc.geometry.tiles r hr).bounds hhrow
  simp only [comp_apply] at hbounds
  have hspace := (hc.geometry.inSpace r hr).end_lt
  have hroom : Bounded a → free = [] → a.chunksSize + 1 < 2 ^ 31 := by
    intro hb hnil
    refine hc.room hb hnil (hc.length_live_lt hr hhrow ?_) hc.accounts.total_le
    obtain ⟨k, hk⟩ := hbounds.2.2.2.2
    obtain ⟨k', rfl⟩ := hdvd
    rw [kMinAllocationSize] at *
    omega
  refine (hc.allocateChunk hroom).bind ?_
  rintro ⟨hNew, a₁⟩ ⟨free', hf⟩
  change FreshHandle a rows free' hNew a₁ at hf
  have hne : h ≠ hNew := fun heq ↦ hf.not_mem.1 (heq ▸ hlive)
  have hh₁ : a₁.chunks h = a.chunks h := hf.other h hne
  have hptr : sizeT ((a.chunks h).ptr + n) = (a.chunks h).ptr + n := sizeT_of_lt (by omega)
  have hcheck : check (¬ (a.chunks h).InUse ∧ (a.chunks h).binNum = none) = .ok () :=
    check_of ⟨hfree, hnone⟩
  simp only [hh₁, hcheck, ok_bind, hptr, hf.regions_eq]
  refine (hc.post_setHandle hr ⟨by omega, by omega⟩ (some hNew)).bind ?_
  rintro - ⟨i, hi, rfl⟩
  obtain ⟨hc', hs, hids, hnums⟩ := hc.linkNewChunk hf hr hrow hfree hnone hn hdvd hlt hi rfl
  have hlive' : hNew ∈ live (a.regions.map (setEntry r.ptr i (some hNew)))
      (update rows r.ptr (l₁ ++ h :: hNew :: l₂)) := by
    rw [live_map_setEntry]
    exact mem_live.2 ⟨r, hr, by simp⟩
  obtain ⟨a₃, ha₃, hc₃, hre⟩ := hc'.insertFreeChunkIntoBin hlive'
    (not_not.2 hs.allocationId) hs.binNum
  rw [ha₃]
  refine post_ok.2 ⟨hNew, free', i, _, hf.not_mem.1, hc₃, hre.regions, ?_, ?_,
    hre.binNums_eq.trans (by rw [hnums]), ?_, ?_⟩
  · exact hre.memoryLimit.trans hf.memoryLimit_eq
  · rw [hre.allocIds_eq, hids]
  · intro x hx
    exact (congrFun hre.ptr x).trans (hs.old x fun heq ↦ hf.not_mem.1 (heq ▸ hx)).ptr
  · exact (congrFun hre.size h).trans ((hs.old h hne).size.trans (if_pos rfl))

end Split

/-! ### Merging two chunks -/

section Merge

variable {r : AllocationRegion} {l₁ l₂ : List ChunkHandle} {h₁ h₂ : ChunkHandle}

/-- What `Merge` leaves of a chunk other than the one it deletes. -/
structure MergedChunk (a a' : BFCAllocator sub) (h₁ h₂ x : ChunkHandle) : Prop where
  ptr : (a'.chunks x).ptr = (a.chunks x).ptr
  size : (a'.chunks x).size =
    if x = h₁ then (a.chunks h₁).size + (a.chunks h₂).size else (a.chunks x).size
  allocationId : (a'.chunks x).allocationId = (a.chunks x).allocationId
  binNum : (a'.chunks x).binNum = (a.chunks x).binNum
  next : (a'.chunks x).next = if x = h₁ then (a.chunks h₂).next else (a.chunks x).next
  prev : (a'.chunks x).prev = if (a.chunks h₂).next = some x then some h₁ else (a.chunks x).prev

/-- The states before and after the chunk `h₂` is merged into `h₁`, as far as chunks go. -/
structure Merged (a a' : BFCAllocator sub) (h₁ h₂ : ChunkHandle) : Prop where
  old : ∀ x, x ≠ h₂ → MergedChunk a a' h₁ h₂ x
  ptr : (a'.chunks h₂).ptr = (a.chunks h₂).ptr
  allocationId : (a'.chunks h₂).allocationId = (a.chunks h₂).allocationId
  binNum : (a'.chunks h₂).binNum = (a.chunks h₂).binNum
  next : (a'.chunks h₂).next = a.freeChunksList

/-- The writes of `Merge`. -/
theorem merged_of_eq {regions : List AllocationRegion} {size : ℕ}
    (hsize : size = (a.chunks h₁).size + (a.chunks h₂).size) (hne : h₁ ≠ h₂)
    (hnb₁ : (a.chunks h₂).next ≠ some h₁) (hnb₂ : (a.chunks h₂).next ≠ some h₂)
    (ha' : a' = { (a.modifyChunk h₁ fun c ↦
      { c with next := (a.chunks h₂).next, size := size }).setPrev (a.chunks h₂).next h₁ with
      regions := regions }.deallocateChunk h₂) : Merged a a' h₁ h₂ := by
  subst ha' hsize
  rcases hnext : (a.chunks h₂).next with - | m
  · refine ⟨fun x hx ↦ ?_, ?_, ?_, ?_, ?_⟩
    · by_cases hx₁ : x = h₁
      · subst hx₁
        constructor <;> simp [deallocateChunk, modifyChunk, setPrev, hx, hnext]
      · constructor <;> simp [deallocateChunk, modifyChunk, setPrev, hx, hnext, hx₁]
    all_goals simp [deallocateChunk, modifyChunk, setPrev, hne.symm]
  · have hm₁ : m ≠ h₁ := fun heq ↦ hnb₁ (heq ▸ hnext)
    have hm₂ : m ≠ h₂ := fun heq ↦ hnb₂ (heq ▸ hnext)
    refine ⟨fun x hx ↦ ?_, ?_, ?_, ?_, ?_⟩
    · by_cases hx₁ : x = h₁
      · subst hx₁
        constructor <;> simp [deallocateChunk, modifyChunk, setPrev, hx, hnext, hm₁, hm₁.symm]
      · by_cases hxm : x = m
        · subst hxm
          constructor <;> simp [deallocateChunk, modifyChunk, setPrev, hx, hnext, hx₁]
        · constructor <;> simp [deallocateChunk, modifyChunk, setPrev, hx, hnext, hx₁, hxm,
            Ne.symm hxm]
    all_goals simp [deallocateChunk, modifyChunk, setPrev, hne.symm, hm₂.symm]

/-- The row of the chunks that are merged. -/
theorem Merged.row (hm : Merged a a' h₁ h₂) {p q : ℕ}
    (htiles : Tiles kMinAllocationSize (Chunk.ptr ∘ a.chunks) (Chunk.size ∘ a.chunks) p
      (l₁ ++ h₁ :: h₂ :: l₂) q)
    (hlinked : Linked (Chunk.next ∘ a.chunks) (Chunk.prev ∘ a.chunks) (l₁ ++ h₁ :: h₂ :: l₂))
    (hnodup : (l₁ ++ h₁ :: h₂ :: l₂).Nodup) (hold : ∀ x ∈ l₁ ++ h₁ :: l₂, x ≠ h₂) :
    Tiles kMinAllocationSize (Chunk.ptr ∘ a'.chunks) (Chunk.size ∘ a'.chunks) p
      (l₁ ++ h₁ :: l₂) q ∧
    Linked (Chunk.next ∘ a'.chunks) (Chunk.prev ∘ a'.chunks) (l₁ ++ h₁ :: l₂) :=
  ⟨htiles.join hnodup (fun x hx ↦ (hm.old x (hold x hx)).ptr)
    fun x hx ↦ (hm.old x (hold x hx)).size,
  hlinked.removeAfter hnodup (fun x hx ↦ (hm.old x (hold x hx)).next)
    fun x hx ↦ (hm.old x (hold x hx)).prev⟩

/-- A merge leaves the links of every chunk but the two and their right neighbour. -/
theorem Merged.sameLinks (hm : Merged a a' h₁ h₂) {x : ChunkHandle} (hx : x ≠ h₂) (hx₁ : x ≠ h₁)
    (hnb : (a.chunks h₂).next ≠ some x) : SameLinks (a.chunks x) (a'.chunks x) := by
  obtain ⟨e₁, e₂, -, -, e₅, e₆⟩ := hm.old x hx
  rw [if_neg hx₁] at e₂ e₅
  rw [if_neg hnb] at e₆
  exact ⟨e₁, e₂, e₅, e₆⟩

theorem Merged.ptr_eq (hm : Merged a a' h₁ h₂) (x : ChunkHandle) :
    (a'.chunks x).ptr = (a.chunks x).ptr := by
  by_cases hx : x = h₂
  · exact hx ▸ hm.ptr
  · exact (hm.old x hx).ptr

theorem setPrev_ptr (a : BFCAllocator sub) (o : Option ChunkHandle) (x : ChunkHandle) :
    ((a.setPrev o h).chunks x).ptr = (a.chunks x).ptr := by
  cases o with
  | none => rfl
  | some m => by_cases hx : x = m <;> simp [setPrev, hx]

/-- The row of a region loses its second chunk of two. -/
theorem Core.live_perm_merge (hc : Core a rows free) (hr : r ∈ a.regions)
    (hrow : rows r.ptr = l₁ ++ h₁ :: h₂ :: l₂) (i : ℕ) (o : Option ChunkHandle) :
    (live a.regions rows).Perm (h₂ :: live (a.regions.map (setEntry r.ptr i o))
      (Function.update rows r.ptr (l₁ ++ h₁ :: l₂))) := by
  rw [live_map_setEntry]
  refine live_perm_update hc.geometry.sorted hc.geometry.inSpace hr ?_
  rw [hrow, append_cons, append_cons l₁ h₁ l₂]
  exact perm_middle

variable (hc : Core a rows free) (hr : r ∈ a.regions) (hrow : rows r.ptr = l₁ ++ h₁ :: h₂ :: l₂)
  (hfree₁ : ¬ (a.chunks h₁).InUse) (hnone₁ : (a.chunks h₁).binNum = none)
  (hfree₂ : ¬ (a.chunks h₂).InUse) (hnone₂ : (a.chunks h₂).binNum = none)
include hc hr hrow hfree₁ hnone₁ hfree₂ hnone₂

/-- The chunk `h₂` is merged into the chunk `h₁` before it. -/
theorem Core.of_merged {i : ℕ} (hi : r.slot (a.chunks h₂).ptr = .ok i) (hm : Merged a a' h₁ h₂)
    (ha' : a' = { a with
      regions := a.regions.map (setEntry r.ptr i none)
      chunks := a'.chunks
      freeChunksList := some h₂ }) :
    Core a' (Function.update rows r.ptr (l₁ ++ h₁ :: l₂)) (h₂ :: free) ∧
      allocIds a' = allocIds a ∧ binNums a' = binNums a := by
  have hg := hc.geometry
  have hmem : ∀ x ∈ rows r.ptr, x ∈ live a.regions rows := fun x hx ↦ mem_live.2 ⟨r, hr, hx⟩
  have hrow₁ : h₁ ∈ rows r.ptr := by simp [hrow]
  have hrow₂ : h₂ ∈ rows r.ptr := by simp [hrow]
  have hnodup := hc.row_nodup hr
  rw [hrow] at hnodup
  have hnodup' : ((l₁ ++ [h₁]) ++ h₂ :: l₂).Nodup := by simpa using hnodup
  have hold : ∀ x ∈ l₁ ++ h₁ :: l₂, x ≠ h₂ := by
    intro x hx
    exact ne_of_mem_of_nodup hnodup' (by simpa using hx)
  have hnbrow : ∀ x, (a.chunks h₂).next = some x → x ∈ rows r.ptr := by
    intro x hx
    have hnext := (hc.row_links hr (show rows r.ptr = (l₁ ++ [h₁]) ++ h₂ :: l₂ by simp [hrow])).1
    simp [hrow, mem_of_head? (hnext ▸ hx)]
  have hids : allocIds a' = allocIds a := by
    funext x
    by_cases hx : x = h₂
    · exact hx ▸ hm.allocationId
    · exact (hm.old x hx).allocationId
  have hnums : binNums a' = binNums a := by
    funext x
    by_cases hx : x = h₂
    · exact hx ▸ hm.binNum
    · exact (hm.old x hx).binNum
  have hregions : a'.regions = a.regions.map (setEntry r.ptr i none) := by rw [ha']
  have hlive : (live a.regions rows).Perm
      (h₂ :: live a'.regions (update rows r.ptr (l₁ ++ h₁ :: l₂))) :=
    hregions ▸ hc.live_perm_merge hr hrow _ _
  refine ⟨hc.assemble (by rw [ha']) (by rw [ha']) (by rw [ha']) (by rw [ha']) ?_ ?_ ?_ ?_ ?_ ?_
    hids hnums ?_ ?_, hids, hnums⟩
  · exact hc.accounts.map_setEntry hregions (by rw [ha']) (by rw [ha']) (by rw [ha']) (by rw [ha'])
  · rw [hregions]
    have ht := hg.tiles r hr
    have hl := hg.linked r hr
    rw [hrow] at ht hl
    obtain ⟨ht', hl'⟩ := hm.row ht hl hnodup hold
    refine hg.edit (fun r' hr' hne x hx ↦ ?_) ht' hl' hr
    exact hm.sameLinks (hc.row_disjoint hr hr' hne hrow₂ hx) (hc.row_disjoint hr hr' hne hrow₁ hx)
      fun heq ↦ hc.row_disjoint hr hr' hne (hnbrow x heq) hx rfl
  · rw [hregions]
    refine hc.handles.erase (fun r' hr' ↦ hg.sorted.ptr_inj hg.inSpace hr' hr)
      (fun x _ ↦ hm.ptr_eq x) (fun x ↦ ?_) hi fun hb x hx hxi ↦ ?_
    · rw [hrow]
      constructor
      · intro hx
        refine ⟨?_, hold x hx⟩
        rcases mem_append.1 hx with hx | hx
        · simp [hx]
        · rcases mem_cons.1 hx with rfl | hx <;> simp [*]
      · rintro ⟨hx, hx₂⟩
        simpa [hx₂] using hx
    · have hbx := (hg.tiles r hr).bounds hx
      have hb₂ := (hg.tiles r hr).bounds hrow₂
      exact hc.ptr_inj (hmem x hx) (hmem h₂ hrow₂) (hc.slot_inj hb hr (hc.contains hr hx)
        (hc.contains hr hrow₂) hbx.2.2.1 hb₂.2.2.1 hxi hi)
  · have hlist : a'.freeChunksList = some h₂ := by rw [ha']
    rw [hlist]
    refine .cons ?_
    rw [comp_apply, hm.next]
    refine hc.recycled.congr fun x hx ↦ ?_
    have hdisj := disjoint_of_nodup_append hc.nodup
    have hx₂ : x ≠ h₂ := fun heq ↦ hdisj (hmem h₂ hrow₂) (heq ▸ hx)
    have hx₁ : x ≠ h₁ := fun heq ↦ hdisj (hmem h₁ hrow₁) (heq ▸ hx)
    simp only [comp_apply, (hm.old x hx₂).next, if_neg hx₁]
  · have hsize : a'.chunksSize = a.chunksSize := by rw [ha']
    rw [hsize]
    exact perm_middle.trans ((hlive.symm.append_right free).trans hc.perm)
  · exact (by rw [ha'] : a'.chunksSize = a.chunksSize).ge
  · intro x hx
    by_cases hx₂ : x = h₂
    · exact hx₂ ▸ ⟨hfree₂, hnone₂⟩
    · exact hc.idle x fun hx' ↦ hx ((mem_cons.1 (hlive.mem_iff.1 hx')).resolve_left hx₂)
  · intro x hx
    have hx₂ : x ≠ h₂ := by
      rintro rfl
      exact hx.elim hfree₂ (absurd hnone₂)
    have hx₁ : x ≠ h₁ := by
      rintro rfl
      exact hx.elim hfree₁ (absurd hnone₁)
    exact ⟨by rw [(hm.old x hx₂).size, if_neg hx₁], (hm.old x hx₂).ptr⟩

/-- `Merge`. -/
theorem Core.merge : Post (a.merge h₁ h₂)
      (fun a' ↦ ∃ i, Core a' (Function.update rows r.ptr (l₁ ++ h₁ :: l₂)) (h₂ :: free) ∧
        a'.regions = a.regions.map (setEntry r.ptr i none) ∧ a'.memoryLimit = a.memoryLimit ∧
        allocIds a' = allocIds a ∧ binNums a' = binNums a ∧
        ∀ x, (a'.chunks x).ptr = (a.chunks x).ptr)
      (Excused a) := by
  have hrow₁ : h₁ ∈ rows r.ptr := by simp [hrow]
  have hrow₂ : h₂ ∈ rows r.ptr := by simp [hrow]
  have hrow' : rows r.ptr = (l₁ ++ [h₁]) ++ h₂ :: l₂ := by simp [hrow]
  have hnodup := hc.row_nodup hr
  rw [hrow'] at hnodup
  obtain ⟨hnext, hprev⟩ := hc.row_links hr hrow'
  have hne : h₁ ≠ h₂ := (ne_of_mem_before hnodup (by simp)).1
  have hsum : sizeT ((a.chunks h₁).size + (a.chunks h₂).size) =
      (a.chunks h₁).size + (a.chunks h₂).size := by
    refine sizeT_of_lt ?_
    have hb₁ := (hc.geometry.tiles r hr).bounds hrow₁
    have hb₂ := (hc.geometry.tiles r hr).bounds hrow₂
    have hspace := (hc.geometry.inSpace r hr).end_lt
    simp only [comp_apply] at hb₁ hb₂
    rcases hc.disjoint (mem_live.2 ⟨r, hr, hrow₁⟩) (mem_live.2 ⟨r, hr, hrow₂⟩)
      hne with hle | hle <;>
      omega
  have hcheck₁ : check (¬ (a.chunks h₁).InUse ∧ ¬ (a.chunks h₂).InUse) = .ok () :=
    check_of ⟨hfree₁, hfree₂⟩
  have hcheck₂ : check ((a.chunks h₂).prev = some h₁) = .ok () := check_of (by simp [hprev])
  have hptr : (((a.modifyChunk h₁ fun c ↦ { c with
      next := (a.chunks h₂).next
      size := (a.chunks h₁).size + (a.chunks h₂).size }).setPrev (a.chunks h₂).next h₁).chunks
        h₂).ptr = (a.chunks h₂).ptr := by
    rw [setPrev_ptr]
    simp [modifyChunk, hne.symm]
  simp only [BFCAllocator.merge, hcheck₁, hcheck₂, ok_bind, hsum, BFCAllocator.deleteChunk, hptr]
  refine (hc.post_setHandle hr (hc.contains hr hrow₂) none).bind ?_
  rintro - ⟨i, hi, rfl⟩
  have hm := @merged_of_eq _ a _ h₁ h₂ (a.regions.map (setEntry r.ptr i none)) _ rfl hne
    (fun heq ↦ (ne_of_mem_before hnodup (by simp)).2 (hnext ▸ heq))
    (fun heq ↦ ne_of_mem_after hnodup (mem_of_head? (hnext ▸ heq)) rfl) rfl
  obtain ⟨hc', hids, hnums⟩ := hc.of_merged hr hrow hfree₁ hnone₁ hfree₂ hnone₂ hi hm rfl
  exact post_ok.2 ⟨i, hc', rfl, rfl, hids, hnums, hm.ptr_eq⟩

end Merge

/-! ### Adding a region -/

section AddRegion

theorem allocateChunk_with (a : BFCAllocator sub) (regions : List AllocationRegion) (total : ℕ) :
    { a with regions := regions, totalRegionAllocatedBytes := total }.allocateChunk =
      a.allocateChunk.map fun x ↦
        (x.1, { x.2 with regions := regions, totalRegionAllocatedBytes := total }) := by
  rcases hlist : a.freeChunksList with - | h
  · by_cases hlt : a.chunksSize + 1 < 2 ^ 31
    · simp only [allocateChunk, hlist, if_pos hlt]
      rfl
    · simp only [allocateChunk, hlist, if_neg hlt]
      rfl
  · simp only [allocateChunk, hlist]
    rfl

/-- Memory for a new region: fresh, and within the limit. -/
structure NewRegion (a : BFCAllocator sub) (p bytes : ℕ) : Prop where
  ptr_pos : 0 < p
  bytes_pos : 0 < bytes
  dvd : kMinAllocationSize ∣ bytes
  lt : bytes < 2 ^ 63
  end_lt : p + bytes < 2 ^ 64
  granted : ∃ n, (p, n) ∈ sub.granted a.suballocator ∧ bytes ≤ n
  disjoint : ∀ r ∈ a.regions, p + bytes ≤ r.ptr ∨ r.ptr + r.memorySize ≤ p
  le : a.totalRegionAllocatedBytes + bytes ≤ a.memoryLimit

variable {p bytes : ℕ}

namespace NewRegion

theorem inSpace (hn : NewRegion a p bytes) : (AllocationRegion.new p bytes).InSpace :=
  ⟨hn.ptr_pos, hn.bytes_pos, hn.lt, hn.end_lt⟩

theorem ptr_ne (hn : NewRegion a p bytes) {r : AllocationRegion} (hr : r ∈ a.regions)
    (hin : r.InSpace) : r.ptr ≠ p := by
  have := hn.bytes_pos
  have := hin.size_pos
  rcases hn.disjoint r hr with hle | hle <;> omega

theorem mem_iff {r : AllocationRegion} :
    r ∈ addAllocationRegion p bytes a.regions ↔ r = .new p bytes ∨ r ∈ a.regions := by
  rw [(addAllocationRegion_perm p bytes a.regions).mem_iff, mem_cons]

variable (hn : NewRegion a p bytes)
include hn

theorem forall_inSpace (hin : ∀ r ∈ a.regions, r.InSpace) :
    ∀ r ∈ addAllocationRegion p bytes a.regions, r.InSpace := by
  intro r hr
  rcases mem_iff.1 hr with rfl | hr
  · exact hn.inSpace
  · exact hin r hr

/-- A new region adds its one chunk to those that are live. -/
theorem live_perm (hin : ∀ r ∈ a.regions, r.InSpace) :
    (live (addAllocationRegion p bytes a.regions) (Function.update rows p [h])).Perm
      (h :: live a.regions rows) := by
  have hold : live a.regions (update rows p [h]) = live a.regions rows :=
    flatMap_congr fun r hr ↦ update_of_ne (hn.ptr_ne hr (hin r hr)) _ _
  refine ((addAllocationRegion_perm p bytes a.regions).flatMap_right _).trans ?_
  rw [flatMap_cons]
  change ((update rows p [h] p) ++ live a.regions (update rows p [h])).Perm _
  rw [update_self, hold]
  exact Perm.refl _

/-- Within the memory limit, the entry of the region's address is the first. -/
theorem post_slot : Post ((AllocationRegion.new p bytes).slot p)
      (fun i ↦ (AllocationRegion.new p bytes).slot p = .ok i) (Excused a) := by
  refine ⟨fun h ↦ h, fun {e} h ↦ ?_⟩
  rintro - hb
  have hsize : (AllocationRegion.new p bytes).memorySize ≤ 2 ^ 39 := by
    obtain ⟨k, hk⟩ := hn.dvd
    have := hn.le
    rw [Bounded] at hb
    rw [kMinAllocationSize] at hk
    change bytes ≤ 2 ^ 39
    omega
  have hcontains : (AllocationRegion.new p bytes).Contains p :=
    ⟨le_rfl, Nat.lt_add_of_pos_right hn.bytes_pos⟩
  rw [slot_of_size_le hn.inSpace hsize hcontains] at h
  cases h

theorem accounts (ha : Accounts a) : Accounts { a with
      totalRegionAllocatedBytes := sizeT (a.totalRegionAllocatedBytes + bytes)
      regions := addAllocationRegion p bytes a.regions } := by
  have hlt : a.totalRegionAllocatedBytes + bytes < 2 ^ 64 := hn.le.trans_lt ha.limit_lt
  refine ⟨fun r hr ↦ ?_, ?_, ?_, ha.limit_lt, ha.curr_lt, ha.curr_dvd⟩
  · rcases mem_iff.1 hr with rfl | hr
    · exact hn.granted
    · exact ha.granted r hr
  · have hsum := ((addAllocationRegion_perm p bytes a.regions).map (·.memorySize)).sum_eq
    rw [sizeT_of_lt hlt, ha.total]
    rw [map_cons, sum_cons] at hsum
    rw [hsum, Nat.add_comm]
    rfl
  · rw [sizeT_of_lt hlt]
    exact hn.le

end NewRegion

/-- A new region starts with no entry and no chunk. -/
theorem NewRegion.handles (hn : NewRegion a p bytes) {B : Prop} {ptr : ChunkHandle → ℕ}
    (hin : ∀ r ∈ a.regions, r.InSpace) (hh : HandlesOk B a.regions rows ptr) :
    HandlesOk B (addAllocationRegion p bytes a.regions) (Function.update rows p []) ptr := by
  refine ⟨fun r hr i x hx ↦ ?_, fun hB r hr x hx ↦ ?_⟩
  · rcases NewRegion.mem_iff.1 hr with rfl | hr
    · cases hx
    · rw [update_of_ne (hn.ptr_ne hr (hin r hr))]
      exact hh.sound r hr i x hx
  · rcases NewRegion.mem_iff.1 hr with rfl | hr
    · change x ∈ update rows p [] p at hx
      simp at hx
    · rw [update_of_ne (hn.ptr_ne hr (hin r hr))] at hx
      exact hh.complete hB r hr x hx

/-- The chunk `h` takes the whole of a new region. -/
theorem Core.of_newRegion (hc : Core a rows free) (hn : NewRegion a p bytes)
    {free' : List ChunkHandle} {a₁ : BFCAllocator sub} (hf : FreshHandle a rows free' h a₁) {i : ℕ}
    (hi : (AllocationRegion.new p bytes).slot p = .ok i) (ha' : a' = { a₁ with
      totalRegionAllocatedBytes := sizeT (a.totalRegionAllocatedBytes + bytes)
      regions := (addAllocationRegion p bytes a.regions).map (setEntry p i (some h))
      chunks := Function.update a₁.chunks h
        { a₁.chunks h with
          ptr := p, size := bytes, allocationId := -1, prev := none, next := none } }) :
    Core a' (Function.update rows p [h]) free' ∧ allocIds a' = allocIds a ∧
      binNums a' = binNums a ∧ ∀ x ∈ live a.regions rows, a'.chunks x = a.chunks x := by
  obtain ⟨c₁, f₁, n₁, rfl⟩ : ∃ c f n,
      a₁ = { a with chunks := c, freeChunksList := f, chunksSize := n } := ⟨_, _, _, hf.eq⟩
  have hg := hc.geometry
  obtain ⟨hnotLive, hnotFree⟩ := hf.not_mem
  have hin := hn.forall_inSpace hg.inSpace
  have hsorted := hg.sorted.addAllocationRegion hg.inSpace hn.disjoint
  have hold : ∀ x, x ≠ h → a'.chunks x = a.chunks x := by
    intro x hx
    rw [ha']
    exact (update_of_ne hx _ _).trans (hf.other x hx)
  have hnew : a'.chunks h = { c₁ h with
      ptr := p, size := bytes, allocationId := -1, prev := none, next := none } := by
    rw [ha']
    exact update_self _ _ _
  have hlive : (live a'.regions (update rows p [h])).Perm (h :: live a.regions rows) := by
    rw [ha']
    exact (live_map_setEntry _ _ _).symm ▸ hn.live_perm hg.inSpace
  have hids : allocIds a' = allocIds a := by
    funext x
    by_cases hx : x = h
    · subst hx
      rw [allocIds, comp_apply, hnew]
      exact (not_not.1 (hc.idle x hnotLive).1).symm
    · rw [allocIds, allocIds, comp_apply, comp_apply, hold x hx]
  have hnums : binNums a' = binNums a := by
    funext x
    by_cases hx : x = h
    · subst hx
      rw [binNums, comp_apply, hnew]
      exact hf.bin.trans (hc.idle x hnotLive).2.symm
    · rw [binNums, binNums, comp_apply, comp_apply, hold x hx]
  have hregions : a'.regions =
      (addAllocationRegion p bytes a.regions).map (setEntry p i (some h)) := by rw [ha']
  have hsame : ∀ r ∈ a.regions, ∀ x ∈ rows r.ptr, SameLinks (a.chunks x) (a'.chunks x) := by
    intro r hr x hx
    rw [hold x fun heq ↦ hnotLive (heq ▸ mem_live.2 ⟨r, hr, hx⟩)]
    exact ⟨rfl, rfl, rfl, rfl⟩
  refine ⟨hc.assemble (by rw [ha']) (by rw [ha']) (by rw [ha']) (by rw [ha']) ?_ ?_ ?_ ?_ ?_ ?_
    hids hnums ?_ ?_, hids, hnums, fun x hx ↦ hold x fun heq ↦ hnotLive (heq ▸ hx)⟩
  · exact (hn.accounts hc.accounts).map_setEntry hregions (by rw [ha']) (by rw [ha']) (by rw [ha'])
      (by rw [ha'])
  · rw [hregions]
    refine ⟨hsorted.map_setEntry _ _ _, fun r₀ hr₀ ↦ ?_, fun r₀ hr₀ ↦ ?_, fun r₀ hr₀ ↦ ?_⟩ <;>
      obtain ⟨r, hr, rfl⟩ := mem_map.1 hr₀
    · have := hin r hr
      exact ⟨by simpa using this.ptr_pos, by simpa using this.size_pos, by simpa using this.size_lt,
        by simpa using this.end_lt⟩
    · rw [setEntry_ptr, setEntry_memorySize]
      rcases NewRegion.mem_iff.1 hr with rfl | hr
      · change Tiles _ _ _ p (update rows p [h] p) (p + bytes)
        rw [update_self]
        simp only [Tiles, comp_apply, hnew]
        exact ⟨trivial, hn.bytes_pos, hn.dvd, trivial⟩
      · rw [update_of_ne (hn.ptr_ne hr (hg.inSpace r hr))]
        exact Tiles.of_sameLinks (hg.tiles r hr) (hsame r hr)
    · rw [setEntry_ptr]
      rcases NewRegion.mem_iff.1 hr with rfl | hr
      · change Linked _ _ (update rows p [h] p)
        rw [update_self]
        exact Linked.singleton (by rw [comp_apply, hnew]) (by rw [comp_apply, hnew])
      · rw [update_of_ne (hn.ptr_ne hr (hg.inSpace r hr))]
        exact Linked.of_sameLinks (hg.linked r hr) (hsame r hr)
  · rw [hregions]
    have hinsert : HandlesOk (Bounded a)
        ((addAllocationRegion p bytes a.regions).map (setEntry p i (some h)))
        (update (update rows p []) p [h]) (Chunk.ptr ∘ a'.chunks) := by
      refine HandlesOk.insert (r := .new p bytes) (hn.handles hg.inSpace hc.handles)
        (fun r hr ↦ hsorted.ptr_inj hin hr (NewRegion.mem_iff.2 (Or.inl rfl))) (fun x hx ↦ ?_)
        (fun x ↦ ?_) ?_ fun _ x hx ↦ ?_
      · obtain ⟨r, hr, hx⟩ := mem_live.1 hx
        rcases NewRegion.mem_iff.1 hr with rfl | hr
        · change x ∈ update rows p [] p at hx
          simp at hx
        · rw [update_of_ne (hn.ptr_ne hr (hg.inSpace r hr))] at hx
          exact (hsame r hr x hx).ptr
      · change x ∈ [h] ↔ x = h ∨ x ∈ update rows p [] p
        simp
      · rw [comp_apply, hnew]
        exact hi
      · change x ∈ update rows p [] p at hx
        simp at hx
    rwa [update_idem] at hinsert
  · have hlist : a'.freeChunksList = f₁ := by rw [ha']
    rw [hlist]
    refine hf.recycled.congr fun x hx ↦ ?_
    have hxh : x ≠ h := fun heq ↦ hnotFree (heq ▸ hx)
    rw [comp_apply, hold x hxh]
    exact congrArg Chunk.next (hf.other x hxh).symm
  · have hsize : a'.chunksSize = n₁ := by rw [ha']
    rw [hsize]
    exact ((hlive.append_right free').trans perm_middle.symm).trans hf.perm
  · have hsize : a'.chunksSize = n₁ := by rw [ha']
    exact hsize ▸ hf.size_le
  · intro x hx
    exact hc.idle x fun hx' ↦ hx (hlive.mem_iff.2 (mem_cons_of_mem _ hx'))
  · intro x hx
    have hxh : x ≠ h := by
      rintro rfl
      obtain ⟨e₁, e₂⟩ := hc.idle x hnotLive
      exact hx.elim e₁ (absurd e₂)
    rw [hold x hxh]
    exact ⟨rfl, rfl⟩

/-- The end of `Extend`: the new region is one free chunk. -/
theorem Core.addRegion (hc : Core a rows free) (hn : NewRegion a p bytes) :
    Post (a.addRegion p bytes)
      (fun a' ↦ ∃ h free' b, h ∉ live a.regions rows ∧
        Core a' (Function.update rows p [h]) free' ∧
        (∀ r' ∈ a'.regions, r'.ptr = p ∨ ∃ r ∈ a.regions, r.ptr = r'.ptr) ∧
        (live a'.regions (Function.update rows p [h])).Perm (h :: live a.regions rows) ∧
        a'.memoryLimit = a.memoryLimit ∧ allocIds a' = allocIds a ∧
        binNums a' = Function.update (binNums a) h (some b) ∧
        ∀ x ∈ live a.regions rows, (a'.chunks x).ptr = (a.chunks x).ptr)
      (Excused a) := by
  have hin := hn.forall_inSpace hc.geometry.inSpace
  have hsorted := hc.geometry.sorted.addAllocationRegion hc.geometry.inSpace hn.disjoint
  have hroom : Bounded a → free = [] → a.chunksSize + 1 < 2 ^ 31 := by
    intro hb hnil
    have hlen := hc.length_live_le
    have := Nat.le_of_dvd hn.bytes_pos hn.dvd
    rw [kMinAllocationSize] at this
    exact hc.room hb hnil (show _ ≤ a.totalRegionAllocatedBytes + bytes by omega) hn.le
  have halloc : Post ({ a with
      totalRegionAllocatedBytes := sizeT (a.totalRegionAllocatedBytes + bytes)
      regions := addAllocationRegion p bytes a.regions }.allocateChunk)
      (fun x ↦ ∃ a₁ free', FreshHandle a rows free' x.1 a₁ ∧ x.2 = { a₁ with
        totalRegionAllocatedBytes := sizeT (a.totalRegionAllocatedBytes + bytes)
        regions := addAllocationRegion p bytes a.regions })
      (Excused a) := by
    rw [allocateChunk_with]
    exact (hc.allocateChunk hroom).map fun x hx ↦ hx.elim fun free' hf ↦ ⟨x.2, free', hf, rfl⟩
  refine halloc.bind ?_
  rintro ⟨h, a₂⟩ ⟨a₁, free', hf, ha₂⟩
  change FreshHandle a rows free' h a₁ at hf
  change a₂ = _ at ha₂
  subst ha₂
  have hset : Post (setHandle p (some h) (addAllocationRegion p bytes a.regions))
      (fun regions ↦ ∃ i, (AllocationRegion.new p bytes).slot p = .ok i ∧
        regions = (addAllocationRegion p bytes a.regions).map (setEntry p i (some h)))
      (Excused a) := by
    have hcontains : (AllocationRegion.new p bytes).Contains p :=
      ⟨le_rfl, Nat.lt_add_of_pos_right hn.bytes_pos⟩
    rw [setHandle_eq hsorted hin (NewRegion.mem_iff.2 (Or.inl rfl)) hcontains]
    exact hn.post_slot.map fun i hi ↦ ⟨i, hi, rfl⟩
  refine hset.bind ?_
  rintro - ⟨i, hi, rfl⟩
  obtain ⟨hc', hids, hnums, hold⟩ := hc.of_newRegion hn hf hi rfl
  have hlive : (live (addAllocationRegion p bytes a.regions) (update rows p [h])).Perm
      (h :: live a.regions rows) := hn.live_perm hc.geometry.inSpace
  have hlive' : h ∈ live ((addAllocationRegion p bytes a.regions).map (setEntry p i (some h)))
      (update rows p [h]) := by
    rw [live_map_setEntry]
    exact hlive.mem_iff.2 mem_cons_self
  obtain ⟨a₃, ha₃, hc₃, hre⟩ := hc'.insertFreeChunkIntoBin hlive'
    (by simp [Chunk.InUse]) (by simpa using hf.bin)
  have hregions : a₃.regions =
      (addAllocationRegion p bytes a.regions).map (setEntry p i (some h)) := hre.regions
  refine ⟨fun heq ↦ ?_, fun heq ↦ ?_⟩
  · obtain rfl := Except.ok.inj (ha₃.symm.trans heq)
    refine ⟨h, free', _, hf.not_mem.1, hc₃, fun r' hr' ↦ ?_, ?_, ?_, hre.allocIds_eq.trans hids,
      hre.binNums_eq.trans (by rw [hnums]), fun x hx ↦ ?_⟩
    · rw [hregions] at hr'
      obtain ⟨r, hr, rfl⟩ := mem_map.1 hr'
      rcases NewRegion.mem_iff.1 hr with rfl | hr
      · exact Or.inl (setEntry_ptr)
      · exact Or.inr ⟨r, hr, setEntry_ptr.symm⟩
    · rw [hregions, live_map_setEntry]
      exact hlive
    · exact hre.memoryLimit.trans hf.memoryLimit_eq
    · exact (congrFun hre.ptr x).trans (congrArg Chunk.ptr (hold x hx))
  · exact absurd (ha₃.symm.trans heq) (by simp)

end AddRegion

end TensorFlowCore.BfcAllocator
