import TensorFlowCore.CommonRuntime.BfcAllocator.Allocate

/-!
# Deallocation keeps the invariant

`FreeAndMaybeCoalesce` takes a chunk back and merges it with its free neighbours. In between the
chunk is `Loose`: free, but in no bin, and perhaps next to free chunks. `coalesceNext` makes sure
that what follows it is in use, `coalescePrev` does the same for what stands before it, and then the
chunk can be filed.
-/

namespace TensorFlowCore.BfcAllocator

open AllocationRegion DoublyLinked ExceptPost Function List Tiling

variable {sub : SubAllocator} {a a' : BFCAllocator sub} {rows : ℕ → List ChunkHandle}
  {free : List ChunkHandle} {h : ChunkHandle} {r : AllocationRegion} {l₁ l₂ : List ChunkHandle}

/-- The chunk `h` of the region `r` is free and in no bin; all else is as between calls. -/
structure Loose (a : BFCAllocator sub) (rows : ℕ → List ChunkHandle) (free : List ChunkHandle)
    (r : AllocationRegion) (l₁ : List ChunkHandle) (h : ChunkHandle) (l₂ : List ChunkHandle) :
    Prop where
  core : Core a rows free
  mem : r ∈ a.regions
  row : rows r.ptr = l₁ ++ h :: l₂
  id : allocIds a h = -1
  bin : binNums a h = none
  settled : ∀ x ∈ live a.regions rows, x ≠ h → allocIds a x ≠ -1 ∨ binNums a x ≠ none
  spaced : ∀ r' ∈ a.regions, r'.ptr ≠ r.ptr → Spaced (allocIds a) (rows r'.ptr)
  before : Spaced (allocIds a) l₁
  after : Spaced (allocIds a) l₂

theorem Loose.mem_live (hl : Loose a rows free r l₁ h l₂) {x : ChunkHandle}
    (hx : x ∈ l₁ ++ h :: l₂) : x ∈ live a.regions rows :=
  BfcAllocator.mem_live.2 ⟨r, hl.mem, hl.row ▸ hx⟩

/-- A loose chunk whose neighbours are in use can be filed. -/
theorem Loose.insertFreeChunkIntoBin (hl : Loose a rows free r l₁ h l₂)
    (hprev : ∀ x ∈ l₁.getLast?, allocIds a x ≠ -1) (hnext : ∀ x ∈ l₂.head?, allocIds a x ≠ -1) :
    ∃ a', a.insertFreeChunkIntoBin h = .ok a' ∧ Rest a' rows free ∧ SameUse a a' := by
  obtain ⟨a', ha', hc', hre⟩ := hl.core.insertFreeChunkIntoBin (hl.mem_live (by simp))
    (not_not.2 hl.id) hl.bin
  refine ⟨a', ha', ⟨hc', fun x hx ↦ ?_, fun r' hr' ↦ ?_⟩, hre.memoryLimit, hre.allocIds_eq,
    fun x _ ↦ congrFun hre.ptr x⟩
  · rw [hre.allocIds_eq, hre.binNums_eq]
    by_cases hxh : x = h
    · exact Or.inr (by simp [hxh])
    · rw [update_of_ne hxh]
      exact hl.settled x (hre.regions ▸ hx) hxh
  · rw [hre.allocIds_eq]
    rw [hre.regions] at hr'
    by_cases hp : r'.ptr = r.ptr
    · rw [hp, hl.row]
      refine isChain_append.2 ⟨hl.before, isChain_cons.2 ⟨fun y hy ↦ ?_, hl.after⟩,
        fun x hx y hy ↦ Or.inl (hprev x hx)⟩
      exact Or.inr (hnext y hy)
    · exact hl.spaced r' hr' hp

theorem SameUse.trans {a₁ a₂ a₃ : BFCAllocator sub} (h₁ : SameUse a₁ a₂) (h₂ : SameUse a₂ a₃) :
    SameUse a₁ a₃ :=
  ⟨h₂.memoryLimit.trans h₁.memoryLimit, h₂.ids.trans h₁.ids, fun x hx ↦
    (h₂.kept x (h₁.ids ▸ hx)).trans (h₁.kept x hx)⟩

theorem SameUse.excused (huse : SameUse a a') {e : Failure} (he : Excused a' e) : Excused a e :=
  fun hf hb ↦ he hf (by rwa [Bounded, huse.memoryLimit])

theorem Refiled.sameUse {b : Option ℕ} (hre : Refiled a a' h b) : SameUse a a' :=
  ⟨hre.memoryLimit, hre.allocIds_eq, fun x _ ↦ congrFun hre.ptr x⟩

/-- Two loose neighbours become one loose chunk. -/
theorem Core.merge_loose {h₁ h₂ : ChunkHandle} (hc : Core a rows free) (hr : r ∈ a.regions)
    (hrow : rows r.ptr = l₁ ++ h₁ :: h₂ :: l₂) (hid₁ : allocIds a h₁ = -1)
    (hbin₁ : binNums a h₁ = none) (hid₂ : allocIds a h₂ = -1) (hbin₂ : binNums a h₂ = none)
    (hsettled : ∀ x ∈ live a.regions rows, x ≠ h₁ → x ≠ h₂ →
      allocIds a x ≠ -1 ∨ binNums a x ≠ none)
    (hspaced : ∀ r' ∈ a.regions, r'.ptr ≠ r.ptr → Spaced (allocIds a) (rows r'.ptr))
    (hbefore : Spaced (allocIds a) l₁) (hafter : Spaced (allocIds a) l₂) :
    Post (a.merge h₁ h₂)
      (fun a' ↦ ∃ rows' free' r', Loose a' rows' free' r' l₁ h₁ l₂ ∧ SameUse a a')
      (Excused a) := by
  refine (hc.merge hr hrow (not_not.2 hid₁) hbin₁ (not_not.2 hid₂) hbin₂).mono ?_ fun e he ↦ he
  rintro a' ⟨i, hc', hregions, hlimit, hids, hnums, hptr⟩
  have hg := hc.geometry
  have hlive : (live a.regions rows).Perm
      (h₂ :: live a'.regions (update rows r.ptr (l₁ ++ h₁ :: l₂))) :=
    hregions ▸ hc.live_perm_merge hr hrow _ _
  have hnotLive : h₂ ∉ live a'.regions (update rows r.ptr (l₁ ++ h₁ :: l₂)) :=
    (nodup_cons.1 (hlive.nodup_iff.1 (nodup_append.1 hc.nodup).1)).1
  refine ⟨_, h₂ :: free, setEntry r.ptr i none r,
    ⟨hc', hregions ▸ mem_map_of_mem hr, ?_, hids ▸ hid₁, hnums ▸ hbin₁, fun x hx hxh ↦ ?_,
      fun r₀ hr₀ hne ↦ ?_, hids ▸ hbefore, hids ▸ hafter⟩, hlimit, hids, fun x _ ↦ hptr x⟩
  · rw [setEntry_ptr, update_self]
  · rw [hids, hnums]
    exact hsettled x (hlive.mem_iff.2 (mem_cons_of_mem _ hx)) hxh
      fun heq ↦ hnotLive (heq ▸ hx)
  · rw [hregions] at hr₀
    obtain ⟨r', hr', rfl⟩ := mem_map.1 hr₀
    rw [setEntry_ptr, setEntry_ptr] at hne
    rw [setEntry_ptr, update_of_ne hne, hids]
    exact hspaced r' hr' hne

/-- After `coalesceNext` the chunk that follows `h`, if any, is in use. -/
theorem Loose.coalesceNext (hl : Loose a rows free r l₁ h l₂) :
    Post (a.coalesceNext h)
      (fun a' ↦ ∃ rows' free' r' l₂', Loose a' rows' free' r' l₁ h l₂' ∧
        (∀ x ∈ l₂'.head?, allocIds a' x ≠ -1) ∧ SameUse a a')
      (Excused a) := by
  have hsame : SameUse a a := ⟨rfl, rfl, fun _ _ ↦ rfl⟩
  obtain ⟨hnext, -⟩ := hl.core.row_links hl.mem hl.row
  rw [BFCAllocator.coalesceNext]
  cases l₂ with
  | nil =>
    simp only [hnext, head?_nil]
    exact post_ok.2 ⟨rows, free, r, [], hl, by simp, hsame⟩
  | cons n l₂ =>
    simp only [hnext, head?_cons]
    split
    · rename_i huse
      exact post_ok.2 ⟨rows, free, r, n :: l₂, hl, fun x hx ↦ Option.some.inj hx ▸ huse, hsame⟩
    rename_i huse
    have hidn : allocIds a n = -1 := not_not.1 huse
    have hnodup := hl.core.row_nodup hl.mem
    rw [hl.row] at hnodup
    have hnh : n ≠ h := ne_of_mem_after hnodup mem_cons_self
    have hbin := (hl.settled n (hl.mem_live (by simp)) hnh).resolve_left (not_not.2 hidn)
    obtain ⟨a₁, ha₁, hc₁, hre⟩ := hl.core.removeFreeChunkFromBin hbin
    simp only [ha₁, ok_bind]
    refine (hc₁.merge_loose (r := r) (hre.regions ▸ hl.mem) hl.row (hre.allocIds_eq ▸ hl.id) ?_
      (hre.allocIds_eq ▸ hidn) ?_ ?_ ?_ (hre.allocIds_eq ▸ hl.before) ?_).mono ?_ fun e he ↦
        hre.sameUse.excused he
    · rw [hre.binNums_eq, update_of_ne hnh.symm]
      exact hl.bin
    · rw [hre.binNums_eq, update_self]
    · intro x hx hxh hxn
      rw [hre.binNums_eq, update_of_ne hxn, hre.allocIds_eq]
      exact hl.settled x (hre.regions ▸ hx) hxh
    · rw [hre.regions, hre.allocIds_eq]
      exact hl.spaced
    · rw [hre.allocIds_eq]
      exact IsChain.tail hl.after
    · rintro a' ⟨rows', free', r', hl', huse'⟩
      have hall := hre.sameUse.trans huse'
      refine ⟨rows', free', r', l₂, hl', fun x hx ↦ ?_, hall⟩
      rw [hall.ids]
      exact ((isChain_cons.1 hl.after).1 x hx).resolve_left (not_not.2 hidn)

/-- After `coalescePrev` the chunk before the one to be filed, if any, is in use. -/
theorem Loose.coalescePrev (hl : Loose a rows free r l₁ h l₂)
    (hnext : ∀ x ∈ l₂.head?, allocIds a x ≠ -1) :
    Post (a.coalescePrev h)
      (fun y ↦ ∃ rows' free' r' l₁', Loose y.2 rows' free' r' l₁' y.1 l₂ ∧
        (∀ x ∈ l₁'.getLast?, allocIds y.2 x ≠ -1) ∧ (∀ x ∈ l₂.head?, allocIds y.2 x ≠ -1) ∧
        SameUse a y.2)
      (Excused a) := by
  have hsame : SameUse a a := ⟨rfl, rfl, fun _ _ ↦ rfl⟩
  obtain ⟨-, hprev⟩ := hl.core.row_links hl.mem hl.row
  rw [BFCAllocator.coalescePrev]
  rcases eq_nil_or_concat l₁ with rfl | ⟨l₁, p, rfl⟩
  · simp only [hprev, getLast?_nil]
    exact post_ok.2 ⟨rows, free, r, [], hl, by simp, hnext, hsame⟩
  · simp only [concat_eq_append] at *
    simp only [hprev, getLast?_append, getLast?_singleton, Option.some_or]
    split
    · rename_i huse
      refine post_ok.2 ⟨rows, free, r, l₁ ++ [p], hl, fun x hx ↦ ?_, hnext, hsame⟩
      simp only [getLast?_append, getLast?_singleton, Option.some_or] at hx
      exact Option.some.inj hx ▸ huse
    rename_i huse
    have hidp : allocIds a p = -1 := not_not.1 huse
    have hrow : rows r.ptr = l₁ ++ p :: h :: l₂ := by simp [hl.row]
    have hnodup := hl.core.row_nodup hl.mem
    rw [hl.row] at hnodup
    have hph : p ≠ h := (ne_of_mem_before hnodup (by simp)).1
    have hbin := (hl.settled p (hl.mem_live (by simp)) hph).resolve_left (not_not.2 hidp)
    obtain ⟨a₁, ha₁, hc₁, hre⟩ := hl.core.removeFreeChunkFromBin hbin
    obtain ⟨hbefore, -, hlast⟩ := isChain_append.1 hl.before
    simp only [ha₁, ok_bind]
    have hmerge := hc₁.merge_loose (r := r) (hre.regions ▸ hl.mem) hrow (hre.allocIds_eq ▸ hidp)
      (by rw [hre.binNums_eq, update_self]) (hre.allocIds_eq ▸ hl.id)
      (by rw [hre.binNums_eq, update_of_ne hph.symm]; exact hl.bin)
      (fun x hx hxp hxh ↦ by
        rw [hre.binNums_eq, update_of_ne hxp, hre.allocIds_eq]
        exact hl.settled x (hre.regions ▸ hx) hxh)
      (by rw [hre.regions, hre.allocIds_eq]; exact hl.spaced) (hre.allocIds_eq ▸ hbefore)
      (hre.allocIds_eq ▸ hl.after)
    refine (hmerge.mono (fun _ h ↦ h) fun e he ↦ hre.sameUse.excused he).bind ?_
    rintro a' ⟨rows', free', r', hl', huse'⟩
    have hall := hre.sameUse.trans huse'
    refine post_ok.2 ⟨rows', free', r', l₁, hl', fun x hx ↦ ?_, ?_, hall⟩
    · rw [hall.ids]
      exact (hlast x hx p (by simp)).resolve_right (not_not.2 hidp)
    · rw [hall.ids]
      exact hnext

/-! ### Taking a chunk back -/

theorem Core.takeBack (hc : Core a rows free) (huse : allocIds a h ≠ -1)
    (hnone : binNums a h = none) :
    Core (a.takeBack h) rows free ∧ SameShape a (a.takeBack h) ∧
      allocIds (a.takeBack h) = Function.update (allocIds a) h (-1) ∧
      binNums (a.takeBack h) = binNums a := by
  refine hc.setId (hc.live_of_inUse huse) hnone rfl hc.id_pos ?_
  rw [usedSize, if_pos (show (a.chunks h).InUse from huse), if_neg (not_not.2 rfl), add_zero]
  rfl

theorem Rest.binNums_of_inUse (hr : Rest a rows free) (huse : allocIds a h ≠ -1) :
    binNums a h = none := by
  by_contra hne
  obtain ⟨k, hk⟩ := Option.ne_none_iff_exists'.1 hne
  exact (hr.core.bins.binned h k hk).1 huse

/-- A chunk that has just been taken back is loose. -/
theorem Rest.loose_takeBack (hr : Rest a rows free) (huse : allocIds a h ≠ -1)
    (hmem : r ∈ a.regions) (hrow : rows r.ptr = l₁ ++ h :: l₂) :
    Loose (a.takeBack h) rows free r l₁ h l₂ := by
  obtain ⟨hc, hs, hids, hnums⟩ := hr.core.takeBack huse (hr.binNums_of_inUse huse)
  have hnodup := hr.core.row_nodup hmem
  rw [hrow] at hnodup
  have hchain := hr.spaced r hmem
  rw [hrow] at hchain
  obtain ⟨hbefore, hrest, -⟩ := isChain_append.1 hchain
  have hother : ∀ x, x ≠ h → allocIds (a.takeBack h) x = allocIds a x := fun x hx ↦ by
    rw [hids, update_of_ne hx]
  refine ⟨hc, hs.regions ▸ hmem, hrow, ?_, ?_, fun x hx hxh ↦ ?_, fun r' hr' hne ↦ ?_, ?_, ?_⟩
  · rw [hids, update_self]
  · rw [hnums]
    exact hr.binNums_of_inUse huse
  · rw [hother x hxh, hnums]
    exact hr.settled x (hs.regions ▸ hx)
  · rw [hs.regions] at hr'
    refine (hr.spaced r' hr').mono fun x hx hxuse ↦ ?_
    rwa [hother x (hr.core.row_disjoint hmem hr' hne (hrow ▸ by simp) hx)]
  · exact Spaced.mono hbefore fun x hx hxuse ↦ by
      rwa [hother x (ne_of_mem_before hnodup hx).1]
  · exact Spaced.mono (isChain_cons.1 hrest).2 fun x hx hxuse ↦ by
      rwa [hother x (ne_of_mem_after hnodup hx)]

/-- What a deallocation that takes the chunk `h` back leaves in use. -/
structure TakesBack (a a' : BFCAllocator sub) (h : ChunkHandle) : Prop where
  inUse : allocIds a h ≠ -1
  memoryLimit : a'.memoryLimit = a.memoryLimit
  ids : allocIds a' = Function.update (allocIds a) h (-1)
  kept : ∀ x, x ≠ h → allocIds a x ≠ -1 → (a'.chunks x).ptr = (a.chunks x).ptr

/-- `FreeAndMaybeCoalesce` of a chunk of a region; a chunk that is not in use fails the check. -/
theorem Rest.freeAndMaybeCoalesce (hr : Rest a rows free) (hlive : h ∈ live a.regions rows)
    (huse : Bounded a → allocIds a h ≠ -1) :
    Post (a.freeAndMaybeCoalesce h)
      (fun a' ↦ ∃ rows' free', Rest a' rows' free' ∧ TakesBack a a' h) (Excused a) := by
  rw [BFCAllocator.freeAndMaybeCoalesce]
  by_cases hid : allocIds a h = -1
  · rw [check, if_neg fun hcheck ↦ hcheck.1 hid]
    exact post_error.2 fun _ hb ↦ huse hb hid
  rw [check_of ⟨hid, hr.binNums_of_inUse hid⟩, ok_bind]
  obtain ⟨r, hmem, hrow⟩ := mem_live.1 hlive
  obtain ⟨l₁, l₂, hrow⟩ := append_of_mem hrow
  obtain ⟨-, hs, hids, -⟩ := hr.core.takeBack hid (hr.binNums_of_inUse hid)
  have hexc : ∀ {a₁ : BFCAllocator sub}, SameUse (a.takeBack h) a₁ →
      ∀ e, Excused a₁ e → Excused a e := fun hsame e he hf hb ↦
    he hf (by rwa [Bounded, hsame.memoryLimit, hs.memoryLimit])
  refine ((hr.loose_takeBack hid hmem hrow).coalesceNext.mono (fun _ hq ↦ hq)
    (hexc ⟨rfl, rfl, fun _ _ ↦ rfl⟩)).bind ?_
  rintro a₁ ⟨rows₁, free₁, r₁, l₂', hl₁, hnext, huse₁⟩
  refine ((hl₁.coalescePrev hnext).mono (fun _ hq ↦ hq) (hexc huse₁)).bind ?_
  rintro ⟨h', a₂⟩ ⟨rows₂, free₂, r₂, l₁', hl₂, hprev, hnext', huse₂⟩
  obtain ⟨a₃, ha₃, hrest, huse₃⟩ := hl₂.insertFreeChunkIntoBin hprev hnext'
  have hall := (huse₁.trans huse₂).trans huse₃
  simp only [ha₃]
  refine post_ok.2 ⟨rows₂, free₂, hrest, hid, hall.memoryLimit.trans hs.memoryLimit,
    hall.ids.trans hids, fun x hxh hx ↦ ?_⟩
  have hx' : allocIds (a.takeBack h) x ≠ -1 := by
    rwa [hids, update_of_ne hxh]
  exact (hall.kept x hx').trans (congrFun hs.ptr x)

/-! ### `DeallocateRawInternal` -/

/-- Every valid handle of `handles_` is a chunk of a region. -/
theorem Core.live_of_getHandle (hc : Core a rows free) {p : ℕ}
    (hget : getHandle p a.regions = .ok (some h)) : h ∈ live a.regions rows := by
  obtain ⟨r, hr, i, hi⟩ := exists_of_getHandle hget
  exact mem_live.2 ⟨r, hr, (hc.handles.sound r hr i h hi).1⟩

/-- Within the memory limit, the address of a chunk is looked up to it. -/
theorem Core.getHandle_ptr (hc : Core a rows free) (hb : Bounded a)
    (hlive : h ∈ live a.regions rows) : getHandle (a.chunks h).ptr a.regions = .ok (some h) := by
  obtain ⟨r, hr, hrow⟩ := mem_live.1 hlive
  obtain ⟨i, hi, hh⟩ := hc.handles.complete hb r hr h hrow
  rw [comp_apply] at hi
  rw [getHandle_eq hc.geometry.sorted hc.geometry.inSpace hr (hc.contains hr hrow), hi]
  exact congrArg Except.ok hh

theorem Core.ptr_pos (hc : Core a rows free) (hlive : h ∈ live a.regions rows) :
    0 < (a.chunks h).ptr := by
  obtain ⟨r, hr, hrow⟩ := mem_live.1 hlive
  exact (hc.geometry.inSpace r hr).ptr_pos.trans_le (hc.contains hr hrow).1

/-- The deallocation of a pointer that, within the memory limit, is the address of a chunk in
use. -/
theorem Rest.deallocateRawInternal (hr : Rest a rows free) {p : ℕ}
    (hp : Bounded a → ∃ h, allocIds a h ≠ -1 ∧ (a.chunks h).ptr = p) :
    Post (a.deallocateRawInternal p)
      (fun a' ↦ ∃ rows' free', Rest a' rows' free' ∧ a'.memoryLimit = a.memoryLimit ∧
        (Bounded a → ∃ h, (a.chunks h).ptr = p ∧ TakesBack a a' h))
      (Excused a) := by
  have hfound : Bounded a → ∃ h, allocIds a h ≠ -1 ∧ (a.chunks h).ptr = p ∧
      getHandle p a.regions = .ok (some h) := by
    intro hb
    obtain ⟨h, hh, rfl⟩ := hp hb
    exact ⟨h, hh, rfl, hr.core.getHandle_ptr hb (hr.core.live_of_inUse hh)⟩
  rw [BFCAllocator.deallocateRawInternal]
  split
  · rename_i hzero
    refine post_ok.2 ⟨rows, free, hr, rfl, fun hb ↦ ?_⟩
    obtain ⟨h, hh, hhp⟩ := hp hb
    have := hr.core.ptr_pos (hr.core.live_of_inUse hh)
    omega
  cases hget : getHandle p a.regions with
  | error e =>
    refine post_error.2 fun _ hb ↦ ?_
    obtain ⟨h, -, -, hh⟩ := hfound hb
    rw [hget] at hh
    cases hh
  | ok entry =>
    rw [ok_bind]
    cases entry with
    | none =>
      refine post_error.2 fun _ hb ↦ ?_
      obtain ⟨h, -, -, hh⟩ := hfound hb
      rw [hget] at hh
      cases hh
    | some h =>
      have hthis : Bounded a → allocIds a h ≠ -1 ∧ (a.chunks h).ptr = p := fun hb ↦ by
        obtain ⟨h', huse', hp', hh'⟩ := hfound hb
        obtain rfl : h = h' := Option.some.inj (Except.ok.inj (hget.symm.trans hh'))
        exact ⟨huse', hp'⟩
      refine (hr.freeAndMaybeCoalesce (hr.core.live_of_getHandle hget) fun hb ↦
        (hthis hb).1).mono ?_ fun e he ↦ he
      rintro a' ⟨rows', free', hrest, htake⟩
      exact ⟨rows', free', hrest, htake.memoryLimit, fun hb ↦ ⟨h, (hthis hb).2, htake⟩⟩

end TensorFlowCore.BfcAllocator
