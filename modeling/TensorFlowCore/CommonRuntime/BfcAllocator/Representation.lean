import TensorFlowCore.CommonRuntime.BfcAllocator.Deallocate

/-!
# The allocator over whole runs

`Represents` states the invariant of the allocator between calls with no reference to how it is
proved: what is found by following `next` from `handles_[0]` of a region, what `handles_` and the
bins hold, what is recycled, and what `stats_.bytes_in_use` counts. `Usable` states what an
allocation hands out.

A run is a list of calls of a client that gives back only pointers it holds. In a run whose requests
can be rounded up without overflow, every allocation is usable (`usable_of_run`). With a memory
limit below `2 ^ 39` bytes also the invariant holds after each call and no call is fatal
(`representation_of_run`). Beyond either bound there are runs where this fails.
-/

namespace TensorFlowCore.BfcAllocator

open AllocationRegion BFCAllocator DoublyLinked ExceptPost Function GuardedRun List Option Tiling

variable {sub : SubAllocator} {a a' : BFCAllocator sub} {rows : ℕ → List ChunkHandle}
  {free : List ChunkHandle} {h : ChunkHandle} {r : AllocationRegion}

/-- The chunks of the region `r` are those of `row`. -/
structure RegionRepresents (a : BFCAllocator sub) (r : AllocationRegion) (row : List ChunkHandle) :
    Prop where
  follows : Follows (Chunk.next ∘ a.chunks) (r.handles 0) row
  linked : Linked (Chunk.next ∘ a.chunks) (Chunk.prev ∘ a.chunks) row
  tiles : Tiles kMinAllocationSize (Chunk.ptr ∘ a.chunks) (Chunk.size ∘ a.chunks) r.ptr row
    (r.ptr + r.memorySize)
  spaced : row.IsChain fun x y ↦ (a.chunks x).InUse ∨ (a.chunks y).InUse
  handles : ∀ i < r.nHandles, ∀ h,
    r.handles i = some h ↔ h ∈ row ∧ (a.chunks h).ptr = r.ptr + kMinAllocationSize * i

/-- The state of the allocator between calls. -/
structure Represents (a : BFCAllocator sub) (rows : ℕ → List ChunkHandle)
    (free : List ChunkHandle) : Prop where
  region : ∀ r ∈ a.regions, RegionRepresents a r (rows r.ptr)
  recycled : Follows (Chunk.next ∘ a.chunks) a.freeChunksList free
  /-- No chunk is in two places, and no chunk is also recycled. -/
  nodup : (live a.regions rows ++ free).Nodup
  bins : ∀ h ∈ live a.regions rows, ∀ k,
    h ∈ a.bins k ↔ ¬ (a.chunks h).InUse ∧ k = binNumForSize (a.chunks h).size
  bins_live : ∀ k, ∀ h ∈ a.bins k, h ∈ live a.regions rows
  bins_nodup : ∀ k, (a.bins k).Nodup
  bytesInUse : a.stats.bytesInUse =
    (((live a.regions rows).filter fun h ↦ (a.chunks h).InUse).map fun h ↦ (a.chunks h).size).sum

/-- The representation invariant. -/
def RepInvariant (a : BFCAllocator sub) : Prop := ∃ rows free, Represents a rows free

/-- The chunk at `p` is in use, has `numBytes` bytes, and overlaps no other chunk in use. -/
def Usable (a : BFCAllocator sub) (p numBytes : ℕ) : Prop :=
  ∃ h < a.chunksSize, (a.chunks h).InUse ∧ (a.chunks h).ptr = p ∧ numBytes ≤ (a.chunks h).size ∧
    ∀ h' < a.chunksSize, (a.chunks h').InUse → h' ≠ h →
      (a.chunks h).ptr + (a.chunks h).size ≤ (a.chunks h').ptr ∨
        (a.chunks h').ptr + (a.chunks h').size ≤ (a.chunks h).ptr

instance (a : BFCAllocator sub) (p numBytes : ℕ) : Decidable (Usable a p numBytes) :=
  inferInstanceAs (Decidable (∃ h < a.chunksSize, _))

/-! ### From the invariant of the proofs -/

theorem Core.handles_iff (hc : Core a rows free) (hb : Bounded a) (hr : r ∈ a.regions) {i : ℕ} :
    r.handles i = some h ↔ h ∈ rows r.ptr ∧ (a.chunks h).ptr = r.ptr + kMinAllocationSize * i := by
  constructor
  · intro hi
    obtain ⟨hrow, hslot⟩ := hc.handles.sound r hr i h hi
    obtain ⟨hle, -, ⟨k, hk⟩, -⟩ := (hc.geometry.tiles r hr).bounds hrow
    rw [comp_apply, hc.slot_eq hb hr (hc.contains hr hrow)] at hslot
    have := Except.ok.inj hslot
    rw [comp_apply, kMinAllocationSize] at *
    exact ⟨hrow, by omega⟩
  · rintro ⟨hrow, hptr⟩
    obtain ⟨j, hslot, hj⟩ := hc.handles.complete hb r hr h hrow
    rw [comp_apply, hc.slot_eq hb hr (hc.contains hr hrow), hptr] at hslot
    have := Except.ok.inj hslot
    rw [kMinAllocationSize] at this
    obtain rfl : j = i := by omega
    exact hj

/-- Following `next` from `handles_[0]` visits the row. -/
theorem Core.follows_row (hc : Core a rows free) (hb : Bounded a) (hr : r ∈ a.regions) :
    Follows (Chunk.next ∘ a.chunks) (r.handles 0) (rows r.ptr) := by
  have hfollows := (hc.geometry.linked r hr).follows
  have htiles := hc.geometry.tiles r hr
  have hhandles := fun h ↦ hc.handles_iff (h := h) (i := 0) hb hr
  revert hfollows htiles hhandles
  cases rows r.ptr with
  | nil =>
    intro _ htiles _
    have := (hc.geometry.inSpace r hr).size_pos
    have : r.ptr = r.ptr + r.memorySize := htiles
    omega
  | cons h row =>
    intro hfollows htiles hhandles
    rwa [(hhandles h).2 ⟨mem_cons_self, htiles.1⟩]

theorem sum_usedSize_range (hc : Core a rows free) :
    ∑ h ∈ Finset.range a.chunksSize, usedSize (a.chunks h) =
      (((live a.regions rows).filter fun h ↦ (a.chunks h).InUse).map
        fun h ↦ (a.chunks h).size).sum := by
  have hlist : ∑ h ∈ Finset.range a.chunksSize, usedSize (a.chunks h) =
      ((range a.chunksSize).map fun h ↦ usedSize (a.chunks h)).sum := by
    rw [← sum_toFinset _ nodup_range, toFinset_range]
  rw [hlist, ← (hc.perm.map fun h ↦ usedSize (a.chunks h)).sum_eq, map_append, sum_append]
  have hfree : (free.map fun h ↦ usedSize (a.chunks h)).sum = 0 := by
    refine sum_eq_zero fun x hx ↦ ?_
    obtain ⟨h, hh, rfl⟩ := mem_map.1 hx
    have hnot : h ∉ live a.regions rows := fun hl ↦
      disjoint_of_nodup_append hc.nodup hl hh
    exact if_neg (hc.idle h hnot).1
  rw [hfree, add_zero]
  induction live a.regions rows with
  | nil => rfl
  | cons h l ih =>
    rw [map_cons, sum_cons, ih, filter_cons]
    by_cases huse : (a.chunks h).InUse <;> simp [huse, usedSize]

theorem Rest.represents (hr : Rest a rows free) (hb : Bounded a) : Represents a rows free := by
  have hc := hr.core
  refine ⟨fun r hmem ↦ ⟨hc.follows_row hb hmem, hc.geometry.linked r hmem,
    hc.geometry.tiles r hmem, hr.spaced r hmem, fun i _ h ↦ hc.handles_iff hb hmem⟩, hc.recycled,
    hc.nodup, fun h hh k ↦ ?_, fun k h hk ↦ ?_, fun k ↦ ?_, ?_⟩
  · rw [hc.bins.mem]
    refine ⟨fun hk ↦ hc.bins.binned h k hk, ?_⟩
    rintro ⟨hfree, rfl⟩
    obtain ⟨k, hk⟩ := ne_none_iff_exists'.1 ((hr.settled h hh).resolve_left hfree)
    rw [← (hc.bins.binned h k hk).2]
    exact hk
  · exact hc.live_of_binned ((hc.bins.mem k h).1 hk)
  · refine (hc.bins.sorted k).imp fun {x y} hlt heq ↦ ?_
    rw [heq] at hlt
    exact irrefl_of (ChunkLt a.chunks) y hlt
  · rw [hc.bytesInUse, sum_usedSize_range hc]

theorem HandsOut.usable {rounded p numBytes : ℕ} (hc : Core a' rows free)
    (hout : HandsOut a a' rows rounded p h) (hle : numBytes ≤ rounded) : Usable a' p numBytes := by
  obtain ⟨id, hid, hids⟩ := hout.ids
  refine ⟨h, hc.lt_chunksSize hout.live, ?_, hout.ptr, hle.trans hout.size_le,
    fun h' _ huse hne ↦ hc.disjoint hout.live (hc.live_of_inUse huse) hne.symm⟩
  show allocIds a' h ≠ -1
  rwa [hids, update_self]

/-! ### Runs -/

/-- A sub-allocator with one region of `size` bytes at address 4096. -/
def SubAllocator.oneRegion (size : ℕ) (hsize : size < 2 ^ 62) : SubAllocator where
  State := List (ℕ × ℕ)
  init := []
  alloc σ n := if σ = [] ∧ n ≤ size then (some 4096, [(4096, n)]) else (none, σ)
  granted σ := σ
  granted_init := rfl
  granted_of_null := by
    intro σ n σ' h
    split at h
    · cases h
    · exact (Prod.mk.inj h).2.symm
  granted_of_alloc := by
    intro σ n p σ' h
    split at h
    · rename_i hfree
      obtain ⟨hp, rfl⟩ := Prod.mk.inj h
      rw [hfree.1, Option.some.inj hp]
    · cases h
  alloc_bounds := by
    intro σ n p σ' h
    split at h
    · rename_i hfree
      have := Option.some.inj (Prod.mk.inj h).1
      omega
    · cases h
  alloc_fresh := by
    intro σ n p σ' h
    split at h
    · rename_i hfree
      simp [hfree.1]
    · cases h

/-- One region of 1 MiB. -/
def SubAllocator.mebibyte : SubAllocator := .oneRegion (2 ^ 20) (by norm_num)

/-- One region of 2 TiB. -/
def SubAllocator.twoTebibytes : SubAllocator := .oneRegion (2 ^ 41) (by norm_num)

/-- A sub-allocator that has nothing to grant. -/
def SubAllocator.exhausted : SubAllocator where
  State := Unit
  init := ()
  alloc σ _ := (none, σ)
  granted _ := []
  granted_init := rfl
  granted_of_null _ := rfl
  granted_of_alloc h := absurd (Prod.mk.inj h).1.symm (Option.some_ne_none _)
  alloc_bounds h := absurd (Prod.mk.inj h).1.symm (Option.some_ne_none _)
  alloc_fresh h := absurd (Prod.mk.inj h).1.symm (Option.some_ne_none _)

/-- The pointers a client holds are the addresses of the chunks in use, as long as the memory limit
keeps the handles apart. -/
structure ClientInvariant (totalMemory : ℕ) (s : Client sub) : Prop where
  rest : ∃ rows free, Rest s.allocator rows free
  memoryLimit : s.allocator.memoryLimit = totalMemory
  nodup : Bounded s.allocator → s.live.Nodup
  mem : Bounded s.allocator → ∀ p,
    p ∈ s.live ↔ ∃ h, allocIds s.allocator h ≠ -1 ∧ (s.allocator.chunks h).ptr = p

/-- A request that `RoundedBytes` rounds up without overflow. -/
def FitsRounding : Call → Prop
  | .allocateRaw numBytes => numBytes ≤ 2 ^ 64 - 256
  | .deallocateRaw _ => True

/-- A new allocator has no region and no chunk. -/
theorem rest_init {totalMemory : ℕ} (htotal : totalMemory < 2 ^ 64) (allowGrowth : Bool) :
    Rest (BFCAllocator.init sub totalMemory allowGrowth) (fun _ ↦ []) [] := by
  have hcurr : ∃ n, (init sub totalMemory allowGrowth).currRegionAllocationBytes =
      roundedBytes n := by
    cases allowGrowth
    · exact ⟨totalMemory, rfl⟩
    · exact ⟨_, rfl⟩
  obtain ⟨n, hn⟩ := hcurr
  have hgeometry : Geometry (init sub totalMemory allowGrowth).regions (fun _ ↦ [])
      (init sub totalMemory allowGrowth).chunks := by
    constructor <;> simp [init, SortedRegions]
  have haccounts : Accounts (init sub totalMemory allowGrowth) :=
    ⟨by simp [init], rfl, Nat.zero_le _, htotal, hn ▸ roundedBytes_lt n,
      hn ▸ dvd_roundedBytes n⟩
  have hbins : BinsOk (init sub totalMemory allowGrowth).chunks
      (init sub totalMemory allowGrowth).bins := by
    constructor <;> simp [init]
  refine ⟨⟨hgeometry, ⟨by simp [init], by simp [init]⟩, .nil, .refl _,
    fun h _ ↦ ⟨?_, rfl⟩, hbins, haccounts, ?_, rfl⟩, by simp [init, live],
    by simp [init]⟩
  · exact not_not.2 rfl
  · show (0 : ℤ) < 1
    decide

theorem ClientInvariant.init {totalMemory : ℕ} (htotal : totalMemory < 2 ^ 64)
    (allowGrowth : Bool) : ClientInvariant totalMemory (Client.init sub totalMemory allowGrowth) :=
  ⟨⟨_, _, rest_init htotal allowGrowth⟩, rfl, fun _ ↦ nodup_nil, fun _ _ ↦
    ⟨fun hp ↦ absurd hp not_mem_nil, fun ⟨_, hh, _⟩ ↦ absurd rfl hh⟩⟩

/-- The chunk that is handed out joins the chunks in use. -/
theorem HandsOut.inUse_iff {rounded p q : ℕ} (hout : HandsOut a a' rows rounded p h) :
    (∃ x, allocIds a' x ≠ -1 ∧ (a'.chunks x).ptr = q) ↔
      q = p ∨ ∃ x, allocIds a x ≠ -1 ∧ (a.chunks x).ptr = q := by
  obtain ⟨id, hid, hids⟩ := hout.ids
  constructor
  · rintro ⟨x, hx, rfl⟩
    by_cases hxh : x = h
    · exact Or.inl (hxh ▸ hout.ptr)
    · rw [hids, update_of_ne hxh] at hx
      exact Or.inr ⟨x, hx, (hout.kept x hx).symm⟩
  · rintro (rfl | ⟨x, hx, rfl⟩)
    · exact ⟨h, by rwa [hids, update_self], hout.ptr⟩
    · exact ⟨x, hids ▸ mono_update hid hx, hout.kept x hx⟩

/-- An address that is handed out was not in use. -/
theorem HandsOut.not_inUse {rounded p : ℕ} (hc : Core a' rows free)
    (hout : HandsOut a a' rows rounded p h) : ¬ ∃ x, allocIds a x ≠ -1 ∧ (a.chunks x).ptr = p := by
  rintro ⟨x, hx, hxp⟩
  obtain ⟨id, hid, hids⟩ := hout.ids
  have hx' : x ∈ BfcAllocator.live a'.regions rows := hc.live_of_inUse (hids ▸ mono_update hid hx)
  have heq := hc.ptr_inj hx' hout.live (((hout.kept x hx).trans hxp).trans hout.ptr.symm)
  exact hx (heq ▸ hout.free)

/-- The chunk that is taken back leaves the chunks in use. -/
theorem TakesBack.inUse_iff (hc : Core a rows free) (htake : TakesBack a a' h) {q : ℕ} :
    (∃ x, allocIds a' x ≠ -1 ∧ (a'.chunks x).ptr = q) ↔
      q ≠ (a.chunks h).ptr ∧ ∃ x, allocIds a x ≠ -1 ∧ (a.chunks x).ptr = q := by
  constructor
  · rintro ⟨x, hx, rfl⟩
    have hxh : x ≠ h := by
      rintro rfl
      rw [htake.ids, update_self] at hx
      exact hx rfl
    rw [htake.ids, update_of_ne hxh] at hx
    rw [htake.kept x hxh hx]
    exact ⟨fun heq ↦ hxh (hc.ptr_inj (hc.live_of_inUse hx) (hc.live_of_inUse htake.inUse) heq),
      x, hx, rfl⟩
  · rintro ⟨hne, x, hx, rfl⟩
    have hxh : x ≠ h := fun heq ↦ hne (heq ▸ rfl)
    exact ⟨x, by rwa [htake.ids, update_of_ne hxh], htake.kept x hxh hx⟩

theorem SameUse.inUse_iff (huse : SameUse a a') {q : ℕ} :
    (∃ x, allocIds a' x ≠ -1 ∧ (a'.chunks x).ptr = q) ↔
      ∃ x, allocIds a x ≠ -1 ∧ (a.chunks x).ptr = q := by
  rw [huse.ids]
  exact exists_congr fun x ↦ and_congr_right fun hx ↦ by rw [huse.kept x hx]

/-- What a call of a run does. -/
theorem ClientInvariant.exec {totalMemory : ℕ} {s : Client sub} (hs : ClientInvariant totalMemory s)
    {c : Call} (hmay : s.MayCall c) (hfits : FitsRounding c) (fuel : ℕ) :
    Post (s.exec fuel c) (ClientInvariant totalMemory) (Excused s.allocator) := by
  obtain ⟨rows, free, hr⟩ := hs.rest
  have hbounded : ∀ {a' : BFCAllocator sub}, a'.memoryLimit = s.allocator.memoryLimit →
      Bounded a' → Bounded s.allocator := fun heq hb ↦ by rwa [Bounded, heq] at hb
  cases c with
  | allocateRaw numBytes =>
    refine (hr.allocateRawInternal hfits).bind ?_
    rintro ⟨ptr, a'⟩ ⟨rows', free', hrest, hlimit, hcase⟩
    simp only at hrest hlimit hcase
    refine post_ok.2 ⟨⟨rows', free', hrest⟩, hlimit.trans hs.memoryLimit, fun hb ↦ ?_,
      fun hb q ↦ ?_⟩
    · have hb' := hbounded hlimit hb
      rcases hcase with ⟨rfl, -⟩ | ⟨p, h, rfl, -, hout⟩
      · exact hs.nodup hb'
      · exact nodup_cons.2 ⟨fun hp ↦ hout.not_inUse hrest.core ((hs.mem hb' p).1 hp),
          hs.nodup hb'⟩
    · have hb' := hbounded hlimit hb
      rcases hcase with ⟨rfl, huse⟩ | ⟨p, h, rfl, -, hout⟩
      · exact (hs.mem hb' q).trans huse.inUse_iff.symm
      · exact mem_cons.trans ((or_congr_right (hs.mem hb' q)).trans hout.inUse_iff.symm)
  | deallocateRaw p =>
    refine (hr.deallocateRawInternal fun hb ↦ (hs.mem hb p).1 hmay).bind ?_
    rintro a' ⟨rows', free', hrest, hlimit, htakes⟩
    refine post_ok.2 ⟨⟨rows', free', hrest⟩, hlimit.trans hs.memoryLimit,
      fun hb ↦ (hs.nodup (hbounded hlimit hb)).erase p, fun hb q ↦ ?_⟩
    have hb' := hbounded hlimit hb
    obtain ⟨h, rfl, htake⟩ := htakes hb'
    rw [(hs.nodup hb').mem_erase_iff, hs.mem hb', htake.inUse_iff hr.core]

theorem exec_of_step {fuel : ℕ} {s s' : Client sub} {c : Call} (hstep : s.step fuel c = some s') :
    s.MayCall c ∧ s.exec fuel c = .ok s' := by
  rw [Client.step] at hstep
  split at hstep
  · rename_i hmay
    refine ⟨hmay, ?_⟩
    cases hexec : s.exec fuel c with
    | ok t =>
      rw [hexec] at hstep
      exact congrArg Except.ok (some.inj hstep)
    | error e =>
      rw [hexec] at hstep
      cases hstep
  · cases hstep

theorem ClientInvariant.run {totalMemory fuel : ℕ} {s t : Client sub} {cs : List Call}
    (hs : ClientInvariant totalMemory s) (hfits : ∀ c ∈ cs, FitsRounding c)
    (hrun : run (Client.step fuel) s cs = some t) : ClientInvariant totalMemory t :=
  run_invariant (fun hc hI hstep ↦
    (hI.exec (exec_of_step hstep).1 (hfits _ hc) fuel).of_ok (exec_of_step hstep).2) hs hrun

/-- **The representation invariant holds after each call**, and no call that a client may make is
fatal, as long as the memory limit keeps every index into `handles_` an `int`. -/
theorem representation_of_run {totalMemory fuel : ℕ} {allowGrowth : Bool} {cs : List Call}
    {s : Client sub} (htotal : totalMemory < 2 ^ 39) (hfits : ∀ c ∈ cs, FitsRounding c)
    (hrun : run (Client.step fuel) (Client.init sub totalMemory allowGrowth) cs = some s) :
    RepInvariant s.allocator ∧
      ∀ c, s.MayCall c → FitsRounding c → s.exec fuel c ≠ .error .fatal := by
  have hs := (ClientInvariant.init (htotal.trans (by norm_num)) allowGrowth).run hfits hrun
  have hb : Bounded s.allocator := by rwa [Bounded, hs.memoryLimit]
  obtain ⟨rows, free, hr⟩ := hs.rest
  refine ⟨⟨rows, free, hr.represents hb⟩, fun c hmay hc hfatal ↦ ?_⟩
  exact (hs.exec hmay hc fuel).of_error hfatal rfl hb

/-- Two allocations and a deallocation in a region of 1 MiB. -/
theorem representation_of_run_mebibyte :
    ∃ s : Client .mebibyte, run (Client.step 1) (Client.init .mebibyte (2 ^ 20) true)
        [.allocateRaw 300, .allocateRaw 5000, .deallocateRaw 4096] = some s ∧
      RepInvariant s.allocator := by
  obtain ⟨s, hs⟩ := isSome_iff_exists.1 (show (run (Client.step 1)
    (Client.init .mebibyte (2 ^ 20) true)
    [.allocateRaw 300, .allocateRaw 5000, .deallocateRaw 4096]).isSome by decide +kernel)
  exact ⟨s, hs, (representation_of_run (by norm_num) (by simp [FitsRounding]) hs).1⟩

/-- In a region of 2 TiB, the chunk at offset `2 ^ 40` has index `2 ^ 32`, which as an `int` is the
index 0 of the region's first chunk. -/
theorem not_representation_tebibytes :
    ∃ s : Client .twoTebibytes, run (Client.step 1) (Client.init .twoTebibytes (2 ^ 41) false)
        [.allocateRaw (2 ^ 40)] = some s ∧
      ¬ RepInvariant s.allocator := by
  have hdata : (run (Client.step 1)
      (Client.init .twoTebibytes (2 ^ 41) false)
      [.allocateRaw (2 ^ 40)]).map (fun s ↦
        (s.allocator.regions.map fun r ↦ (r.ptr, r.nHandles, r.handles 0),
          (s.allocator.chunks 1).ptr)) =
      some ([(4096, 2 ^ 33, some 1)], 4096 + 2 ^ 40) := by decide +kernel
  obtain ⟨s, hs, heq⟩ := map_eq_some_iff.1 hdata
  refine ⟨s, hs, ?_⟩
  rintro ⟨rows, free, hrep⟩
  obtain ⟨hregions, hptr⟩ := Prod.mk.inj heq
  obtain ⟨r, hr, hdata⟩ := mem_map.1 (hregions ▸ mem_singleton_self
    ((4096, 2 ^ 33, some 1) : ℕ × ℕ × Option ChunkHandle))
  obtain ⟨hbase, hdata⟩ := Prod.mk.inj hdata
  obtain ⟨hlen, hentry⟩ := Prod.mk.inj hdata
  have hfirst := (((hrep.region r hr).handles 0 (by rw [hlen]; norm_num) 1).1 hentry).2
  rw [hptr, hbase] at hfirst
  norm_num at hfirst

/-- **Every allocation of a run is usable**, at any memory limit. -/
theorem usable_of_run {totalMemory fuel fuel' : ℕ} {allowGrowth : Bool} {cs : List Call}
    {s : Client sub} {numBytes p : ℕ} (htotal : totalMemory < 2 ^ 64)
    (hfits : ∀ c ∈ cs, FitsRounding c)
    (hrun : run (Client.step fuel) (Client.init sub totalMemory allowGrowth) cs = some s)
    (hnum : FitsRounding (.allocateRaw numBytes))
    (halloc : s.allocator.allocateRawInternal fuel' numBytes = .ok (some p, a')) :
    Usable a' p numBytes := by
  have hs := (ClientInvariant.init htotal allowGrowth).run hfits hrun
  obtain ⟨rows, free, hr⟩ := hs.rest
  obtain ⟨rows', free', hrest, -, hcase⟩ := (hr.allocateRawInternal hnum).of_ok halloc
  rcases hcase with ⟨hnone, -⟩ | ⟨q, h, hq, -, hout⟩
  · cases hnone
  · obtain rfl : p = q := some.inj hq
    exact hout.usable hrest.core (le_roundedBytes hnum)

/-- A request of 5000 bytes after one of 300. -/
theorem usable_of_run_mebibyte :
    ∃ (s : Client .mebibyte) (p : ℕ) (a' : BFCAllocator .mebibyte),
      run (Client.step 1) (Client.init .mebibyte (2 ^ 20) true)
        [.allocateRaw 300] = some s ∧
      s.allocator.allocateRawInternal 1 5000 = .ok (some p, a') ∧ Usable a' p 5000 := by
  have hdata : ((run (Client.step 1)
      (Client.init .mebibyte (2 ^ 20) true)
      [.allocateRaw 300]).bind fun s ↦
        (s.allocator.allocateRawInternal 1 5000).toOption.bind Prod.fst).isSome := by
    decide +kernel
  obtain ⟨p, hp⟩ := isSome_iff_exists.1 hdata
  obtain ⟨s, hs, hp⟩ := bind_eq_some_iff.1 hp
  obtain ⟨⟨q, a'⟩, ha', hq⟩ := bind_eq_some_iff.1 hp
  obtain rfl : q = some p := hq
  have halloc : s.allocator.allocateRawInternal 1 5000 = .ok (some p, a') := by
    cases hx : s.allocator.allocateRawInternal 1 5000 with
    | ok x =>
      rw [hx] at ha'
      exact congrArg Except.ok (some.inj ha')
    | error e =>
      rw [hx] at ha'
      cases ha'
  exact ⟨s, p, a', hs, halloc,
    usable_of_run (by norm_num) (by simp [FitsRounding]) hs (by simp [FitsRounding]) halloc⟩

/-- `RoundedBytes` maps the largest requests to 0, so a chunk of 0 bytes is handed out. -/
theorem not_usable_overflow :
    ∃ p a', (Client.init .mebibyte (2 ^ 20) true).allocator.allocateRawInternal 1 (2 ^ 64 - 255) =
      .ok (some p, a') ∧
      ¬ Usable a' p (2 ^ 64 - 255) := by
  have hdata : ((Client.init .mebibyte (2 ^ 20) true).allocator.allocateRawInternal 1
    (2 ^ 64 - 255)).toOption.any
        (fun x ↦ x.1.any fun p ↦ ¬ Usable x.2 p (2 ^ 64 - 255)) = true := by decide +kernel
  cases hx : (Client.init .mebibyte (2 ^ 20) true).allocator.allocateRawInternal 1
    (2 ^ 64 - 255) with
  | error e => rw [hx] at hdata; cases hdata
  | ok x =>
    obtain ⟨q, a'⟩ := x
    rw [hx] at hdata
    cases q with
    | none => cases hdata
    | some p => exact ⟨p, a', rfl, of_decide_eq_true hdata⟩

/-! ### What a client gives back -/

/-- The region is one free chunk, which a bin offers. -/
def Coalesced (a : BFCAllocator sub) (r : AllocationRegion) : Prop :=
  ∃ h, r.handles 0 = some h ∧ ¬ (a.chunks h).InUse ∧ (a.chunks h).ptr = r.ptr ∧
    (a.chunks h).size = r.memorySize ∧ h ∈ a.bins (binNumForSize r.memorySize)

/-- Of two neighbours one is in use, so a row without a chunk in use has only one chunk. -/
theorem Represents.coalesced (hr : Represents a rows free) (hmem : r ∈ a.regions)
    (hpos : 0 < r.memorySize) (hidle : ∀ h ∈ rows r.ptr, ¬ (a.chunks h).InUse) : Coalesced a r := by
  obtain ⟨hfollows, -, htiles, hspaced, -⟩ := hr.region r hmem
  have hbins := fun h (hh : h ∈ rows r.ptr) ↦ hr.bins h (mem_live.2 ⟨r, hmem, hh⟩)
  match hrow : rows r.ptr with
  | [] =>
    have : r.ptr = r.ptr + r.memorySize := by rwa [hrow] at htiles
    omega
  | [h] =>
    rw [hrow] at hfollows htiles hidle hbins
    obtain ⟨hptr, -, -, hend⟩ := htiles
    have hend : r.ptr + (a.chunks h).size = r.ptr + r.memorySize := hend
    have hentry : r.handles 0 = some h := by
      generalize r.handles 0 = first at hfollows
      cases hfollows
      rfl
    have hself : h ∈ [h] := mem_singleton_self h
    exact ⟨h, hentry, hidle h hself, hptr, by omega,
      (hbins h hself _).2 ⟨hidle h hself, by rw [show (a.chunks h).size = r.memorySize by omega]⟩⟩
  | h₁ :: h₂ :: row =>
    rw [hrow] at hspaced hidle
    rcases (isChain_cons_cons.1 hspaced).1 with huse | huse
    · exact absurd huse (hidle h₁ (by simp))
    · exact absurd huse (hidle h₂ (by simp))

/-- **No fragment stays behind.** After any run, a region in which the client holds no pointer is
one free chunk again. -/
theorem coalesced_of_run {totalMemory fuel : ℕ} {allowGrowth : Bool} {cs : List Call}
    {s : Client sub} (htotal : totalMemory < 2 ^ 39) (hfits : ∀ c ∈ cs, FitsRounding c)
    (hrun : run (Client.step fuel) (Client.init sub totalMemory allowGrowth) cs = some s) :
    ∀ r ∈ s.allocator.regions, (∀ p ∈ s.live, ¬ r.Contains p) → Coalesced s.allocator r := by
  intro r hmem hnone
  have hs := (ClientInvariant.init (htotal.trans (by norm_num)) allowGrowth).run hfits hrun
  have hb : Bounded s.allocator := by rwa [Bounded, hs.memoryLimit]
  obtain ⟨rows, free, hr⟩ := hs.rest
  have hpos := (hr.core.geometry.inSpace r hmem).size_pos
  refine (hr.represents hb).coalesced hmem hpos fun h hh huse ↦ ?_
  exact hnone _ ((hs.mem hb _).2 ⟨h, huse, rfl⟩) (hr.core.contains hmem hh)

/-- Two chunks of the region of 1 MiB, given back in the order they were handed out. -/
theorem coalesced_of_run_mebibyte :
    ∃ s : Client .mebibyte, run (Client.step 1) (Client.init .mebibyte (2 ^ 20) true)
        [.allocateRaw 300, .allocateRaw 5000, .deallocateRaw 4096, .deallocateRaw 4608] = some s ∧
      ∀ r ∈ s.allocator.regions, Coalesced s.allocator r := by
  have hdata : (run (Client.step 1) (Client.init .mebibyte (2 ^ 20) true)
      [.allocateRaw 300, .allocateRaw 5000, .deallocateRaw 4096, .deallocateRaw 4608]).map
        Client.live = some [] := by decide +kernel
  obtain ⟨s, hs, hlive⟩ := map_eq_some_iff.1 hdata
  exact ⟨s, hs, fun r hr ↦
    coalesced_of_run (by norm_num) (by simp [FitsRounding]) hs r hr (by simp [hlive])⟩

end TensorFlowCore.BfcAllocator
