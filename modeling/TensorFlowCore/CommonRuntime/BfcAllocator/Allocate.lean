import TensorFlowCore.CommonRuntime.BfcAllocator.Operations

/-!
# Allocation keeps the invariant

Between calls every free chunk is in a bin and no two neighbours are both free: `Rest`. Here
`FindChunkPtr`, `Extend` and `AllocateRawInternal` lead from `Rest` to `Rest`, and `HandsOut` says
what a successful allocation hands out: a chunk that was free before, of at least the size asked
for, while the chunks in use before stay where they are.
-/

namespace TensorFlowCore.BfcAllocator

open AllocationRegion BFCAllocator DoublyLinked ExceptPost Function List Tiling

variable {sub : SubAllocator} {a a' : BFCAllocator sub} {rows : ℕ → List ChunkHandle}
  {free : List ChunkHandle} {h : ChunkHandle}

/-- Of two neighbours, one is in use. -/
def Spaced (ids : ChunkHandle → ℤ) : List ChunkHandle → Prop :=
  List.IsChain fun x y ↦ ids x ≠ -1 ∨ ids y ≠ -1

/-- The state between two calls. -/
structure Rest (a : BFCAllocator sub) (rows : ℕ → List ChunkHandle) (free : List ChunkHandle) :
    Prop where
  core : Core a rows free
  settled : ∀ h ∈ live a.regions rows, allocIds a h ≠ -1 ∨ binNums a h ≠ none
  spaced : ∀ r ∈ a.regions, Spaced (allocIds a) (rows r.ptr)

theorem Core.live_of_inUse (hc : Core a rows free) (hh : allocIds a h ≠ -1) :
    h ∈ live a.regions rows := by
  by_contra hnot
  exact (hc.idle h hnot).1 hh

theorem Spaced.mono {ids ids' : ChunkHandle → ℤ} {l : List ChunkHandle} (hs : Spaced ids l)
    (h : ∀ x ∈ l, ids x ≠ -1 → ids' x ≠ -1) : Spaced ids' l :=
  IsChain.imp_of_mem_imp (fun x y hx hy hxy ↦ hxy.imp (h x hx) (h y hy)) hs

/-! ### Handing out a chunk -/

theorem sum_usedSize_update {chunks : ChunkHandle → Chunk} {n : ℕ} (hn : h < n) (c : Chunk) :
    ∑ x ∈ Finset.range n, usedSize (Function.update chunks h c x) =
      ∑ x ∈ Finset.range n, usedSize (chunks x) - usedSize (chunks h) + usedSize c := by
  have hmem := Finset.mem_range.2 hn
  rw [← Finset.add_sum_erase _ _ hmem, ← Finset.add_sum_erase _ (fun x ↦ usedSize (chunks x)) hmem,
    update_self]
  have hrest : ∑ x ∈ (Finset.range n).erase h, usedSize (update chunks h c x) =
      ∑ x ∈ (Finset.range n).erase h, usedSize (chunks x) :=
    Finset.sum_congr rfl fun x hx ↦ by rw [update_of_ne (Finset.ne_of_mem_erase hx)]
  rw [hrest]
  ring

/-- A chunk that is in no bin gets another id. -/
theorem Core.setId (hc : Core a rows free) (hlive : h ∈ live a.regions rows)
    (hnone : (a.chunks h).binNum = none) {id : ℤ} {requested : ℕ} (ha' : a' = { a with
      chunks := Function.update a.chunks h
        { a.chunks h with requestedSize := requested, allocationId := id }
      nextAllocationId := a'.nextAllocationId
      stats := a'.stats }) (hpos : 0 < a'.nextAllocationId)
    (hbytes : a'.stats.bytesInUse = a.stats.bytesInUse - usedSize (a.chunks h) +
      if id ≠ -1 then ((a.chunks h).size : ℤ) else 0) :
    Core a' rows free ∧ SameShape a a' ∧ allocIds a' = Function.update (allocIds a) h id ∧
      binNums a' = binNums a := by
  have hs : SameShape a a' := by
    constructor <;> rw [ha'] <;> exact comp_update_self rfl
  have hids : allocIds a' = update (allocIds a) h id := by
    rw [ha']
    exact comp_update _ _ _ _
  have hnums : binNums a' = binNums a := by
    rw [ha']
    exact comp_update_self rfl
  refine ⟨hc.of_sameShape hs (fun x hx ↦ ?_) ?_ hpos ?_, hs, hids, hnums⟩
  · have hxh : x ≠ h := fun heq ↦ hx (heq ▸ hlive)
    rw [hids, hnums, update_of_ne hxh]
    exact ⟨not_not.1 (hc.idle x hx).1, (hc.idle x hx).2⟩
  · have hbins : a'.bins = a.bins := by rw [ha']
    rw [hbins]
    refine hc.bins.congr hnums fun x hx ↦ ?_
    have hxh : x ≠ h := fun heq ↦ hx (heq ▸ hnone)
    have hxc : a'.chunks x = a.chunks x := by
      rw [ha']
      exact update_of_ne hxh _ _
    rw [hxc]
    exact ⟨rfl, rfl, rfl⟩
  · have hchunks : a'.chunks = update a.chunks h
        { a.chunks h with requestedSize := requested, allocationId := id } := by rw [ha']
    rw [hchunks, sum_usedSize_update (hc.lt_chunksSize hlive), ← hc.bytesInUse, hbytes]
    rfl

theorem Core.handOut (hc : Core a rows free) (hlive : h ∈ live a.regions rows)
    (hfree : ¬ (a.chunks h).InUse) (hnone : (a.chunks h).binNum = none) (numBytes : ℕ) :
    Core (a.handOut h numBytes) rows free ∧ SameShape a (a.handOut h numBytes) ∧
      allocIds (a.handOut h numBytes) = Function.update (allocIds a) h a.nextAllocationId ∧
      binNums (a.handOut h numBytes) = binNums a := by
  have hpos := hc.id_pos
  refine hc.setId hlive hnone rfl (show 0 < a.nextAllocationId + 1 by omega) ?_
  rw [usedSize, if_neg hfree, if_pos (by omega), sub_zero]
  rfl

/-! ### `FindChunkPtr` -/

theorem firstFit_some {binNum rounded k : ℕ} (hfit : a.firstFit binNum rounded = some (k, h)) :
    h ∈ a.bins k ∧ rounded ≤ (a.chunks h).size := by
  obtain ⟨k', -, hk'⟩ := exists_of_findSome?_eq_some hfit
  obtain ⟨h', hh', heq⟩ := Option.map_eq_some_iff.1 hk'
  cases heq
  exact ⟨mem_of_find?_eq_some hh', by simpa using find?_some hh'⟩

theorem mono_update {id : ℤ} (hid : id ≠ -1) {x : ChunkHandle} (hx : ids x ≠ -1) :
    Function.update ids h id x ≠ -1 := by
  by_cases hxh : x = h
  · rwa [hxh, update_self]
  · rwa [update_of_ne hxh]

theorem spaced_append_cons_cons {l₁ l₂ : List ChunkHandle} {h h' : ChunkHandle} :
    Spaced ids (l₁ ++ h :: h' :: l₂) ↔
      Spaced ids (l₁ ++ [h]) ∧ (ids h ≠ -1 ∨ ids h' ≠ -1) ∧ Spaced ids (h' :: l₂) :=
  isChain_append_cons_cons

/-- A free chunk is cut in two and its first part, `h`, is taken: its neighbours were in use. -/
theorem Spaced.cut {l₁ l₂ : List ChunkHandle} {hNew : ChunkHandle} (hs : Spaced ids (l₁ ++ h :: l₂))
    (hfree : ids h = -1) {id : ℤ} (hid : id ≠ -1) :
    Spaced (Function.update ids h id) (l₁ ++ h :: hNew :: l₂) := by
  refine spaced_append_cons_cons.2 ⟨?_, Or.inl (by rwa [update_self]), ?_⟩
  · have hs' : Spaced ids ((l₁ ++ [h]) ++ l₂) := by simpa using hs
    exact Spaced.mono (isChain_append.1 hs').1 fun _ _ ↦ mono_update hid
  · cases l₂ with
    | nil => exact isChain_singleton _
    | cons y l₂ =>
      obtain ⟨-, hy, hl⟩ := spaced_append_cons_cons.1 hs
      refine isChain_cons_cons.2 ⟨Or.inr ?_, Spaced.mono hl fun _ _ ↦ mono_update hid⟩
      exact mono_update hid (hy.resolve_left (not_not.2 hfree))

/-- The free chunk `h` is out of its bin and has at least `rounded` bytes. -/
structure Detached (a a' : BFCAllocator sub) (rows' : ℕ → List ChunkHandle)
    (free' : List ChunkHandle) (rounded : ℕ) (h : ChunkHandle) : Prop where
  core : Core a' rows' free'
  live : h ∈ live a'.regions rows'
  memoryLimit : a'.memoryLimit = a.memoryLimit
  ids : allocIds a' = allocIds a
  free : allocIds a h = -1
  loose : binNums a' h = none
  settled : ∀ x ∈ BfcAllocator.live a'.regions rows', x ≠ h →
    allocIds a x ≠ -1 ∨ binNums a' x ≠ none
  /-- Once `h` is in use, no two neighbours are free. -/
  spaced : ∀ id ≠ -1, ∀ r ∈ a'.regions, Spaced (Function.update (allocIds a) h id) (rows' r.ptr)
  kept : ∀ x, allocIds a x ≠ -1 → (a'.chunks x).ptr = (a.chunks x).ptr
  size_le : rounded ≤ (a'.chunks h).size

/-- Taking a chunk out of its bin. -/
theorem Rest.detach (hr : Rest a rows free) {k rounded : ℕ} (hmem : h ∈ a.bins k)
    (hsize : rounded ≤ (a.chunks h).size) :
    ∃ a', a.removeFreeChunkIterFromBin k h = .ok a' ∧ Refiled a a' h none ∧
      Detached a a' rows free rounded h := by
  have hk := (hr.core.bins.mem k h).1 hmem
  obtain ⟨a₁, ha₁, hc₁, hre⟩ := hr.core.removeFreeChunkIterFromBin hmem
  have hlive := hr.core.live_of_binned hk
  refine ⟨a₁, ha₁, hre, hc₁, hre.regions ▸ hlive, hre.memoryLimit, hre.allocIds_eq,
    not_not.1 (hr.core.bins.binned h k hk).1, ?_, fun x hx hxh ↦ ?_, fun id hid r hr' ↦ ?_,
    fun x _ ↦ congrFun hre.ptr x, hsize.trans_eq (congrFun hre.size h).symm⟩
  · rw [hre.binNums_eq, update_self]
  · rw [hre.binNums_eq, update_of_ne hxh]
    exact hr.settled x (hre.regions ▸ hx)
  · rw [hre.regions] at hr'
    exact (hr.spaced r hr').mono fun x _ ↦ mono_update hid

/-- Cutting the chunk that was taken out of its bin. -/
theorem Rest.split (hr : Rest a rows free) {a₁ : BFCAllocator sub} (hre : Refiled a a₁ h none)
    (hd : Detached a a₁ rows free rounded h) (hpos : 0 < rounded)
    (hdvd : kMinAllocationSize ∣ rounded) (hlt : rounded < (a₁.chunks h).size) :
    Post (a₁.splitChunk h rounded)
      (fun a' ↦ ∃ rows' free', Detached a a' rows' free' rounded h) (Excused a) := by
  obtain ⟨r, hr₁, hrow⟩ := mem_live.1 hd.live
  have hra : r ∈ a.regions := hre.regions ▸ hr₁
  obtain ⟨l₁, l₂, hrow⟩ := append_of_mem hrow
  have hfree : ¬ (a₁.chunks h).InUse := not_not.2 ((congrFun hd.ids h).trans hd.free)
  refine (hd.core.splitChunk hr₁ hrow hfree hd.loose hpos hdvd hlt).mono ?_ fun e he ↦ ?_
  · rintro a' ⟨hNew, free', i, b, hfresh, hc', hregions, hlimit, hids, hnums, hptr, hsize⟩
    have hne : hNew ≠ h := fun heq ↦ hfresh (heq ▸ hd.live)
    have hg := hd.core.geometry
    have hlive' : (live a'.regions (update rows r.ptr (l₁ ++ h :: hNew :: l₂))).Perm
        (hNew :: live a₁.regions rows) := by
      rw [hregions, live_map_setEntry]
      refine live_update_perm hg.sorted hg.inSpace hr₁ ?_
      rw [hrow, append_cons, append_cons l₁ h l₂]
      exact perm_middle
    refine ⟨_, free', hc', hlive'.mem_iff.2 (mem_cons_of_mem _ hd.live),
      hlimit.trans hd.memoryLimit, hids.trans hd.ids, hd.free, ?_, fun x hx hxh ↦ ?_,
      fun id hid r₀ hr₀ ↦ ?_, fun x hx ↦ ?_, hsize.ge⟩
    · rw [hnums, update_of_ne hne.symm]
      exact hd.loose
    · rw [hnums]
      rcases mem_cons.1 (hlive'.mem_iff.1 hx) with rfl | hx
      · exact Or.inr (by simp)
      · have hxNew : x ≠ hNew := fun heq ↦ hfresh (heq ▸ hx)
        rw [update_of_ne hxNew]
        exact hd.settled x hx hxh
    · rw [hregions] at hr₀
      obtain ⟨r', hr', rfl⟩ := mem_map.1 hr₀
      rw [setEntry_ptr]
      by_cases hp : r'.ptr = r.ptr
      · rw [hp, update_self]
        exact Spaced.cut (hrow ▸ hr.spaced r hra) hd.free hid
      · rw [update_of_ne hp]
        exact hd.spaced id hid r' hr'
    · exact (hptr x (hd.core.live_of_inUse (hd.ids ▸ hx))).trans (hd.kept x hx)
  · exact fun hf hb ↦ he hf (by rwa [Bounded, hd.memoryLimit])

/-- What an allocation of `rounded` bytes at `p` hands out. -/
structure HandsOut (a a' : BFCAllocator sub) (rows' : ℕ → List ChunkHandle) (rounded p : ℕ)
    (h : ChunkHandle) : Prop where
  live : h ∈ live a'.regions rows'
  free : allocIds a h = -1
  ids : ∃ id, id ≠ -1 ∧ allocIds a' = Function.update (allocIds a) h id
  ptr : (a'.chunks h).ptr = p
  size_le : rounded ≤ (a'.chunks h).size
  kept : ∀ x, allocIds a x ≠ -1 → (a'.chunks x).ptr = (a.chunks x).ptr

/-- A detached chunk is handed out. -/
theorem Detached.handOut {rows' : ℕ → List ChunkHandle} {free' : List ChunkHandle}
    (hd : Detached a a' rows' free' rounded h) (numBytes : ℕ) :
    Rest (a'.handOut h numBytes) rows' free' ∧ (a'.handOut h numBytes).memoryLimit = a.memoryLimit ∧
      HandsOut a (a'.handOut h numBytes) rows' rounded (a'.chunks h).ptr h := by
  have hfree : ¬ (a'.chunks h).InUse := not_not.2 ((congrFun hd.ids h).trans hd.free)
  have hid : a'.nextAllocationId ≠ -1 := by
    have := hd.core.id_pos
    omega
  obtain ⟨hc, hs, hids, hnums⟩ := hd.core.handOut hd.live hfree hd.loose numBytes
  rw [hd.ids] at hids
  refine ⟨⟨hc, fun x hx ↦ ?_, fun r hr ↦ ?_⟩, hs.memoryLimit.trans hd.memoryLimit,
    hs.regions ▸ hd.live, hd.free, ⟨_, hid, hids⟩, congrFun hs.ptr h, ?_, fun x hx ↦ ?_⟩
  · rw [hs.regions] at hx
    rw [hids, hnums]
    by_cases hxh : x = h
    · exact Or.inl (by rwa [hxh, update_self])
    · rw [update_of_ne hxh]
      exact hd.settled x hx hxh
  · rw [hids]
    exact hd.spaced _ hid r (hs.regions ▸ hr)
  · exact hd.size_le.trans_eq (congrFun hs.size h).symm
  · exact (congrFun hs.ptr x).trans (hd.kept x hx)

theorem Core.size_lt (hc : Core a rows free) (hh : h ∈ live a.regions rows) :
    (a.chunks h).size < 2 ^ 63 := by
  obtain ⟨r, hr, hrow⟩ := mem_live.1 hh
  have hb := (hc.geometry.tiles r hr).bounds hrow
  have hlt := (hc.geometry.inSpace r hr).size_lt
  simp only [comp_apply] at hb
  omega

/-- `FindChunkPtr` hands out a chunk, or leaves everything as it is. -/
theorem Rest.findChunkPtr (hr : Rest a rows free) (hpos : 0 < rounded)
    (hdvd : kMinAllocationSize ∣ rounded) (binNum numBytes : ℕ) :
    Post (a.findChunkPtr binNum rounded numBytes)
      (fun x ↦ x = (none, a) ∨ ∃ p rows' free' h, x.1 = some p ∧ Rest x.2 rows' free' ∧
        x.2.memoryLimit = a.memoryLimit ∧ HandsOut a x.2 rows' rounded p h)
      (Excused a) := by
  rcases hfit : a.firstFit binNum rounded with - | ⟨k, h⟩
  · simp only [BFCAllocator.findChunkPtr, hfit]
    exact post_ok.2 (Or.inl rfl)
  obtain ⟨hmem, hsize⟩ := firstFit_some hfit
  obtain ⟨a₁, ha₁, hre, hd⟩ := hr.detach hmem hsize
  have hlt := hd.core.size_lt hd.live
  have hle := hd.size_le
  simp only [BFCAllocator.findChunkPtr, hfit, ha₁, ok_bind]
  have hdone : ∀ a₂ rows' free', Detached a a₂ rows' free' rounded h →
      Post (pure (some (a₂.chunks h).ptr, a₂.handOut h numBytes))
        (fun x ↦ x = (none, a) ∨ ∃ p rows' free' h, x.1 = some p ∧ Rest x.2 rows' free' ∧
          x.2.memoryLimit = a.memoryLimit ∧ HandsOut a x.2 rows' rounded p h)
        (Excused a) := by
    intro a₂ rows' free' hd'
    obtain ⟨hrest, hlimit, hout⟩ := hd'.handOut numBytes
    exact post_ok.2 (Or.inr ⟨_, rows', free', h, rfl, hrest, hlimit, hout⟩)
  split
  · rename_i hdouble
    rw [sizeT_of_lt (by omega)] at hdouble
    refine (hr.split hre hd hpos hdvd (by omega)).bind ?_
    rintro a₂ ⟨rows', free', hd'⟩
    exact hdone a₂ rows' free' hd'
  · exact hdone a₁ rows free hd

/-! ### `Extend` -/

theorem growRegion_post {rounds curr : ℕ} (hdvd : kMinAllocationSize ∣ curr) (hlt : curr < 2 ^ 64) :
    Post (BFCAllocator.growRegion rounded rounds curr)
      (fun c ↦ kMinAllocationSize ∣ c ∧ c < 2 ^ 64 ∧ rounded ≤ c) (fun e ↦ e ≠ .fatal) := by
  induction rounds generalizing curr with
  | zero =>
    rw [growRegion]
    split
    · exact post_error.2 (by simp)
    · exact post_ok.2 ⟨hdvd, hlt, by omega⟩
  | succ rounds ih =>
    rw [growRegion]
    split
    · refine ih ?_ (Nat.mod_lt _ (by norm_num))
      rw [sizeT, kMinAllocationSize] at *
      omega
    · exact post_ok.2 ⟨hdvd, hlt, by omega⟩

/-- What a call of `Alloc` that succeeds grants, seen from the state `σ` before it. -/
structure Granted (σ σ' : sub.State) (p n : ℕ) : Prop where
  granted : sub.granted σ' = (p, n) :: sub.granted σ
  ptr_pos : 0 < p
  lt : n < 2 ^ 63
  end_lt : p + n < 2 ^ 64
  fresh : ∀ g ∈ sub.granted σ, p + n ≤ g.1 ∨ g.1 + g.2 ≤ p

theorem granted_of_alloc {σ σ' : sub.State} {n p : ℕ} (halloc : sub.alloc σ n = (some p, σ')) :
    Granted σ σ' p n :=
  ⟨sub.granted_of_alloc halloc, (sub.alloc_bounds halloc).1, (sub.alloc_bounds halloc).2.1,
    (sub.alloc_bounds halloc).2.2, sub.alloc_fresh halloc⟩

/-- Memory obtained for a request of `rounded` bytes, at most `limit` of them: `p` is granted with
`n` bytes, of which `bytes` are registered. -/
def Obtains (σ σ' : sub.State) (limit : ℕ) (mem : Option ℕ) (bytes : ℕ) : Prop :=
  (mem = none ∧ sub.granted σ' = sub.granted σ) ∨
    ∃ p n, mem = some p ∧ Granted σ σ' p n ∧ n ≤ limit ∧ bytes ≤ n ∧ 0 < bytes ∧
      kMinAllocationSize ∣ bytes

theorem roundedBytes_scale {n : ℕ} (hpos : 0 < n) (hdvd : kMinAllocationSize ∣ n)
    (hlt : n < 2 ^ 64) :
    roundedBytes (scaleByBackpedalFactor n) ≤ n ∧ 0 < roundedBytes (scaleByBackpedalFactor n) := by
  have hle := scaleByBackpedalFactor_le n
  refine ⟨roundedBytes_le hle hlt hdvd, roundedBytes_pos (scaleByBackpedalFactor_pos ?_) ?_⟩
  · exact Nat.le_of_dvd hpos hdvd
  · obtain ⟨k, rfl⟩ := hdvd
    rw [kMinAllocationSize] at *
    omega

/-- The back-pedal loop obtains nothing above the limit, or nothing at all. -/
theorem backpedal_post {rounded limit : ℕ} {σ₀ : sub.State} {fuel : ℕ} {σ : sub.State} {bytes : ℕ}
    (hσ : sub.granted σ = sub.granted σ₀) (hle : bytes ≤ limit) (hlimit : limit < 2 ^ 64)
    (hdvd : kMinAllocationSize ∣ bytes) :
    Post (BFCAllocator.backpedal scaleByBackpedalFactor rounded fuel σ bytes)
      (fun x ↦ Obtains σ₀ x.2.2 limit x.1 x.2.1) (fun e ↦ e ≠ .fatal) := by
  induction fuel generalizing σ bytes with
  | zero =>
    rw [backpedal]
    split
    · exact post_error.2 (by simp)
    · exact post_ok.2 (Or.inl ⟨rfl, hσ⟩)
  | succ fuel ih =>
    rw [backpedal]
    split
    · rename_i hlt
      obtain ⟨hscale, hpos⟩ := roundedBytes_scale (by omega : 0 < bytes) hdvd (by omega)
      rcases halloc : sub.alloc σ bytes with ⟨- | p, σ'⟩
      · simp only
        exact ih ((sub.granted_of_null halloc).trans hσ) (hscale.trans hle) (dvd_roundedBytes _)
      · obtain ⟨h₁, h₂, h₃, h₄, h₅⟩ := granted_of_alloc halloc
        rw [hσ] at h₁ h₅
        exact post_ok.2 (Or.inr ⟨p, bytes, rfl, ⟨h₁, h₂, h₃, h₄, h₅⟩, hle, hscale, hpos,
          dvd_roundedBytes _⟩)
    · exact post_ok.2 (Or.inl ⟨rfl, hσ⟩)

/-- The first request and the back-pedal loop obtain a region of at most the limit. -/
theorem obtainRegion_post {fuel rounded bytes : ℕ} (hpos : 0 < bytes)
    (hdvd : kMinAllocationSize ∣ bytes) (hlt : bytes < 2 ^ 64) :
    Post (a.obtainRegion fuel rounded bytes)
      (fun x ↦ ∃ σ b, x.2.2 = { a with suballocator := σ, startedBackpedal := b } ∧
        Obtains a.suballocator σ bytes x.1 x.2.1)
      (fun e ↦ e ≠ .fatal) := by
  rw [obtainRegion]
  rcases halloc : sub.alloc a.suballocator bytes with ⟨- | p, σ⟩
  · simp only
    split
    · exact post_ok.2 ⟨σ, a.startedBackpedal, rfl, Or.inl ⟨rfl, sub.granted_of_null halloc⟩⟩
    · have hback : Post (backpedal scaleByBackpedalFactor rounded fuel σ
          (roundedBytes (scaleByBackpedalFactor bytes)))
          (fun x ↦ Obtains a.suballocator x.2.2 bytes x.1 x.2.1) (fun e ↦ e ≠ .fatal) :=
        backpedal_post (sub.granted_of_null halloc) (roundedBytes_scale hpos hdvd hlt).1 hlt
          (dvd_roundedBytes _)
      refine hback.bind ?_
      rintro ⟨mem, b, σ'⟩ hobt
      exact post_ok.2 ⟨σ', true, rfl, hobt⟩
  · exact post_ok.2 ⟨σ, a.startedBackpedal, rfl,
      Or.inr ⟨p, bytes, rfl, granted_of_alloc halloc, le_rfl, le_rfl, hpos, hdvd⟩⟩

/-- The counters of `Extend` and the state of the sub-allocator change. -/
theorem Rest.reconfigure (hr : Rest a rows free) {σ : sub.State} {b : Bool} {curr : ℕ}
    (hσ : ∀ g ∈ sub.granted a.suballocator, g ∈ sub.granted σ)
    (hdvd : kMinAllocationSize ∣ curr) (hlt : curr < 2 ^ 64) :
    Rest { a with suballocator := σ, startedBackpedal := b, currRegionAllocationBytes := curr }
      rows free := by
  have hc := hr.core
  have hacc := hc.accounts
  refine ⟨⟨hc.geometry, hc.handles, hc.recycled, hc.perm, hc.idle, hc.bins,
    ⟨fun r hr ↦ ?_, hacc.total, hacc.total_le, hacc.limit_lt, hlt, hdvd⟩, hc.id_pos,
    hc.bytesInUse⟩, hr.settled, hr.spaced⟩
  obtain ⟨n, hn, hle⟩ := hacc.granted r hr
  exact ⟨n, hσ _ hn, hle⟩

/-- The parts of the state that a client sees are the same, up to free memory. -/
structure SameUse (a a' : BFCAllocator sub) : Prop where
  memoryLimit : a'.memoryLimit = a.memoryLimit
  ids : allocIds a' = allocIds a
  kept : ∀ x, allocIds a x ≠ -1 → (a'.chunks x).ptr = (a.chunks x).ptr

/-- Memory that has been obtained becomes a region. -/
theorem Rest.addRegion (hr : Rest a rows free) {p bytes : ℕ} (hn : NewRegion a p bytes) :
    Post (a.addRegion p bytes)
      (fun a' ↦ ∃ rows' free', Rest a' rows' free' ∧ SameUse a a') (Excused a) := by
  refine (hr.core.addRegion hn).mono ?_ fun e he ↦ he
  rintro a' ⟨h, free', b, hfresh, hc', hregions, hlive, hlimit, hids, hnums, hptr⟩
  refine ⟨_, free', ⟨hc', fun x hx ↦ ?_, fun r' hr' ↦ ?_⟩, hlimit, hids, fun x hx ↦
    hptr x (hr.core.live_of_inUse hx)⟩
  · rw [hids, hnums]
    rcases mem_cons.1 (hlive.mem_iff.1 hx) with rfl | hx
    · exact Or.inr (by simp)
    · have hxh : x ≠ h := fun heq ↦ hfresh (heq ▸ hx)
      rw [update_of_ne hxh]
      exact hr.settled x hx
  · rw [hids]
    by_cases hp : r'.ptr = p
    · rw [hp, update_self]
      exact isChain_singleton _
    · obtain ⟨r, hr', heq⟩ := (hregions r' hr').resolve_left hp
      rw [update_of_ne hp, ← heq]
      exact hr.spaced r hr'

/-- What the sub-allocator grants can become a region. -/
theorem Core.newRegion (hc : Core a rows free) {σ : sub.State} {p n bytes curr : ℕ} {b : Bool}
    (hgr : Granted a.suballocator σ p n) (hle : bytes ≤ n) (hpos : 0 < bytes)
    (hdvd : kMinAllocationSize ∣ bytes) (htotal : a.totalRegionAllocatedBytes + n ≤ a.memoryLimit) :
    NewRegion { a with suballocator := σ, startedBackpedal := b, currRegionAllocationBytes := curr }
      p bytes := by
  have hlt := hgr.lt
  have hend := hgr.end_lt
  refine ⟨hgr.ptr_pos, hpos, hdvd, by omega, by omega, ⟨n, ?_, hle⟩, fun r hr ↦ ?_,
    (Nat.add_le_add_left hle _).trans htotal⟩
  · show (p, n) ∈ sub.granted σ
    rw [hgr.granted]
    exact mem_cons_self
  · obtain ⟨m, hm, hrm⟩ := hc.accounts.granted r hr
    rcases hgr.fresh _ hm with h | h
    · exact Or.inl (by omega)
    · exact Or.inr (by omega)

theorem Obtains.subset {σ σ' : sub.State} {limit bytes : ℕ} {mem : Option ℕ}
    (hobt : Obtains σ σ' limit mem bytes) : ∀ g ∈ sub.granted σ, g ∈ sub.granted σ' := by
  intro g hg
  rcases hobt with ⟨-, heq⟩ | ⟨p, n, -, hgr, -⟩
  · rwa [heq]
  · rw [hgr.granted]
    exact mem_cons_of_mem _ hg

/-- `Extend` keeps the invariant, and what the client uses, whatever is granted. -/
theorem Rest.extend (hr : Rest a rows free) {fuel rounded : ℕ} (hpos : 0 < rounded) :
    Post (a.extend fuel rounded)
      (fun x ↦ ∃ rows' free', Rest x.2 rows' free' ∧ SameUse a x.2) (Excused a) := by
  have hacc := hr.core.accounts
  have hexc : ∀ e : Failure, e ≠ .fatal → Excused a e := fun e he heq ↦ absurd heq he
  have havail : subSizeT a.memoryLimit a.totalRegionAllocatedBytes =
      a.memoryLimit - a.totalRegionAllocatedBytes := subSizeT_of_le hacc.total_le hacc.limit_lt
  simp only [BFCAllocator.extend, havail]
  set available := (a.memoryLimit - a.totalRegionAllocatedBytes) / kMinAllocationSize *
    kMinAllocationSize with havailable
  have hale : available ≤ a.memoryLimit - a.totalRegionAllocatedBytes := Nat.div_mul_le_self _ _
  split
  · exact post_ok.2 ⟨rows, free, hr, rfl, rfl, fun _ _ ↦ rfl⟩
  rename_i henough
  refine ((growRegion_post hacc.curr_dvd hacc.curr_lt).mono (fun _ h ↦ h) hexc).bind ?_
  rintro curr ⟨hcdvd, hclt, hcle⟩
  have hbpos : 0 < min curr available := by omega
  have hbdvd : kMinAllocationSize ∣ min curr available := by
    rcases min_choice curr available with h | h <;> rw [h]
    · exact hcdvd
    · exact Dvd.intro_left _ rfl
  have hblt : min curr available < 2 ^ 64 := (min_le_left _ _).trans_lt hclt
  refine ((obtainRegion_post hbpos hbdvd hblt).mono (fun _ h ↦ h) hexc).bind ?_
  rintro ⟨mem, bytes, a₁⟩ ⟨σ, b, ha₁, hobt⟩
  change a₁ = { a with
    suballocator := σ, startedBackpedal := b, currRegionAllocationBytes := curr } at ha₁
  change Obtains a.suballocator σ (min curr available) mem bytes at hobt
  rcases hobt with ⟨rfl, hgranted⟩ | ⟨p, n, rfl, hgr, hn, hle, hpos', hdvd'⟩
  · subst ha₁
    refine post_ok.2 ⟨rows, free, hr.reconfigure ?_ hcdvd hclt, rfl, rfl, fun _ _ ↦ rfl⟩
    exact fun g hg ↦ hgranted ▸ hg
  · have htotal : a.totalRegionAllocatedBytes + n ≤ a.memoryLimit := by omega
    have hsub := Obtains.subset (Or.inr ⟨p, n, rfl, hgr, hn, hle, hpos', hdvd'⟩)
    have hadd : ∀ c, kMinAllocationSize ∣ c → c < 2 ^ 64 →
        Post ({ a with suballocator := σ, startedBackpedal := b, currRegionAllocationBytes := c
          }.addRegion p bytes)
          (fun a' ↦ ∃ rows' free', Rest a' rows' free' ∧ SameUse a a') (Excused a) := by
      intro c hc hc'
      refine ((hr.reconfigure hsub hc hc').addRegion
        (hr.core.newRegion hgr hle hpos' hdvd' htotal)).mono ?_ fun e he ↦ he
      rintro a' ⟨rows', free', hrest, huse⟩
      exact ⟨rows', free', hrest, huse.memoryLimit, huse.ids, huse.kept⟩
    subst ha₁
    simp only
    refine Post.bind ?_ fun a' ha' ↦ post_ok.2 ha'
    split
    · exact hadd curr hcdvd hclt
    · refine hadd (sizeT (curr * 2)) ?_ (Nat.mod_lt _ (by norm_num))
      rw [sizeT, kMinAllocationSize] at *
      omega

/-! ### `AllocateRawInternal` -/

theorem HandsOut.of_sameUse {a₁ : BFCAllocator sub} {rows' : ℕ → List ChunkHandle} {rounded p : ℕ}
    (hout : HandsOut a₁ a' rows' rounded p h) (huse : SameUse a a₁) :
    HandsOut a a' rows' rounded p h := by
  obtain ⟨id, hid, hids⟩ := hout.ids
  refine ⟨hout.live, huse.ids ▸ hout.free, ⟨id, hid, huse.ids ▸ hids⟩, hout.ptr, hout.size_le,
    fun x hx ↦ ?_⟩
  exact (hout.kept x (huse.ids ▸ hx)).trans (huse.kept x hx)

/-- An allocation of a size that does not overflow when it is rounded up. -/
theorem Rest.allocateRawInternal (hr : Rest a rows free) {fuel numBytes : ℕ}
    (hn : numBytes ≤ 2 ^ 64 - 256) :
    Post (a.allocateRawInternal fuel numBytes)
      (fun x ↦ ∃ rows' free', Rest x.2 rows' free' ∧ x.2.memoryLimit = a.memoryLimit ∧
        ((x.1 = none ∧ SameUse a x.2) ∨
          ∃ p h, x.1 = some p ∧ 0 < numBytes ∧
            HandsOut a x.2 rows' (roundedBytes numBytes) p h))
      (Excused a) := by
  rw [BFCAllocator.allocateRawInternal]
  split
  · exact post_ok.2 ⟨rows, free, hr, rfl, Or.inl ⟨rfl, rfl, rfl, fun _ _ ↦ rfl⟩⟩
  rename_i hne
  have hnum : 0 < numBytes := Nat.pos_of_ne_zero hne
  have hpos : 0 < roundedBytes numBytes := roundedBytes_pos hnum hn
  have hdvd := dvd_roundedBytes numBytes
  refine (hr.findChunkPtr hpos hdvd _ _).bind ?_
  rintro ⟨ptr, a₁⟩ (heq | ⟨p, rows', free', h, hp, hrest, hlimit, hout⟩)
  · cases heq
    refine (hr.extend hpos).bind ?_
    rintro ⟨extended, a₂⟩ ⟨rows₂, free₂, hrest₂, huse⟩
    change SameUse _ a₂ at huse
    change Rest a₂ rows₂ free₂ at hrest₂
    cases extended with
    | false => exact post_ok.2 ⟨rows₂, free₂, hrest₂, huse.memoryLimit, Or.inl ⟨rfl, huse⟩⟩
    | true =>
      refine (hrest₂.findChunkPtr hpos hdvd _ _).mono ?_ fun e he hf hb ↦
        he hf (by rwa [Bounded, huse.memoryLimit])
      rintro x (rfl | ⟨p, rows', free', h, hp, hrest, hlimit, hout⟩)
      · exact ⟨rows₂, free₂, hrest₂, huse.memoryLimit, Or.inl ⟨rfl, huse⟩⟩
      · exact ⟨rows', free', hrest, hlimit.trans huse.memoryLimit,
          Or.inr ⟨p, h, hp, hnum, hout.of_sameUse huse⟩⟩
  · change ptr = some p at hp
    subst hp
    exact post_ok.2 ⟨rows', free', hrest, hlimit, Or.inr ⟨p, h, rfl, hnum, hout⟩⟩

end TensorFlowCore.BfcAllocator
