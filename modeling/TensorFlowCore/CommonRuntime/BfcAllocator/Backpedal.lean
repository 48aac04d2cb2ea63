import TensorFlowCore.CommonRuntime.BfcAllocator.BestFit

/-!
# The back-pedal loop of `Extend`

Each round asks the sub-allocator for the size at hand, and scales this down by nine tenths and
rounds it up to a multiple of 256. Above `2304 = 9 * 256` bytes the size shrinks; from there on down
it stays as it is. So the loop ends when it has nothing to go below 2304 bytes for, and otherwise
only if some request is granted (`backpedalEnds_iff`).

The size is also scaled down after the request that is granted. `Extend` registers what it has
obtained if this happens to a size that stays as it is, or if its first request is granted
(`registersObtained_iff`).
-/

namespace TensorFlowCore.BfcAllocator

open BFCAllocator ExceptPost GuardedRun

variable {sub : SubAllocator}

/-! ### Termination -/

/-- What one round does to the size. -/
def backpedalled (scale : ℕ → ℕ) (bytes : ℕ) : ℕ := roundedBytes (scale bytes)

/-- The loop ends. -/
def BackpedalEnds (scale : ℕ → ℕ) (rounded : ℕ) (σ : sub.State) (bytes : ℕ) : Prop :=
  ∃ fuel, BFCAllocator.backpedal scale rounded fuel σ bytes ≠ .error .outOfFuel

/-- If it is asked for `bytes` and then for less and less, the sub-allocator grants some request. -/
inductive GrantsSome (scale : ℕ → ℕ) : sub.State → ℕ → Prop
  | now {σ : sub.State} {bytes : ℕ} : (sub.alloc σ bytes).1 ≠ none → GrantsSome scale σ bytes
  | later {σ : sub.State} {bytes : ℕ} :
    GrantsSome scale (sub.alloc σ bytes).2 (backpedalled scale bytes) → GrantsSome scale σ bytes

section Termination

variable {scale : ℕ → ℕ} {rounded bytes : ℕ} {σ : sub.State}

theorem ok_ne_outOfFuel {α : Type} (x : α) : Except.ok x ≠ Except.error Failure.outOfFuel := by
  intro h
  cases h

theorem backpedalEnds_of_le (h : bytes ≤ rounded) : BackpedalEnds scale rounded σ bytes := by
  refine ⟨0, ?_⟩
  rw [backpedal, if_neg (not_lt.2 h)]
  exact ok_ne_outOfFuel _

/-- A round that is refused leaves the rest of the loop. -/
theorem backpedalEnds_of_later
    (h : BackpedalEnds scale rounded (sub.alloc σ bytes).2 (backpedalled scale bytes)) :
    BackpedalEnds scale rounded σ bytes := by
  obtain ⟨fuel, hfuel⟩ := h
  refine ⟨fuel + 1, ?_⟩
  rw [backpedal]
  split
  · rcases halloc : sub.alloc σ bytes with ⟨- | p, σ'⟩
    · rw [halloc] at hfuel
      exact hfuel
    · exact ok_ne_outOfFuel _
  · exact ok_ne_outOfFuel _

theorem GrantsSome.backpedalEnds (h : GrantsSome scale σ bytes) :
    BackpedalEnds scale rounded σ bytes := by
  induction h with
  | @now σ bytes hgrant =>
    refine ⟨1, ?_⟩
    rw [backpedal]
    split
    · rcases halloc : sub.alloc σ bytes with ⟨- | p, σ'⟩
      · rw [halloc] at hgrant
        exact absurd rfl hgrant
      · exact ok_ne_outOfFuel _
    · exact ok_ne_outOfFuel _
  | later _ ih => exact backpedalEnds_of_later ih

/-- Where no round leads down to the request, the loop ends only if something is granted. -/
theorem grantsSome_of_backpedalEnds {P : ℕ → Prop}
    (hP : ∀ n, P n → rounded < n ∧ P (backpedalled scale n)) (hbytes : P bytes)
    (h : BackpedalEnds scale rounded σ bytes) : GrantsSome scale σ bytes := by
  obtain ⟨fuel, hfuel⟩ := h
  induction fuel generalizing σ bytes with
  | zero =>
    rw [backpedal, if_pos (hP bytes hbytes).1] at hfuel
    exact absurd rfl hfuel
  | succ fuel ih =>
    rw [backpedal, if_pos (hP bytes hbytes).1] at hfuel
    rcases halloc : sub.alloc σ bytes with ⟨- | p, σ'⟩
    · rw [halloc] at hfuel
      refine .later ?_
      rw [halloc]
      exact ih (hP bytes hbytes).2 hfuel
    · refine .now ?_
      rw [halloc]
      exact Option.some_ne_none p

/-- Where every round makes the size smaller, the loop ends. -/
theorem backpedalEnds_of_lt {P : ℕ → Prop}
    (hP : ∀ n, P n → rounded < n → backpedalled scale n < n ∧ P (backpedalled scale n))
    (hbytes : P bytes) : BackpedalEnds scale rounded σ bytes := by
  induction bytes using Nat.strong_induction_on generalizing σ with
  | _ bytes ih =>
    by_cases hle : bytes ≤ rounded
    · exact backpedalEnds_of_le hle
    · obtain ⟨hlt, hnext⟩ := hP bytes hbytes (not_le.1 hle)
      exact backpedalEnds_of_later (ih _ hlt hnext)

end Termination

/-- The scaling by nine tenths, exact but for the fraction of a byte. -/
def nineTenths (bytes : ℕ) : ℕ := 9 * bytes / 10

theorem backpedalled_nineTenths {bytes : ℕ} (h : bytes < 2 ^ 64) :
    backpedalled nineTenths bytes = 256 * ((9 * bytes / 10 + 255) / 256) := by
  rw [backpedalled, nineTenths, roundedBytes_of_le (by omega)]

/-- **When the back-pedal loop ends**: it has no need to go below 2304 bytes, or some request is
granted. -/
theorem backpedalEnds_iff {rounded bytes : ℕ} {σ : sub.State}
    (hrounded : kMinAllocationSize ∣ rounded) (hpos : 0 < rounded)
    (hbytes : kMinAllocationSize ∣ bytes) (hlt : bytes < 2 ^ 64) :
    BackpedalEnds nineTenths rounded σ bytes ↔
      bytes ≤ rounded ∨ 2304 ≤ rounded ∨ GrantsSome nineTenths σ bytes := by
  constructor
  · intro h
    by_contra! hnot
    obtain ⟨hgt, hsmall, hnone⟩ := hnot
    -- the size stays above the request, a multiple of 256
    refine hnone (grantsSome_of_backpedalEnds
      (P := fun n ↦ kMinAllocationSize ∣ n ∧ n < 2 ^ 64 ∧ rounded < n) (fun n hn ↦ ?_)
      ⟨hbytes, hlt, hgt⟩ h)
    obtain ⟨⟨k, rfl⟩, hn, hgt⟩ := hn
    obtain ⟨r, rfl⟩ := hrounded
    rw [backpedalled_nineTenths hn]
    rw [kMinAllocationSize] at *
    exact ⟨hgt, Dvd.intro _ rfl, by omega, by omega⟩
  · rintro (hle | hlarge | hgrant)
    · exact backpedalEnds_of_le hle
    · refine backpedalEnds_of_lt (P := fun n ↦ kMinAllocationSize ∣ n ∧
        n < 2 ^ 64) (fun n hn hgt ↦ ?_)
        ⟨hbytes, hlt⟩
      obtain ⟨⟨k, rfl⟩, hn⟩ := hn
      obtain ⟨r, rfl⟩ := hrounded
      rw [backpedalled_nineTenths hn]
      rw [kMinAllocationSize] at *
      exact ⟨by omega, Dvd.intro _ rfl, by omega⟩
    · exact hgrant.backpedalEnds

/-- Above the request, 2304 bytes are as far as the loop has to go. -/
theorem backpedalEnds_mebibyte :
    @BackpedalEnds .mebibyte nineTenths 2304 [(4096, 2 ^ 20)] (2 ^ 20) :=
  (backpedalEnds_iff (by decide) (by decide) (by decide) (by decide)).2 (.inr (.inl le_rfl))

theorem not_grantsSome_exhausted {scale : ℕ → ℕ} {σ : SubAllocator.exhausted.State} {bytes : ℕ} :
    ¬ GrantsSome scale σ bytes := by
  intro h
  induction h with
  | now hgrant => exact hgrant rfl
  | later _ ih => exact ih

/-- From 512 bytes the loop does not get down to 256. -/
theorem not_backpedalEnds_exhausted : ¬ @BackpedalEnds .exhausted nineTenths 256 () 512 := fun h ↦
  have hstays : 256 < 512 ∧ backpedalled nineTenths 512 = 512 := by decide
  not_grantsSome_exhausted
  (grantsSome_of_backpedalEnds (P := (· = 512)) (fun _ hn ↦ hn ▸ hstays) rfl h)

/-! ### What the loop obtains -/

/-- The request of `n` bytes is the one of the loop that is granted. -/
inductive LoopGrants (scale : ℕ → ℕ) (rounded : ℕ) : sub.State → ℕ → ℕ → Prop
  | now {σ : sub.State} {bytes : ℕ} : rounded < bytes → (sub.alloc σ bytes).1 ≠ none →
    LoopGrants scale rounded σ bytes bytes
  | later {σ : sub.State} {bytes n : ℕ} : rounded < bytes → (sub.alloc σ bytes).1 = none →
    LoopGrants scale rounded (sub.alloc σ bytes).2 (backpedalled scale bytes) n →
    LoopGrants scale rounded σ bytes n

section Loop

variable {scale : ℕ → ℕ} {rounded bytes n : ℕ} {σ : sub.State}

/-- What the loop returns, together with the size that it has scaled down once more. -/
theorem loopGrants_of_backpedal {fuel p m : ℕ} {σ' : sub.State}
    (h : BFCAllocator.backpedal scale rounded fuel σ bytes = .ok (some p, m, σ')) :
    ∃ n, LoopGrants scale rounded σ bytes n ∧ m = backpedalled scale n ∧
      sub.granted σ' = (p, n) :: sub.granted σ := by
  induction fuel generalizing σ bytes with
  | zero =>
    rw [backpedal] at h
    split at h
    · cases h
    · cases Except.ok.inj h
  | succ fuel ih =>
    rw [backpedal] at h
    split at h
    next hlt =>
      rcases halloc : sub.alloc σ bytes with ⟨- | q, σ₁⟩
      · rw [halloc] at h
        obtain ⟨n, hgrants, hm, hgranted⟩ := ih h
        refine ⟨n, .later hlt (by rw [halloc]) (by rwa [halloc]), hm, ?_⟩
        rw [hgranted, sub.granted_of_null halloc]
      · rw [halloc] at h
        obtain ⟨hq, hm⟩ := Prod.mk.inj (Except.ok.inj h)
        cases hm
        obtain rfl := Option.some.inj hq
        refine ⟨bytes, .now hlt ?_, rfl, sub.granted_of_alloc halloc⟩
        rw [halloc]
        exact Option.some_ne_none q
    · cases Except.ok.inj h

theorem Granted.of_null {σ₁ σ₂ : sub.State} {p : ℕ} (hgr : Granted σ₁ σ₂ p n)
    (hnull : sub.alloc σ bytes = (none, σ₁)) : Granted σ σ₂ p n := by
  have hsame := sub.granted_of_null hnull
  exact ⟨hsame ▸ hgr.granted, hgr.ptr_pos, hgr.lt, hgr.end_lt, hsame ▸ hgr.fresh⟩

section

variable (h : LoopGrants scale rounded σ bytes n)
include h

theorem LoopGrants.exists_backpedal :
    ∃ fuel p σ', BFCAllocator.backpedal scale rounded fuel σ bytes =
      .ok (some p, backpedalled scale n, σ') ∧ Granted σ σ' p n := by
  induction h with
  | @now σ bytes hlt hgrant =>
    obtain ⟨p, hp⟩ := Option.ne_none_iff_exists'.1 hgrant
    refine ⟨1, p, (sub.alloc σ bytes).2, ?_⟩
    have halloc : sub.alloc σ bytes = (some p, (sub.alloc σ bytes).2) := Prod.ext hp rfl
    refine ⟨?_, granted_of_alloc halloc⟩
    rw [backpedal, if_pos hlt, halloc]
    rfl
  | @later σ bytes n hlt hnull _ ih =>
    obtain ⟨fuel, p, σ', hloop, hgranted⟩ := ih
    have halloc : sub.alloc σ bytes = (none, (sub.alloc σ bytes).2) := Prod.ext hnull rfl
    refine ⟨fuel + 1, p, σ', ?_, hgranted.of_null halloc⟩
    rw [backpedal, if_pos hlt, halloc]
    exact hloop

theorem LoopGrants.lt : rounded < n := by
  induction h with
  | now hlt _ => exact hlt
  | later _ _ _ ih => exact ih

theorem LoopGrants.dvd (hdvd : kMinAllocationSize ∣ bytes) : kMinAllocationSize ∣ n := by
  induction h with
  | now => exact hdvd
  | later _ _ _ ih => exact ih (dvd_roundedBytes _)

end

theorem LoopGrants.le (h : LoopGrants scaleByBackpedalFactor rounded σ bytes n)
    (hdvd : kMinAllocationSize ∣ bytes) (hlt : bytes < 2 ^ 64) : n ≤ bytes := by
  induction h with
  | now => exact le_rfl
  | @later σ bytes n hgt _ _ ih =>
    have hle := (roundedBytes_scale (Nat.zero_lt_of_lt hgt) hdvd hlt).1
    exact (ih (dvd_roundedBytes _) (roundedBytes_lt _)).trans hle

end Loop

/-- Up to 2304 bytes the size stays as it is. -/
theorem backpedalled_eq {n : ℕ} (hdvd : kMinAllocationSize ∣ n) (hle : n ≤ 2304) :
    backpedalled scaleByBackpedalFactor n = n := by
  obtain ⟨k, rfl⟩ := hdvd
  rw [kMinAllocationSize] at *
  have hall : ∀ k < 10, backpedalled scaleByBackpedalFactor (256 * k) = 256 * k := by decide +kernel
  exact hall k (by omega)

/-- Above it shrinks. -/
theorem backpedalled_lt {n : ℕ} (hdvd : kMinAllocationSize ∣ n) (hgt : 2304 < n)
    (hlt : n < 2 ^ 64) : backpedalled scaleByBackpedalFactor n < n := by
  by_cases hsmall : n = 2560
  · rw [hsmall]
    decide +kernel
  have h₁ := (roundToFloat_bounds n).2
  have h₂ := (roundToFloat_bounds (roundToFloat n * 15099494)).2
  obtain ⟨k, rfl⟩ := hdvd
  rw [kMinAllocationSize] at *
  have hle : scaleByBackpedalFactor (256 * k) ≤ 256 * (k - 1) := by
    rw [scaleByBackpedalFactor]
    omega
  rw [backpedalled, roundedBytes_of_le (by omega)]
  omega

/-! ### `Extend` -/

variable {a a' : BFCAllocator sub} {rows : ℕ → List ChunkHandle} {free : List ChunkHandle}
    {h : ChunkHandle}
  {p m rounded fuel : ℕ}

/-- `available_bytes`. -/
def availableBytes (a : BFCAllocator sub) : ℕ :=
  subSizeT a.memoryLimit a.totalRegionAllocatedBytes / kMinAllocationSize * kMinAllocationSize

/-- `Extend` gets its memory from the back-pedal loop, by a request of `n` bytes. -/
def Backpedals (a : BFCAllocator sub) (rounded n : ℕ) : Prop :=
  ∃ curr, BFCAllocator.growRegion rounded 64 a.currRegionAllocationBytes = .ok curr ∧
    rounded ≤ availableBytes a ∧ a.startedBackpedal = false ∧
    (sub.alloc a.suballocator (min curr (availableBytes a))).1 = none ∧
    LoopGrants scaleByBackpedalFactor rounded
    (sub.alloc a.suballocator (min curr (availableBytes a))).2
      (backpedalled scaleByBackpedalFactor (min curr (availableBytes a))) n

/-- There is no handle left for the chunk of a new region. -/
def NoHandle (a : BFCAllocator sub) : Prop := a.freeChunksList = none ∧ 2 ^ 31 ≤ a.chunksSize + 1

/-- The regions as the region manager was told of them. -/
def registered (a : BFCAllocator sub) : List (ℕ × ℕ) := a.regions.map fun r ↦ (r.ptr, r.memorySize)

/-- `Extend`, from `a` to `a'`, registers what it has obtained: one call of `Alloc` has succeeded,
its size is that of the new region and chunk and is added to the total, and `FindChunkPtr` finds a
chunk after it. -/
structure RegistersObtained (a a' : BFCAllocator sub) (rounded : ℕ) : Prop where
  obtained : ∃ p n h, sub.granted a'.suballocator = (p, n) :: sub.granted a.suballocator ∧
    (registered a').Perm ((p, n) :: registered a) ∧ (a'.chunks h).ptr = p ∧ (a'.chunks h).size = n ∧
    FreeChunk a' h ∧ a'.totalRegionAllocatedBytes = a.totalRegionAllocatedBytes + n ∧ rounded ≤ n
  finds : ∀ numBytes x, a'.findChunkPtr (binNumForSize rounded) rounded numBytes = .ok x →
    x.1 ≠ none
  survives : Bounded a → ∀ numBytes,
    a'.findChunkPtr (binNumForSize rounded) rounded numBytes ≠ .error .fatal
  total_le : a'.totalRegionAllocatedBytes ≤ a'.memoryLimit

/-- The regions stay registered as they are when a handle is set. -/
theorem registered_of_setHandle {rs rs' : List AllocationRegion} {q : ℕ} {o : Option ChunkHandle}
    (hset : setHandle q o rs = .ok rs') :
    (rs'.map fun r ↦ (r.ptr, r.memorySize)) = rs.map fun r ↦ (r.ptr, r.memorySize) := by
  induction rs generalizing rs' with
  | nil => cases hset
  | cons r rs ih =>
    rw [setHandle] at hset
    split at hset
    · cases hslot : r.slot q with
      | error e =>
        rw [hslot] at hset
        cases hset
      | ok i =>
        rw [hslot] at hset
        cases hset
        rfl
    · cases hrest : setHandle q o rs with
      | error e =>
        rw [hrest] at hset
        cases hset
      | ok rs₁ =>
        rw [hrest] at hset
        cases hset
        rw [List.map_cons, List.map_cons, ih hrest]

/-- What `addRegion` leaves when it returns. -/
theorem of_addRegion (hadd : a.addRegion p m = .ok a') :
    a'.suballocator = a.suballocator ∧ a'.memoryLimit = a.memoryLimit ∧
      a'.totalRegionAllocatedBytes = sizeT (a.totalRegionAllocatedBytes + m) ∧
      (registered a').Perm ((p, m) :: registered a) ∧
      ∃ h, (a'.chunks h).ptr = p ∧ (a'.chunks h).size = m ∧ (a'.chunks h).binNum ≠ none := by
  obtain ⟨⟨h, a₁⟩, halloc, hadd⟩ := bind_eq_ok_iff.1 hadd
  obtain ⟨regions, hset, hadd⟩ := bind_eq_ok_iff.1 hadd
  obtain ⟨-, -, hadd⟩ := bind_eq_ok_iff.1 hadd
  cases hadd
  rw [allocateChunk_with] at halloc
  cases halloc₀ : a.allocateChunk with
  | error e =>
    rw [halloc₀] at halloc
    cases halloc
  | ok x =>
    rw [halloc₀] at halloc
    cases halloc
    have hsame : x.2.suballocator = a.suballocator ∧ x.2.memoryLimit = a.memoryLimit := by
      unfold allocateChunk at halloc₀
      split at halloc₀
      · cases halloc₀
        exact ⟨rfl, rfl⟩
      · split at halloc₀
        · cases halloc₀
          exact ⟨rfl, rfl⟩
        · cases halloc₀
    refine ⟨hsame.1, hsame.2, rfl, ?_, x.1, ?_, ?_, ?_⟩
    · show (regions.map fun r ↦ (r.ptr, r.memorySize)).Perm _
      rw [registered_of_setHandle hset]
      exact (addAllocationRegion_perm p m a.regions).map _
    · simp [modifyChunk]
    · simp [modifyChunk]
    · simp [modifyChunk]

/-- A new region can be added as long as there is a handle for its chunk. -/
theorem Core.exists_addRegion (hc : Core a rows free) (hn : NewRegion a p m)
    (hroom : ¬ NoHandle a) : ∃ a', a.addRegion p m = .ok a' := by
  obtain ⟨h, a₁, halloc, hfree, hbin⟩ : ∃ h a₁, a.allocateChunk = .ok (h, a₁) ∧
      (a₁.chunks h).allocationId = -1 ∧ (a₁.chunks h).binNum = none := by
    unfold BFCAllocator.allocateChunk
    split
    next h hlist =>
      have hrec := hc.recycled
      rw [hlist] at hrec
      have hidle : h ∉ live a.regions rows := fun hh ↦ by
        cases hrec with
        | cons _ => exact List.disjoint_of_nodup_append hc.nodup hh List.mem_cons_self
      exact ⟨h, _, rfl, not_not.1 (hc.idle h hidle).1, (hc.idle h hidle).2⟩
    next hlist =>
      have hlt : a.chunksSize + 1 < 2 ^ 31 := not_le.1 fun hge ↦ hroom ⟨hlist, hge⟩
      rw [if_pos hlt]
      exact ⟨_, _, rfl, by simp, by simp⟩
  have hin := hn.forall_inSpace hc.geometry.inSpace
  have hsorted := hc.geometry.sorted.addAllocationRegion hc.geometry.inSpace hn.disjoint
  have hcontains : (AllocationRegion.new p m).Contains p :=
    ⟨le_rfl, Nat.lt_add_of_pos_right hn.bytes_pos⟩
  have hslot : (AllocationRegion.new p m).slot p = .ok 0 := by
    have hlt := hn.end_lt
    have hdiff : subSizeT p p = 0 := by rw [subSizeT_of_le le_rfl (by omega), Nat.sub_self]
    have hindex : (AllocationRegion.new p m).indexFor p = 0 := by
      show Int.bmod ((subSizeT p p / kMinAllocationSize : ℕ) : ℤ) (2 ^ 32) = 0
      rw [hdiff]
      rfl
    have hhandles : 0 < (AllocationRegion.new p m).nHandles := by
      show 0 < sizeT (m + kMinAllocationSize - 1) / kMinAllocationSize
      have hpos := hn.bytes_pos
      have hlt' := hn.lt
      rw [kMinAllocationSize, sizeT_of_lt (by omega)]
      omega
    unfold AllocationRegion.slot
    rw [hindex, if_pos ⟨le_rfl, by exact_mod_cast hhandles⟩]
    rfl
  rw [BFCAllocator.addRegion]
  rw [allocateChunk_with, halloc]
  show ∃ a', (setHandle p (some h) (addAllocationRegion p m a.regions) >>= _) = _
  rw [setHandle_eq hsorted hin (NewRegion.mem_iff.2 (Or.inl rfl)) hcontains, hslot]
  show ∃ a', (check _ >>= _) = _
  rw [check_of]
  · exact ⟨_, rfl⟩
  · simp [modifyChunk, Chunk.InUse, hbin]

/-- Where the memory of an `Extend` that returns true comes from: its first request, or the
back-pedal loop. -/
theorem of_extend (hext : a.extend fuel rounded = .ok (true, a')) :
    ∃ p n m σ b c curr, BFCAllocator.growRegion rounded 64 a.currRegionAllocationBytes = .ok curr ∧
      rounded ≤ availableBytes a ∧ sub.granted σ = (p, n) :: sub.granted a.suballocator ∧
      { a with suballocator := σ, startedBackpedal := b, currRegionAllocationBytes := c
        }.addRegion p m =
        .ok a' ∧
      (n = min curr (availableBytes a) ∧ m = n ∨
        Backpedals a rounded n ∧ m = backpedalled scaleByBackpedalFactor n) := by
  unfold extend at hext
  dsimp only at hext
  split at hext
  · cases Except.ok.inj hext
  next henough =>
    have hle : rounded ≤ availableBytes a := not_lt.1 henough
    obtain ⟨curr, hgrow, hext⟩ := bind_eq_ok_iff.1 hext
    obtain ⟨⟨mem, m, a₁⟩, hobtain, hext⟩ := bind_eq_ok_iff.1 hext
    cases mem with
    | none => cases Except.ok.inj hext
    | some p =>
      obtain ⟨a₂, hadd, hext⟩ := bind_eq_ok_iff.1 hext
      obtain rfl : a₂ = a' := (Prod.mk.inj (Except.ok.inj hext)).2
      obtain ⟨σ, b, rfl, n, hgranted, hsource⟩ : ∃ σ b, a₁ = { a with
          suballocator := σ, startedBackpedal := b, currRegionAllocationBytes := curr } ∧
          ∃ n, sub.granted σ = (p, n) :: sub.granted a.suballocator ∧
            (n = min curr (availableBytes a) ∧ m = n ∨
              Backpedals a rounded n ∧ m = backpedalled scaleByBackpedalFactor n) := by
        unfold obtainRegion at hobtain
        rcases halloc : sub.alloc a.suballocator (min curr (availableBytes a)) with ⟨- | q, σ₁⟩
        · rw [← availableBytes, halloc] at hobtain
          dsimp only at hobtain
          split at hobtain
          · cases Except.ok.inj hobtain
          next hstarted =>
            obtain ⟨⟨mem, m', σ'⟩, hloop, hobtain⟩ := bind_eq_ok_iff.1 hobtain
            obtain ⟨hmem, hrest⟩ := Prod.mk.inj (Except.ok.inj hobtain)
            cases hrest
            obtain rfl : mem = some p := hmem
            obtain ⟨n, hgrants, hm, hgranted⟩ := loopGrants_of_backpedal hloop
            rw [sub.granted_of_null halloc] at hgranted
            refine ⟨σ', true, rfl, n, hgranted, .inr ⟨⟨curr, hgrow, hle, ?_, ?_, ?_⟩, hm⟩⟩
            · exact Bool.eq_false_iff.2 hstarted
            · rw [halloc]
            · rw [halloc]
              exact hgrants
        · rw [← availableBytes, halloc] at hobtain
          obtain ⟨hq, hrest⟩ := Prod.mk.inj (Except.ok.inj hobtain)
          cases hrest
          cases hq
          exact ⟨σ₁, a.startedBackpedal, rfl, _, sub.granted_of_alloc halloc, .inl ⟨rfl, rfl⟩⟩
      split at hadd
      · exact ⟨p, n, m, σ, b, _, curr, hgrow, hle, hgranted, hadd, hsource⟩
      · exact ⟨p, n, m, σ, b, _, curr, hgrow, hle, hgranted, hadd, hsource⟩

section Main

variable {n curr c : ℕ} {σ : sub.State} {b : Bool}

theorem availableBytes_le (ha : Accounts a) :
    a.totalRegionAllocatedBytes + availableBytes a ≤ a.memoryLimit := by
  have hle := ha.total_le
  rw [availableBytes, subSizeT_of_le hle ha.limit_lt]
  have hdiv := Nat.div_mul_le_self (a.memoryLimit - a.totalRegionAllocatedBytes) kMinAllocationSize
  omega

theorem dvd_availableBytes (a : BFCAllocator sub) : kMinAllocationSize ∣ availableBytes a :=
  Dvd.intro_left _ rfl

/-- What the first request of `Extend` asks for. -/
theorem firstRequest_spec (ha : Accounts a)
    (hgrow : BFCAllocator.growRegion rounded 64 a.currRegionAllocationBytes = .ok curr)
    (hle : rounded ≤ availableBytes a) :
    rounded ≤ min curr (availableBytes a) ∧ kMinAllocationSize ∣ min curr (availableBytes a) ∧
      min curr (availableBytes a) < 2 ^ 64 ∧ kMinAllocationSize ∣ curr ∧ curr < 2 ^ 64 := by
  obtain ⟨hdvd, hlt, hcurr⟩ := (growRegion_post ha.curr_dvd ha.curr_lt).of_ok hgrow
  refine ⟨le_min hcurr hle, ?_, (min_le_left _ _).trans_lt hlt, hdvd, hlt⟩
  rcases min_choice curr (availableBytes a) with h | h
  · rwa [h]
  · rw [h]
    exact dvd_availableBytes a

/-- An `Extend` that gets its memory from the back-pedal loop registers the size scaled down once
more. -/
theorem Backpedals.extend {n : ℕ} (hback : Backpedals a rounded n) (ha : Accounts a) :
    ∃ p σ c, Granted a.suballocator σ p n ∧ kMinAllocationSize ∣ c ∧ c < 2 ^ 64 ∧ ∀ a',
      { a with suballocator := σ, startedBackpedal := true, currRegionAllocationBytes := c
        }.addRegion p
        (backpedalled scaleByBackpedalFactor n) = .ok a' →
      ∃ fuel, a.extend fuel rounded = .ok (true, a') := by
  obtain ⟨curr, hgrow, hle, hstarted, hnull, hgrants⟩ := hback
  have halloc : sub.alloc a.suballocator (min curr (availableBytes a)) =
      (none, (sub.alloc a.suballocator (min curr (availableBytes a))).2) := Prod.ext hnull rfl
  obtain ⟨fuel, p, σ, hloop, hgranted⟩ := hgrants.exists_backpedal
  have hobtain : ∀ a₁ : BFCAllocator sub, a₁.suballocator = a.suballocator →
    a₁.startedBackpedal = false →
      a₁.obtainRegion fuel rounded (min curr (availableBytes a)) =
        .ok (some p, backpedalled scaleByBackpedalFactor n,
          { a₁ with suballocator := σ, startedBackpedal := true }) := by
    intro a₁ hsub hfalse
    rw [obtainRegion, hsub, halloc]
    dsimp only
    rw [hfalse, if_neg Bool.false_ne_true]
    change (backpedal _ _ _ _ (backpedalled _ _) >>= _) = _
    rw [hloop]
    rfl
  have hextend : a.extend fuel rounded = ({ a with
      suballocator := σ, startedBackpedal := true,
      currRegionAllocationBytes :=
        if decide (a.currRegionAllocationBytes < rounded) then curr else sizeT (curr * 2)
          }.addRegion p
        (backpedalled scaleByBackpedalFactor n) >>= fun a' ↦ .ok (true, a')) := by
    unfold BFCAllocator.extend
    change (if availableBytes a < rounded then _ else _) = _
    rw [if_neg (not_lt.2 hle), hgrow]
    show (obtainRegion _ _ _ (min curr (availableBytes a)) >>= _) = _
    rw [hobtain { a with currRegionAllocationBytes := curr } rfl hstarted]
    by_cases hincreased : a.currRegionAllocationBytes < rounded
    · rw [decide_eq_true hincreased, if_pos rfl]
      rfl
    · rw [decide_eq_false hincreased, if_neg Bool.false_ne_true]
      rfl
  obtain ⟨-, -, -, hdvd, hlt⟩ := firstRequest_spec ha hgrow hle
  have hcurr : kMinAllocationSize ∣ sizeT (curr * 2) ∧ sizeT (curr * 2) < 2 ^ 64 := by
    refine ⟨?_, Nat.mod_lt _ (by norm_num)⟩
    rw [sizeT, kMinAllocationSize] at *
    omega
  refine ⟨p, σ, _, hgranted.of_null halloc, ?_, ?_,
    fun a' hadd ↦ ⟨fuel, by rw [hextend, hadd]; rfl⟩⟩
  · split
    · exact hdvd
    · exact hcurr.1
  · split
    · exact hlt
    · exact hcurr.2

/-- What the back-pedal loop asks for fits. -/
theorem Backpedals.spec (hback : Backpedals a rounded n) (ha : Accounts a) (hpos : 0 < rounded) :
    rounded < n ∧ kMinAllocationSize ∣ n ∧ n ≤ availableBytes a := by
  obtain ⟨curr, hgrow, hle, -, -, hgrants⟩ := hback
  obtain ⟨hfirst, hdvd, hlt, -⟩ := firstRequest_spec ha hgrow hle
  refine ⟨hgrants.lt, hgrants.dvd (dvd_roundedBytes _), ?_⟩
  have hscale := (roundedBytes_scale (hpos.trans_le hfirst) hdvd hlt).1
  exact ((hgrants.le (dvd_roundedBytes _) (roundedBytes_lt _)).trans hscale).trans
    (min_le_right _ _)

/-- The end of `Extend`, when the size registered is the size obtained. -/
theorem Rest.registersObtained (hr : Rest a rows free)
    (hext : a.extend fuel rounded = .ok (true, a')) (hpos : 0 < rounded)
    (hdvd : kMinAllocationSize ∣ rounded) (hle : rounded ≤ n) (hn : n ≤ availableBytes a)
    (hgranted : sub.granted σ = (p, n) :: sub.granted a.suballocator)
    (hadd : { a with suballocator := σ, startedBackpedal := b, currRegionAllocationBytes := c
      }.addRegion p
      n = .ok a') : RegistersObtained a a' rounded := by
  obtain ⟨hsub, hlimit, htotal, hperm, h, hptr, hsize, hbin⟩ := of_addRegion hadd
  obtain ⟨rows', free', hr', huse⟩ := (hr.extend hpos).of_ok hext
  have hacc := hr.core.accounts
  have hfits := availableBytes_le hacc
  have hsum : sizeT (a.totalRegionAllocatedBytes + n) = a.totalRegionAllocatedBytes + n :=
    sizeT_of_lt ((Nat.add_le_add_left hn _).trans_lt (hfits.trans_lt hacc.limit_lt))
  obtain ⟨k, hk⟩ := Option.ne_none_iff_exists'.1 hbin
  have hfree : FreeChunk a' h := hr'.freeChunk_iff.2 ⟨k, (hr'.core.bins.mem k h).2 hk⟩
  refine ⟨⟨p, n, h, ?_, hperm, hptr, hsize, hfree, htotal.trans hsum, hle⟩,
    fun numBytes x hx hnone ↦ ?_,
    fun hb numBytes hfatal ↦ ?_, hr'.core.accounts.total_le⟩
  · rw [hsub]
    exact hgranted
  · obtain ⟨q, a₁⟩ := x
    obtain rfl : q = none := hnone
    have hlt := ((hr'.findsBestFit hpos).null_iff numBytes).1 ⟨a₁, hx⟩ h hfree
    rw [hsize] at hlt
    exact absurd hle (not_le.2 hlt)
  · refine (hr'.findChunkPtr hpos hdvd _ numBytes).of_error hfatal rfl ?_
    have hsame : a'.memoryLimit = a.memoryLimit := huse.memoryLimit
    rwa [Bounded, hsame]

/-- Only a back-pedal loop that obtains more than 2304 bytes registers something else. -/
theorem Rest.registersObtained_iff_backpedals (hr : Rest a rows free) (hpos : 0 < rounded)
    (hdvd : kMinAllocationSize ∣ rounded) :
    (∀ fuel a', a.extend fuel rounded = .ok (true, a') → RegistersObtained a a' rounded) ↔
      ∀ n, Backpedals a rounded n → n ≤ 2304 ∨ NoHandle a := by
  have hacc := hr.core.accounts
  have hfits := availableBytes_le hacc
  constructor
  · intro hall n hback
    by_contra! hnot
    obtain ⟨hgt, hroom⟩ := hnot
    obtain ⟨hlt, hn, hle⟩ := hback.spec hacc hpos
    have hn64 : n < 2 ^ 64 := by
      have := hacc.limit_lt
      omega
    have hless := backpedalled_lt hn hgt hn64
    obtain ⟨hscale, hscaled⟩ := roundedBytes_scale (hpos.trans hlt) hn hn64
    obtain ⟨p, σ, c, hgr, hc, hc64, hext⟩ := hback.extend hacc
    have hsub : ∀ g ∈ sub.granted a.suballocator, g ∈ sub.granted σ := fun g hg ↦
      hgr.granted ▸ List.mem_cons_of_mem _ hg
    obtain ⟨a', hadd⟩ := (hr.reconfigure hsub hc hc64).core.exists_addRegion
      (hr.core.newRegion (b := true) hgr hscale hscaled (dvd_roundedBytes _)
        ((Nat.add_le_add_left hle _).trans hfits)) hroom
    obtain ⟨fuel, hfuel⟩ := hext a' hadd
    obtain ⟨hsame, -, htotal, -⟩ := of_addRegion hadd
    obtain ⟨p', n', h, hgranted, -, -, -, -, htotal', -⟩ := (hall fuel a' hfuel).obtained
    -- the size granted is `n`, and the size registered is not
    rw [hsame] at hgranted
    obtain ⟨heq, -⟩ := List.cons.inj (hgranted.symm.trans hgr.granted)
    obtain rfl : n' = n := congrArg Prod.snd heq
    have hlimit := hacc.limit_lt
    have hsum : sizeT (a.totalRegionAllocatedBytes + backpedalled scaleByBackpedalFactor n') =
        a.totalRegionAllocatedBytes + backpedalled scaleByBackpedalFactor n' :=
          sizeT_of_lt (by omega)
    have := htotal'.symm.trans (htotal.trans hsum)
    omega
  · intro hcond fuel a' hext
    obtain ⟨p, n, m, σ, b, c, curr, hgrow, hle, hgranted, hadd, hsource⟩ := of_extend hext
    rcases hsource with ⟨rfl, rfl⟩ | ⟨hback, rfl⟩
    · have hfirst := firstRequest_spec hacc hgrow hle
      exact hr.registersObtained hext hpos hdvd hfirst.1 (min_le_right _ _) hgranted hadd
    · obtain ⟨hlt, hn, hle⟩ := hback.spec hacc hpos
      rcases hcond n hback with hsmall | hnone
      · rw [backpedalled_eq hn hsmall] at hadd
        exact hr.registersObtained hext hpos hdvd hlt.le hle hgranted hadd
      · -- there is no handle for the chunk
        rw [BFCAllocator.addRegion] at hadd
        obtain ⟨⟨h, a₁⟩, halloc, -⟩ := bind_eq_ok_iff.1 hadd
        rw [allocateChunk] at halloc
        rw [hnone.1] at halloc
        rw [if_neg (not_lt.2 hnone.2)] at halloc
        cases halloc

end Main

/-- **When `Extend` registers exactly what it has obtained**, in every state of a run whose requests
can be rounded up: the back-pedal loop obtains nothing larger than 2304 bytes. -/
theorem registersObtained_iff {totalMemory : ℕ} {allowGrowth : Bool} {cs : List Call}
    {s : Client sub} (htotal : totalMemory < 2 ^ 64) (hfits : ∀ c ∈ cs, FitsRounding c)
    (hrun : run (Client.step fuel) (Client.init sub totalMemory allowGrowth) cs = some s)
    (hpos : 0 < rounded) (hdvd : kMinAllocationSize ∣ rounded) :
    (∀ fuel a', s.allocator.extend fuel rounded = .ok (true, a') →
      RegistersObtained s.allocator a' rounded) ↔
      ∀ n, Backpedals s.allocator rounded n → n ≤ 2304 ∨ NoHandle s.allocator := by
  obtain ⟨rows, free, hr⟩ := ((ClientInvariant.init htotal allowGrowth).run hfits hrun).rest
  exact hr.registersObtained_iff_backpedals hpos hdvd

/-- A region of 1 MiB, whose first request is granted. -/
theorem registersObtained_mebibyte :
    ∃ a', (Client.init .mebibyte (2 ^ 20) true).allocator.extend 10 512 = .ok (true, a') ∧
      RegistersObtained (Client.init .mebibyte (2 ^ 20) true).allocator a' 512 := by
  have hrun : run (Client.step 0) (Client.init .mebibyte (2 ^ 20) true) [] =
      some (Client.init .mebibyte (2 ^ 20) true) := rfl
  have hall : ∀ fuel a', (Client.init .mebibyte (2 ^ 20) true).allocator.extend fuel 512 =
    .ok (true, a') →
      RegistersObtained (Client.init .mebibyte (2 ^ 20) true).allocator a' 512 := by
    refine (registersObtained_iff (by norm_num) (List.forall_mem_nil _) hrun (by norm_num)
      (by decide)).2
      fun n hback ↦ ?_
    obtain ⟨curr, hgrow, -, -, hnull, -⟩ := hback
    have hcurr : growRegion 512 64 (2 ^ 20) = .ok (2 ^ 20) := by decide +kernel
    obtain rfl : curr = 2 ^ 20 := Except.ok.inj (hgrow.symm.trans hcurr)
    exact absurd hnull (by decide +kernel)
  have hextended : ((Client.init .mebibyte (2 ^ 20) true).allocator.extend 10 512).toOption.map
    Prod.fst =
      some true := by decide +kernel
  cases hx : (Client.init .mebibyte (2 ^ 20) true).allocator.extend 10 512 with
  | error e =>
    rw [hx] at hextended
    cases hextended
  | ok x =>
    obtain ⟨extended, a'⟩ := x
    rw [hx] at hextended
    obtain rfl : extended = true := Option.some.inj hextended
    exact ⟨a', rfl, hall 10 a' hx⟩

/-- With a limit of 2 MiB and 1 MiB to be had, 1003776 bytes are obtained and 903424 are
registered. -/
theorem not_registersObtained_mebibyte :
    ∃ a', (Client.init .mebibyte (2 ^ 21) false).allocator.extend 10 256 = .ok (true, a') ∧
      ¬ RegistersObtained (Client.init .mebibyte (2 ^ 21) false).allocator a' 256 := by
  have hdata : ((Client.init .mebibyte (2 ^ 21) false).allocator.extend 10 256).toOption.map
    (fun x ↦
      (x.1, SubAllocator.mebibyte.granted x.2.suballocator, x.2.totalRegionAllocatedBytes)) =
      some (true, [(4096, 1003776)], 903424) := by decide +kernel
  cases hx : (Client.init .mebibyte (2 ^ 21) false).allocator.extend 10 256 with
  | error e =>
    rw [hx] at hdata
    cases hdata
  | ok x =>
    obtain ⟨extended, a'⟩ := x
    rw [hx] at hdata
    obtain ⟨rfl, hdata⟩ := Prod.mk.inj (Option.some.inj hdata)
    obtain ⟨hgranted, htotal⟩ := Prod.mk.inj hdata
    refine ⟨a', rfl, fun hreg ↦ ?_⟩
    obtain ⟨p, n, h, hgranted', -, -, -, -, htotal', -⟩ := hreg.obtained
    obtain ⟨heq, -⟩ := List.cons.inj (hgranted.symm.trans hgranted')
    obtain rfl : 1003776 = n := congrArg Prod.snd heq
    exact absurd (htotal.symm.trans htotal') (by decide)

end TensorFlowCore.BfcAllocator
