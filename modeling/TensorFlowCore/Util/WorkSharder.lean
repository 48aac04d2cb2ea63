import TensorFlowCore.Lib.Core.BlockingCounter
import TensorFlowCore.Support.Blocks
import TensorFlowCore.Support.Rounds

/-!
# `Shard`

`tensorflow/core/util/work_sharder.cc`: the units of work `[0, total)` are cut into blocks, of which
the caller does the first one and a thread pool the others. The branch for
`EIGEN_USE_NONBLOCKING_THREAD_POOL`, which no build file defines, is left out.

The number of shards comes from `total * cost_per_unit`, which may overflow; a negative product that
is divided by `kMinCostPerShard` and cut to an `int` may be any number. The sums that round up to
whole blocks overflow for a `total` near `2 ^ 63`, and then a `CHECK` fails. `shardsOnce_iff` says
when none of this matters.
-/

namespace TensorFlowCore

open List

namespace WorkSharder

open GuardedRun

/-- A half-open range of units of work. -/
abbrev Range : Type := ℤ × ℤ

/-- What `Shard` does with the work. -/
inductive Outcome where
  | nothing
  | inline (range : Range)
  /-- The `BlockingCounter` starts at `initialCount`, a closure is scheduled for each of the ranges,
  and the caller does the first one. -/
  | sharded (initialCount : ℤ) (scheduled : List Range) (first : Range)
  | crash

/-- The ranges that `work` is called with. -/
def Outcome.ranges : Outcome → List Range
  | nothing => []
  | inline range => [range]
  | sharded _ scheduled first => first :: scheduled
  | crash => []

def kMinCostPerShard : ℤ := 10000

def numShards (maxParallelism total costPerUnit : ℤ) : ℤ :=
  max 1 (int32 (min maxParallelism ((int64 (total * costPerUnit)).tdiv kMinCostPerShard)))

/-- One round of the loop that schedules the closures. -/
def scheduleRound (blockSize total : ℤ) (s : ℤ × List Range) : (ℤ × List Range) ⊕ List Range :=
  if s.1 < total then
    let limit := min (int64 (s.1 + blockSize)) total
    .inl (int64 (s.1 + blockSize), s.2 ++ [(s.1, limit)])
  else .inr s.2

/-- `Shard`, if its loop ends within so many rounds. -/
def shard (rounds : ℕ) (maxParallelism total costPerUnit : ℤ) : Option Outcome :=
  if total < 0 then some .crash
  else if total = 0 then some .nothing
  else if maxParallelism ≤ 1 then some (.inline (0, total))
  else
    let costPerUnit := max 1 costPerUnit
    let numShards := numShards maxParallelism total costPerUnit
    let blockSize := (int64 (total + numShards - 1)).tdiv numShards
    if blockSize ≤ 0 then some .crash
    else if total ≤ blockSize then some (.inline (0, total))
    else
      let numShardsUsed := int32 ((int64 (total + blockSize - 1)).tdiv blockSize)
      let initialCount := int32 (numShardsUsed - 1)
      -- the `CHECK` of the counter's constructor
      if initialCount < 0 then some .crash
      else
        (Rounds.loop (scheduleRound blockSize total) rounds (blockSize, [])).map fun scheduled ↦
          .sharded initialCount scheduled (0, min blockSize total)

/-- The work is covered exactly once, by at most so many shards, and `Wait` waits for those of the
thread pool. -/
structure CoversOnce (maxParallelism total : ℤ) (o : Outcome) : Prop where
  notCrashed : o ≠ .crash
  nonempty : ∀ r ∈ o.ranges, r.1 < r.2
  disjoint : o.ranges.Pairwise fun r t ↦ r.2 ≤ t.1 ∨ t.2 ≤ r.1
  covers : ∀ i, (∃ r ∈ o.ranges, r.1 ≤ i ∧ i < r.2) ↔ 0 ≤ i ∧ i < total
  atMost : (o.ranges.length : ℤ) ≤ max 1 maxParallelism
  counts : ∀ initialCount scheduled first, o = .sharded initialCount scheduled first →
    initialCount = scheduled.length ∧ ∀ actions t,
      run BlockingCounter.step (BlockingCounter.start initialCount scheduled) actions = some t →
        BlockingCounter.WaitsForAll scheduled t

/-- `Shard` comes to an end, and covers the work once. -/
def ShardsOnce (maxParallelism total costPerUnit : ℤ) : Prop :=
  ∃ rounds o, shard rounds maxParallelism total costPerUnit = some o ∧
    CoversOnce maxParallelism total o

/-- The blocks for `n` shards are those of a whole number of units, no sum overflows, and they are
not more than the caller has asked for. -/
structure Shardable (maxParallelism total n : ℤ) : Prop where
  blockSize : total + n - 1 < 2 ^ 63
  blocks : total ≤ (total + n - 1) / n ∨
    total + (total + n - 1) / n - 1 < 2 ^ 63 ∧
      (Blocks.numBlocks ((total + n - 1) / n) total : ℤ) ≤ maxParallelism

variable {maxParallelism total costPerUnit n b : ℤ}

theorem one_le_numShards : 1 ≤ numShards maxParallelism total costPerUnit := le_max_left _ _

theorem numShards_lt : numShards maxParallelism total costPerUnit < 2 ^ 31 := by
  have hint := Int.bmod_lt
      (x := min maxParallelism ((int64 (total * costPerUnit)).tdiv kMinCostPerShard))
    (m := 2 ^ 32) (by norm_num)
  rw [numShards, int32]
  omega

theorem coversOnce_inline (htotal : 0 < total) :
    CoversOnce maxParallelism total (.inline (0, total)) where
  notCrashed := nofun
  nonempty := by simpa [Outcome.ranges] using htotal
  disjoint := pairwise_singleton _ _
  covers i := by simp [Outcome.ranges]
  atMost := by simp [Outcome.ranges]
  counts := nofun

/-- The first block is the caller's, the others are scheduled. -/
theorem coversOnce_sharded_iff (hb : 0 < b) (htotal : 0 < total) (hmax : 1 < maxParallelism)
    {first : Range} {scheduled : List Range}
    (hblocks : Blocks.blocks b total = first :: scheduled) :
    CoversOnce maxParallelism total (.sharded (Blocks.numBlocks b total - 1) scheduled first) ↔
      (Blocks.numBlocks b total : ℤ) ≤ maxParallelism := by
  have hlength : scheduled.length + 1 = Blocks.numBlocks b total := by
    rw [← Blocks.length_blocks, hblocks, length_cons]
  constructor
  · intro h
    have hatMost := h.atMost
    rw [Outcome.ranges, length_cons, hlength] at hatMost
    omega
  · intro hle
    refine ⟨nofun, ?_, ?_, ?_, ?_, ?_⟩
    · rw [Outcome.ranges, ← hblocks]
      exact fun r ↦ Blocks.nonempty_of_mem_blocks hb htotal.le
    · rw [Outcome.ranges, ← hblocks]
      exact (Blocks.pairwise_blocks hb).imp .inl
    · rw [Outcome.ranges, ← hblocks]
      exact Blocks.exists_mem_blocks_iff hb htotal.le
    · rw [Outcome.ranges, length_cons, hlength]
      omega
    · rintro _ _ _ ⟨⟩
      have hcount : (Blocks.numBlocks b total : ℤ) - 1 = scheduled.length := by omega
      refine ⟨hcount, fun actions t hrun ↦ ?_⟩
      rw [hcount] at hrun
      exact BlockingCounter.waitsForAll_of_run hrun

/-- The loop from the `k`-th block on. By induction on the number of the blocks that are left. -/
theorem loop_scheduleRound (hb : 0 < b) (htotal : 0 ≤ total) (hfits : total + b - 1 < 2 ^ 63)
    {k : ℕ} (hk : k ≤ Blocks.numBlocks b total) (scheduled : List Range) :
    Rounds.Returns (scheduleRound b total) (b * k, scheduled)
      (scheduled ++ (List.range' k (Blocks.numBlocks b total - k)).map (Blocks.block b total)) := by
  induction hleft : Blocks.numBlocks b total - k generalizing k scheduled with
  | zero =>
    have hend : ¬b * (k : ℤ) < total := by
      rw [← Blocks.lt_numBlocks_iff hb htotal]
      omega
    have hround : scheduleRound b total (b * k, scheduled) = .inr scheduled := if_neg hend
    exact (Rounds.returns_of_inr hround).2 (append_nil _)
  | succ left ih =>
    have hlt : b * (k : ℤ) < total := (Blocks.lt_numBlocks_iff hb htotal k).1 (by omega)
    have hnonneg : 0 ≤ b * (k : ℤ) := mul_nonneg hb.le (Int.natCast_nonneg k)
    have hnext : int64 (b * k + b) = b * (k + 1 : ℕ) := by
      rw [int64_of_lt (by omega) (by omega), Nat.cast_succ, mul_add, mul_one]
    have hround : scheduleRound b total (b * k, scheduled) =
        .inl (b * (k + 1 : ℕ), scheduled ++ [(b * (k : ℤ), min (b * (k + 1 : ℕ)) total)]) := by
      rw [scheduleRound, if_pos hlt]
      rw [hnext]
    refine (Rounds.returns_of_inl hround).2 ?_
    have hrest := ih (k := k + 1) (by omega) (scheduled ++ [Blocks.block b total k]) (by omega)
    rw [append_assoc, singleton_append] at hrest
    rw [range'_succ, map_cons]
    have hblock : Blocks.block b total k = (b * (k : ℤ), min (b * (k + 1 : ℕ)) total) := by
      rw [Blocks.block, Nat.cast_succ, mul_add, mul_one]
    rwa [hblock] at hrest ⊢

theorem int64_of_overflow {m : ℤ} (hlo : 2 ^ 63 ≤ m) (hhi : m < 2 ^ 64) : int64 m = m - 2 ^ 64 := by
  rw [int64, Int.bmod_def]
  omega

/-- The sum that rounds up to whole blocks may overflow. Then the `BlockingCounter` starts below
0. -/
theorem initialCount_neg (hn : 0 < n) (hlt : n < 2 ^ 31) (hb : 0 < b) (htotal : total < 2 ^ 63)
    (hle : b < total) (hceil : total ≤ n * b) (hover : 2 ^ 63 ≤ total + b - 1) :
    int32 (int32 ((int64 (total + b - 1)).tdiv b) - 1) < 0 := by
  obtain ⟨m, hm⟩ : ∃ m, m = 2 ^ 64 - (total + b - 1) := ⟨_, rfl⟩
  have hwrap : int64 (total + b - 1) = -m := by
    rw [int64_of_overflow hover (by omega)]
    omega
  have hlarge : 2 ^ 63 < b * 2 ^ 31 := by
    have hmul : (n + 1) * b ≤ 2 ^ 31 * b := mul_le_mul_of_nonneg_right (by omega) hb.le
    rw [add_mul, one_mul] at hmul
    omega
  have hquot : m / b < 2 ^ 31 := (Int.ediv_lt_iff_lt_mul hb).2 (by omega)
  have hnonneg : 0 ≤ m / b := Int.ediv_nonneg (by omega) hb.le
  have hused : int32 (-(m / b)) = -(m / b) := int32_eq (by omega) (by omega)
  rw [hwrap, Int.neg_tdiv, Int.tdiv_eq_ediv_of_nonneg (by omega), hused,
    int32_eq (by omega) (by omega)]
  omega

/-- The call, from the number of shards on. -/
theorem shard_eq (hmax : 1 < maxParallelism) (htotal : 0 < total)
    (hn : n = numShards maxParallelism total (max 1 costPerUnit)) (hfits : total + n - 1 < 2 ^ 63)
    (hb : b = (total + n - 1) / n) (rounds : ℕ) :
    shard rounds maxParallelism total costPerUnit =
      if total ≤ b then some (.inline (0, total))
      else
        let initialCount := int32 (int32 ((int64 (total + b - 1)).tdiv b) - 1)
        if initialCount < 0 then some .crash
        else
          (Rounds.loop (scheduleRound b total) rounds (b, [])).map fun scheduled ↦
            .sharded initialCount scheduled (0, min b total) := by
  have hone : 1 ≤ n := hn ▸ one_le_numShards
  have hsize : (int64 (total + n - 1)).tdiv n = b := by
    rw [int64_of_lt (by omega) hfits, Int.tdiv_eq_ediv_of_nonneg (by omega), hb]
  have hpos : 0 < b := by
    rw [hb, ← Int.add_one_le_iff, zero_add, Int.le_ediv_iff_mul_le (by omega)]
    omega
  rw [shard, if_neg (by omega), if_neg (by omega), if_neg (by omega)]
  dsimp only
  rw [← hn, hsize, if_neg (by omega)]

theorem initialCount_eq (hb : 0 < b) (htotal : 0 < total) (hover : total + b - 1 < 2 ^ 63)
    (hlt : (Blocks.numBlocks b total : ℤ) < 2 ^ 31) :
    int32 (int32 ((int64 (total + b - 1)).tdiv b) - 1) = Blocks.numBlocks b total - 1 := by
  have hnonneg : 0 ≤ (total + b - 1) / b := Int.ediv_nonneg (by omega) hb.le
  have hnum : (total + b - 1) / b = Blocks.numBlocks b total := (Int.toNat_of_nonneg hnonneg).symm
  rw [int64_of_lt (by omega) hover, Int.tdiv_eq_ediv_of_nonneg (by omega), hnum,
    int32_eq (by omega) hlt]
  exact int32_eq (by omega) (by omega)

/-- Where there is more than one block and no overflow, the loop ends with all blocks but the
first. -/
theorem shardsOnce_iff_of_blocks (hmax : 1 < maxParallelism) (htotal : 0 < total)
    (hlt : total < 2 ^ 63) (hn : n = numShards maxParallelism total (max 1 costPerUnit))
    (hfits : total + n - 1 < 2 ^ 63) (hb : b = (total + n - 1) / n) (hmore : b < total) :
    ShardsOnce maxParallelism total costPerUnit ↔
      total + b - 1 < 2 ^ 63 ∧ (Blocks.numBlocks b total : ℤ) ≤ maxParallelism := by
  have hone : 1 ≤ n := hn ▸ one_le_numShards
  have hnlt : n < 2 ^ 31 := hn ▸ numShards_lt
  have hpos : 0 < b := by
    rw [hb, ← Int.add_one_le_iff, zero_add, Int.le_ediv_iff_mul_le (by omega)]
    omega
  have hceil : total ≤ n * b := by
    have := Int.lt_mul_ediv_self_add (x := total + n - 1) (k := n) (by omega)
    rw [← hb] at this
    omega
  have hshard := fun rounds ↦ shard_eq hmax htotal hn hfits hb rounds
  by_cases hover : total + b - 1 < 2 ^ 63
  · have hnum : (Blocks.numBlocks b total : ℤ) ≤ n := by
      rw [hb]
      exact Blocks.numBlocks_le (by omega) htotal.le (hb ▸ hpos)
    have hmany : 1 < Blocks.numBlocks b total := by
      rw [Blocks.lt_numBlocks_iff hpos htotal.le]
      simpa using hmore
    have hcount := initialCount_eq hpos htotal hover (by omega)
    obtain ⟨k, hk⟩ := Nat.exists_eq_add_of_lt hmany
    have hblocks : Blocks.blocks b total =
        (0, min b total) :: (range' 1 (Blocks.numBlocks b total - 1)).map
        (Blocks.block b total) := by
      rw [Blocks.blocks, range_eq_range', hk, Nat.add_assoc, Nat.add_comm 1, range'_succ]
      simp [Blocks.block]
    have hloop := loop_scheduleRound hpos htotal.le hover hmany.le []
    rw [Nat.cast_one, mul_one, nil_append] at hloop
    rw [← coversOnce_sharded_iff hpos htotal hmax hblocks, and_iff_right hover]
    constructor
    · rintro ⟨rounds, o, ho, hcovers⟩
      rw [hshard, if_neg (by omega), hcount] at ho
      rw [if_neg (by omega)] at ho
      obtain ⟨scheduled, hscheduled, rfl⟩ := Option.map_eq_some_iff.1 ho
      rwa [hloop.unique ⟨rounds, hscheduled⟩]
    · intro hcovers
      obtain ⟨rounds, hscheduled⟩ := hloop
      refine ⟨rounds, _, ?_, hcovers⟩
      rw [hshard, if_neg (by omega), hcount]
      rw [if_neg (by omega), hscheduled]
      rfl
  · refine iff_of_false ?_ fun h ↦ hover h.1
    rintro ⟨rounds, o, ho, hcovers⟩
    rw [hshard, if_neg (by omega)] at ho
    rw [if_pos (initialCount_neg (by omega) hnlt hpos hlt hmore hceil (by omega))] at ho
    exact hcovers.notCrashed (Option.some.inj ho).symm

/-- **`Shard` covers the work exactly once** if and only if there is nothing to shard, or the number
of shards that `numShards` asks for makes blocks for which no sum overflows, and not more of them
than the caller allows. -/
theorem shardsOnce_iff (htotal : 0 ≤ total) (hlt : total < 2 ^ 63) :
    ShardsOnce maxParallelism total costPerUnit ↔
      total = 0 ∨ maxParallelism ≤ 1 ∨
        Shardable maxParallelism total (numShards maxParallelism total (max 1 costPerUnit)) := by
  obtain rfl | hpos := htotal.eq_or_lt
  · refine iff_of_true ⟨0, .nothing, rfl, nofun, nofun, .nil, fun i ↦ ?_, ?_, nofun⟩ (.inl rfl)
    · simp only [Outcome.ranges, not_mem_nil, false_and, exists_false, false_iff]
      omega
    · simp [Outcome.ranges]
  obtain hmax | hmax := Int.lt_or_le 1 maxParallelism
  · rw [or_iff_right (by omega), or_iff_right (by omega)]
    obtain ⟨n, hn⟩ : ∃ n, n = numShards maxParallelism total (max 1 costPerUnit) := ⟨_, rfl⟩
    rw [← hn]
    have hone : 1 ≤ n := hn ▸ one_le_numShards
    have hnlt : n < 2 ^ 31 := hn ▸ numShards_lt
    by_cases hfits : total + n - 1 < 2 ^ 63
    · obtain hle | hmore := Int.lt_or_le ((total + n - 1) / n) total |>.symm
      · refine iff_of_true ⟨0, .inline (0, total), ?_, coversOnce_inline hpos⟩ ⟨hfits, .inl hle⟩
        rw [shard_eq hmax hpos hn hfits rfl, if_pos hle]
      · rw [shardsOnce_iff_of_blocks hmax hpos hlt hn hfits rfl hmore]
        exact ⟨fun h ↦ ⟨hfits, .inr h⟩, fun h ↦ h.blocks.resolve_left (by omega)⟩
    · refine iff_of_false ?_ fun h ↦ hfits h.blockSize
      rintro ⟨rounds, o, ho, hcovers⟩
      have hwrap : int64 (total + n - 1) = -(2 ^ 64 - (total + n - 1)) := by
        rw [int64_of_overflow (by omega) (by omega)]
        omega
      have hquot : 0 ≤ (2 ^ 64 - (total + n - 1)) / n := Int.ediv_nonneg (by omega) (by omega)
      rw [shard, if_neg (by omega), if_neg (by omega), if_neg (by omega)] at ho
      dsimp only at ho
      rw [← hn, hwrap, Int.neg_tdiv, Int.tdiv_eq_ediv_of_nonneg (by omega), if_pos (by omega)] at ho
      exact hcovers.notCrashed (Option.some.inj ho).symm
  · refine iff_of_true ⟨0, .inline (0, total), ?_, coversOnce_inline hpos⟩ (.inr (.inl hmax))
    rw [shard, if_neg (by omega), if_neg (by omega), if_pos hmax]

/-- Ten units, two threads. -/
theorem shardsOnce_iff_ten :
    ShardsOnce 2 10 100000 ↔ (10 : ℤ) = 0 ∨ (2 : ℤ) ≤ 1 ∨
    Shardable 2 10 (numShards 2 10 (max 1 100000)) :=
  shardsOnce_iff (by norm_num) (by norm_num)

/-- The product of 10 and a cost of `3 * 10 ^ 18` is negative, so that a caller who allows two
shards gets ten. -/
theorem not_shardsOnce : ¬ShardsOnce 2 10 3000000000000000000 := by
  have hn : (2026200682 : ℤ) = numShards 2 10 (max 1 3000000000000000000) := by decide
  have hb : (1 : ℤ) = (10 + 2026200682 - 1) / 2026200682 := by decide
  rw [shardsOnce_iff_of_blocks (by norm_num) (by norm_num) (by norm_num) hn (by norm_num) hb
    (by norm_num)]
  rintro ⟨-, hle⟩
  exact absurd hle (by decide)

end WorkSharder

end TensorFlowCore
