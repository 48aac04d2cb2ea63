import Mathlib.Data.UInt

/-!
# `PhiloxRandom`

The counter-based generator of `tensorflow/core/lib/random/philox_random.h`, and
`GuardedPhiloxRandom`, which deals its stream out to threads. The four words of the counter are one
number of 128 bits, which a call steps by one.

`Skip` adds to that number in two words of 32 bits. When the upper word of the count is all ones and
the lower words carry, the sum wraps to 0 and the carry into the third word is lost; for every other
count, `Skip` is as many calls (`skip_eq_iterate_iff`). So reservations that `Skip` a non-negative
`int64` partition the stream (`flatten_drawAll`).
-/

namespace TensorFlowCore

/-- Four words of 32 bits: a counter, or the samples of one call. -/
structure Words where
  w₀ : UInt32 := 0
  w₁ : UInt32 := 0
  w₂ : UInt32 := 0
  w₃ : UInt32 := 0
  deriving DecidableEq

structure PhiloxRandom where
  counter : Words
  key₀ : UInt32
  key₁ : UInt32
  deriving DecidableEq

namespace PhiloxRandom

/-- `PhiloxRandom(seed_lo, seed_hi)`. -/
def ofSeeds (seedLo seedHi : UInt64) : PhiloxRandom :=
  ⟨⟨0, 0, seedHi.toUInt32, (seedHi >>> 32).toUInt32⟩, seedLo.toUInt32, (seedLo >>> 32).toUInt32⟩

/-- `Skip`. -/
def skip (r : PhiloxRandom) (count : UInt64) : PhiloxRandom :=
  let c := r.counter
  let countLo := count.toUInt32
  let w₀ := c.w₀ + countLo
  let countHi := (count >>> 32).toUInt32 + if w₀ < countLo then 1 else 0
  let w₁ := c.w₁ + countHi
  if w₁ < countHi then
    { r with counter := ⟨w₀, w₁, c.w₂ + 1, if c.w₂ + 1 = 0 then c.w₃ + 1 else c.w₃⟩ }
  else { r with counter := ⟨w₀, w₁, c.w₂, c.w₃⟩ }

/-- `SkipOne`. -/
def skipOne (r : PhiloxRandom) : PhiloxRandom :=
  let c := r.counter
  if c.w₀ + 1 ≠ 0 then { r with counter := { c with w₀ := c.w₀ + 1 } }
  else if c.w₁ + 1 ≠ 0 then { r with counter := ⟨0, c.w₁ + 1, c.w₂, c.w₃⟩ }
  else if c.w₂ + 1 ≠ 0 then { r with counter := ⟨0, 0, c.w₂ + 1, c.w₃⟩ }
  else { r with counter := ⟨0, 0, 0, c.w₃ + 1⟩ }

/-- `MultiplyHighLow`: the low word and the high word. -/
def multiplyHighLow (a b : UInt32) : UInt32 × UInt32 :=
  let product := a.toUInt64 * b.toUInt64
  (product.toUInt32, (product >>> 32).toUInt32)

/-- `ComputeSingleRound`. -/
def computeSingleRound (c : Words) (key₀ key₁ : UInt32) : Words :=
  let (lo₀, hi₀) := multiplyHighLow 0xD2511F53 c.w₀
  let (lo₁, hi₁) := multiplyHighLow 0xCD9E8D57 c.w₂
  ⟨hi₁ ^^^ c.w₁ ^^^ key₀, lo₁, hi₀ ^^^ c.w₃ ^^^ key₁, lo₀⟩

/-- Single rounds, with `RaiseKey` between them. -/
def rounds : ℕ → Words → UInt32 → UInt32 → Words
  | 0, c, _, _ => c
  | n + 1, c, key₀, key₁ =>
    rounds n (computeSingleRound c key₀ key₁) (key₀ + 0x9E3779B9) (key₁ + 0xBB67AE85)

/-- `operator()`: the samples, and the generator after the call. -/
def call (r : PhiloxRandom) : Words × PhiloxRandom := (rounds 10 r.counter r.key₀ r.key₁, r.skipOne)

/-- What `n` calls return. -/
def samples : ℕ → PhiloxRandom → List Words
  | 0, _ => []
  | n + 1, r => r.call.1 :: samples n r.call.2

/-! ### The counter as a number -/

variable {r : PhiloxRandom}

/-- The number that the counter spells. -/
def position (c : Words) : ℕ :=
  c.w₀.toNat + 2 ^ 32 * c.w₁.toNat + 2 ^ 64 * c.w₂.toNat + 2 ^ 96 * c.w₃.toNat

/-- The carry out of the upper word of the count, which is all ones. -/
def CarryLost (r : PhiloxRandom) (count : UInt64) : Prop :=
  count.toNat / 2 ^ 32 = 2 ^ 32 - 1 ∧ 2 ^ 32 ≤ r.counter.w₀.toNat + count.toNat % 2 ^ 32

instance (r : PhiloxRandom) (count : UInt64) : Decidable (r.CarryLost count) :=
  inferInstanceAs (Decidable (_ ∧ _))

theorem position_lt (c : Words) : position c < 2 ^ 128 := by
  have := c.w₀.toNat_lt
  have := c.w₁.toNat_lt
  have := c.w₂.toNat_lt
  have := c.w₃.toNat_lt
  rw [position]
  omega

theorem position_injective : Function.Injective position := by
  rintro ⟨a₀, a₁, a₂, a₃⟩ ⟨b₀, b₁, b₂, b₃⟩ h
  have := a₀.toNat_lt; have := a₁.toNat_lt; have := a₂.toNat_lt; have := a₃.toNat_lt
  have := b₀.toNat_lt; have := b₁.toNat_lt; have := b₂.toNat_lt; have := b₃.toNat_lt
  simp only [position] at h
  have h₀ : a₀ = b₀ := UInt32.toNat_inj.1 (by omega)
  have h₁ : a₁ = b₁ := UInt32.toNat_inj.1 (by omega)
  have h₂ : a₂ = b₂ := UInt32.toNat_inj.1 (by omega)
  have h₃ : a₃ = b₃ := UInt32.toNat_inj.1 (by omega)
  rw [h₀, h₁, h₂, h₃]

theorem position_skipOne : position r.skipOne.counter = (position r.counter + 1) % 2 ^ 128 := by
  obtain ⟨⟨w₀, w₁, w₂, w₃⟩, k₀, k₁⟩ := r
  have := w₀.toNat_lt; have := w₁.toNat_lt; have := w₂.toNat_lt; have := w₃.toNat_lt
  simp only [skipOne, position, ne_eq, ← UInt32.toNat_inj]
  split_ifs <;> simp_all <;> omega

theorem position_skip (count : UInt64) :
    (position (r.skip count).counter + if r.CarryLost count then 2 ^ 64 else 0) %
    2 ^ 128 = (position r.counter + count.toNat) % 2 ^ 128 := by
  obtain ⟨⟨w₀, w₁, w₂, w₃⟩, k₀, k₁⟩ := r
  have := w₀.toNat_lt; have := w₁.toNat_lt; have := w₂.toNat_lt; have := w₃.toNat_lt
  have := count.toNat_lt
  by_cases hlost : CarryLost ⟨⟨w₀, w₁, w₂, w₃⟩, k₀, k₁⟩ count
  all_goals
    simp only [hlost, if_true, if_false, skip, position, ← UInt32.toNat_inj, UInt32.lt_iff_toNat_lt]
    rw [CarryLost] at hlost
    split_ifs <;> simp_all [Nat.shiftRight_eq_div_pow] <;> omega

/-! ### Skipping and sampling -/

@[simp] theorem key₀_skipOne : r.skipOne.key₀ = r.key₀ := by
  rw [skipOne]
  split_ifs <;> rfl

@[simp] theorem key₁_skipOne : r.skipOne.key₁ = r.key₁ := by
  rw [skipOne]
  split_ifs <;> rfl

theorem iterate_skipOne (n : ℕ) :
    position (skipOne^[n] r).counter = (position r.counter + n) % 2 ^ 128 ∧
    (skipOne^[n] r).key₀ = r.key₀ ∧ (skipOne^[n] r).key₁ = r.key₁ := by
  induction n with
  | zero => exact ⟨(Nat.mod_eq_of_lt (position_lt _)).symm, rfl, rfl⟩
  | succ n ih =>
    rw [Function.iterate_succ_apply', position_skipOne, key₀_skipOne, key₁_skipOne, ih.1]
    exact ⟨by omega, ih.2⟩

/-- **`Skip` is as many single steps, unless it loses a carry.** -/
theorem skip_eq_iterate_iff (count : UInt64) :
    r.skip count = skipOne^[count.toNat] r ↔ ¬ r.CarryLost count := by
  have hskip := position_skip (r := r) count
  obtain ⟨hpos, hkey₀, hkey₁⟩ := iterate_skipOne (r := r) count.toNat
  have hlt := position_lt (r.skip count).counter
  constructor
  · intro heq hlost
    rw [heq, hpos, if_pos hlost] at hskip
    omega
  · intro hkept
    rw [if_neg hkept, add_zero, ← hpos, Nat.mod_eq_of_lt hlt] at hskip
    have hkeys : (r.skip count).key₀ = r.key₀ ∧ (r.skip count).key₁ = r.key₁ := by
      simp only [skip]
      split_ifs <;> exact ⟨rfl, rfl⟩
    generalize skipOne^[count.toNat] r = s at *
    obtain ⟨c, k₀, k₁⟩ := s
    rw [PhiloxRandom.mk.injEq]
    exact ⟨position_injective hskip, hkeys.1.trans hkey₀.symm, hkeys.2.trans hkey₁.symm⟩

theorem samples_add (m n : ℕ) : samples (m + n) r = samples m r ++ samples n (skipOne^[m] r) := by
  induction m generalizing r with
  | zero => rw [Nat.zero_add]; rfl
  | succ m ih => rw [Nat.add_right_comm, samples, ih]; rfl

/-- `GuardedPhiloxRandom::ReserveSamples128`: the generator of the caller, and what stays behind the
lock. -/
def reserveSamples128 (generator : PhiloxRandom) (samples : UInt64) : PhiloxRandom × PhiloxRandom :=
  (generator, generator.skip samples)

/-- What the callers of `ReserveSamples128` draw, in the order in which they got the lock. -/
def drawAll : PhiloxRandom → List UInt64 → List (List Words)
  | _, [] => []
  | g, n :: ns => samples n.toNat (g.reserveSamples128 n).1 :: drawAll (g.reserveSamples128 n).2 ns

/-- **Reservations partition the stream.** In whatever order threads reserve and whenever they draw,
their samples are those of one generator: none is dealt out twice, and none is left out. -/
theorem flatten_drawAll {ns : List UInt64} (hns : ∀ n ∈ ns, n.toNat < 2 ^ 63) :
    (drawAll r ns).flatten = samples (ns.map UInt64.toNat).sum r := by
  induction ns generalizing r with
  | nil => rfl
  | cons n ns ih =>
    have hn := hns n List.mem_cons_self
    have hskip : r.skip n = skipOne^[n.toNat] r := (skip_eq_iterate_iff n).2 fun hlost ↦ by
      have := hlost.1
      omega
    rw [drawAll, List.flatten_cons, reserveSamples128,
      ih fun m hm ↦ hns m (List.mem_cons_of_mem _ hm), hskip, List.map_cons, List.sum_cons,
      samples_add]

theorem flatten_drawAll_two : (drawAll (ofSeeds 7 9) [2, 3]).flatten = samples 5 (ofSeeds 7 9) :=
  flatten_drawAll (by simp)

end PhiloxRandom
end TensorFlowCore
