import TensorFlowCore.Util.ExampleParsing.Merging

/-!
# The cut of the batch

A number of minibatches that is positive if there are examples, and at most that of the examples,
cuts the batch into non-empty ranges (`minibatchRange_ne_nil`, `flatten_minibatchRanges`).
`FastParseExample` chooses such a number (`isMinibatchCount_numMinibatches`).
-/

namespace TensorFlowCore

open List

namespace ExampleParsing

/-- The numbers of minibatches for `n` examples. -/
structure IsMinibatchCount (n k : ℕ) : Prop where
  le : k ≤ n
  pos : 0 < n → 0 < k

/-- A minibatch begins at an example of its own. -/
theorem countRound_le (acc : ℕ × ℕ) (s : ByteString) : (countRound acc s).1 ≤ acc.1 + 1 := by
  unfold countRound
  dsimp only
  split <;> omega

theorem foldl_countRound_le (serialized : List ByteString) (acc : ℕ × ℕ) :
    (serialized.foldl countRound acc).1 ≤ acc.1 + serialized.length := by
  induction serialized generalizing acc with
  | nil => exact le_rfl
  | cons s serialized ih =>
    have hround : (countRound acc s).1 ≤ acc.1 + 1 := countRound_le acc s
    have hrest : (serialized.foldl countRound (countRound acc s)).1 ≤ (countRound acc s).1 +
        serialized.length := ih _
    rw [foldl_cons, length_cons]
    omega

theorem isMinibatchCount_numMinibatches (serialized : List ByteString) :
    IsMinibatchCount serialized.length (numMinibatches serialized) := by
  have hcount : (serialized.foldl countRound (0, 0)).1 ≤ 0 + serialized.length :=
    foldl_countRound_le serialized (0, 0)
  unfold numMinibatches
  exact ⟨by omega, fun hpos ↦ by omega⟩

section
variable {n k m : ℕ}

theorem firstExampleOfMinibatch_zero : firstExampleOfMinibatch n k 0 = 0 := Nat.zero_div k

theorem firstExampleOfMinibatch_last (h : IsMinibatchCount n k) :
    firstExampleOfMinibatch n k k = n := by
  obtain rfl | hk := Nat.eq_zero_or_pos k
  · have hn : n = 0 := Nat.eq_zero_of_not_pos fun hn ↦ Nat.lt_irrefl 0 (h.pos hn)
    rw [hn]
    rfl
  · exact Nat.mul_div_cancel n hk

theorem firstExampleOfMinibatch_mono {m' : ℕ} (h : m ≤ m') :
    firstExampleOfMinibatch n k m ≤ firstExampleOfMinibatch n k m' :=
  Nat.div_le_div_right (Nat.mul_le_mul_left n h)

/-- No minibatch is empty. -/
theorem firstExampleOfMinibatch_lt (h : IsMinibatchCount n k) (hm : m < k) :
    firstExampleOfMinibatch n k m < firstExampleOfMinibatch n k (m + 1) := by
  have hk : 0 < k := Nat.zero_lt_of_lt hm
  have hnext : n * m / k + 1 ≤ n * (m + 1) / k := by
    rw [← Nat.add_div_right _ hk]
    refine Nat.div_le_div_right ?_
    rw [Nat.mul_add_one]
    exact Nat.add_le_add_left h.le _
  exact hnext

theorem length_minibatchRange :
    (minibatchRange n k m).length = firstExampleOfMinibatch n k (m + 1) -
      firstExampleOfMinibatch n k m :=
  length_range'

theorem minibatchRange_ne_nil (h : IsMinibatchCount n k) (hm : m < k) :
    minibatchRange n k m ≠ [] := by
  have hlt : firstExampleOfMinibatch n k m < firstExampleOfMinibatch n k (m + 1) :=
    firstExampleOfMinibatch_lt h hm
  refine ne_nil_of_length_pos ?_
  rw [length_minibatchRange]
  omega

/-- The first minibatches are the examples before the next one. -/
theorem flatten_minibatchRange_range (m : ℕ) :
    ((List.range m).map (minibatchRange n k)).flatten =
      List.range (firstExampleOfMinibatch n k m) := by
  induction m with
  | zero => rw [firstExampleOfMinibatch_zero]; rfl
  | succ m ih =>
    have hmono : firstExampleOfMinibatch n k m ≤ firstExampleOfMinibatch n k (m + 1) :=
      firstExampleOfMinibatch_mono (Nat.le_succ m)
    rw [range_succ, map_append, flatten_append, ih, map_singleton, flatten_singleton,
      minibatchRange, range_eq_range', range_eq_range']
    nth_rewrite 2 [← Nat.zero_add (firstExampleOfMinibatch n k m)]
    rw [range'_append_1, Nat.add_sub_cancel' hmono]

/-- The minibatches are all examples, in their order. -/
theorem flatten_minibatchRanges (h : IsMinibatchCount n k) :
    ((List.range k).map (minibatchRange n k)).flatten = List.range n := by
  rw [flatten_minibatchRange_range, firstExampleOfMinibatch_last h]

theorem lt_of_mem_minibatchRange {e : ℕ} (h : IsMinibatchCount n k) (hm : m < k)
    (he : e ∈ minibatchRange n k m) : e < n := by
  rw [← mem_range, ← flatten_minibatchRanges h]
  exact mem_flatten.2 ⟨_, mem_map_of_mem (mem_range.2 hm), he⟩

end

end ExampleParsing

end TensorFlowCore
