import TensorFlowCore.Support.EvenSlices
import TensorFlowCore.Util.Sparse.Reorder

/-!
# `Concat` undoes `Split`

The three helpers of `Split` cut the dimension evenly (`getSliceIndex_eq`, `getDimensionInSlice_eq`,
`getSliceShape_eq`). Each entry goes behind those of its slice that come before it (`partition`),
and `Concat` puts the entries of one slice behind those of the others.
-/

namespace TensorFlowCore

open EvenSlices Function List Option

namespace SparseTensor

variable {α σ : Type} {t : SparseTensor α} {d k : ℕ}

/-! ### Loops over the entries -/

theorem intLoopFrom_eq {n : ℕ} (hn : n < 2 ^ 31) (body : σ → ℕ → Option σ) {m : ℕ} (hm : m ≤ n)
    (s : σ) : intLoopFrom n body (m + 1) (n - m : ℕ) s = (List.range' (n - m) m).foldlM body s := by
  induction m generalizing s with
  | zero =>
    rw [intLoopFrom, if_pos (by omega)]
    rfl
  | succ m ih =>
    rw [intLoopFrom, if_neg (by omega), if_neg (by omega), Int.toNat_natCast, range'_succ,
      foldlM_cons]
    refine congrArg (Option.bind _) (funext fun s' ↦ ?_)
    have hnext : int32 ((n - (m + 1) : ℕ) + 1) = (n - m : ℕ) := by
      rw [int32_of_lt (by omega) (by omega)]
      omega
    rw [hnext, ih (by omega), show n - (m + 1) + 1 = n - m by omega]

/-- The loop, if the number of entries is an `int`. -/
theorem intLoop_eq {n : ℕ} (hn : n < 2 ^ 31) (body : σ → ℕ → Option σ) (s : σ) :
    intLoop n body s = (List.range n).foldlM body s := by
  have hloop := intLoopFrom_eq hn body (Nat.le_refl n) s
  rw [Nat.sub_self] at hloop
  rw [range_eq_range']
  exact hloop

theorem intLoopFrom_none {n : ℕ} (hn : 2 ^ 31 ≤ n) (body : σ → ℕ → Option σ) (rounds : ℕ) {i : ℤ}
    (hlo : -2 ^ 31 ≤ i) (hhi : i < 2 ^ 31) (s : σ) : intLoopFrom n body rounds i s = none := by
  induction rounds generalizing i s with
  | zero => rfl
  | succ rounds ih =>
    rw [intLoopFrom, if_neg (by omega)]
    split
    · rfl
    · rw [bind_eq_none_iff]
      intro s' _
      -- after the last `int` comes the first
      obtain hlt | heq := lt_or_eq_of_le (Int.add_one_le_of_lt hhi)
      · rw [int32_eq (by omega) hlt]
        exact ih (by omega) hlt s'
      · rw [heq]
        exact ih (by decide) (by decide) s'

/-- The loop does not end, if it is not. -/
theorem intLoop_none {n : ℕ} (hn : 2 ^ 31 ≤ n) (body : σ → ℕ → Option σ) (s : σ) :
    intLoop n body s = none :=
  intLoopFrom_none hn body (n + 1) (by decide) (by decide) s

/-! ### The helpers -/

section
variable {n dim : ℕ} (hk : 0 < k) (hle : k ≤ n) (hn : n < 2 ^ 31)
include hk hle hn

theorem int32_mod_mul : int32 ((n % k : ℕ) * ((n / k : ℕ) + 1)) = (n % k * (n / k + 1) : ℕ) := by
  have hmul := mod_mul_le hk (n := n)
  have hcast : ((n % k : ℕ) : ℤ) * ((n / k : ℕ) + 1) = (n % k * (n / k + 1) : ℕ) := by
    rw [Nat.cast_mul, Nat.cast_succ]
  rw [hcast, int32_of_lt (Int.natCast_nonneg _) (by omega)]

theorem getSliceIndex_eq :
    getSliceIndex dim (n / k : ℕ) (n % k : ℕ) = some (EvenSlices.index n k dim : ℤ) := by
  have hpos : 0 < n / k := Nat.div_pos hle hk
  rw [getSliceIndex, if_pos ⟨Int.natCast_pos.2 hpos, Int.natCast_nonneg dim⟩,
    int32_mod_mul hk hle hn, index]
  refine congrArg some ?_
  by_cases hr : n % k = 0
  · rw [hr, if_pos Nat.cast_zero, Nat.zero_mul, if_neg (Nat.not_lt_zero dim), Nat.zero_add,
      Nat.sub_zero]
    exact (Int.ofNat_tdiv dim (n / k)).symm
  · rw [if_neg (Int.natCast_ne_zero.2 hr)]
    by_cases hd : dim < n % k * (n / k + 1)
    · rw [if_pos (Int.ofNat_lt.2 hd), if_pos hd]
      exact (Int.ofNat_tdiv dim (n / k + 1)).symm
    · rw [if_neg (fun h ↦ hd (Int.ofNat_lt.1 h)), if_neg hd, Nat.cast_add,
        ← Nat.cast_sub (Nat.le_of_not_lt hd)]
      exact congrArg _ (Int.ofNat_tdiv _ (n / k)).symm

theorem getDimensionInSlice_eq :
    getDimensionInSlice dim (n / k : ℕ) (n % k : ℕ) = some (EvenSlices.offset n k dim : ℤ) := by
  have hpos : 0 < n / k := Nat.div_pos hle hk
  rw [getDimensionInSlice, if_pos ⟨Int.natCast_pos.2 hpos, Int.natCast_nonneg dim⟩,
    int32_mod_mul hk hle hn, offset]
  refine congrArg some ?_
  by_cases hr : n % k = 0
  · rw [hr, if_pos Nat.cast_zero, Nat.zero_mul, if_neg (Nat.not_lt_zero dim), Nat.sub_zero]
    exact (Int.ofNat_tmod dim (n / k)).symm
  · rw [if_neg (Int.natCast_ne_zero.2 hr)]
    by_cases hd : dim < n % k * (n / k + 1)
    · rw [if_pos (Int.ofNat_lt.2 hd), if_pos hd]
      exact (Int.ofNat_tmod dim (n / k + 1)).symm
    · rw [if_neg (fun h ↦ hd (Int.ofNat_lt.1 h)), if_neg hd, ← Nat.cast_sub (Nat.le_of_not_lt hd)]
      exact (Int.ofNat_tmod _ (n / k)).symm

omit hn in
theorem getSliceShape_eq (s : ℕ) :
    getSliceShape s (n / k : ℕ) (n % k : ℕ) = some (EvenSlices.size n k s : ℤ) := by
  have hpos : 0 < n / k := Nat.div_pos hle hk
  rw [getSliceShape, if_pos ⟨Int.natCast_pos.2 hpos, Int.natCast_nonneg s⟩, size]
  refine congrArg some ?_
  by_cases hr : n % k = 0
  · rw [hr, if_pos Nat.cast_zero, if_neg (Nat.not_lt_zero s)]
  · rw [if_neg (Int.natCast_ne_zero.2 hr)]
    by_cases hs : s < n % k
    · rw [if_pos (Int.ofNat_lt.2 hs), if_pos hs, Nat.cast_succ]
    · rw [if_neg (fun h ↦ hs (Int.ofNat_lt.1 h)), if_neg hs]

end

/-! ### Sorting the entries into slices -/

/-- The slice of an entry. -/
def sliceOf (t : SparseTensor α) (d k i : ℕ) : ℕ :=
  EvenSlices.index (t.dimSize d) k (t.ix i d).toNat

/-- The entries of a slice among the first `m`, in their order. -/
def partition (t : SparseTensor α) (d k m s : ℕ) : List ℕ :=
  (List.range m).filter fun i ↦ t.sliceOf d k i = s

theorem partition_succ (t : SparseTensor α) (d k m s : ℕ) :
    t.partition d k (m + 1) s = t.partition d k m s ++ if t.sliceOf d k m = s then [m] else [] := by
  rw [partition, range_succ, filter_append, filter_singleton]
  by_cases hs : t.sliceOf d k m = s
  · rw [if_pos hs, decide_eq_true hs]
    rfl
  · rw [if_neg hs, decide_eq_false hs]
    rfl

theorem length_partition_le (t : SparseTensor α) (d k s : ℕ) {m n : ℕ} (h : m ≤ n) :
    (t.partition d k m s).length ≤ (t.partition d k n s).length :=
  ((range_sublist.2 h).filter _).length_le

/-- What `Split` is given. -/
structure Splittable (t : SparseTensor α) (d k : ℕ) : Prop where
  dim_lt : d < t.dims
  pos : 0 < k
  le : k ≤ t.dimSize d
  size_lt : t.dimSize d < 2 ^ 31
  inShape : ∀ n < t.numEntries, t.InShape n

/-- The values of the local constants. -/
def splitParams (t : SparseTensor α) (d k : ℕ) : SplitParams where
  splitDim := d
  numSplit := k
  splitSize := (t.dimSize d / k : ℕ)
  residual := (t.dimSize d % k : ℕ)

section
variable (h : Splittable t d k) {i : ℕ} (hi : i < t.numEntries)
include h hi

/-- The coordinate of an entry along the dimension. -/
theorem Splittable.coordinate :
    ((t.ix i d).toNat : ℤ) = t.ix i d ∧ (t.ix i d).toNat < t.dimSize d := by
  obtain ⟨hlo, hhi⟩ := h.inShape i hi d h.dim_lt
  exact ⟨Int.toNat_of_nonneg hlo, by omega⟩

theorem Splittable.int32_eq : int32 (t.ix i d) = ((t.ix i d).toNat : ℤ) := by
  obtain ⟨hcast, hlt⟩ := h.coordinate hi
  have hsize := h.size_lt
  rw [hcast, int32_of_lt (by omega) (by omega)]

theorem Splittable.sliceOf_lt : t.sliceOf d k i < k :=
  index_lt h.pos h.le (h.coordinate hi).2

theorem Splittable.slice_eq : (splitParams t d k).slice t i = some (t.sliceOf d k i) := by
  have hlt := h.sliceOf_lt hi
  rw [SplitParams.slice, splitParams]
  rw [h.int32_eq hi, getSliceIndex_eq h.pos h.le h.size_lt]
  exact if_pos ⟨Int.natCast_nonneg _, Int.ofNat_lt.2 hlt⟩

end

/-- How many entries of each slice there are among the first `m`. -/
theorem Splittable.foldlM_countRound (h : Splittable t d k) {m : ℕ} (hm : m ≤ t.numEntries) :
    (List.range m).foldlM (countRound (splitParams t d k) t) (fun _ ↦ 0) =
      some fun s ↦ (t.partition d k m s).length := by
  induction m with
  | zero => rfl
  | succ m ih =>
    rw [range_succ, foldlM_append, ih (Nat.le_of_succ_le hm)]
    show (countRound (splitParams t d k) t _ m >>= pure) = _
    rw [countRound, h.slice_eq hm]
    refine congrArg some (funext fun s ↦ ?_)
    rw [partition_succ, length_append]
    dsimp only
    by_cases hs : t.sliceOf d k m = s
    · rw [hs, update_self, if_pos rfl, length_singleton]
    · rw [update_of_ne (Ne.symm hs), if_neg hs, length_nil, Nat.add_zero]

/-- The row of an entry in its slice. -/
def rowInSlice (t : SparseTensor α) (d k i : ℕ) : ℕ → ℤ :=
  Function.update (t.ix i) d (EvenSlices.offset (t.dimSize d) k (t.ix i d).toNat : ℤ)

theorem Splittable.splitRound_eq (h : Splittable t d k) {i : ℕ} (hi : i < t.numEntries)
    {numValues : ℕ → ℕ} {s : Slices α}
    (hroom : s.valuesInsertedInSlice (t.sliceOf d k i) < numValues (t.sliceOf d k i)) :
    splitRound (splitParams t d k) t numValues s i =
      some (s.insert (t.sliceOf d k i) (t.rowInSlice d k i) (t.vals i)) := by
  have hdim : getDimensionInSlice (int32 (t.ix i d)) (t.dimSize d / k : ℕ) (t.dimSize d % k : ℕ) =
      some (offset (t.dimSize d) k (t.ix i d).toNat : ℤ) := by
    rw [h.int32_eq hi]
    exact getDimensionInSlice_eq h.pos h.le h.size_lt
  rw [splitRound, h.slice_eq hi]
  show (getDimensionInSlice (int32 (t.ix i d)) (t.dimSize d / k : ℕ) (t.dimSize d % k : ℕ)).bind _ =
    _
  rw [hdim]
  exact if_pos hroom

/-- What the slices hold after `m` rounds. -/
structure Inserted (t : SparseTensor α) (d k m : ℕ) (s : Slices α) : Prop where
  count : ∀ j, s.valuesInsertedInSlice j = (t.partition d k m j).length
  rows : ∀ j r i, (t.partition d k m j)[r]? = some i →
    s.outputIndices j r = t.rowInSlice d k i ∧ s.outputValues j r = t.vals i

theorem inserted_zero (memory : ℕ → ℕ → ℕ → ℤ) (values : ℕ → ℕ → α) :
    Inserted t d k 0 ⟨fun _ ↦ 0, memory, values⟩ :=
  ⟨fun _ ↦ rfl, fun _ _ _ hi ↦ by cases hi⟩

/-- One entry goes behind those of its slice that come before it. -/
theorem Inserted.insert {m : ℕ} {s : Slices α} (hs : Inserted t d k m s) :
    Inserted t d k (m + 1) (s.insert (t.sliceOf d k m) (t.rowInSlice d k m) (t.vals m)) := by
  refine ⟨fun j ↦ ?_, fun j r i hi ↦ ?_⟩
  · rw [partition_succ, length_append, Slices.insert]
    dsimp only
    by_cases hj : t.sliceOf d k m = j
    · rw [hj, update_self, if_pos rfl, length_singleton, hs.count]
    · rw [update_of_ne (Ne.symm hj), if_neg hj, hs.count, length_nil, Nat.add_zero]
  · rw [Slices.insert]
    dsimp only
    rw [partition_succ] at hi
    by_cases hj : t.sliceOf d k m = j
    · rw [if_pos hj, getElem?_append] at hi
      rw [hj, update_self, update_self, hs.count]
      split at hi
      · next hlt =>
        rw [update_of_ne hlt.ne, update_of_ne hlt.ne]
        exact hs.rows j r i hi
      · next hge =>
        -- the row is the new one
        obtain ⟨hlt, rfl⟩ := List.getElem?_eq_some_iff.1 hi
        rw [length_singleton] at hlt
        obtain rfl : r = (t.partition d k m j).length := by omega
        rw [update_self, update_self, getElem_singleton]
        exact ⟨rfl, rfl⟩
    · rw [if_neg hj, append_nil] at hi
      rw [update_of_ne (Ne.symm hj), update_of_ne (Ne.symm hj)]
      exact hs.rows j r i hi

/-- By induction on the rounds. Each entry finds room in its slice. -/
theorem Splittable.foldlM_splitRound (h : Splittable t d k) {s : Slices α} (hs : Inserted t d k 0 s)
    {m : ℕ} (hm : m ≤ t.numEntries) :
    ∃ s', (List.range m).foldlM
        (splitRound (splitParams t d k) t fun j ↦ (t.partition d k t.numEntries j).length) s =
          some s' ∧
      Inserted t d k m s' := by
  induction m with
  | zero => exact ⟨s, rfl, hs⟩
  | succ m ih =>
    obtain ⟨s', hs', hinserted⟩ := ih (Nat.le_of_succ_le hm)
    have hroom : s'.valuesInsertedInSlice (t.sliceOf d k m) <
        (t.partition d k t.numEntries (t.sliceOf d k m)).length := by
      refine Nat.lt_of_lt_of_le ?_ (t.length_partition_le d k _ hm)
      rw [hinserted.count, partition_succ, if_pos rfl, length_append]
      exact Nat.lt_succ_self _
    refine ⟨_, ?_, hinserted.insert⟩
    rw [range_succ, foldlM_append, hs']
    show (splitRound _ t _ s' m >>= pure) = _
    rw [h.splitRound_eq hm hroom]
    rfl

/-! ### The slices -/

theorem exists_mapM {β γ : Type} {f : β → Option γ} {l : List β} (h : ∀ b ∈ l, ∃ c, f b = some c) :
    ∃ cs, l.mapM f = some cs ∧ cs.length = l.length ∧
      ∀ (i : ℕ) (b : β) (c : γ), l[i]? = some b → cs[i]? = some c → f b = some c := by
  induction l with
  | nil => exact ⟨[], rfl, rfl, nofun⟩
  | cons b l ih =>
    obtain ⟨⟨c, hc⟩, hl⟩ := forall_mem_cons.1 h
    obtain ⟨cs, hcs, hlength, hget⟩ := ih hl
    refine ⟨c :: cs, ?_, congrArg (· + 1) hlength, fun i b' c' hb' hc' ↦ ?_⟩
    · rw [mapM_cons, hc, hcs]
      rfl
    · cases i with
      | zero =>
        cases hb'
        cases hc'
        exact hc
      | succ i => exact hget i b' c' hb' hc'

theorem ofParts_eq_some {numEntries : ℕ} {ix : ℕ → ℕ → ℤ} {vals : ℕ → α} {shape : List ℕ}
    {order : List ℤ} (hsizes : ∀ size ∈ shape, size < 2 ^ 63) (hdims : shape.length ≤ 255)
    (hlength : order.length = shape.length) :
    ofParts numEntries ix vals shape order = some ⟨numEntries, ix, vals, shape, order, hsizes,
      hdims, hlength⟩ :=
  dif_pos ⟨hsizes, hdims, hlength⟩

/-- A tensor with the entries of a slice and its shape. -/
structure IsSlice (t : SparseTensor α) (d k s : ℕ) (slice : SparseTensor α) : Prop where
  numEntries_eq : slice.numEntries = (t.partition d k t.numEntries s).length
  rows : ∀ r i, (t.partition d k t.numEntries s)[r]? = some i →
    slice.ix r = t.rowInSlice d k i ∧ slice.vals r = t.vals i
  shape_eq : slice.shape = t.shape.set d (EvenSlices.size (t.dimSize d) k s)

section

variable (h : Splittable t d k)
include h

theorem Splittable.size_le {s : ℕ} (hs : s < k) :
    EvenSlices.start (t.dimSize d) k s + EvenSlices.size (t.dimSize d) k s ≤ t.dimSize d := by
  rw [← start_succ]
  exact (start_le hs).trans (start_self h.pos).le

/-- A slice has the entries that were inserted in it, and its shape. -/
theorem Splittable.sliceTensor {slices : Slices α} (hs : Inserted t d k t.numEntries slices) {s : ℕ}
    (hlt : s < k) :
    ∃ slice, SparseTensor.sliceTensor (splitParams t d k) t
    (fun j ↦ (t.partition d k t.numEntries j).length) slices s =
      some slice ∧ IsSlice t d k s slice := by
  have hsize := h.size_le hlt
  have hsizes : ∀ size ∈ t.shape.set d (EvenSlices.size (t.dimSize d) k s), size < 2 ^ 63 := by
    intro size hmem
    obtain hmem | rfl := mem_or_eq_of_mem_set hmem
    · exact t.shape_lt size hmem
    · have hlt := h.size_lt
      omega
  have hset : setDim t.shape d (EvenSlices.size (t.dimSize d) k s : ℤ) =
      some (t.shape.set d (EvenSlices.size (t.dimSize d) k s)) :=
    if_pos ⟨h.dim_lt, Int.natCast_nonneg _⟩
  rw [SparseTensor.sliceTensor]
  dsimp only [splitParams]
  rw [getSliceShape_eq h.pos h.le]
  dsimp only [bind_eq_bind, bind_some]
  rw [hset]
  dsimp only [bind_some]
  rw [ofParts_eq_some hsizes (by rw [length_set]; exact t.dims_le)
    (by rw [undefinedOrder, length_replicate])]
  exact ⟨_, rfl, rfl, hs.rows s, rfl⟩

theorem Splittable.split_eq [Inhabited α] :
    t.split d k = (intLoop t.numEntries (countRound (splitParams t d k) t) fun _ ↦ 0).bind
    fun numValues ↦
      (intLoop t.numEntries (splitRound (splitParams t d k) t numValues)
        ⟨fun _ ↦ 0, fun _ _ _ ↦ 0, fun _ _ ↦ default⟩).bind fun slices ↦
          (List.range k).mapM (SparseTensor.sliceTensor (splitParams t d k) t numValues
            slices) := by
  have hpos := h.pos
  have hle := h.le
  have hsize : int32 (t.dimSize d) = t.dimSize d :=
    int32_of_lt (by omega) (by have := h.size_lt; omega)
  have hdim := h.dim_lt
  rw [split, Int.toNat_natCast, hsize, if_pos ⟨by omega, by omega⟩, Int.toNat_natCast]
  rfl

/-- `Split` gives the slices, if the number of entries is an `int`. -/
theorem Splittable.exists_split [Inhabited α] (hN : t.numEntries < 2 ^ 31) :
    ∃ slices, t.split d k = some slices ∧ slices.length = k ∧
      ∀ s slice, slices[s]? = some slice → IsSlice t d k s slice := by
  obtain ⟨out, hout, hinserted⟩ := h.foldlM_splitRound
    (inserted_zero (fun _ _ _ ↦ 0) fun _ _ ↦ (default : α)) (Nat.le_refl t.numEntries)
  obtain ⟨slices, hslices, hlength, hget⟩ := exists_mapM (l := range k) fun s hs ↦
    (h.sliceTensor hinserted (mem_range.1 hs)).imp fun _ hslice ↦ hslice.1
  refine ⟨slices, ?_, hlength.trans length_range, fun s slice hs ↦ ?_⟩
  · rw [h.split_eq, intLoop_eq hN, h.foldlM_countRound (Nat.le_refl _), bind_some, intLoop_eq hN,
      hout]
    exact hslices
  · have hlt : s < k := by
      have := (List.getElem?_eq_some_iff.1 hs).1
      rwa [hlength, length_range] at this
    obtain ⟨slice', hslice', hisSlice⟩ := h.sliceTensor hinserted hlt
    have heq := hget s s slice (getElem?_range hlt) hs
    rw [hslice'] at heq
    cases heq
    exact hisSlice

/-- And it does not return, if that is not. -/
theorem Splittable.split_none [Inhabited α] (hN : 2 ^ 31 ≤ t.numEntries) : t.split d k = none := by
  rw [h.split_eq, intLoop_none hN]
  rfl

end

/-! ### What a slice is -/

theorem map_range_eq {β γ : Type} {l : List β} {f : ℕ → γ} {g : β → γ}
    (h : ∀ (r : ℕ) (b : β), l[r]? = some b → f r = g b) :
    (List.range l.length).map f = l.map g := by
  refine ext_getElem (by rw [length_map, length_map, length_range]) fun r hr hr' ↦ ?_
  rw [length_map] at hr'
  rw [getElem_map, getElem_map, getElem_range]
  exact h r _ (getElem?_eq_getElem hr')

section
variable (h : Splittable t d k)
include h

/-- An entry is in a slice if its coordinate is. -/
theorem Splittable.sliceOf_eq_iff {i s : ℕ} (hi : i < t.numEntries) :
    t.sliceOf d k i = s ↔ (EvenSlices.start (t.dimSize d) k s : ℤ) ≤ t.ix i d ∧
      t.ix i d < (EvenSlices.start (t.dimSize d) k (s + 1) : ℤ) := by
  obtain ⟨hcast, -⟩ := h.coordinate hi
  rw [← hcast, Int.ofNat_le, Int.ofNat_lt, start_succ]
  constructor
  · rintro rfl
    have hsum := start_index_add_offset (t.dimSize d) k (t.ix i d).toNat
    have hlt := offset_lt h.pos h.le (d := (t.ix i d).toNat)
    rw [sliceOf]
    omega
  · rintro ⟨hlo, hhi⟩
    exact (eq_index h.pos h.le hlo hhi).symm

/-- Where an entry is in its slice. -/
theorem Splittable.offset_eq {i : ℕ} (hi : i < t.numEntries) :
    (EvenSlices.offset (t.dimSize d) k (t.ix i d).toNat : ℤ) =
      t.ix i d - EvenSlices.start (t.dimSize d) k (t.sliceOf d k i) := by
  obtain ⟨hcast, -⟩ := h.coordinate hi
  have hsum := start_index_add_offset (t.dimSize d) k (t.ix i d).toNat
  rw [← sliceOf] at hsum
  omega

end

theorem mem_partition {m s i : ℕ} : i ∈ t.partition d k m s ↔ i < m ∧ t.sliceOf d k i = s := by
  rw [partition, mem_filter, mem_range, decide_eq_true_iff]

section
variable {s : ℕ} {slice : SparseTensor α} (hslice : IsSlice t d k s slice)
include hslice

theorem IsSlice.dims_eq : slice.dims = t.dims := by
  rw [dims, hslice.shape_eq, length_set]
  rfl

theorem IsSlice.dimSize_of_ne {j : ℕ} (hj : j ≠ d) : slice.dimSize j = t.dimSize j := by
  rw [dimSize, dimSize, hslice.shape_eq, getD_eq_getElem?_getD, getD_eq_getElem?_getD,
    getElem?_set_ne hj.symm]

theorem IsSlice.dimSize_eq (hd : d < t.dims) :
    slice.dimSize d = EvenSlices.size (t.dimSize d) k s := by
  rw [dimSize, hslice.shape_eq, getD_eq_getElem?_getD, getElem?_set_self hd]
  rfl

/-- The indices are inside the shape of the slice. -/
theorem IsSlice.inShape (h : Splittable t d k) {n : ℕ} (hn : n < slice.numEntries) :
    slice.InShape n := by
  rw [hslice.numEntries_eq] at hn
  obtain ⟨i, hi⟩ : ∃ i, (t.partition d k t.numEntries s)[n]? = some i := ⟨_, getElem?_eq_getElem hn⟩
  obtain ⟨hlt, hs⟩ := mem_partition.1 (mem_of_getElem? hi)
  intro j hj
  rw [hslice.dims_eq] at hj
  rw [(hslice.rows n i hi).1, rowInSlice]
  by_cases hjd : j = d
  · rw [hjd, update_self, hslice.dimSize_eq h.dim_lt, ← hs]
    exact ⟨Int.natCast_nonneg _, Int.ofNat_lt.2 (offset_lt h.pos h.le)⟩
  · rw [update_of_ne hjd, hslice.dimSize_of_ne hjd]
    exact h.inShape i hlt j hj

end

/-- Where a slice begins along the dimension. -/
def sliceStart (slices : List (SparseTensor α)) (d s : ℕ) : ℕ :=
  ((slices.map fun slice ↦ slice.dimSize d).take s).sum

/-- The coordinate of an entry is in the slice. -/
def inSlice (t : SparseTensor α) (slices : List (SparseTensor α)) (d n s : ℕ) : Bool :=
  sliceStart slices d s ≤ t.ix n d && t.ix n d < sliceStart slices d (s + 1)

/-- The slices cut the dimension evenly, each entry is in one of them, and each slice has its
entries in their order, with the coordinates counted from its start. -/
structure SplitsEvenly (t : SparseTensor α) (d k : ℕ) (slices : List (SparseTensor α)) : Prop where
  length_eq : slices.length = k
  existsUnique : ∀ n < t.numEntries, ∃! s, s < k ∧ t.inSlice slices d n s = true
  entries_eq : ∀ s slice, slices[s]? = some slice →
    slice.entries = ((List.range t.numEntries).filter fun n ↦ t.inSlice slices d n s).map fun n ↦
      ((List.range t.dims).map (Function.update (t.ix n) d (t.ix n d - sliceStart slices d s)),
        t.vals n)
  inShape : ∀ slice ∈ slices, ∀ n < slice.numEntries, slice.InShape n
  sum_eq : (slices.map fun slice ↦ slice.dimSize d).sum = t.dimSize d
  close : ∀ slice ∈ slices, ∀ slice' ∈ slices, slice.dimSize d ≤ slice'.dimSize d + 1

section
variable (h : Splittable t d k) {slices : List (SparseTensor α)} (hlength : slices.length = k)
  (hslices : ∀ s slice, slices[s]? = some slice → IsSlice t d k s slice)
include h hlength hslices

theorem map_dimSize_eq :
    (slices.map fun slice ↦ slice.dimSize d) =
      (List.range k).map (EvenSlices.size (t.dimSize d) k) := by
  have hmap := map_range_eq fun s slice hs ↦ ((hslices s slice hs).dimSize_eq h.dim_lt).symm
  rw [hlength] at hmap
  exact hmap.symm

theorem sliceStart_eq {s : ℕ} (hs : s ≤ k) :
    sliceStart slices d s = EvenSlices.start (t.dimSize d) k s := by
  rw [sliceStart, map_dimSize_eq h hlength hslices, ← map_take, take_range, Nat.min_eq_left hs,
    sum_size]

theorem inSlice_iff {n s : ℕ} (hn : n < t.numEntries) (hs : s < k) :
    t.inSlice slices d n s = true ↔ t.sliceOf d k n = s := by
  rw [inSlice, sliceStart_eq h hlength hslices hs.le, sliceStart_eq h hlength hslices hs,
    h.sliceOf_eq_iff hn, Bool.and_eq_true, decide_eq_true_iff, decide_eq_true_iff]

/-- The slices share the dimension out, their sizes one apart at most. -/
theorem splitsEvenly : SplitsEvenly t d k slices := by
  have hmem : ∀ slice ∈ slices, ∃ s < k, slices[s]? = some slice := by
    intro slice hslice
    obtain ⟨s, hs, rfl⟩ := mem_iff_getElem.1 hslice
    exact ⟨s, hlength ▸ hs, getElem?_eq_getElem hs⟩
  refine ⟨hlength, fun n hn ↦ ?_, fun s slice hs ↦ ?_, fun slice hslice n hn ↦ ?_, ?_,
    fun slice hslice slice' hslice' ↦ ?_⟩
  · have hlt := h.sliceOf_lt hn
    refine ⟨t.sliceOf d k n, ⟨hlt, (inSlice_iff h hlength hslices hn hlt).2 rfl⟩, ?_⟩
    rintro s ⟨hs, hin⟩
    exact ((inSlice_iff h hlength hslices hn hs).1 hin).symm
  · have hlt : s < k := hlength ▸ (List.getElem?_eq_some_iff.1 hs).1
    have hslice := hslices s slice hs
    have hfilter : ((range t.numEntries).filter fun n ↦ t.inSlice slices d n s) =
        t.partition d k t.numEntries s :=
      filter_congr fun n hn ↦ by
        rw [Bool.eq_iff_iff, inSlice_iff h hlength hslices (mem_range.1 hn) hlt, decide_eq_true_iff]
    rw [hfilter, SparseTensor.entries, hslice.numEntries_eq]
    refine map_range_eq fun r i hi ↦ ?_
    obtain ⟨hi', hs'⟩ := mem_partition.1 (mem_of_getElem? hi)
    obtain ⟨hrow, hval⟩ := hslice.rows r i hi
    rw [hslice.dims_eq, hrow, hval, rowInSlice, h.offset_eq hi', hs',
      sliceStart_eq h hlength hslices hlt.le]
  · obtain ⟨s, -, hs⟩ := hmem slice hslice
    exact (hslices s slice hs).inShape h hn
  · rw [map_dimSize_eq h hlength hslices, sum_size, start_self h.pos]
  · obtain ⟨s, -, hs⟩ := hmem slice hslice
    obtain ⟨s', -, hs'⟩ := hmem slice' hslice'
    rw [(hslices s slice hs).dimSize_eq h.dim_lt, (hslices s' slice' hs').dimSize_eq h.dim_lt]
    exact size_le_succ s s'

end

/-! ### Putting the slices together -/

/-- The entries of the first `s` slices. -/
def joined (t : SparseTensor α) (d k s : ℕ) : List ℕ :=
  (List.range s).flatMap (t.partition d k t.numEntries)

theorem joined_succ (t : SparseTensor α) (d k s : ℕ) :
    t.joined d k (s + 1) = t.joined d k s ++ t.partition d k t.numEntries s := by
  rw [joined, range_succ, flatMap_append, flatMap_singleton]
  rfl

theorem length_joined_le (t : SparseTensor α) (d k s : ℕ) :
    (t.joined d k s).length ≤ t.numEntries := by
  have hlength := (flatMap_filter_perm (f := t.sliceOf d k) (l := range t.numEntries) s).length_eq
  exact hlength.le.trans ((length_filter_le _ _).trans length_range.le)

/-- All entries are in one of the slices. -/
theorem Splittable.joined_perm (h : Splittable t d k) :
    (t.joined d k k).Perm (List.range t.numEntries) := by
  refine (flatMap_filter_perm k).trans (Perm.of_eq (filter_eq_self.2 fun i hi ↦ ?_))
  exact decide_eq_true (h.sliceOf_lt (mem_range.1 hi))

/-- A slice, re-created with an order that begins with the dimension. -/
structure OrderedSlice (t : SparseTensor α) (d k s : ℕ) (st : SparseTensor α) :
    Prop extends IsSlice t d k s st where
  order_eq : st.order.getD 0 0 = d

section
variable (h : Splittable t d k) {s : ℕ} {st : SparseTensor α}
include h

theorem Splittable.start_lt (hs : s ≤ k) : EvenSlices.start (t.dimSize d) k s < 2 ^ 31 :=
  Nat.lt_of_le_of_lt ((start_le hs).trans (start_self h.pos).le) h.size_lt

/-- One round of the loop that builds up the shape. -/
theorem OrderedSlice.concatShapeRound (hst : OrderedSlice t d k s st) (hs : s < k)
    (hN : t.numEntries < 2 ^ 31) (finalOrder : List ℤ) (fullyOrdered : Bool) :
    ∃ fullyOrdered', SparseTensor.concatShapeRound t.dims d finalOrder
      ⟨t.shape.set d (EvenSlices.start (t.dimSize d) k s), (t.joined d k s).length,
        fullyOrdered⟩ st =
        some ⟨t.shape.set d (EvenSlices.start (t.dimSize d) k (s + 1)),
          (t.joined d k (s + 1)).length, fullyOrdered'⟩ := by
  have hdim := h.dim_lt
  have hother : ∀ e < t.dims - 1, let cdim := if (e : ℤ) < d then e else e + 1
      (t.shape.set d (start (t.dimSize d) k s)).getD cdim 0 = st.dimSize cdim := by
    intro e _
    have hne : (if (e : ℤ) < d then e else e + 1) ≠ d := by
      split
      · omega
      · omega
    dsimp only
    rw [hst.dimSize_of_ne hne, dimSize, getD_eq_getElem?_getD, getElem?_set_ne hne.symm,
      ← getD_eq_getElem?_getD]
    rfl
  have hsum : int64 ((t.shape.set d (start (t.dimSize d) k s)).getD d 0 + st.dimSize d) =
      start (t.dimSize d) k (s + 1) := by
    have hlt : start (t.dimSize d) k (s + 1) < 2 ^ 31 := h.start_lt hs
    rw [getD_eq_getElem?_getD, getElem?_set_self h.dim_lt, getD_some, hst.dimSize_eq h.dim_lt,
      ← Nat.cast_add, ← start_succ]
    exact int64_of_lt (Int.natCast_nonneg _) (by omega)
  have hcount : int32 ((t.joined d k s).length + st.numEntries) =
      (t.joined d k (s + 1)).length := by
    have hle := t.length_joined_le d k (s + 1)
    rw [joined_succ, length_append, ← hst.numEntries_eq] at hle ⊢
    rw [← Nat.cast_add]
    exact int32_of_lt (Int.natCast_nonneg _) (by omega)
  have hset : ∀ n : ℕ, setDim (t.shape.set d (start (t.dimSize d) k s)) d n =
      some (t.shape.set d n) := fun n ↦ by
    rw [setDim, length_set, if_pos ⟨hdim, Int.natCast_nonneg n⟩, set_set, Int.toNat_natCast]
  rw [SparseTensor.concatShapeRound,
    if_pos ⟨hst.dims_eq, by rw [hst.order_eq]; omega, hst.order_eq, hother⟩]
  rw [Int.toNat_natCast, hsum, hset, hcount]
  exact ⟨_, rfl⟩

/-- What has been joined after `s` rounds. -/
structure Joins (t : SparseTensor α) (d k s : ℕ) (out : Joined α) : Prop where
  offset_eq : out.offset = (t.joined d k s).length
  shapeOffset_eq : out.shapeOffset = EvenSlices.start (t.dimSize d) k s
  rows : ∀ n i, (t.joined d k s)[n]? = some i → out.outputIx n = t.ix i ∧
    out.outputVals n = t.vals i

/-- One round of the loop that joins the entries: they get back their coordinates. -/
theorem OrderedSlice.joinRound (hst : OrderedSlice t d k s st) (hs : s < k)
    (hN : t.numEntries < 2 ^ 31) {out : Joined α} (hout : Joins t d k s out) :
    ∃ out', SparseTensor.joinRound d out st = some out' ∧ Joins t d k (s + 1) out' := by
  have hle := t.length_joined_le d k (s + 1)
  rw [joined_succ, List.length_append, ← hst.numEntries_eq] at hle
  have hlt : start (t.dimSize d) k (s + 1) < 2 ^ 31 := h.start_lt hs
  rw [SparseTensor.joinRound, if_pos (int32_of_lt (Int.natCast_nonneg _) (by omega))]
  refine ⟨_, rfl, ?_, ?_, fun n i hi ↦ ?_⟩
  · rw [joined_succ, List.length_append, ← hst.numEntries_eq, ← hout.offset_eq]
  · dsimp only
    rw [hout.shapeOffset_eq, hst.dimSize_eq h.dim_lt, ← Nat.cast_add, ← start_succ]
    exact int64_of_lt (Int.natCast_nonneg _) (by omega)
  · dsimp only
    rw [joined_succ, List.getElem?_append] at hi
    split at hi
    · next hbefore =>
      have hnot : (decide (out.offset ≤ n) && decide (n < out.offset + st.numEntries)) = false := by
        rw [Bool.and_eq_false_iff, decide_eq_false_iff_not, hout.offset_eq]
        exact .inl (Nat.not_le.2 hbefore)
      simp only [hnot]
      exact hout.rows n i hi
    · next hafter =>
      rw [← hout.offset_eq] at hi hafter
      have hroom := (List.getElem?_eq_some_iff.1 hi).1
      rw [← hst.numEntries_eq] at hroom
      have hin : (decide (out.offset ≤ n) && decide (n < out.offset + st.numEntries)) = true := by
        rw [Bool.and_eq_true, decide_eq_true_iff, decide_eq_true_iff]
        omega
      obtain ⟨hi', hsi⟩ := mem_partition.1 (List.mem_of_getElem? hi)
      obtain ⟨hrow, hval⟩ := hst.rows _ i hi
      obtain ⟨hcast, hcoord⟩ := h.coordinate hi'
      have hsize := h.size_lt
      simp only [hin, if_true, hrow, hval, rowInSlice, hout.shapeOffset_eq, and_true]
      funext j
      split
      · next hj =>
        rw [hj, update_self, h.offset_eq hi', hsi, sub_add_cancel]
        exact int64_of_lt (by omega) (by omega)
      · next hj => rw [update_of_ne hj]

end

/-- The rounds of a loop over the slices, by induction on those that there have been. -/
theorem foldlM_slices {tensors : List (SparseTensor α)} (hlength : tensors.length = k)
    (htensors : ∀ s st, tensors[s]? = some st → OrderedSlice t d k s st) {τ : Type}
    (round : τ → SparseTensor α → Option τ) {I : ℕ → τ → Prop}
    (hround : ∀ s st, s < k → OrderedSlice t d k s st → ∀ x, I s x → ∃ x', round x st = some x' ∧
      I (s + 1) x') {x : τ} (hx : I 0 x) : ∃ x', tensors.foldlM round x = some x' ∧ I k x' := by
  suffices htake : ∀ s ≤ k, ∃ x', (tensors.take s).foldlM round x = some x' ∧ I s x' by
    have hall := htake k le_rfl
    rwa [take_of_length_le hlength.le] at hall
  intro s hs
  induction s with
  | zero => exact ⟨x, rfl, hx⟩
  | succ s ih =>
    obtain ⟨x', hx', hI⟩ := ih (Nat.le_of_succ_le hs)
    have hget : tensors[s]? = some tensors[s] := getElem?_eq_getElem (hlength ▸ hs)
    obtain ⟨x'', hx'', hI'⟩ := hround s _ hs (htensors s _ hget) x' hI
    refine ⟨x'', ?_, hI'⟩
    rw [take_add_one, hget, foldlM_append, hx']
    show (round x' tensors[s] >>= pure) = some x''
    rw [hx'']
    rfl

theorem concatAlong_eq [Inhabited α] {t₀ : SparseTensor α} {tensors : List (SparseTensor α)}
    {finalShape : List ℕ} {s : ConcatShape} {out : Joined α}
    (hshape : setDim t₀.shape d 0 = some finalShape)
    (hs : tensors.foldlM (SparseTensor.concatShapeRound t₀.dims d t₀.order)
      ⟨finalShape, 0, true⟩ = some s)
    (hout : tensors.foldlM (SparseTensor.joinRound d) ⟨0, 0, fun _ _ ↦ 0, fun _ ↦ default⟩ =
      some out) (hentries : s.numEntries = out.offset) :
    concatAlong d t₀ tensors = ofParts out.offset out.outputIx out.outputVals s.finalShape
      (if s.fullyOrdered then t₀.order else undefinedOrder s.finalShape) := by
  rw [concatAlong, if_neg (by omega), Int.toNat_natCast, hshape, bind_eq_bind, bind_some, hs,
    bind_eq_bind, bind_some, hout, bind_eq_bind, bind_some]
  exact if_pos hentries

/-- `Concat` of the slices has the original shape and the original entries. -/
theorem Splittable.exists_concat [Inhabited α] (h : Splittable t d k)
    {tensors : List (SparseTensor α)} (hlength : tensors.length = k)
    (htensors : ∀ s st, tensors[s]? = some st → OrderedSlice t d k s st)
    (hN : t.numEntries < 2 ^ 31) :
    ∃ u, concat tensors = some u ∧ u.shape = t.shape ∧ u.entries.Perm t.entries := by
  have hdim := h.dim_lt
  have hdims := t.dims_le
  obtain ⟨t₀, rest, rfl⟩ := exists_cons_of_length_pos (hlength ▸ h.pos)
  have ht₀ := htensors 0 t₀ rfl
  have hshape₀ : setDim t₀.shape d 0 = some (t.shape.set d (start (t.dimSize d) k 0)) := by
    rw [setDim, if_pos ⟨by rw [← dims, ht₀.dims_eq]; exact hdim, le_rfl⟩, ht₀.shape_eq, set_set,
      start_zero]
    rfl
  have hall : t.shape.set d (start (t.dimSize d) k k) = t.shape := by
    rw [start_self h.pos, dimSize, getD_eq_getElem _ _ hdim]
    exact set_getElem_self hdim
  obtain ⟨s, hs, fullyOrdered, hshape⟩ := foldlM_slices hlength htensors
    (SparseTensor.concatShapeRound t.dims d t₀.order)
    (I := fun s c ↦ ∃ fullyOrdered,
      c = ⟨t.shape.set d (start (t.dimSize d) k s), (t.joined d k s).length, fullyOrdered⟩)
    (by
      rintro s st hs hst _ ⟨fullyOrdered, rfl⟩
      obtain ⟨fullyOrdered', hround⟩ := hst.concatShapeRound h hs hN t₀.order fullyOrdered
      exact ⟨_, hround, fullyOrdered', rfl⟩)
    ⟨true, rfl⟩
  obtain ⟨out, hout, hjoins⟩ :=
    foldlM_slices hlength htensors (SparseTensor.joinRound d) (I := Joins t d k)
    (fun s st hs hst out hout ↦ hst.joinRound h hs hN hout)
    (x := ⟨0, 0, fun _ _ ↦ 0, fun _ ↦ default⟩)
    ⟨rfl, by rw [start_zero]; rfl, fun n i hi ↦ by cases hi⟩
  rw [hall] at hshape
  have hprimary : int32 (t₀.order.getD 0 0) = d := by
    rw [ht₀.order_eq]
    refine int32_of_lt (Int.natCast_nonneg d) ?_
    rw [dims] at hdim
    omega
  have horder : (if fullyOrdered then t₀.order else undefinedOrder t.shape).length =
      t.shape.length := by
    split
    · rw [t₀.order_length, ← dims, ht₀.dims_eq, dims]
    · rw [undefinedOrder, length_replicate]
  have hfold : (t₀ :: rest).foldlM (SparseTensor.concatShapeRound t₀.dims d t₀.order)
      ⟨t.shape.set d (start (t.dimSize d) k 0), 0, true⟩ = some s := ht₀.dims_eq ▸ hs
  have hconcat : concat (t₀ :: rest) = ofParts out.offset out.outputIx out.outputVals t.shape
      (if fullyOrdered then t₀.order else undefinedOrder t.shape) := by
    rw [concat, if_pos (by rw [ht₀.dims_eq]; omega), hprimary,
      concatAlong_eq hshape₀ hfold hout
      (by rw [hshape]; exact congrArg Nat.cast hjoins.offset_eq.symm), hshape]
  rw [ofParts_eq_some t.shape_lt t.dims_le horder] at hconcat
  refine ⟨_, hconcat, rfl, ?_⟩
  have hentries : entries ⟨out.offset, out.outputIx, out.outputVals, t.shape, _, t.shape_lt,
    t.dims_le, horder⟩ =
      (t.joined d k k).map fun n ↦ ((range t.dims).map (t.ix n), t.vals n) := by
    rw [entries]
    dsimp only
    rw [hjoins.offset_eq]
    refine map_range_eq fun r i hi ↦ ?_
    obtain ⟨hrow, hval⟩ := hjoins.rows r i hi
    rw [hrow, hval]
    rfl
  rw [hentries]
  exact h.joined_perm.map _

/-! ### Both -/

/-- The slices, each re-created with its order. -/
def withOrders (slices : List (SparseTensor α)) (orders : List (List ℤ)) :
    Option (List (SparseTensor α)) :=
  (slices.zip orders).mapM fun p ↦ p.1.withOrder p.2

/-- `Split` cuts the tensor evenly along the dimension, and `Concat` of the slices, each re-created
with an order that begins with the dimension, has the original shape and the original entries. -/
def SplitsAndConcats [Inhabited α] (t : SparseTensor α) (d k : ℕ) : Prop :=
  ∃ slices, t.split d k = some slices ∧ SplitsEvenly t d k slices ∧
    ∀ orders : List (List ℤ), orders.length = k →
      (∀ order ∈ orders, order.length = t.dims ∧ order.head? = some (d : ℤ)) →
        ∃ tensors u, withOrders slices orders = some tensors ∧ concat tensors = some u ∧
        u.shape = t.shape ∧
          u.entries.Perm t.entries

/-- Every slice can be given an order of its own that begins with the dimension of the split. -/
theorem exists_withOrders {slices : List (SparseTensor α)} (hlength : slices.length = k)
    (hslices : ∀ s slice, slices[s]? = some slice → IsSlice t d k s slice) {orders : List (List ℤ)}
    (horders : orders.length = k)
    (hhead : ∀ order ∈ orders, order.length = t.dims ∧ order.head? = some (d : ℤ)) :
    ∃ tensors, withOrders slices orders = some tensors ∧ tensors.length = k ∧
      ∀ s st, tensors[s]? = some st → OrderedSlice t d k s st := by
  have hmake : ∀ s slice order, IsSlice t d k s slice → order ∈ orders →
      ∃ st, slice.withOrder order = some st ∧ OrderedSlice t d k s st := by
    intro s slice order hslice horder
    obtain ⟨hlen, hfirst⟩ := hhead order horder
    have hlen' : order.length = slice.shape.length := by rw [hlen, ← hslice.dims_eq, dims]
    refine ⟨_, ofParts_eq_some slice.shape_lt slice.dims_le hlen',
      ⟨hslice.numEntries_eq, hslice.rows, hslice.shape_eq⟩, ?_⟩
    rw [getD_eq_getElem?_getD, ← head?_eq_getElem?, hfirst]
    rfl
  obtain ⟨tensors, htensors, hlen, hget⟩ :=
    exists_mapM (l := slices.zip orders) (f := fun p ↦ p.1.withOrder p.2) (by
    rintro ⟨slice, order⟩ hmem
    obtain ⟨hs, ho⟩ := of_mem_zip hmem
    obtain ⟨s, hs', rfl⟩ := mem_iff_getElem.1 hs
    exact (hmake s _ order (hslices s _ (getElem?_eq_getElem hs')) ho).imp fun _ hst ↦ hst.1)
  have hlen' : tensors.length = k := by rw [hlen, length_zip, hlength, horders, Nat.min_self]
  refine ⟨tensors, htensors, hlen', fun s st hs ↦ ?_⟩
  have hlt : s < k := hlen' ▸ (List.getElem?_eq_some_iff.1 hs).1
  have hslice : slices[s]? = some slices[s] := getElem?_eq_getElem (hlength ▸ hlt)
  have horder : orders[s]? = some orders[s] := getElem?_eq_getElem (horders ▸ hlt)
  obtain ⟨st', hst', hordered⟩ := hmake s _ orders[s] (hslices s _ hslice) (getElem_mem _)
  have heq := hget s (slices[s], orders[s]) st
    (by rw [getElem?_zip_eq_some]; exact ⟨hslice, horder⟩) hs
  rw [hst'] at heq
  cases heq
  exact hordered

theorem Splittable.splitsAndConcats [Inhabited α] (h : Splittable t d k)
    (hN : t.numEntries < 2 ^ 31) : t.SplitsAndConcats d k := by
  obtain ⟨slices, hsplit, hlength, hslices⟩ := h.exists_split hN
  refine ⟨slices, hsplit, splitsEvenly h hlength hslices, fun orders horders hhead ↦ ?_⟩
  obtain ⟨tensors, htensors, hlen, hordered⟩ := exists_withOrders hlength hslices horders hhead
  obtain ⟨u, hu, hshape, hentries⟩ := h.exists_concat hlen hordered hN
  exact ⟨tensors, u, htensors, hu, hshape, hentries⟩

/-- **`Concat` undoes `Split`** if the number of entries is an `int`. If it is not, `Split` does not
return. -/
theorem splitsAndConcats_iff [Inhabited α] (t : SparseTensor α) (d k : ℕ) (hdim : d < t.dims)
    (hpos : 1 ≤ k) (hle : k ≤ t.dimSize d) (hsize : t.dimSize d < 2 ^ 31)
    (hshape : ∀ n < t.numEntries, t.InShape n) :
    t.SplitsAndConcats d k ↔ t.numEntries < 2 ^ 31 := by
  have h : Splittable t d k := ⟨hdim, hpos, hle, hsize, hshape⟩
  refine ⟨fun ⟨slices, hsplit, _⟩ ↦ ?_, h.splitsAndConcats⟩
  by_contra hN
  rw [h.split_none (Nat.le_of_not_lt hN)] at hsplit
  cases hsplit

/-- Of its three slices the first is two columns wide. -/
def fourColumns : SparseTensor ℕ where
  numEntries := 3
  ix n di := ([[1, 0], [0, 2], [0, 3]].getD n []).getD di 0
  vals n := n
  shape := [2, 4]
  order := [0, 1]
  shape_lt := by decide
  dims_le := by decide
  order_length := rfl

theorem splitsAndConcats_fourColumns :
    (∀ n < 3, fourColumns.InShape n) ∧ fourColumns.SplitsAndConcats 1 3 := by
  have hshape : ∀ n < 3, fourColumns.InShape n := by
    show ∀ n < 3, ∀ di < 2, 0 ≤ fourColumns.ix n di ∧ fourColumns.ix n di < fourColumns.dimSize di
    decide
  exact ⟨hshape,
    (splitsAndConcats_iff fourColumns 1 3 (by decide) (by decide) (by decide) (by decide) hshape).2
    (by decide)⟩

/-- A matrix with as many entries as it has elements, one more than an `int` can count. -/
def fullMatrix : SparseTensor Unit where
  numEntries := 2 ^ 31
  ix n di := if di = 0 then n / 2 ^ 16 else n % 2 ^ 16
  vals _ := ()
  shape := [2 ^ 15, 2 ^ 16]
  order := [0, 1]
  shape_lt := by decide
  dims_le := by decide
  order_length := rfl

theorem not_splitsAndConcats : ¬fullMatrix.SplitsAndConcats 0 1 := by
  have hshape : ∀ n < fullMatrix.numEntries, fullMatrix.InShape n := by
    intro n hn di hdi
    have hn' : n < 2 ^ 31 := hn
    match di, hdi with
    | 0, _ =>
      show 0 ≤ (n : ℤ) / 2 ^ 16 ∧ (n : ℤ) / 2 ^ 16 < ((2 ^ 15 : ℕ) : ℤ)
      omega
    | 1, _ =>
      show 0 ≤ (n : ℤ) % 2 ^ 16 ∧ (n : ℤ) % 2 ^ 16 < ((2 ^ 16 : ℕ) : ℤ)
      omega
  rintro ⟨slices, hsplit, -⟩
  have h : Splittable fullMatrix 0 1 := ⟨by decide, Nat.one_pos, by decide, by decide, hshape⟩
  rw [h.split_none le_rfl] at hsplit
  cases hsplit

end SparseTensor

end TensorFlowCore
