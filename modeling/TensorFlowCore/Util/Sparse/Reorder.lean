import TensorFlowCore.Util.Sparse.SparseTensor
import Mathlib.Data.List.GetD

/-!
# `Reorder` sorts in place

The permutation that `Reorder` applies is the inverse of the one that sorts the numbers of the rows.
What is swapped in it is swapped in the rows and in the values, so in the end they stand as they
have been sorted (`reorder_eq`).
-/

namespace TensorFlowCore

open List

namespace SparseTensor

variable {α : Type} {t : SparseTensor α} {order : List ℤ} {reorder : List ℕ}

/-! ### Sorting the numbers of the rows -/

/-- What a row is compared by. -/
def key (t : SparseTensor α) (order : List ℤ) (n : ℕ) : List ℤ := order.map fun d ↦ t.ix n d.toNat

/-- The comparator is that of the lexicographic order. -/
theorem precedes_iff (i j : ℕ) : t.precedes order i j = true ↔ t.key order i < t.key order j := by
  induction order with
  | nil => exact iff_of_false nofun (lt_irrefl _)
  | cons d order ih =>
    show _ ↔ t.ix i d.toNat :: t.key order i < t.ix j d.toNat :: t.key order j
    rw [precedes, cons_lt_cons_iff]
    split
    · next hlt => exact iff_of_true rfl (.inl hlt)
    · next hnot =>
      split
      · next hlt => exact iff_of_false nofun (by rintro (h | ⟨h, -⟩) <;> omega)
      · next hnot' =>
        rw [ih]
        exact ⟨fun h ↦ .inr ⟨by omega, h⟩, fun h ↦ (h.resolve_left hnot).2⟩

theorem sortedRows_perm (t : SparseTensor α) (order : List ℤ) :
    (t.sortedRows order).Perm (List.range t.numEntries) :=
  mergeSort_perm _ _

theorem pairwise_sortedRows (t : SparseTensor α) (order : List ℤ) :
    (t.sortedRows order).Pairwise fun i j ↦ t.key order i ≤ t.key order j := by
  have hle : ∀ i j, (!t.precedes order j i) = true ↔ t.key order i ≤ t.key order j := fun i j ↦ by
    rw [Bool.not_eq_true', ← Bool.not_eq_true, precedes_iff, not_lt]
  refine (pairwise_mergeSort (fun i j k ↦ ?_) (fun i j ↦ ?_) _).imp (hle _ _).1
  · rw [hle, hle, hle]
    exact le_trans
  · rw [Bool.or_eq_true, hle, hle]
    exact le_total _ _

theorem mem_sortedRows {r : ℕ} : r ∈ t.sortedRows order ↔ r < t.numEntries := by
  rw [(t.sortedRows_perm order).mem_iff, mem_range]

theorem length_sortedRows (t : SparseTensor α) (order : List ℤ) :
    (t.sortedRows order).length = t.numEntries := by
  rw [(t.sortedRows_perm order).length_eq, length_range]

theorem nodup_sortedRows (t : SparseTensor α) (order : List ℤ) : (t.sortedRows order).Nodup :=
  (t.sortedRows_perm order).nodup_iff.2 nodup_range

/-! ### The inverse permutation -/

theorem foldl_update_of_notMem {r : ℕ} (hr : r ∉ reorder) (k : ℕ) (p : ℕ → ℕ) :
    (reorder.zipIdx k).foldl (fun p r ↦ Function.update p r.1 r.2) p r = p r := by
  induction reorder generalizing k p with
  | nil => rfl
  | cons r' reorder ih =>
    rw [zipIdx_cons, foldl_cons, ih (fun h ↦ hr (mem_cons_of_mem _ h))]
    exact Function.update_of_ne (fun heq : r = r' ↦ hr (heq ▸ mem_cons_self)) _ _

theorem foldl_update_getElem (h : reorder.Nodup) (k : ℕ) (p : ℕ → ℕ) {i : ℕ}
    (hi : i < reorder.length) :
    (reorder.zipIdx k).foldl (fun p r ↦ Function.update p r.1 r.2) p reorder[i] = k + i := by
  induction reorder generalizing k p i with
  | nil => exact absurd hi (Nat.not_lt_zero i)
  | cons r reorder ih =>
    obtain ⟨hr, hreorder⟩ := nodup_cons.1 h
    rw [zipIdx_cons, foldl_cons]
    cases i with
    | zero =>
      rw [getElem_cons_zero, foldl_update_of_notMem hr]
      exact Function.update_self _ _ _
    | succ i =>
      rw [getElem_cons_succ, ih hreorder]
      omega

theorem invert_getElem (h : reorder.Nodup) {i : ℕ} (hi : i < reorder.length) :
    invert reorder reorder[i] = i :=
  (foldl_update_getElem h 0 _ hi).trans (Nat.zero_add i)

theorem exists_getElem_sortedRows (order : List ℤ) {r : ℕ} (hr : r < t.numEntries) :
    ∃ i, ∃ hi : i < (t.sortedRows order).length, (t.sortedRows order)[i] = r :=
  mem_iff_getElem.1 (mem_sortedRows.2 hr)

theorem permutes_invert (t : SparseTensor α) (order : List ℤ) :
    CycleSwaps.Permutes t.numEntries (invert (t.sortedRows order)) where
  lt r hr := by
    obtain ⟨i, hi, rfl⟩ := exists_getElem_sortedRows order hr
    rw [invert_getElem (t.nodup_sortedRows order)]
    rwa [length_sortedRows] at hi
  injOn r hr r' hr' heq := by
    obtain ⟨i, hi, rfl⟩ := exists_getElem_sortedRows order hr
    obtain ⟨i', hi', rfl⟩ := exists_getElem_sortedRows order hr'
    rw [invert_getElem (t.nodup_sortedRows order), invert_getElem (t.nodup_sortedRows order)] at heq
    congr

/-! ### The permuted rows -/

/-- The entries of a tensor, as `Reorder` leaves them. -/
structure Sorted (t : SparseTensor α) (order : List ℤ) (t' : SparseTensor α) : Prop where
  numEntries_eq : t'.numEntries = t.numEntries
  shape_eq : t'.shape = t.shape
  order_eq : t'.order = order
  entries : ∀ i (hi : i < (t.sortedRows order).length),
    t'.ix i = t.ix (t.sortedRows order)[i] ∧ t'.vals i = t.vals (t.sortedRows order)[i]

/-- **The loops of `Reorder` end**, and rows and values stand as the numbers of the rows have been
sorted. -/
theorem exists_reorder (hlength : order.length = t.shape.length) (hpos : 0 < t.shape.length)
    (hrange : ∀ d ∈ order, 0 ≤ d ∧ d < t.dims) :
    ∃ t', t.reorder order = some t' ∧ Sorted t order t' := by
  -- the same permutation stands between all arrays and what they were
  obtain ⟨s, hs, ⟨τ, hix, hvals, hperm, hτ⟩, hfixed⟩ :=
    CycleSwaps.applyCycles_ends Reordering.permutation Reordering.swap
    (n := t.numEntries) (s := ⟨t.ix, t.vals, invert (t.sortedRows order)⟩)
    (I := fun s ↦ ∃ τ : Equiv.Perm ℕ, s.ix = t.ix ∘ τ ∧ s.vals = t.vals ∘ τ ∧
      s.permutation = invert (t.sortedRows order) ∘ τ ∧ ∀ i < t.numEntries, τ i < t.numEntries)
    (fun _ _ _ ↦ rfl)
    (by
      rintro s i hi r hr ⟨τ, hix, hvals, hperm, hτ⟩
      refine ⟨(Equiv.swap i r).trans τ, ?_, ?_, ?_, fun j hj ↦ hτ _ (CycleSwaps.swap_lt hi hr hj)⟩
      · rw [Reordering.swap, hix]
        rfl
      · rw [Reordering.swap, hvals]
        rfl
      · rw [Reordering.swap, hperm]
        rfl)
    ⟨Equiv.refl ℕ, rfl, rfl, rfl, fun _ hi ↦ hi⟩ (t.permutes_invert order)
  refine ⟨{ t with ix := s.ix, vals := s.vals, order := order, order_length := hlength }, ?_, rfl,
    rfl, rfl, fun i hi ↦ ?_⟩
  · rw [reorder, dif_pos hlength, if_pos ⟨hlength ▸ hpos, hrange⟩, hs]
    rfl
  · have hN : i < t.numEntries := by rwa [length_sortedRows] at hi
    have hplace : τ i = (t.sortedRows order)[i] := by
      refine (t.permutes_invert order).injOn _ (hτ i hN) _ (mem_sortedRows.1 (getElem_mem hi)) ?_
      have hi' := hfixed i hN
      rw [hperm] at hi'
      rw [invert_getElem (t.nodup_sortedRows order)]
      exact hi'
    constructor
    · show s.ix i = _
      rw [hix, Function.comp_apply, hplace]
    · show s.vals i = _
      rw [hvals, Function.comp_apply, hplace]

/-! ### `IndexValid` -/

/-- The index of the entry is inside the shape. -/
def InShape (t : SparseTensor α) (n : ℕ) : Prop := ∀ di < t.dims, 0 ≤ t.ix n di ∧
    t.ix n di < t.dimSize di

theorem inBounds_iff {n di : ℕ} :
    t.inBounds n di = true ↔ 0 ≤ t.ix n di ∧ t.ix n di < t.dimSize di := by
  rw [inBounds, Bool.and_eq_true, decide_eq_true_iff, decide_eq_true_iff]

/-- What the loop of `IndexValid` has found after `k` rounds. -/
theorem foldl_flagsRound (t : SparseTensor α) (n k : ℕ) :
    let f := (range k).foldl (t.flagsRound n) ⟨true, false, true⟩
    (f.valid = true ↔ ∀ di < k, t.inBounds (n + 1) di = true) ∧
      (f.different = true ↔ ∃ di < k, 0 < t.diff n di) ∧
      (f.increasing = true ↔ ∀ di < k, t.diff n di < 0 → ∃ dj < di, 0 < t.diff n dj) := by
  induction k with
  | zero => exact ⟨iff_of_true rfl nofun,
      iff_of_false nofun (by rintro ⟨di, hdi, -⟩; exact Nat.not_lt_zero di hdi),
      iff_of_true rfl nofun⟩
  | succ k ih =>
    obtain ⟨hvalid, hdifferent, hincreasing⟩ := ih
    rw [range_succ, foldl_append, foldl_cons, foldl_nil]
    generalize (range k).foldl (t.flagsRound n) ⟨true, false, true⟩ = f at *
    refine ⟨?_, ?_, ?_⟩
    · rw [flagsRound, Bool.and_eq_true, hvalid, Nat.forall_lt_succ_right]
    · rw [flagsRound, Bool.or_eq_true, hdifferent, decide_eq_true_iff, Nat.exists_lt_succ_right]
    · rw [flagsRound, Bool.and_eq_true, hincreasing, Nat.forall_lt_succ_right]
      refine and_congr_right fun _ ↦ ?_
      rw [Bool.not_eq_true', Bool.and_eq_false_iff, Bool.not_eq_false', Bool.or_eq_true, hdifferent,
        decide_eq_true_iff, decide_eq_false_iff_not]
      constructor
      · rintro ((hearlier | hpos) | hneg) hlt
        · exact hearlier
        · omega
        · exact absurd hlt hneg
      · intro h
        by_cases hlt : t.diff n k < 0
        · exact .inl (.inl (h hlt))
        · exact .inr hlt

/-- The rows come in the order of the tensor. -/
def Ordered (t : SparseTensor α) (n : ℕ) : Prop := t.key t.order n < t.key t.order (n + 1)

theorem exists_of_key_lt {i j : ℕ} (h : t.key order i < t.key order j) :
    ∃ di < order.length, (∀ dj < di, t.ix i (order.getD dj 0).toNat =
      t.ix j (order.getD dj 0).toNat) ∧
      t.ix i (order.getD di 0).toNat < t.ix j (order.getD di 0).toNat := by
  obtain ⟨-, hlength⟩ | ⟨di, hi, _, heq, hlt⟩ := List.lt_iff_exists.1 h
  · simp [key] at hlength
  · have hlength : di < order.length := by simpa [key] using hi
    refine ⟨di, hlength, fun dj hdj ↦ ?_, ?_⟩
    · have hsame := heq dj hdj
      rw [getD_eq_getElem _ _ (hdj.trans hlength)]
      simpa [key] using hsame
    · rw [getD_eq_getElem _ _ hlength]
      simpa [key] using hlt

section
variable (hrange : ∀ d ∈ t.order, 0 ≤ d ∧ d < t.dims)
include hrange

theorem orderDim_lt {di : ℕ} (hdi : di < t.dims) : t.orderDim di < t.dims := by
  have hlt : di < t.order.length := by rwa [t.order_length]
  rw [orderDim, getD_eq_getElem _ _ hlt]
  have := hrange _ (getElem_mem hlt)
  omega

/-- Between indices that are inside the shape the difference does not overflow. -/
theorem diff_eq {n di : ℕ} (h : t.InShape n) (h' : t.InShape (n + 1)) (hdi : di < t.dims) :
    t.diff n di = t.ix (n + 1) (t.orderDim di) - t.ix n (t.orderDim di) := by
  have hlt := orderDim_lt hrange hdi
  obtain ⟨hlo, hhi⟩ := h _ hlt
  obtain ⟨hlo', hhi'⟩ := h' _ hlt
  have hsize : t.dimSize (t.orderDim di) < 2 ^ 63 := by
    rw [dimSize, getD_eq_getElem _ _ hlt]
    exact t.shape_lt _ (getElem_mem hlt)
  exact int64_eq (by omega) (by omega)

theorem flags_of_ordered {n : ℕ} (h : t.InShape n) (h' : t.InShape (n + 1))
    (hordered : t.Ordered n) :
    (t.indexFlags (n + 1)).valid = true ∧ (t.indexFlags (n + 1)).different = true ∧
      (t.indexFlags (n + 1)).increasing = true := by
  obtain ⟨hvalid, hdifferent, hincreasing⟩ := t.foldl_flagsRound n t.dims
  obtain ⟨di, hdi, heq, hlt⟩ := exists_of_key_lt hordered
  rw [t.order_length] at hdi
  have hpos : 0 < t.diff n di := by
    rw [diff_eq hrange h h' hdi]
    exact sub_pos.2 hlt
  refine ⟨hvalid.2 fun di hdi ↦ inBounds_iff.2 (h' di hdi), hdifferent.2 ⟨di, hdi, hpos⟩,
    hincreasing.2 fun dk hdk hneg ↦ ?_⟩
  -- a dimension in which the row is behind comes after the first in which the rows differ
  refine ⟨di, ?_, hpos⟩
  by_contra hle
  obtain hlt' | rfl := Nat.lt_or_eq_of_le (Nat.le_of_not_lt hle)
  · have hsame := heq dk hlt'
    rw [diff_eq hrange h h' hdk, orderDim, ← hsame, sub_self] at hneg
    exact lt_irrefl _ hneg
  · exact lt_asymm hneg hpos

theorem indexValid_of_inShape {n : ℕ} (h : t.InShape n)
    (hbefore : ∀ m, n = m + 1 → t.InShape m ∧ t.Ordered m) : t.indexValid n = some .ok := by
  have hflags : (t.indexFlags n).valid = true ∧ (t.indexFlags n).different = true ∧
      (t.indexFlags n).increasing = true := by
    cases n with
    | zero =>
      refine ⟨all_eq_true.2 fun di hdi ↦ inBounds_iff.2 (h di (mem_range.1 hdi)), rfl, rfl⟩
    | succ n =>
      obtain ⟨hm, hordered⟩ := hbefore n rfl
      exact flags_of_ordered hrange hm h hordered
  obtain ⟨hvalid, hdifferent, hincreasing⟩ := hflags
  rw [indexValid, if_neg (Int.not_lt.2 (Int.natCast_nonneg n)), Int.toNat_natCast]
  simp [hvalid, hdifferent, hincreasing]

end

theorem indexValid_of_not_inShape {n : ℕ} (h : ¬t.InShape n) :
    ∃ s, t.indexValid n = some s ∧ s ≠ .ok := by
  have hvalid : (t.indexFlags n).valid ≠ true := by
    intro hvalid
    refine h fun di hdi ↦ inBounds_iff.1 ?_
    cases n with
    | zero => exact all_eq_true.1 hvalid di (mem_range.2 hdi)
    | succ n => exact (t.foldl_flagsRound n t.dims).1.1 hvalid di hdi
  rw [ne_eq, Bool.not_eq_true] at hvalid
  rw [indexValid, if_neg (Int.not_lt.2 (Int.natCast_nonneg n)), Int.toNat_natCast]
  refine ⟨_, rfl, ?_⟩
  simp [hvalid, invalidArgument]

/-! ### `IndicesValid` -/

section
variable (hrange : ∀ d ∈ t.order, 0 ≤ d ∧ d < t.dims) (hordered : ∀ n, n + 1 < t.numEntries →
    t.Ordered n)
include hrange hordered

theorem indicesValidFrom_succ {rounds n : ℕ} (hn : n < t.numEntries) (hlt : n < 2 ^ 31)
    (hshape : ∀ m ≤ n, t.InShape m) :
    t.indicesValidFrom (rounds + 1) n = t.indicesValidFrom rounds (n + 1) := by
  have hok := indexValid_of_inShape hrange (hshape n le_rfl) fun m hm ↦
    ⟨hshape m (by omega), hordered m (by omega)⟩
  rw [indicesValidFrom, int32_of_lt (by omega) (by omega), hok]
  rfl

/-- Rows that are inside the shape are passed. -/
theorem indicesValidFrom_zero (rounds : ℕ) {n : ℕ} (hn : n ≤ t.numEntries) (hle : n ≤ 2 ^ 31)
    (hshape : ∀ m < n, t.InShape m) :
    t.indicesValidFrom (n + rounds) 0 = t.indicesValidFrom rounds n := by
  induction n generalizing rounds with
  | zero => rw [Nat.zero_add]
  | succ n ih =>
    rw [Nat.add_right_comm, Nat.add_assoc, ih _ (by omega) (by omega) fun m hm ↦ hshape m
      (by omega)]
    exact indicesValidFrom_succ hrange hordered hn (Nat.lt_of_succ_le hle) fun m hm ↦
      hshape m (Nat.lt_succ_of_le hm)

theorem indicesValidFrom_ok (hle : t.numEntries ≤ 2 ^ 31)
    (hshape : ∀ m < t.numEntries, t.InShape m) : t.indicesValidFrom t.numEntries 0 = some .ok :=
  indicesValidFrom_zero hrange hordered 0 le_rfl hle hshape

/-- The first row that is outside the shape is reported, if its number is an `int`. -/
theorem indicesValidFrom_error {n : ℕ} (hn : n < t.numEntries) (hlt : n < 2 ^ 31)
    (hnot : ¬t.InShape n) (hshape : ∀ m < n, t.InShape m) :
    ∃ s, t.indicesValidFrom t.numEntries 0 = some s ∧ s ≠ .ok := by
  obtain ⟨rounds, hrounds⟩ := Nat.exists_eq_add_of_lt hn
  obtain ⟨s, hs, hne⟩ := indexValid_of_not_inShape hnot
  refine ⟨s, ?_, hne⟩
  rw [hrounds, Nat.add_assoc,
    indicesValidFrom_zero hrange hordered _ hn.le (Nat.le_of_lt hlt) hshape, indicesValidFrom,
    int32_of_lt (by omega) (by omega), hs]
  exact if_neg hne

/-- The number of row `2 ^ 31` is not an `int`. -/
theorem indicesValidFrom_none (hlt : 2 ^ 31 < t.numEntries) (hshape : ∀ m < 2 ^ 31, t.InShape m) :
    t.indicesValidFrom t.numEntries 0 = none := by
  obtain ⟨rounds, hrounds⟩ := Nat.exists_eq_add_of_lt hlt
  have hneg : t.indexValid (int32 (2 ^ 31 : ℕ)) = none := if_pos (by decide)
  rw [hrounds, Nat.add_assoc, indicesValidFrom_zero hrange hordered _ (Nat.le_of_lt hlt)
    (Nat.le_refl _) hshape, indicesValidFrom, hneg]
  rfl

end

/-! ### The sorted tensor -/

/-- The pairs of an index and a value. -/
def entries (t : SparseTensor α) : List (List ℤ × α) :=
  (List.range t.numEntries).map fun n ↦ ((List.range t.dims).map (t.ix n), t.vals n)

/-- How many entries come before this one. -/
def rank (t : SparseTensor α) (order : List ℤ) (n : ℕ) : ℕ :=
  (List.range t.numEntries).countP fun m ↦ t.key order m < t.key order n

/-- No two entries have the same index. -/
def Distinct (t : SparseTensor α) : Prop :=
  ∀ i < t.numEntries, ∀ j < t.numEntries, (∀ di < t.dims, t.ix i di = t.ix j di) → i = j

/-- The order is a permutation of the dimensions. -/
def IsOrder (t : SparseTensor α) (order : List ℤ) : Prop :=
  order.Perm ((List.range t.dims).map (Nat.cast : ℕ → ℤ))

theorem IsOrder.mem_iff (h : t.IsOrder order) {d : ℤ} : d ∈ order ↔ 0 ≤ d ∧ d < t.dims := by
  rw [Perm.mem_iff h, mem_map]
  constructor
  · rintro ⟨di, hdi, rfl⟩
    have := mem_range.1 hdi
    omega
  · rintro ⟨hlo, hhi⟩
    exact ⟨d.toNat, mem_range.2 (by omega), Int.toNat_of_nonneg hlo⟩

theorem IsOrder.length_eq (h : t.IsOrder order) : order.length = t.dims := by
  rw [Perm.length_eq h, length_map, length_range]

section

variable (horder : t.IsOrder order) (hdistinct : t.Distinct)
include horder hdistinct

theorem key_injOn {i j : ℕ} (hi : i < t.numEntries) (hj : j < t.numEntries)
    (h : t.key order i = t.key order j) : i = j := by
  refine hdistinct i hi j hj fun di hdi ↦ ?_
  have hmem : (di : ℤ) ∈ order := horder.mem_iff.2 ⟨Int.natCast_nonneg di, by omega⟩
  have heq := map_inj_left.1 h di hmem
  rwa [Int.toNat_natCast] at heq

/-- The numbers of the rows are sorted strictly. -/
theorem key_sortedRows_lt {i j : ℕ} (hij : i < j) (hj : j < (t.sortedRows order).length) :
    t.key order (t.sortedRows order)[i] < t.key order (t.sortedRows order)[j] := by
  refine lt_of_le_of_ne (pairwise_iff_getElem.1 (t.pairwise_sortedRows order) i j _ hj hij)
    fun heq ↦ ?_
  have hsame :=
    key_injOn horder hdistinct (mem_sortedRows.1 (getElem_mem _))
      (mem_sortedRows.1 (getElem_mem _)) heq
  exact hij.ne ((t.nodup_sortedRows order).getElem_inj_iff.1 hsame)

theorem rank_sortedRows {i : ℕ} (hi : i < (t.sortedRows order).length) :
    t.rank order (t.sortedRows order)[i] = i := by
  have hsplit :=
    congrArg (countP fun m ↦ decide (t.key order m < t.key order (t.sortedRows order)[i]))
    (take_append_drop i (t.sortedRows order)).symm
  rw [countP_append] at hsplit
  have hbefore : ((t.sortedRows order).take i).countP
      (fun m ↦ decide (t.key order m < t.key order (t.sortedRows order)[i])) = i := by
    refine (countP_eq_length.2 fun r hr ↦ ?_).trans (length_take_of_le hi.le)
    obtain ⟨j, hj, rfl⟩ := mem_iff_getElem.1 hr
    rw [getElem_take, decide_eq_true_iff]
    rw [length_take] at hj
    exact key_sortedRows_lt horder hdistinct (by omega) hi
  have hafter : ((t.sortedRows order).drop i).countP
      (fun m ↦ decide (t.key order m < t.key order (t.sortedRows order)[i])) = 0 := by
    refine countP_eq_zero.2 fun r hr ↦ ?_
    obtain ⟨j, hj, rfl⟩ := mem_iff_getElem.1 hr
    rw [getElem_drop, decide_eq_true_iff, not_lt]
    rw [length_drop] at hj
    obtain rfl | hpos := Nat.eq_zero_or_pos j
    · exact le_refl _
    · exact (key_sortedRows_lt horder hdistinct (by omega) (by omega)).le
  rw [rank, ← (t.sortedRows_perm order).countP_eq, hsplit, hbefore, hafter, Nat.add_zero]

end

section
variable {t' : SparseTensor α} (h : Sorted t order t')
include h

theorem Sorted.dims_eq : t'.dims = t.dims := congrArg length h.shape_eq

theorem Sorted.inShape_iff {i : ℕ} (hi : i < (t.sortedRows order).length) :
    t'.InShape i ↔ t.InShape (t.sortedRows order)[i] := by
  rw [InShape, InShape, h.dims_eq, (h.entries i hi).1]
  simp only [dimSize, h.shape_eq]

theorem Sorted.forall_inShape_iff :
    (∀ i < t'.numEntries, t'.InShape i) ↔ ∀ n < t.numEntries, t.InShape n := by
  constructor
  · intro hshape n hn
    obtain ⟨i, hi, rfl⟩ := exists_getElem_sortedRows order hn
    have hi' := hi
    rw [length_sortedRows, ← h.numEntries_eq] at hi'
    exact (h.inShape_iff hi).1 (hshape i hi')
  · intro hshape i hi
    rw [h.numEntries_eq, ← t.length_sortedRows order] at hi
    exact (h.inShape_iff hi).2 (hshape _ (mem_sortedRows.1 (getElem_mem hi)))

theorem Sorted.entries_perm : t'.entries.Perm t.entries := by
  have heq : t'.entries = (t.sortedRows order).map fun n ↦
      ((range t.dims).map (t.ix n), t.vals n) := by
    refine ext_getElem ?_ fun i hi hi' ↦ ?_
    · simp [SparseTensor.entries, length_sortedRows, h.numEntries_eq]
    · rw [length_map] at hi'
      simp [SparseTensor.entries, h.dims_eq, h.entries i hi']
  rw [heq]
  exact (t.sortedRows_perm order).map _

variable (horder : t.IsOrder order)
include horder

theorem Sorted.key_lt (hdistinct : t.Distinct) {i j : ℕ} (hij : i < j) (hj : j < t'.numEntries) :
    t'.key order i < t'.key order j := by
  rw [h.numEntries_eq, ← t.length_sortedRows order] at hj
  rw [key, key, (h.entries i (hij.trans hj)).1, (h.entries j hj).1]
  exact key_sortedRows_lt horder hdistinct hij hj

theorem Sorted.ordered (hdistinct : t.Distinct) (n : ℕ) (hn : n + 1 < t'.numEntries) :
    t'.Ordered n := by
  rw [Ordered, h.order_eq]
  exact h.key_lt horder hdistinct (Nat.lt_succ_self n) hn

theorem Sorted.range : ∀ d ∈ t'.order, 0 ≤ d ∧ d < t'.dims := by
  intro d hd
  rw [h.order_eq, horder.mem_iff] at hd
  rwa [h.dims_eq]

theorem Sorted.indicesValid_eq : t'.indicesValid = t'.indicesValidFrom t'.numEntries 0 := by
  refine if_neg fun hany ↦ ?_
  obtain ⟨d, hd, hneg⟩ := any_eq_true.1 hany
  have hlo := (h.range horder d hd).1
  rw [decide_eq_true_iff] at hneg
  omega

end

/-- `Reorder` ends, with the same pairs of indices and values, sorted lexicographically by the
dimensions of the order, and then `IndicesValid` returns, with `OK` if and only if all indices are
inside the shape. -/
def ReordersInPlace (t : SparseTensor α) (order : List ℤ) : Prop :=
  ∃ t', t.reorder order = some t' ∧ t'.entries.Perm t.entries ∧
    (∀ i j, i < j → j < t'.numEntries → t'.key order i < t'.key order j) ∧
      ∃ s, t'.indicesValid = some s ∧ (s = .ok ↔ ∀ n < t.numEntries, t.InShape n)

/-- The rows from `2 ^ 31` on have numbers that are no `int`s: they are not reached if an entry
before them is outside the shape. -/
def RowsAreInts (t : SparseTensor α) (order : List ℤ) : Prop :=
  t.numEntries ≤ 2 ^ 31 ∨ ∃ n < t.numEntries, ¬t.InShape n ∧ t.rank order n < 2 ^ 31

section

variable {t' : SparseTensor α} (h : Sorted t order t') (horder : t.IsOrder order)
  (hdistinct : t.Distinct)
include h horder hdistinct

/-- After a sort `IndicesValid` only asks whether the indices are in the shape. -/
theorem Sorted.returns (hints : t.RowsAreInts order) :
    ∃ s, t'.indicesValid = some s ∧ (s = .ok ↔ ∀ n < t.numEntries, t.InShape n) := by
  rw [h.indicesValid_eq horder]
  by_cases hshape : ∀ i < t'.numEntries, t'.InShape i
  · obtain hle | ⟨n, hn, hnot, -⟩ := hints
    · rw [← h.numEntries_eq] at hle
      exact ⟨.ok, indicesValidFrom_ok (h.range horder) (h.ordered horder hdistinct) hle hshape,
        iff_of_true rfl (h.forall_inShape_iff.1 hshape)⟩
    · exact absurd (h.forall_inShape_iff.1 hshape n hn) hnot
  · -- the first row outside the shape
    have hexists : ∃ i, i < t'.numEntries ∧ ¬t'.InShape i := by
      push Not at hshape
      exact hshape
    classical
    obtain ⟨hlt, hnot⟩ := Nat.find_spec hexists
    have hbefore : ∀ m < Nat.find hexists, t'.InShape m := fun m hm ↦
      not_not.1 fun hm' ↦ Nat.find_min hexists hm ⟨hm.trans hlt, hm'⟩
    have hint : Nat.find hexists < 2 ^ 31 := by
      obtain hle | ⟨n, hn, hnotn, hrank⟩ := hints
      · rw [← h.numEntries_eq] at hle
        exact Nat.lt_of_lt_of_le hlt hle
      · obtain ⟨i, hi, rfl⟩ := exists_getElem_sortedRows order hn
        rw [rank_sortedRows horder hdistinct hi] at hrank
        have hi' := hi
        rw [length_sortedRows, ← h.numEntries_eq] at hi'
        exact Nat.lt_of_le_of_lt
          (Nat.find_min' hexists ⟨hi', fun hin ↦ hnotn ((h.inShape_iff hi).1 hin)⟩) hrank
    obtain ⟨s, hs, hne⟩ :=
      indicesValidFrom_error (h.range horder) (h.ordered horder hdistinct) hlt hint hnot hbefore
    exact ⟨s, hs, iff_of_false hne fun hall ↦ hshape (h.forall_inShape_iff.2 hall)⟩

theorem Sorted.rowsAreInts {s : Status} (hs : t'.indicesValid = some s) : t.RowsAreInts order := by
  by_contra hnot
  rw [RowsAreInts, not_or, Nat.not_le] at hnot
  obtain ⟨hlt, hnone⟩ := hnot
  rw [h.indicesValid_eq horder, indicesValidFrom_none (h.range horder) (h.ordered horder hdistinct)
    (h.numEntries_eq ▸ hlt) fun i hi ↦ ?_] at hs
  · cases hs
  · have hlength : i < (t.sortedRows order).length := by
      rw [length_sortedRows]
      exact Nat.lt_trans hi hlt
    rw [h.inShape_iff hlength]
    by_contra hout
    refine hnone ⟨_, mem_sortedRows.1 (getElem_mem hlength), hout, ?_⟩
    rwa [rank_sortedRows horder hdistinct]

end

theorem exists_sorted (hdims : 1 ≤ t.dims) (horder : t.IsOrder order) :
    ∃ t', t.reorder order = some t' ∧ Sorted t order t' :=
  exists_reorder horder.length_eq hdims fun _ hd ↦ horder.mem_iff.1 hd

/-- **`Reorder` sorts in place**, for every order that is a permutation of the dimensions.
`IndicesValid` can be asked about the result if the number of each row that it looks at is an `int`,
and only then. -/
theorem reordersInPlace_iff (t : SparseTensor α) (order : List ℤ) (hdims : 1 ≤ t.dims)
    (horder : t.IsOrder order) (hdistinct : t.Distinct) :
    t.ReordersInPlace order ↔ t.RowsAreInts order := by
  obtain ⟨t', ht', hsorted⟩ := exists_sorted hdims horder
  constructor
  · rintro ⟨t'', ht'', -, -, s, hs, -⟩
    obtain rfl := Option.some.inj (ht'.symm.trans ht'')
    exact hsorted.rowsAreInts horder hdistinct hs
  · intro hints
    exact ⟨t', ht', hsorted.entries_perm, fun i j hij hj ↦ hsorted.key_lt horder hdistinct hij hj,
      hsorted.returns horder hdistinct hints⟩

/-- Three entries of a matrix of two rows and three columns. -/
def threeEntries : SparseTensor ℕ where
  numEntries := 3
  ix n di := ([[1, 0], [0, 2], [0, 1]].getD n []).getD di 0
  vals n := n
  shape := [2, 3]
  order := [-1, -1]
  shape_lt := by decide
  dims_le := by decide
  order_length := rfl

theorem reordersInPlace_threeEntries :
    1 ≤ threeEntries.dims ∧ threeEntries.IsOrder [1, 0] ∧ threeEntries.Distinct ∧
      threeEntries.ReordersInPlace [1, 0] := by
  have horder : threeEntries.IsOrder [1, 0] := Perm.swap 0 1 []
  have hdistinct : threeEntries.Distinct := by
    show ∀ i < 3, ∀ j < 3, (∀ di < 2, threeEntries.ix i di = threeEntries.ix j di) → i = j
    decide
  have hints : threeEntries.RowsAreInts [1, 0] := .inl (by decide)
  exact ⟨by decide, horder, hdistinct, (reordersInPlace_iff threeEntries [1,
    0] (by decide) horder hdistinct).2 hints⟩

/-- A vector with as many entries as it has elements, one more than there are numbers of rows. -/
def fullVector : SparseTensor Unit where
  numEntries := 2 ^ 31 + 1
  ix n _ := n
  vals _ := ()
  shape := [2 ^ 31 + 1]
  order := [-1]
  shape_lt := by decide
  dims_le := by decide
  order_length := rfl

theorem not_reordersInPlace : ¬fullVector.ReordersInPlace [0] := by
  have hone : ∀ {di : ℕ}, di < fullVector.dims → di = 0 := fun hdi ↦ Nat.lt_one_iff.1 hdi
  have horder : fullVector.IsOrder [0] := Perm.refl _
  have hdistinct : fullVector.Distinct := fun i _ j _ h ↦ Int.ofNat.inj (h 0 Nat.one_pos)
  obtain ⟨t', ht', hsorted⟩ := exists_sorted (t := fullVector) (Nat.le_refl 1) horder
  rintro ⟨t'', ht'', -, -, s, hs, -⟩
  obtain rfl := Option.some.inj (ht'.symm.trans ht'')
  obtain hle | ⟨n, hn, hnot, -⟩ := hsorted.rowsAreInts horder hdistinct hs
  · exact absurd hle (by decide)
  · refine hnot fun di hdi ↦ ?_
    rw [hone hdi]
    exact ⟨Int.natCast_nonneg n, Int.ofNat_lt.2 hn⟩

end SparseTensor

end TensorFlowCore
