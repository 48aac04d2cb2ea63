import TensorFlowCore.Core.Integers
import TensorFlowCore.Framework.TensorShape
import TensorFlowCore.Support.Boxes

/-!
# `TensorSlice`

A slice of a tensor, from `tensorflow/core/framework/tensor_slice.cc`: for each dimension a start
and a length, or everything. The arithmetic is that of `int64`, and the end of an extent may wrap
around.

`box` is the set of coordinates a slice stands for, in exact arithmetic. On slices that `Fits` a
shape the operations compute with these boxes: `Intersect` their intersection (`intersect_eq_some`,
`intersect_eq_none`), `UpdateToCover` a box around both (`points_subset_updateToCover`), and
`SliceTensorShape` the lengths of the sides (`sliceTensorShape_of_proper`).
-/

namespace TensorFlowCore

open Boxes List Option WrappedProduct

/-- One dimension of a slice: an entry of `starts_` and one of `lengths_`. -/
structure Extent where
  start : Int64
  length : Int64
  deriving DecidableEq

structure TensorSlice where
  extents : List Extent
  deriving DecidableEq

namespace Extent

/-- `kFullExtent`. -/
def kFullExtent : Int64 := -1

/-- What stands for everything in a dimension. -/
def full : Extent := ⟨0, kFullExtent⟩

/-- `IsFullAt`. -/
def IsFull (e : Extent) : Prop := e.length = kFullExtent ∧ e.start = 0

instance (e : Extent) : Decidable e.IsFull := inferInstanceAs (Decidable (_ ∧ _))

/-- `end`. -/
def stop (e : Extent) : Int64 := e.start + e.length

/-- One dimension of `Intersect`. -/
def intersect (a b : Extent) : Option Extent :=
  if a.IsFull then some b
  else if b.IsFull then some a
  else
    let s := max a.start b.start
    let l := min a.stop b.stop - s
    if 0 < l then some ⟨s, l⟩ else none

/-- One dimension of `ComputeRelative`. -/
def relative (base sub : Extent) : Extent :=
  if base.IsFull then sub else ⟨sub.start - base.start, sub.length⟩

/-- One dimension of `UpdateToCover`. -/
def cover (e other : Extent) : Extent :=
  if e.IsFull then e
  else if other.IsFull then full
  else ⟨min e.start other.start, max e.stop other.stop - min e.start other.start⟩

end Extent

namespace TensorSlice

def dims (s : TensorSlice) : ℕ := s.extents.length

/-- `TensorSlice(dim)`: everything, in each of `dim` dimensions. -/
def ofDims (dim : ℕ) : TensorSlice := ⟨List.replicate dim .full⟩

/-- One dimension of `DebugString`. -/
def debugItem (e : Extent) : ByteString :=
  if e.IsFull then ascii "-" else decimalInt e.start.toInt ++ 44 :: decimalInt e.length.toInt

def debugString (s : TensorSlice) : ByteString := [58].intercalate (s.extents.map debugItem)

/-- The loop of `Intersect`. -/
def intersectExtents : List Extent → List Extent → Option (List Extent)
  | a :: as, b :: bs =>
    match a.intersect b with
    | some e => (intersectExtents as bs).map (e :: ·)
    | none => none
  | _, _ => some []

def intersect (a b : TensorSlice) : Option TensorSlice :=
  if a.dims = b.dims then (intersectExtents a.extents b.extents).map TensorSlice.mk else none

def overlaps (a b : TensorSlice) : Bool := (a.intersect b).isSome

def computeRelative (base sub : TensorSlice) : TensorSlice :=
  ⟨List.zipWith Extent.relative base.extents sub.extents⟩

def updateToCover (s other : TensorSlice) : TensorSlice :=
  ⟨List.zipWith Extent.cover s.extents other.extents⟩

/-- The loop of `SliceTensorShape`, from dimension `d` on. A failed `CHECK` of `AddDim` is
`none`. -/
def sliceTensorShapeFrom (slice : TensorSlice) (shape result : TensorShape) (d : ℕ) :
    List Int64 → List Extent → Option (Except Status TensorShape)
  | size :: sizes, e :: es =>
    if e.IsFull then
      (result.addDim size).bind fun r ↦ sliceTensorShapeFrom slice shape r (d + 1) sizes es
    else if e.stop ≤ size then
      (result.addDim e.length).bind fun r ↦ sliceTensorShapeFrom slice shape r (d + 1) sizes es
    else some (.error (internalError [ascii "Extent in dimension ", decimal d,
      ascii " out of bounds: shape = ", TensorShape.debugString shape.dimSizes, ascii ", slice = ",
      slice.debugString]))
  | _, _ => some (.ok result)

def sliceTensorShape (slice : TensorSlice) (shape : TensorShape) :
    Option (Except Status TensorShape) :=
  if shape.dims = slice.dims then
    sliceTensorShapeFrom slice shape .empty 0 shape.dimSizes slice.extents
  else some (.error (internalError [ascii "Mismatching ranks: shape = ",
    TensorShape.debugString shape.dimSizes, ascii ", slice = ", slice.debugString]))

/-! ## Printing -/

theorem not_mem_decimalInt {n : ℤ} {b : UInt8} (hb : b ≠ 45) (h : ¬ (48 ≤ b.toNat ∧ b.toNat ≤ 57)) :
    b ∉ decimalInt n := fun hmem ↦ (mem_decimalInt hmem).elim hb h

/-- A dash, or start and length: no two extents are printed alike. -/
theorem debugItem_injective : Function.Injective debugItem := by
  have hcomma : ∀ e : Extent, ascii "-" ≠
      decimalInt e.start.toInt ++ 44 :: decimalInt e.length.toInt := fun e h ↦ by
    have hmem : (44 : UInt8) ∈ ascii "-" := h ▸ mem_append_right _ mem_cons_self
    exact absurd hmem (by decide)
  intro a b h
  unfold debugItem at h
  by_cases ha : a.IsFull <;> by_cases hb : b.IsFull
  · cases a
    cases b
    obtain ⟨rfl, rfl⟩ := ha
    obtain ⟨rfl, rfl⟩ := hb
    rfl
  · rw [if_pos ha, if_neg hb] at h
    exact absurd h (hcomma b)
  · rw [if_neg ha, if_pos hb] at h
    exact absurd h.symm (hcomma a)
  · rw [if_neg ha, if_neg hb] at h
    have hnot : ∀ n : ℤ, (44 : UInt8) ∉ decimalInt n := fun n ↦
      not_mem_decimalInt (by decide) (by decide)
    obtain ⟨hstart, -, hlength⟩ := append_cons_inj_of_notMem (hnot _) (hnot _) |>.1 h
    cases a
    cases b
    rw [Extent.mk.injEq]
    exact ⟨Int64.toInt_inj.1 (decimalInt_injective hstart),
      Int64.toInt_inj.1 (decimalInt_injective hlength)⟩

theorem colon_notMem_debugItem (e : Extent) : (58 : UInt8) ∉ debugItem e := by
  have hnot : ∀ n : ℤ, (58 : UInt8) ∉ decimalInt n := fun n ↦
    not_mem_decimalInt (by decide) (by decide)
  unfold debugItem
  split
  · decide
  · intro h
    obtain h | h := mem_append.1 h
    · exact hnot _ h
    · obtain h | h := mem_cons.1 h
      · exact absurd h (by decide)
      · exact hnot _ h

theorem debugItem_ne_nil (e : Extent) : debugItem e ≠ [] := by
  unfold debugItem
  split
  · exact cons_ne_nil _ _
  · exact append_ne_nil_of_right_ne_nil _ (cons_ne_nil _ _)

/-- A slice is determined by how it prints, so the registered slices can be found by it. -/
theorem debugString_injective : Function.Injective debugString := by
  intro a b h
  have hsplit : ∀ s : TensorSlice, s.extents ≠ [] →
      (debugString s).splitOn 58 = s.extents.map debugItem := fun s hs ↦
    splitOn_intercalate 58 (fun x hx ↦ by
      obtain ⟨e, -, rfl⟩ := mem_map.1 hx
      exact colon_notMem_debugItem e) (by simpa using hs)
  have hnil : ∀ s : TensorSlice, s.extents = [] ↔ debugString s = [] := fun s ↦ by
    refine ⟨fun hs ↦ by rw [debugString, hs]; rfl, fun hs ↦ ?_⟩
    by_contra hne
    have hmap := hsplit s hne
    rw [hs] at hmap
    obtain ⟨e, es, hes⟩ := exists_cons_of_ne_nil hne
    rw [hes] at hmap
    exact debugItem_ne_nil e (cons.inj hmap).1.symm
  cases a with
  | mk as =>
    cases b with
    | mk bs =>
      by_cases has : as = []
      · have hbs : bs = [] := (hnil ⟨bs⟩).2 (h ▸ (hnil ⟨as⟩).1 has)
        rw [has, hbs]
      · have hbs : bs ≠ [] := fun hbs ↦ has ((hnil ⟨as⟩).2 (h.trans ((hnil ⟨bs⟩).1 hbs)))
        have hmap : as.map debugItem = bs.map debugItem := by
          rw [← hsplit ⟨as⟩ has, ← hsplit ⟨bs⟩ hbs, h]
        rw [debugItem_injective.list_map hmap]

end TensorSlice

/-! ## The coordinates of a slice -/

namespace Extent

/-- The interval of a dimension of size `size` that an extent stands for. -/
def interval (size : Int64) (e : Extent) : ℤ × ℤ :=
  if e.IsFull then (0, size.toInt) else (e.start.toInt, e.start.toInt + e.length.toInt)

/-- The extents that `TensorSlice::Parse` lets through, and whose end is an `int64`. -/
def Proper (e : Extent) : Prop :=
  e.IsFull ∨ 0 ≤ e.start.toInt ∧ 0 < e.length.toInt ∧ e.start.toInt + e.length.toInt < 2 ^ 63

/-- The proper extents within a dimension of size `size`. -/
def Fits (size : Int64) (e : Extent) : Prop :=
  e.IsFull ∨ 0 ≤ e.start.toInt ∧ 0 < e.length.toInt ∧ e.start.toInt + e.length.toInt ≤ size.toInt

/-- The extents within a dimension of size `size`, the empty ones among them. -/
def InBounds (size : Int64) (e : Extent) : Prop :=
  e.IsFull ∨ 0 ≤ e.start.toInt ∧ 0 ≤ e.length.toInt ∧ e.start.toInt + e.length.toInt ≤ size.toInt

variable {size : Int64} {a b e : Extent}

theorem isFull_full : full.IsFull := ⟨rfl, rfl⟩

theorem interval_of_isFull (h : e.IsFull) : e.interval size = (0, size.toInt) := if_pos h

theorem interval_of_not_isFull (h : ¬ e.IsFull) :
    e.interval size = (e.start.toInt, e.start.toInt + e.length.toInt) := if_neg h

theorem Fits.proper (h : e.Fits size) : e.Proper := by
  have hlt := Int64.toInt_lt size
  exact h.imp_right fun ⟨h0, hpos, hle⟩ ↦ ⟨h0, hpos, by omega⟩

theorem Proper.toInt_stop (h : e.Proper) (hfull : ¬ e.IsFull) :
    e.stop.toInt = e.start.toInt + e.length.toInt := by
  obtain ⟨h0, hpos, hlt⟩ := h.resolve_left hfull
  rw [stop, Int64.toInt_add]
  exact bmod_of_fits (by omega) hlt

/-- A proper extent stands for an interval that is not empty. -/
theorem Proper.interval_lt (h : e.Proper) (hsize : 0 < size.toInt) :
    (e.interval size).1 < (e.interval size).2 := by
  by_cases hfull : e.IsFull
  · rwa [interval_of_isFull hfull]
  · rw [interval_of_not_isFull hfull]
    exact Int.lt_add_of_pos_right _ (h.resolve_left hfull).2.1

/-- An extent within a dimension stands for an interval of it. -/
theorem Fits.interval_bounds (h : e.Fits size) (hsize : 0 < size.toInt) :
    0 ≤ (e.interval size).1 ∧ (e.interval size).1 < (e.interval size).2 ∧
      (e.interval size).2 ≤ size.toInt := by
  by_cases hfull : e.IsFull
  · rw [interval_of_isFull hfull]
    exact ⟨Int.le_refl _, hsize, Int.le_refl _⟩
  · obtain ⟨h0, hpos, hle⟩ := h.resolve_left hfull
    rw [interval_of_not_isFull hfull]
    exact ⟨h0, Int.lt_add_of_pos_right _ hpos, hle⟩

theorem Fits.inBounds (h : e.Fits size) : e.InBounds size :=
  h.imp_right fun ⟨h0, hpos, hle⟩ ↦ ⟨h0, hpos.le, hle⟩

theorem InBounds.interval_bounds (h : e.InBounds size) (hsize : 0 ≤ size.toInt) :
    0 ≤ (e.interval size).1 ∧ (e.interval size).1 ≤ (e.interval size).2 ∧
      (e.interval size).2 ≤ size.toInt := by
  by_cases hfull : e.IsFull
  · rw [interval_of_isFull hfull]
    exact ⟨Int.le_refl _, hsize, Int.le_refl _⟩
  · obtain ⟨h0, hlength, hle⟩ := h.resolve_left hfull
    rw [interval_of_not_isFull hfull]
    exact ⟨h0, Int.le_add_of_nonneg_right hlength, hle⟩

theorem InBounds.toInt_stop (h : e.InBounds size) (hfull : ¬ e.IsFull) :
    e.stop.toInt = e.start.toInt + e.length.toInt := by
  obtain ⟨h0, hlength, hle⟩ := h.resolve_left hfull
  have hlt := Int64.toInt_lt size
  rw [stop, Int64.toInt_add]
  exact bmod_of_fits (by omega) (by omega)

/-- A difference of words between `0` and `2 ^ 63` does not wrap around. -/
theorem toInt_sub_of_bounds {x y : Int64} (hx : 0 ≤ x.toInt) (hy : 0 ≤ y.toInt) :
    (x - y).toInt = x.toInt - y.toInt := by
  have hxlt := Int64.toInt_lt x
  have hylt := Int64.toInt_lt y
  rw [Int64.toInt_sub]
  exact bmod_eq_self_iff.2 ⟨by omega, by omega⟩

theorem meet_of_isFull_left (ha : a.IsFull) (hb : b.InBounds size) (hsize : 0 ≤ size.toInt) :
    meet (a.interval size) (b.interval size) = b.interval size := by
  obtain ⟨h0, -, hle⟩ := hb.interval_bounds hsize
  rw [interval_of_isFull ha, meet, Int.max_eq_right h0, Int.min_eq_right hle]

theorem meet_of_isFull_right (ha : a.InBounds size) (hb : b.IsFull) (hsize : 0 ≤ size.toInt) :
    meet (a.interval size) (b.interval size) = a.interval size := by
  obtain ⟨h0, -, hle⟩ := ha.interval_bounds hsize
  rw [interval_of_isFull hb, meet, Int.max_eq_left h0, Int.min_eq_left hle]

/-- The word `Intersect` compares with `0` is the length of the meet. -/
theorem toInt_meet_length (ha : a.InBounds size) (hb : b.InBounds size) (hfa : ¬ a.IsFull)
    (hfb : ¬ b.IsFull) :
    (max a.start b.start).toInt = (meet (a.interval size) (b.interval size)).1 ∧
      (min a.stop b.stop - max a.start b.start).toInt =
        (meet (a.interval size) (b.interval size)).2 -
          (meet (a.interval size) (b.interval size)).1 := by
  obtain ⟨ha0, hapos, -⟩ := ha.resolve_left hfa
  obtain ⟨hb0, hbpos, -⟩ := hb.resolve_left hfb
  have hsa := ha.toInt_stop hfa
  have hsb := hb.toInt_stop hfb
  rw [interval_of_not_isFull hfa, interval_of_not_isFull hfb, meet]
  have hmax := toInt_max a.start b.start
  have hmin := toInt_min a.stop b.stop
  rw [hsa, hsb] at hmin
  refine ⟨hmax, ?_⟩
  rw [toInt_sub_of_bounds (by omega) (by omega), hmax, hmin]

/-- What `Intersect` makes of two extents stands for the meet of their intervals. -/
theorem InBounds.intersect (ha : a.InBounds size) (hb : b.InBounds size) (hsize : 0 ≤ size.toInt)
    (h : a.intersect b = some e) :
    e.InBounds size ∧ e.interval size = meet (a.interval size) (b.interval size) ∧
      (e.IsFull → a.IsFull ∧ b.IsFull) := by
  rw [Extent.intersect] at h
  by_cases hfa : a.IsFull
  · rw [if_pos hfa] at h
    cases h
    exact ⟨hb, (meet_of_isFull_left hfa hb hsize).symm, fun hfull ↦ ⟨hfa, hfull⟩⟩
  by_cases hfb : b.IsFull
  · rw [if_neg hfa, if_pos hfb] at h
    cases h
    exact ⟨ha, (meet_of_isFull_right ha hfb hsize).symm, fun hfull ↦ ⟨hfull, hfb⟩⟩
  · rw [if_neg hfa, if_neg hfb] at h
    obtain ⟨hpos, he⟩ := ite_none_right_eq_some.1 h
    cases he
    obtain ⟨hs, hl⟩ := toInt_meet_length ha hb hfa hfb
    have hlpos : 0 < (min a.stop b.stop - max a.start b.start).toInt := Int64.lt_iff_toInt_lt.1 hpos
    obtain ⟨ha0, -, hale⟩ := ha.interval_bounds hsize
    have hnot : ¬IsFull ⟨max a.start b.start, min a.stop b.stop - max a.start b.start⟩ := by
      rintro ⟨hlen, -⟩
      rw [show min a.stop b.stop - max a.start b.start = kFullExtent from hlen] at hlpos
      exact absurd hlpos (by decide)
    have hfst : (a.interval size).1 ≤ (meet (a.interval size) (b.interval size)).1 :=
      Int.le_max_left _ _
    have hsnd : (meet (a.interval size) (b.interval size)).2 ≤ (a.interval size).2 :=
      Int.min_le_left _ _
    have hinterval : interval size ⟨max a.start b.start, min a.stop b.stop - max a.start b.start⟩ =
        meet (a.interval size) (b.interval size) := by
      rw [interval_of_not_isFull hnot]
      refine Prod.ext hs ?_
      show (max a.start b.start).toInt + (min a.stop b.stop - max a.start b.start).toInt = _
      omega
    refine ⟨.inr ⟨?_, hlpos.le, ?_⟩, hinterval, fun hfull ↦ absurd hfull hnot⟩
    · show 0 ≤ (max a.start b.start).toInt
      omega
    · show (max a.start b.start).toInt + (min a.stop b.stop - max a.start b.start).toInt ≤ _
      omega

/-- `Intersect` returns one of the extents, or one that is not empty. -/
theorem eq_or_of_intersect (h : a.intersect b = some e) : e = a ∨ e = b ∨ 0 < e.length.toInt := by
  unfold intersect at h
  split at h
  · exact .inr (.inl (some.inj h).symm)
  split at h
  · exact .inl (some.inj h).symm
  · obtain ⟨hpos, he⟩ := ite_none_right_eq_some.1 h
    cases he
    exact .inr (.inr (Int64.lt_iff_toInt_lt.1 hpos))

variable (ha : a.Fits size) (hb : b.Fits size)
include ha hb

/-- Extents intersect as the intervals that they stand for. -/
theorem intersect_eq_some (hsize : 0 < size.toInt) (h : a.intersect b = some e) :
    e.Fits size ∧ e.interval size = meet (a.interval size) (b.interval size) := by
  obtain ⟨hbounds, hinterval, -⟩ := ha.inBounds.intersect hb.inBounds hsize.le h
  refine ⟨?_, hinterval⟩
  obtain rfl | rfl | hpos := eq_or_of_intersect h
  · exact ha
  · exact hb
  · exact hbounds.imp_right fun ⟨h0, _, hle⟩ ↦ ⟨h0, hpos, hle⟩

theorem intersect_eq_none (h : a.intersect b = none) :
    (meet (a.interval size) (b.interval size)).2 ≤
      (meet (a.interval size) (b.interval size)).1 := by
  unfold intersect at h
  split at h
  · exact absurd h nofun
  next hfa =>
    split at h
    · exact absurd h nofun
    next hfb =>
      obtain ⟨-, hl⟩ := toInt_meet_length ha.inBounds hb.inBounds hfa hfb
      dsimp only at h
      split at h
      · exact absurd h nofun
      next hpos =>
        have hle : (min a.stop b.stop - max a.start b.start).toInt ≤ 0 :=
          Int.not_lt.1 fun hlt ↦ hpos (Int64.lt_iff_toInt_lt.2 hlt)
        omega

/-- The extent that `UpdateToCover` makes is around both. -/
theorem fits_cover (hsize : 0 < size.toInt) : (a.cover b).Fits size ∧
      ((a.cover b).interval size).1 ≤ min (a.interval size).1 (b.interval size).1 ∧
      max (a.interval size).2 (b.interval size).2 ≤ ((a.cover b).interval size).2 := by
  obtain ⟨ha0, -, hale⟩ := ha.interval_bounds hsize
  obtain ⟨hb0, -, hble⟩ := hb.interval_bounds hsize
  have hfull : ∀ e : Extent, e.IsFull → e.Fits size ∧
      (e.interval size).1 ≤ min (a.interval size).1 (b.interval size).1 ∧
      max (a.interval size).2 (b.interval size).2 ≤ (e.interval size).2 := fun e he ↦ by
    rw [interval_of_isFull he]
    exact ⟨.inl he, le_min ha0 hb0, max_le hale hble⟩
  unfold cover
  split
  · next hfa => exact hfull a hfa
  split
  · exact hfull full isFull_full
  next hfa hfb =>
    obtain ⟨ha0, hapos, -⟩ := ha.resolve_left hfa
    obtain ⟨hb0, hbpos, -⟩ := hb.resolve_left hfb
    have hsa := ha.proper.toInt_stop hfa
    have hsb := hb.proper.toInt_stop hfb
    have hmin := toInt_min a.start b.start
    have hmax := toInt_max a.stop b.stop
    rw [hsa, hsb] at hmax
    have hlen : (max a.stop b.stop - min a.start b.start).toInt =
        max (a.start.toInt + a.length.toInt) (b.start.toInt + b.length.toInt) -
          min a.start.toInt b.start.toInt := by
      rw [toInt_sub_of_bounds (by omega) (by omega), hmin, hmax]
    have hpos : 0 < (max a.stop b.stop - min a.start b.start).toInt := by omega
    have hnot : ¬ IsFull ⟨min a.start b.start, max a.stop b.stop - min a.start b.start⟩ := by
      rintro ⟨hl, -⟩
      rw [show max a.stop b.stop - min a.start b.start = kFullExtent from hl] at hpos
      exact absurd hpos (by decide)
    rw [interval_of_not_isFull hfa, interval_of_not_isFull hfb] at *
    rw [interval_of_not_isFull hnot]
    refine ⟨.inr ⟨?_, hpos, ?_⟩, ?_, ?_⟩
    · show 0 ≤ (min a.start b.start).toInt
      omega
    · show (min a.start b.start).toInt + (max a.stop b.stop - min a.start b.start).toInt ≤ _
      omega
    · show (min a.start b.start).toInt ≤ _
      omega
    · show _ ≤ (min a.start b.start).toInt + (max a.stop b.stop - min a.start b.start).toInt
      omega

end Extent

namespace TensorSlice

/-- The box of the extents, the sizes of the dimensions given. A dimension beyond the sizes counts
as one of size `1`, as where slices are padded with trivial dimensions. -/
def boxOf : List Int64 → List Extent → Box
  | _, [] => []
  | [], e :: es => e.interval 1 :: boxOf [] es
  | size :: sizes, e :: es => e.interval size :: boxOf sizes es

/-- The coordinates that a slice stands for in a tensor with these sizes. -/
noncomputable def coordinates (sizes : List Int64) (s : TensorSlice) : Finset (List ℤ) :=
  points (boxOf sizes s.extents)

def Proper (s : TensorSlice) : Prop := ∀ e ∈ s.extents, e.Proper

/-- A slice of the rank of the shape, within it. -/
def Fits (sizes : List Int64) (s : TensorSlice) : Prop :=
  List.Forall₂ Extent.Fits sizes s.extents

variable {sizes : List Int64} {a b s : TensorSlice}

theorem length_boxOf (sizes : List Int64) (es : List Extent) :
    (boxOf sizes es).length = es.length := by
  induction es generalizing sizes with
  | nil => cases sizes <;> rfl
  | cons e es ih => cases sizes <;> exact congrArg Nat.succ (ih _)

theorem Fits.proper (h : s.Fits sizes) : s.Proper := by
  obtain ⟨es⟩ := s
  change Forall₂ _ sizes es at h
  show ∀ e ∈ es, e.Proper
  induction h with
  | nil => nofun
  | cons hfits _ ih => exact forall_mem_cons.2 ⟨hfits.proper, ih⟩

theorem Fits.length_eq (h : s.Fits sizes) : sizes.length = s.dims := Forall₂.length_eq h

theorem Fits.dims_eq (ha : a.Fits sizes) (hb : b.Fits sizes) : a.dims = b.dims :=
  ha.length_eq.symm.trans hb.length_eq

/-- The coordinates of a tensor with these sizes. -/
def InShape (sizes : List Int64) (c : List ℤ) : Prop :=
  List.Forall₂ (fun (size : Int64) x ↦ 0 ≤ x ∧ x < size.toInt) sizes c

theorem Fits.inShape (h : s.Fits sizes) (hpos : ∀ size ∈ sizes, 0 < size.toInt) {c : List ℤ}
    (hc : c ∈ s.coordinates sizes) : InShape sizes c := by
  obtain ⟨es⟩ := s
  change Forall₂ _ sizes es at h
  change c ∈ points (boxOf sizes es) at hc
  induction h generalizing c with
  | nil =>
    rw [mem_points_nil.1 hc]
    exact .nil
  | cons hfits _ ih =>
    obtain ⟨hsize, hpos⟩ := forall_mem_cons.1 hpos
    obtain ⟨x, c, rfl, hx, hc⟩ := mem_points_cons.1 hc
    obtain ⟨h0, -, hle⟩ := hfits.interval_bounds hsize
    exact .cons ⟨h0.trans hx.1, hx.2.trans_le hle⟩ (ih hpos hc)

theorem intervals_lt (hes : ∀ e ∈ es, e.Proper) (hpos : ∀ size ∈ sizes, 0 < size.toInt) :
    ∀ I ∈ boxOf sizes es, I.1 < I.2 := by
  induction es generalizing sizes with
  | nil => cases sizes <;> nofun
  | cons e es ih =>
    obtain ⟨he, hes⟩ := forall_mem_cons.1 hes
    cases sizes with
    | nil => exact forall_mem_cons.2 ⟨he.interval_lt (by decide), ih hes hpos⟩
    | cons size sizes =>
      obtain ⟨hsize, hpos⟩ := forall_mem_cons.1 hpos
      exact forall_mem_cons.2 ⟨he.interval_lt hsize, ih hes hpos⟩

/-- A proper slice of dimensions that are not empty has a coordinate. -/
theorem Proper.nonempty (h : s.Proper) (hpos : ∀ size ∈ sizes, 0 < size.toInt) :
    (s.coordinates sizes).Nonempty := points_nonempty (intervals_lt h hpos)

section

variable {as bs : List Extent} (ha : List.Forall₂ Extent.Fits sizes as)
  (hb : List.Forall₂ Extent.Fits sizes bs)
include ha hb

theorem intersectExtents_eq_some (hpos : ∀ size ∈ sizes, 0 < size.toInt)
    (h : intersectExtents as bs = some es) : List.Forall₂ Extent.Fits sizes es ∧
      boxOf sizes es = inter (boxOf sizes as) (boxOf sizes bs) := by
  induction ha generalizing bs es with
  | nil =>
    obtain rfl : [] = es := some.inj h
    exact ⟨.nil, rfl⟩
  | @cons size a sizes as hfa _ ih =>
    cases hb with
    | @cons _ b _ bs hfb hb =>
      obtain ⟨hsize, hpos⟩ := forall_mem_cons.1 hpos
      rw [intersectExtents] at h
      split at h
      · next e he =>
        obtain ⟨es', hes', rfl⟩ := map_eq_some_iff.1 h
        obtain ⟨hfe, hinterval⟩ := Extent.intersect_eq_some hfa hfb hsize he
        obtain ⟨hfes, hbox⟩ := ih hb hpos hes'
        refine ⟨.cons hfe hfes, ?_⟩
        show e.interval size :: boxOf sizes es' = _ :: inter (boxOf sizes as) (boxOf sizes bs)
        rw [hinterval, hbox]
      · exact absurd h nofun

theorem intersectExtents_eq_none (h : intersectExtents as bs = none) :
    points (inter (boxOf sizes as) (boxOf sizes bs)) = ∅ := by
  induction ha generalizing bs with
  | nil => exact absurd h nofun
  | @cons size a sizes as hfa _ ih =>
    cases hb with
    | @cons _ b _ bs hfb hb =>
      refine Finset.eq_empty_of_forall_notMem fun c hc ↦ ?_
      obtain ⟨x, c, rfl, hx, hc⟩ := mem_points_cons.1 hc
      rw [intersectExtents] at h
      split at h
      · exact absurd hc (Finset.eq_empty_iff_forall_notMem.1
          (ih hb (map_eq_none_iff.1 h)) c)
      · next he =>
        have hle := Extent.intersect_eq_none hfa hfb he
        exact absurd (hx.1.trans_lt hx.2) (Int.not_lt.2 hle)

end

section

variable (ha : a.Fits sizes) (hb : b.Fits sizes)
include ha hb

/-- `Intersect` finds the common coordinates. -/
theorem intersect_eq_some (hpos : ∀ size ∈ sizes, 0 < size.toInt) (h : a.intersect b = some s) :
    s.Fits sizes ∧ s.coordinates sizes = a.coordinates sizes ∩ b.coordinates sizes := by
  obtain ⟨-, h⟩ := ite_none_right_eq_some.1 h
  obtain ⟨es, hes, rfl⟩ := map_eq_some_iff.1 h
  obtain ⟨hfits, hbox⟩ := intersectExtents_eq_some ha hb hpos hes
  refine ⟨hfits, ?_⟩
  rw [coordinates, hbox, points_inter]
  · rfl
  · rw [length_boxOf, length_boxOf]
    exact ha.dims_eq hb

/-- `Intersect` finds nothing where there are no common coordinates. -/
theorem intersect_eq_none (h : a.intersect b = none) :
    a.coordinates sizes ∩ b.coordinates sizes = ∅ := by
  rw [intersect, if_pos (ha.dims_eq hb)] at h
  have hempty := intersectExtents_eq_none ha hb (map_eq_none_iff.1 h)
  rwa [points_inter] at hempty
  rw [length_boxOf, length_boxOf]
  exact ha.dims_eq hb

theorem overlaps_iff (hpos : ∀ size ∈ sizes, 0 < size.toInt) :
    a.overlaps b = true ↔ ¬ Disjoint (a.coordinates sizes) (b.coordinates sizes) := by
  rw [Finset.disjoint_iff_inter_eq_empty, overlaps]
  match h : a.intersect b with
  | none => simp [intersect_eq_none ha hb h]
  | some s =>
    obtain ⟨hfits, hinter⟩ := intersect_eq_some ha hb hpos h
    rw [← hinter]
    exact iff_of_true rfl (hfits.proper.nonempty hpos).ne_empty

/-- `UpdateToCover` leaves a slice within the shape, around both. -/
theorem fits_updateToCover (hpos : ∀ size ∈ sizes, 0 < size.toInt) :
    (a.updateToCover b).Fits sizes ∧
      a.coordinates sizes ∪ b.coordinates sizes ⊆ (a.updateToCover b).coordinates sizes := by
  obtain ⟨as⟩ := a
  obtain ⟨bs⟩ := b
  suffices h : Forall₂ Extent.Fits sizes (zipWith Extent.cover as bs) ∧
      Forall₂ (fun I J : ℤ × ℤ ↦ J.1 ≤ I.1 ∧ I.2 ≤ J.2) (boxOf sizes as)
        (boxOf sizes (zipWith Extent.cover as bs)) ∧
      Forall₂ (fun I J : ℤ × ℤ ↦ J.1 ≤ I.1 ∧ I.2 ≤ J.2) (boxOf sizes bs)
        (boxOf sizes (zipWith Extent.cover as bs)) from
    ⟨h.1, Finset.union_subset (points_subset h.2.1) (points_subset h.2.2)⟩
  change Forall₂ _ sizes as at ha
  change Forall₂ _ sizes bs at hb
  induction ha generalizing bs with
  | nil =>
    cases hb
    exact ⟨.nil, .nil, .nil⟩
  | @cons size a sizes as hfa _ ih =>
    cases hb with
    | @cons _ b _ bs hfb hb =>
      obtain ⟨hsize, hpos⟩ := forall_mem_cons.1 hpos
      obtain ⟨hfits, hlo, hhi⟩ := Extent.fits_cover hfa hfb hsize
      obtain ⟨hrest, hleft, hright⟩ := ih hpos bs hb
      exact ⟨.cons hfits hrest,
        .cons ⟨hlo.trans (Int.min_le_left _ _), (Int.le_max_left _ _).trans hhi⟩ hleft,
        .cons ⟨hlo.trans (Int.min_le_right _ _), (Int.le_max_right _ _).trans hhi⟩ hright⟩

end

/-! ## The shape of a slice -/

/-- The size of one dimension of a sliced shape. -/
def sliceSize (size : Int64) (e : Extent) : Int64 := if e.IsFull then size else e.length

/-- The sizes of a sliced shape. -/
def sliceSizes (sizes : List Int64) (s : TensorSlice) : List Int64 :=
  List.zipWith sliceSize sizes s.extents

theorem toInt_sliceSize {size : Int64} {e : Extent} :
    (sliceSize size e).toInt = (e.interval size).2 - (e.interval size).1 := by
  unfold sliceSize Extent.interval
  split <;> simp

theorem sliceSize_bounds {size : Int64} {e : Extent} (h : e.Fits size) (hsize : 0 < size.toInt) :
    0 < (sliceSize size e).toInt ∧ (sliceSize size e).toInt ≤ size.toInt := by
  obtain ⟨h0, hlt, hle⟩ := h.interval_bounds hsize
  rw [toInt_sliceSize]
  omega

/-- The number of coordinates of a slice within the shape is the product of the sizes. -/
theorem card_coordinates (h : s.Fits sizes) (hpos : ∀ size ∈ sizes, 0 < size.toInt) :
    exactProduct (s.sliceSizes sizes) = ((s.coordinates sizes).card : ℤ) := by
  rw [coordinates, card_points]
  obtain ⟨es⟩ := s
  change Forall₂ _ sizes es at h
  show exactProduct (zipWith sliceSize sizes es) = _
  induction h with
  | nil => rfl
  | @cons size e sizes es hfits _ ih =>
    obtain ⟨hsize, hpos⟩ := forall_mem_cons.1 hpos
    obtain ⟨-, hlt, -⟩ := hfits.interval_bounds hsize
    rw [zipWith_cons_cons, exactProduct_cons, ih hpos, boxOf, map_cons, prod_cons, Nat.cast_mul,
      toInt_sliceSize, Int.toNat_of_nonneg (by omega)]

theorem one_le_exactProduct (hpos : ∀ size ∈ sizes, 0 < size.toInt) : 1 ≤ exactProduct sizes := by
  induction sizes with
  | nil => exact Int.le_refl _
  | cons size sizes ih =>
    obtain ⟨hsize, hpos⟩ := forall_mem_cons.1 hpos
    rw [exactProduct_cons]
    exact one_le_mul_of_one_le_of_one_le hsize (ih hpos)

/-- The loop of `SliceTensorShape` goes on while the extents fit, and its checks pass. -/
theorem sliceTensorShapeFrom_of_proper (slice : TensorSlice) (shape : TensorShape) (d : ℕ)
    {result : TensorShape} (hresult : result.Good)
    (hexact : exactProduct result.dimSizes * exactProduct sizes ≤ 2 ^ 40)
    (hdims : result.dims + sizes.length ≤ TensorShape.maxDimensions)
    (hpos : ∀ size ∈ sizes, 0 < size.toInt) (hlen : sizes.length = es.length)
    (hproper : ∀ e ∈ es, e.Proper) : (List.Forall₂ Extent.Fits sizes es →
      ∃ r, sliceTensorShapeFrom slice shape result d sizes es = some (.ok r) ∧ r.Good ∧
        exactProduct r.dimSizes ≤ 2 ^ 40 ∧
          r.dimSizes = result.dimSizes ++ List.zipWith sliceSize sizes es) ∧
    (¬ List.Forall₂ Extent.Fits sizes es →
      ∃ e, sliceTensorShapeFrom slice shape result d sizes es = some (.error e) ∧ e ≠ .ok) := by
  induction sizes generalizing result d es with
  | nil =>
    obtain rfl : es = [] := length_eq_zero_iff.1 hlen.symm
    rw [exactProduct_nil, mul_one] at hexact
    exact ⟨fun _ ↦ ⟨result, rfl, hresult, hexact, (append_nil _).symm⟩,
      fun h ↦ absurd .nil h⟩
  | cons size sizes ih =>
    obtain ⟨e, es, rfl⟩ := exists_cons_of_length_eq_add_one hlen.symm
    obtain ⟨hsize, hpos⟩ := forall_mem_cons.1 hpos
    obtain ⟨he, hproper⟩ := forall_mem_cons.1 hproper
    have hrest := one_le_exactProduct hpos
    have hprod0 := hresult.exactProduct_nonneg
    rw [exactProduct_cons] at hexact
    rw [length_cons] at hdims
    by_cases hfits : e.Fits size
    · obtain ⟨hspos, hsle⟩ := sliceSize_bounds hfits hsize
      have hadd : exactProduct result.dimSizes * (sliceSize size e).toInt * exactProduct sizes ≤
          2 ^ 40 := by
        refine le_trans ?_ hexact
        rw [mul_assoc]
        exact mul_le_mul_of_nonneg_left (mul_le_mul_of_nonneg_right hsle (by omega)) hprod0
      have hadd' : exactProduct result.dimSizes * (sliceSize size e).toInt ≤ 2 ^ 40 := by
        refine le_trans (le_mul_of_one_le_right ?_ hrest) hadd
        exact mul_nonneg hprod0 hspos.le
      obtain ⟨t, ht⟩ := hresult.exists_addDim
        (le_trans (le_mul_of_one_le_right hprod0 hspos) hadd')
        (TensorShape.nonneg_iff.2 hspos.le) (by omega) hadd'
      obtain ⟨hgood, hsizes⟩ := hresult.addDim ht
      have hproduct : exactProduct t.dimSizes =
          exactProduct result.dimSizes * (sliceSize size e).toInt := by
        rw [hsizes, exactProduct_append, exactProduct_cons, exactProduct_nil, mul_one]
      have htdims : t.dims + sizes.length ≤ TensorShape.maxDimensions := by
        rw [TensorShape.dims, hsizes, length_append]
        exact (Nat.add_right_comm _ _ _).trans_le hdims
      have hloop : sliceTensorShapeFrom slice shape result d (size :: sizes) (e :: es) =
          sliceTensorShapeFrom slice shape t (d + 1) sizes es := by
        rw [sliceTensorShapeFrom]
        by_cases hfull : e.IsFull
        · rw [sliceSize, if_pos hfull] at ht
          rw [if_pos hfull, ht]
          rfl
        · rw [sliceSize, if_neg hfull] at ht
          have hstop : e.stop ≤ size := by
            rw [Int64.le_iff_toInt_le, hfits.proper.toInt_stop hfull]
            exact (hfits.resolve_left hfull).2.2
          rw [if_neg hfull, if_pos hstop, ht]
          rfl
      obtain ⟨hok, herror⟩ :=
        ih (d + 1) hgood (hproduct ▸ hadd) htdims hpos (Nat.succ.inj hlen) hproper
      rw [hloop]
      refine ⟨fun h ↦ ?_, fun h ↦ herror fun hrest ↦ h (.cons hfits hrest)⟩
      obtain ⟨r, hr, hgood', hle, hsizes'⟩ := hok (forall₂_cons.1 h).2
      refine ⟨r, hr, hgood', hle, ?_⟩
      rw [hsizes', hsizes, append_assoc, singleton_append, zipWith_cons_cons]
    · refine ⟨fun h ↦ absurd (forall₂_cons.1 h).1 hfits, fun _ ↦ ?_⟩
      have hfull : ¬ e.IsFull := fun hfull ↦ hfits (.inl hfull)
      have hstop : ¬ e.stop ≤ size := fun hstop ↦ by
        obtain ⟨h0, hlpos, -⟩ := he.resolve_left hfull
        rw [Int64.le_iff_toInt_le, he.toInt_stop hfull] at hstop
        exact hfits (.inr ⟨h0, hlpos, hstop⟩)
      rw [sliceTensorShapeFrom, if_neg hfull, if_neg hstop]
      exact ⟨_, rfl, internalError_ne_ok _⟩

/-- `SliceTensorShape` of a slice within the shape: its number of elements is the number of
coordinates. -/
theorem sliceTensorShape_of_proper {shape : TensorShape} (hshape : shape.Regular) (hs : s.Proper) :
    (s.Fits shape.dimSizes →
      ∃ r, s.sliceTensorShape shape = some (.ok r) ∧ r.Good ∧
        r.dimSizes = s.sliceSizes shape.dimSizes ∧
        r.numElements.toInt = ((s.coordinates shape.dimSizes).card : ℤ)) ∧
    (¬ s.Fits shape.dimSizes → ∃ e, s.sliceTensorShape shape = some (.error e) ∧ e ≠ .ok) := by
  have hexact : exactProduct TensorShape.empty.dimSizes * exactProduct shape.dimSizes ≤ 2 ^ 40 := by
    show 1 * exactProduct shape.dimSizes ≤ 2 ^ 40
    rw [one_mul]
    exact hshape.exactProduct_le
  have hdims : TensorShape.empty.dims + shape.dimSizes.length ≤ TensorShape.maxDimensions :=
    (Nat.zero_add _).trans_le hshape.good.dims_le
  by_cases hrank : shape.dims = s.dims
  · obtain ⟨hok, herror⟩ := sliceTensorShapeFrom_of_proper s shape 0
      TensorShape.good_empty hexact hdims hshape.pos hrank hs
    rw [sliceTensorShape, if_pos hrank]
    refine ⟨fun h ↦ ?_, herror⟩
    obtain ⟨r, hr, hgood, hle, hsizes⟩ := hok h
    have hsizes' : r.dimSizes = s.sliceSizes shape.dimSizes := hsizes
    refine ⟨r, hr, hgood, hsizes', ?_⟩
    rw [hgood.numElements_eq_iff.2 hle, hsizes', card_coordinates h hshape.pos]
  · rw [sliceTensorShape, if_neg hrank]
    exact ⟨fun h ↦ absurd h.length_eq hrank, fun _ ↦ ⟨_, rfl, internalError_ne_ok _⟩⟩

end TensorSlice

end TensorFlowCore

/-!
## `TensorSliceProto`

The proto of a slice and the two conversions of `tensorflow/core/framework/tensor_slice.cc`. A proto
may hold any words. `SliceTensorShape` compares the end of an extent with the size of its dimension,
and takes an extent that begins before the dimension or whose end has wrapped around for one within
it (`slicesSoundly_iff`).
-/

namespace TensorFlowCore

open List Option

/-- `TensorSliceProto::Extent`; `length` is the `oneof`. -/
structure ExtentProto where
  start : Int64 := 0
  length : Option Int64 := none
  deriving DecidableEq

/-- `TensorSliceProto`. -/
abbrev TensorSliceProto := List ExtentProto

namespace TensorSlice

/-- `GetExtentLength`. -/
def getExtentLength (e : ExtentProto) : Int64 := e.length.getD Extent.kFullExtent

/-- `TensorSlice(proto)`. -/
def ofProto (proto : TensorSliceProto) : TensorSlice :=
  ⟨proto.map fun e ↦ ⟨e.start, getExtentLength e⟩⟩

end TensorSlice

/-! ### What `SliceTensorShape` lets through -/

namespace Extent

/-- The check of `SliceTensorShape`, on words. -/
def EndsWithin (size : Int64) (e : Extent) : Prop := e.IsFull ∨ e.stop ≤ size

/-- Everything, or what begins in the dimension and has a word for its end. -/
def HasEnd (e : Extent) : Prop :=
  e.IsFull ∨ 0 ≤ e.start.toInt ∧ e.start.toInt + e.length.toInt < 2 ^ 63

/-- An extent that passes the check and has a length lies within the dimension if its end is what it
is taken for. -/
theorem inBounds_iff {size : Int64} {e : Extent} (hends : e.EndsWithin size)
    (hlength : 0 ≤ (TensorSlice.sliceSize size e).toInt) : e.InBounds size ↔ e.HasEnd := by
  by_cases hfull : e.IsFull
  · exact iff_of_true (.inl hfull) (.inl hfull)
  · have hstop := hends.resolve_left hfull
    rw [TensorSlice.sliceSize, if_neg hfull] at hlength
    rw [InBounds, HasEnd, or_iff_right hfull, or_iff_right hfull]
    refine ⟨fun h ↦ ⟨h.1, h.2.2.trans_lt size.toInt_lt⟩, fun h ↦ ⟨h.1, hlength, ?_⟩⟩
    obtain ⟨h0, hlt⟩ := h
    have hsum : e.stop.toInt = e.start.toInt + e.length.toInt := by
      rw [stop, Int64.toInt_add]
      exact WrappedProduct.bmod_of_fits (by omega) hlt
    rw [← hsum]
    exact Int64.le_iff_toInt_le.1 hstop

end Extent

namespace TensorSlice

variable {slice : TensorSlice} {shape result r : TensorShape}

/-- The checks that `SliceTensorShape` makes: that on every extent, and those of `AddDim`. -/
def PassesChecks (slice : TensorSlice) (shape : TensorShape) : Prop :=
  List.Forall₂ Extent.EndsWithin shape.dimSizes slice.extents ∧
    (TensorShape.empty.addDims (slice.sliceSizes shape.dimSizes)).isSome

/-- If `SliceTensorShape` returns `OK`, every extent lies within its dimension, and the lengths are
those of the result. -/
def SlicesSoundly (slice : TensorSlice) (shape : TensorShape) : Prop :=
  ∀ result, slice.sliceTensorShape shape = some (.ok result) →
    List.Forall₂ Extent.InBounds shape.dimSizes slice.extents ∧
      result.dimSizes = slice.sliceSizes shape.dimSizes

/-- By induction on the dimensions. -/
theorem sliceTensorShapeFrom_eq_ok_iff {d : ℕ} (hlen : sizes.length = es.length) :
    sliceTensorShapeFrom slice shape result d sizes es = some (.ok r) ↔
      List.Forall₂ Extent.EndsWithin sizes es ∧ result.addDims (List.zipWith sliceSize sizes es) =
        some r := by
  induction sizes generalizing result es d with
  | nil =>
    obtain rfl : es = [] := length_eq_zero_iff.1 hlen.symm
    exact ⟨fun h ↦ ⟨.nil, congrArg some (Except.ok.inj (some.inj h))⟩, fun h ↦
      congrArg (some ∘ Except.ok) (some.inj h.2)⟩
  | cons size sizes ih =>
    obtain ⟨e, es, rfl⟩ := exists_cons_of_length_eq_add_one hlen.symm
    have hnext : ((result.addDim (sliceSize size e)).bind fun t ↦
        sliceTensorShapeFrom slice shape t (d + 1) sizes es) = some (.ok r) ↔
          Forall₂ Extent.EndsWithin sizes es ∧
            result.addDims (sliceSize size e :: zipWith sliceSize sizes es) = some r := by
      rw [bind_eq_some_iff, TensorShape.addDims_cons]
      simp only [ih (Nat.succ.inj hlen)]
      constructor
      · rintro ⟨t, ht, hends, hr⟩
        exact ⟨hends, t, ht, hr⟩
      · rintro ⟨hends, t, ht, hr⟩
        exact ⟨t, ht, hends, hr⟩
    rw [sliceTensorShapeFrom, forall₂_cons, zipWith_cons_cons, and_assoc, ← hnext]
    by_cases hfull : e.IsFull
    · rw [if_pos hfull, sliceSize, if_pos hfull, and_iff_right (.inl hfull)]
    · rw [if_neg hfull, sliceSize, if_neg hfull, Extent.EndsWithin, or_iff_right hfull]
      split
      · rename_i hstop
        rw [and_iff_right hstop]
      · rename_i hstop
        exact iff_of_false (by simp) fun h ↦ hstop h.1

theorem sliceTensorShape_eq_ok_iff : slice.sliceTensorShape shape = some (.ok r) ↔
    List.Forall₂ Extent.EndsWithin shape.dimSizes slice.extents ∧
      TensorShape.empty.addDims (slice.sliceSizes shape.dimSizes) = some r := by
  rw [sliceTensorShape]
  split
  · rename_i hrank
    exact sliceTensorShapeFrom_eq_ok_iff hrank
  · rename_i hrank
    exact iff_of_false (by simp) fun h ↦ hrank h.1.length_eq

/-- Where every extent passes its check, what comes of it is up to `AddDim`. -/
theorem sliceTensorShapeFrom_of_endsWithin {d : ℕ} (h : List.Forall₂ Extent.EndsWithin sizes es) :
    sliceTensorShapeFrom slice shape result d sizes es =
      (result.addDims (List.zipWith sliceSize sizes es)).map .ok := by
  induction h generalizing result d with
  | nil => rfl
  | @cons size e sizes es hends _ ih =>
    rw [sliceTensorShapeFrom, zipWith_cons_cons, TensorShape.addDims, foldlM_cons]
    by_cases hfull : e.IsFull
    · rw [if_pos hfull, sliceSize, if_pos hfull, funext fun r ↦ ih, bind_eq_bind, map_bind]
      rfl
    · rw [if_neg hfull, if_pos (hends.resolve_left hfull), sliceSize, if_neg hfull,
        funext fun r ↦ ih, bind_eq_bind, map_bind]
      rfl

theorem sliceTensorShape_of_endsWithin
    (h : List.Forall₂ Extent.EndsWithin shape.dimSizes slice.extents) :
    slice.sliceTensorShape shape =
      (TensorShape.empty.addDims (slice.sliceSizes shape.dimSizes)).map .ok := by
  have hrank : shape.dims = slice.dims := h.length_eq
  rw [sliceTensorShape, if_pos hrank]
  exact sliceTensorShapeFrom_of_endsWithin h

theorem forall₂_inBounds_iff (hends : List.Forall₂ Extent.EndsWithin sizes es)
    (hlengths : ∀ v ∈ List.zipWith sliceSize sizes es, 0 ≤ v) :
    List.Forall₂ Extent.InBounds sizes es ↔ ∀ e ∈ es, e.HasEnd := by
  induction hends with
  | nil => exact iff_of_true .nil nofun
  | cons hend _ ih =>
    obtain ⟨hlength, hlengths⟩ := forall_mem_cons.1 hlengths
    rw [forall₂_cons, forall_mem_cons, ih hlengths,
      Extent.inBounds_iff hend (TensorShape.nonneg_iff.1 hlength)]

/-- **`SliceTensorShape` is sound** on a slice from a proto exactly if no extent that it lets
through begins before its dimension or ends behind every word. -/
theorem slicesSoundly_iff (proto : TensorSliceProto) (shape : TensorShape) :
    (ofProto proto).SlicesSoundly shape ↔
      ((ofProto proto).PassesChecks shape → ∀ e ∈ (ofProto proto).extents, e.HasEnd) := by
  have hresult : ∀ {r}, TensorShape.empty.addDims ((ofProto proto).sliceSizes shape.dimSizes) =
    some r →
      r.dimSizes = (ofProto proto).sliceSizes shape.dimSizes ∧
        ∀ v ∈ (ofProto proto).sliceSizes shape.dimSizes, 0 ≤ v := fun {r} hr ↦ by
    obtain ⟨hgood, hsizes⟩ := TensorShape.good_empty.addDims hr
    exact ⟨hsizes, fun v hv ↦ hgood.nonneg v (hsizes ▸ hv)⟩
  constructor
  · rintro h ⟨hends, hsome⟩
    obtain ⟨r, hr⟩ := isSome_iff_exists.1 hsome
    obtain ⟨hbounds, -⟩ := h r (sliceTensorShape_eq_ok_iff.2 ⟨hends, hr⟩)
    exact (forall₂_inBounds_iff hends (hresult hr).2).1 hbounds
  · intro h r hok
    obtain ⟨hends, hr⟩ := sliceTensorShape_eq_ok_iff.1 hok
    obtain ⟨hsizes, hlengths⟩ := hresult hr
    exact ⟨(forall₂_inBounds_iff hends hlengths).2 (h ⟨hends, isSome_iff_exists.2 ⟨r, hr⟩⟩), hsizes⟩

/-- An extent of one entry that begins one before the dimension. -/
theorem not_slicesSoundly : ¬∀ (proto : TensorSliceProto) (shape : TensorShape),
    shape.dims = proto.length → (ofProto proto).SlicesSoundly shape := by
  intro h
  obtain ⟨hbounds, -⟩ :=
    h [{ start := -1, length := some 1 }] ⟨.rep16 [5], 5⟩ rfl ⟨.rep16 [1], 1⟩ (by decide)
  obtain ⟨hbounds, -⟩ := forall₂_cons.1 hbounds
  exact absurd (hbounds.resolve_left (by decide)).1 (by decide)

end TensorSlice

end TensorFlowCore
