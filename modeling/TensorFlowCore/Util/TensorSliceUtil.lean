import TensorFlowCore.Framework.TensorSlice
import TensorFlowCore.Framework.Types
import TensorFlowCore.Support.RowMajor

/-!
# Copying between slices

`CopyDataFromTensorSliceToTensorSlice` of `tensorflow/core/util/tensor_slice_util.h`, for source and
destination of one element type. The elements of a slice are kept in a row-major buffer. The copy is
done on eight dimensions, the missing ones padded with trivial ones, and a tensor of a higher rank
fails a `CHECK`.
-/

namespace TensorFlowCore

open RowMajor TensorSlice

def kTensorSliceMaxRank : ℕ := 8

/-- A size or a start as an `Eigen::DenseIndex`; they are not negative where this is used. -/
def denseIndex (x : Int64) : ℕ := x.toInt.toNat

/-- `AsEigenDSizesWithPadding`. -/
def TensorShape.asEigenDSizesWithPadding (shape : TensorShape) (ndims : ℕ) : Option (List ℕ) :=
  if shape.dims ≤ ndims then
    some (shape.dimSizes.map denseIndex ++ List.replicate (ndims - shape.dims) 1)
  else none

/-- `FillIndicesAndSizes`: where a slice starts, and how long it is. -/
def TensorSlice.fillIndicesAndSizes (slice : TensorSlice) (shape : TensorShape) (ndims : ℕ) :
    Option (List ℕ × List ℕ) :=
  if shape.dims = slice.dims ∧ slice.dims ≤ ndims then
    some (slice.extents.map (fun e ↦ if e.IsFull then 0 else denseIndex e.start) ++
        List.replicate (ndims - slice.dims) 0,
      (slice.sliceSizes shape.dimSizes).map denseIndex ++ List.replicate (ndims - slice.dims) 1)
  else none

variable {α : Type}

/-- The part of `CopyDataFromTensorSliceToTensorSlice` after the slices have been applied to the
shape. -/
def copyIntersection (sliceS sliceD inter : TensorSlice) (shpS shpD : TensorShape)
    (ptrS ptrD : List α) : Option (List α) :=
  (shpS.asEigenDSizesWithPadding kTensorSliceMaxRank).bind fun tS ↦
  (shpD.asEigenDSizesWithPadding kTensorSliceMaxRank).bind fun tD ↦
  ((sliceS.computeRelative inter).fillIndicesAndSizes shpS kTensorSliceMaxRank).bind fun s ↦
  ((sliceD.computeRelative inter).fillIndicesAndSizes shpD kTensorSliceMaxRank).map fun d ↦
    copyBlock tS tD ptrS s.1 d.1 s.2 ptrD

/-- The result and what `ptr_d` points to afterwards; `none` when a `CHECK` fails. -/
def copyDataFromTensorSliceToTensorSlice (shape : TensorShape) (sliceS sliceD : TensorSlice)
    (ptrS ptrD : List α) : Option (Bool × List α) :=
  if shape.dims ≤ kTensorSliceMaxRank then
    match sliceS.intersect sliceD with
    | none => some (false, ptrD)
    | some inter =>
      (sliceS.sliceTensorShape shape).bind fun
        | .error _ => some (false, ptrD)
        | .ok shpS => (sliceD.sliceTensorShape shape).bind fun
          | .error _ => some (false, ptrD)
          | .ok shpD =>
            (copyIntersection sliceS sliceD inter shpS shpD ptrS ptrD).map fun d ↦ (true, d)
  else none

/-- Where the relative slice of `inter` starts in `base`. -/
def relativeStart (base inter : TensorSlice) : List ℕ :=
  (base.computeRelative inter).extents.map fun e ↦ if e.IsFull then 0 else denseIndex e.start

theorem dims_computeRelative {base sub : TensorSlice} (h : base.dims = sub.dims) :
    (base.computeRelative sub).dims = base.dims := by
  unfold dims at *
  rw [computeRelative, List.length_zipWith, h, Nat.min_self]

end TensorFlowCore

/-!
## `TensorSliceSet`

The slices of a tensor that are at hand, from `tensorflow/core/util/tensor_slice_set.cc`. They are
kept under their `DebugString`s in a hash map, whose order of iteration a client cannot rely on;
here it is the order of a list, which any step may change. Whether slices cover a query is decided
by counting elements, which is right as long as the registered ones are pairwise disjoint.

Failed `CHECK`s (and reads through a null pointer, where data is asked for that was not registered)
are `none`.
-/

namespace TensorFlowCore

open TensorSlice

/-- `TensorSliceSet::SliceInfo`. -/
structure SliceInfo (α : Type) where
  slice : TensorSlice
  tag : ByteString
  /-- The elements of the slice, unless the pointer is null. -/
  data : Option (List α)
  numFloats : Int64

structure TensorSliceSet (α : Type) where
  shape : TensorShape
  type : DataType
  /-- `slices_`, in the order in which it is iterated over. -/
  slices : List (ByteString × SliceInfo α)
  slicesHull : TensorSlice

namespace TensorSliceSet

variable {α : Type}

/-- `TensorSliceSet(shape, type)`. -/
def ofShape (shape : TensorShape) (type : DataType) : TensorSliceSet α := ⟨shape, type, [], ⟨[]⟩⟩

/-- `gtl::FindOrNull(slices_, str)`. -/
def find (s : TensorSliceSet α) (str : ByteString) : Option (SliceInfo α) := s.slices.lookup str

/-- The registered slice that a new one overlaps, by its name. -/
def overlapping (s : TensorSliceSet α) (slice : TensorSlice) : Option ByteString :=
  (s.slices.find? fun x ↦ slice.overlaps x.2.slice).map Prod.fst

/-- `slices_.insert`, which keeps an entry that is already there. -/
def insert (s : TensorSliceSet α) (str : ByteString) (info : SliceInfo α) (hull : TensorSlice) :
    TensorSliceSet α :=
  if (s.find str).isSome then { s with slicesHull := hull }
  else { s with slices := (str, info) :: s.slices, slicesHull := hull }

def register (s : TensorSliceSet α) (slice : TensorSlice) (tag : ByteString)
    (data : Option (List α)) : Option (Status × TensorSliceSet α) :=
  (slice.sliceTensorShape s.shape).map fun
    | .error e => (e, s)
    | .ok resultShape =>
      let str := slice.debugString
      let info : SliceInfo α := ⟨slice, tag, data, resultShape.numElements⟩
      if s.slices = [] then (.ok, s.insert str info slice)
      else
        let overlap := if s.slicesHull.overlaps slice then s.overlapping slice else none
        match overlap with
        | some x => (internalError [ascii "Overlapping slices: existing slice = ", x,
            ascii ", new slice = ", str], s)
        | none => (.ok, s.insert str info (s.slicesHull.updateToCover slice))

/-- Copy the data of every registered slice into the buffer of a query. -/
def copyAll (shape : TensorShape) (slice : TensorSlice) :
    List (ByteString × SliceInfo α) → List α → Option (List α)
  | [], buf => some buf
  | x :: slices, buf =>
    x.2.data.bind fun src ↦
      (copyDataFromTensorSliceToTensorSlice shape x.2.slice slice src buf).bind fun r ↦
        copyAll shape slice slices r.2

end TensorSliceSet

end TensorFlowCore
