import TensorFlowCore.Core.Integers
import TensorFlowCore.Support.CycleSwaps

/-!
# `SparseTensor`

`tensorflow/core/util/sparse/sparse_tensor.h`: a tensor is given by a matrix with the indices of its
entries, the values of the entries, its shape, and the order of the dimensions in which the entries
are sorted. A failed `CHECK` or an access out of bounds ends the process; an operation that can come
to one returns an `Option`.

Rows that are equal in all dimensions of the order may come out of `std::sort` in any order, and
here they come out in the one in which they were.
-/

namespace TensorFlowCore

/-- `SparseTensor`, with the rows of `ix_` and the values by their numbers. A shape has at most 255
dimensions, whose sizes are `int64`s, and the constructor checks the length of the order. -/
structure SparseTensor (α : Type) where
  numEntries : ℕ
  ix : ℕ → ℕ → ℤ
  vals : ℕ → α
  shape : List ℕ
  order : List ℤ
  shape_lt : ∀ size ∈ shape, size < 2 ^ 63
  dims_le : shape.length ≤ 255
  order_length : order.length = shape.length

namespace SparseTensor

variable {α : Type}

/-- `dims_`. -/
def dims (t : SparseTensor α) : ℕ := t.shape.length

/-- `shape_.dim_size(di)`. -/
def dimSize (t : SparseTensor α) (di : ℕ) : ℕ := t.shape.getD di 0

/-- `order_[di]`. -/
def orderDim (t : SparseTensor α) (di : ℕ) : ℕ := (t.order.getD di 0).toNat

/-! ## `IndicesValid` -/

/-- The flags of `IndexValid`. -/
structure Flags where
  valid : Bool
  different : Bool
  increasing : Bool

def inBounds (t : SparseTensor α) (n di : ℕ) : Bool := 0 ≤ t.ix n di && t.ix n di < t.dimSize di

/-- How far a row is behind the one before it, in a dimension of the order. -/
def diff (t : SparseTensor α) (n di : ℕ) : ℤ :=
  int64 (t.ix (n + 1) (t.orderDim di) - t.ix n (t.orderDim di))

/-- One round of the loop of `IndexValid`, for the row after row `n`. -/
def flagsRound (t : SparseTensor α) (n : ℕ) (f : Flags) (di : ℕ) : Flags :=
  let different := f.different || decide (0 < t.diff n di)
  { valid := f.valid && t.inBounds (n + 1) di
    different
    increasing := f.increasing && !(!different && decide (t.diff n di < 0)) }

/-- The loops of `IndexValid`. -/
def indexFlags (t : SparseTensor α) : ℕ → Flags
  | 0 => ⟨(List.range t.dims).all fun di ↦ t.inBounds 0 di, true, true⟩
  | n + 1 => (List.range t.dims).foldl (t.flagsRound n) ⟨true, false, true⟩

/-- `index`, in the messages. -/
def indexString (t : SparseTensor α) (n : ℕ) : ByteString :=
  ascii "indices[" ++ decimal n ++ ascii "] = [" ++
    (List.range t.dims).flatMap fun di ↦ decimalInt (t.ix n di) ++ if di + 1 <
    t.dims then ascii "," else ascii "]"

/-- `shape_.DebugString()`. -/
def shapeString (t : SparseTensor α) : ByteString :=
  ascii "[" ++ (ascii ",").intercalate (t.shape.map decimal) ++ ascii "]"

/-- `IndexValid`. The number of the row is an `int`; there is no row with a negative number. -/
def indexValid (t : SparseTensor α) (n : ℤ) : Option Status :=
  if n < 0 then none
  else
    let f := t.indexFlags n.toNat
    some <|
      if f.valid && f.increasing && f.different then .ok
      else if !f.valid then
        invalidArgument [t.indexString n.toNat, ascii " is out of bounds: need 0 <= index < ",
          t.shapeString]
      else if !f.increasing then invalidArgument [t.indexString n.toNat, ascii " is out of order"]
      else invalidArgument [t.indexString n.toNat, ascii " is repeated"]

/-- The rounds of `IndicesValid` that are left, from row `n` on. -/
def indicesValidFrom (t : SparseTensor α) : ℕ → ℕ → Option Status
  | 0, _ => some .ok
  | rounds + 1, n =>
    (t.indexValid (int32 n)).bind fun s ↦ if s = .ok then indicesValidFrom t rounds
      (n + 1) else some s

/-- `IndicesValid`. -/
def indicesValid (t : SparseTensor α) : Option Status :=
  if t.order.any fun ord ↦ ord < 0 then some (.error .failedPrecondition
    (ascii "Order was not provided.  Provide an order at construction time or run ReorderInPlace"))
  else t.indicesValidFrom t.numEntries 0

/-! ## `Reorder` -/

/-- `DimComparator`, and `FixedDimComparator`. -/
def precedes (t : SparseTensor α) : List ℤ → ℕ → ℕ → Bool
  | [], _, _ => false
  | d :: order, i, j =>
    if t.ix i d.toNat < t.ix j d.toNat then true
    else if t.ix j d.toNat < t.ix i d.toNat then false
    else precedes t order i j

/-- `reorder`: the numbers of the rows, sorted. -/
def sortedRows (t : SparseTensor α) (order : List ℤ) : List ℕ :=
  (List.range t.numEntries).mergeSort fun i j ↦ !t.precedes order j i

/-- `permutation[reorder[n]] = n`, for all `n`. -/
def invert (reorder : List ℕ) : ℕ → ℕ :=
  reorder.zipIdx.foldl (fun permutation r ↦ Function.update permutation r.1 r.2) fun _ ↦ 0

/-- The arrays that are permuted. -/
structure Reordering (α : Type) where
  ix : ℕ → ℕ → ℤ
  vals : ℕ → α
  permutation : ℕ → ℕ

/-- `std::swap_ranges` on the rows, and `std::swap` on the values and in `permutation`. -/
def Reordering.swap (n r : ℕ) (s : Reordering α) : Reordering α where
  ix := s.ix ∘ Equiv.swap n r
  vals := s.vals ∘ Equiv.swap n r
  permutation := s.permutation ∘ Equiv.swap n r

/-- `Reorder`, with the `CHECK`s of the comparator. -/
def reorder (t : SparseTensor α) (order : List ℤ) : Option (SparseTensor α) :=
  if hlength : order.length = t.shape.length then
    if 0 < order.length ∧ ∀ d ∈ order, 0 ≤ d ∧ d < t.dims then
      (CycleSwaps.applyCycles Reordering.permutation Reordering.swap t.numEntries
        ⟨t.ix, t.vals, invert (t.sortedRows order)⟩).map fun s ↦
          { t with ix := s.ix, vals := s.vals, order := order, order_length := hlength }
    else none
  else none

end SparseTensor

/-!
## `Split` and `Concat`

`Split` sorts the entries of a `SparseTensor` into slices along a dimension, and `Concat` puts
tensors together along the first dimension of their order. Entries are counted with `int`s. What a
new tensor holds before it is written to is its default.
-/

namespace SparseTensor

variable {α σ : Type}

/-! ## Loops over the entries -/

/-- The rounds that are left of a loop `for (int i = 0; i < n; ++i)`. There is no entry with a
negative number. -/
def intLoopFrom (n : ℕ) (body : σ → ℕ → Option σ) : ℕ → ℤ → σ → Option σ
  | 0, _, _ => none
  | rounds + 1, i, s =>
    if (n : ℤ) ≤ i then some s
    else if i < 0 then none
    else (body s i.toNat).bind (intLoopFrom n body rounds (int32 (i + 1)))

/-- The loop. Without an overflow it ends after `n` rounds. -/
def intLoop (n : ℕ) (body : σ → ℕ → Option σ) (s : σ) : Option σ := intLoopFrom n body (n + 1) 0 s

/-! ## Shapes -/

/-- `set_dim`. -/
def setDim (shape : List ℕ) (d : ℕ) (size : ℤ) : Option (List ℕ) :=
  if d < shape.length ∧ 0 ≤ size then some (shape.set d size.toNat) else none

/-- `UndefinedOrder`. -/
def undefinedOrder (shape : List ℕ) : List ℤ := List.replicate shape.length (-1)

/-- The constructor, with the limits of a shape. -/
def ofParts (numEntries : ℕ) (ix : ℕ → ℕ → ℤ) (vals : ℕ → α) (shape : List ℕ) (order : List ℤ) :
    Option (SparseTensor α) :=
  if h : (∀ size ∈ shape, size < 2 ^ 63) ∧ shape.length ≤ 255 ∧ order.length = shape.length then
    some ⟨numEntries, ix, vals, shape, order, h.1, h.2.1, h.2.2⟩
  else none

/-! ## `Split` -/

/-- `GetSliceIndex`. -/
def getSliceIndex (dim splitSize residual : ℤ) : Option ℤ :=
  if 0 < splitSize ∧ 0 ≤ dim then
    let offset := int32 (residual * (splitSize + 1))
    some <|
      if residual = 0 then dim.tdiv splitSize
      else if dim < offset then dim.tdiv (splitSize + 1)
      else residual + (dim - offset).tdiv splitSize
  else none

/-- `GetDimensionInSlice`. -/
def getDimensionInSlice (dim splitSize residual : ℤ) : Option ℤ :=
  if 0 < splitSize ∧ 0 ≤ dim then
    let offset := int32 (residual * (splitSize + 1))
    some <|
      if residual = 0 then dim.tmod splitSize
      else if dim < offset then dim.tmod (splitSize + 1)
      else (dim - offset).tmod splitSize
  else none

/-- `GetSliceShape`. -/
def getSliceShape (sliceIndex splitSize residual : ℤ) : Option ℤ :=
  if 0 < splitSize ∧ 0 ≤ sliceIndex then
    some <|
      if residual = 0 then splitSize
      else if sliceIndex < residual then splitSize + 1
      else splitSize
  else none

/-- The values of `split_dim`, `num_split`, `split_size` and `residual`. -/
structure SplitParams where
  splitDim : ℕ
  numSplit : ℤ
  splitSize : ℤ
  residual : ℤ

/-- The slice of an entry, which must be one of those that there are. -/
def SplitParams.slice (c : SplitParams) (t : SparseTensor α) (i : ℕ) : Option ℕ :=
  (getSliceIndex (int32 (t.ix i c.splitDim)) c.splitSize c.residual).bind fun sliceIndex ↦
    if 0 ≤ sliceIndex ∧ sliceIndex < c.numSplit then some sliceIndex.toNat else none

/-- One round of the loop that counts the entries of each slice. -/
def countRound (c : SplitParams) (t : SparseTensor α) (numValues : ℕ → ℕ) (i : ℕ) :
    Option (ℕ → ℕ) :=
  (c.slice t i).map fun sliceIndex ↦ Function.update numValues sliceIndex (numValues sliceIndex + 1)

/-- The slices, with the numbers of entries that have been inserted in them. -/
structure Slices (α : Type) where
  valuesInsertedInSlice : ℕ → ℕ
  outputIndices : ℕ → ℕ → ℕ → ℤ
  outputValues : ℕ → ℕ → α

/-- An entry goes behind those that the slice has. -/
def Slices.insert (s : Slices α) (sliceIndex : ℕ) (row : ℕ → ℤ) (value : α) : Slices α :=
  let sliceDim := s.valuesInsertedInSlice sliceIndex
  { valuesInsertedInSlice := Function.update s.valuesInsertedInSlice sliceIndex (sliceDim + 1)
    outputIndices :=
      Function.update s.outputIndices sliceIndex
        (Function.update (s.outputIndices sliceIndex) sliceDim row)
    outputValues :=
      Function.update s.outputValues sliceIndex
        (Function.update (s.outputValues sliceIndex) sliceDim value) }

/-- One round of the loop that copies the entries, with the sizes of the slices. -/
def splitRound (c : SplitParams) (t : SparseTensor α) (numValues : ℕ → ℕ) (s : Slices α) (i : ℕ) :
    Option (Slices α) := do
  let sliceIndex ← c.slice t i
  let dimensionInSlice ← getDimensionInSlice (int32 (t.ix i c.splitDim)) c.splitSize c.residual
  if s.valuesInsertedInSlice sliceIndex < numValues sliceIndex then
    some (s.insert sliceIndex (Function.update (t.ix i) c.splitDim dimensionInSlice) (t.vals i))
  else none

/-- A slice. -/
def sliceTensor (c : SplitParams) (t : SparseTensor α) (numValues : ℕ → ℕ) (s : Slices α) (i : ℕ) :
    Option (SparseTensor α) := do
  let size ← getSliceShape i c.splitSize c.residual
  let shape ← setDim t.shape c.splitDim size
  ofParts (numValues i) (s.outputIndices i) (s.outputValues i) shape (undefinedOrder shape)

/-- `Split`. -/
def split [Inhabited α] (t : SparseTensor α) (splitDim numSplit : ℤ) :
    Option (List (SparseTensor α)) :=
  let splitDimSize := int32 (t.dimSize splitDim.toNat)
  if (0 < numSplit ∧ numSplit ≤ splitDimSize) ∧ 0 ≤ splitDim ∧ splitDim < t.dims then do
    let c : SplitParams :=
      ⟨splitDim.toNat, numSplit, splitDimSize.tdiv numSplit, splitDimSize.tmod numSplit⟩
    let numValues ← intLoop t.numEntries (countRound c t) fun _ ↦ 0
    let slices ← intLoop t.numEntries (splitRound c t numValues) ⟨fun _ ↦ 0, fun _ _ _ ↦ 0,
      fun _ _ ↦ default⟩
    (List.range numSplit.toNat).mapM (sliceTensor c t numValues slices)
  else none

/-! ## `Concat` -/

/-- What `Concat` builds up in its first loop. -/
structure ConcatShape where
  finalShape : List ℕ
  numEntries : ℤ
  fullyOrdered : Bool

/-- One round of it. -/
def concatShapeRound (dims : ℕ) (primaryDim : ℤ) (finalOrder : List ℤ) (s : ConcatShape)
    (st : SparseTensor α) :
    Option ConcatShape :=
  if st.dims = dims ∧ 0 ≤ st.order.getD 0 0 ∧ st.order.getD 0 0 = primaryDim ∧
      ∀ d < dims - 1, let cdim := if (d : ℤ) < primaryDim then d else d + 1
        s.finalShape.getD cdim 0 = st.dimSize cdim then
    (setDim s.finalShape primaryDim.toNat
      (int64 (s.finalShape.getD primaryDim.toNat 0 + st.dimSize primaryDim.toNat))).map
      fun finalShape ↦
        { finalShape
          numEntries := int32 (s.numEntries + st.numEntries)
          fullyOrdered := s.fullyOrdered && decide (st.order = finalOrder) }
  else none

/-- The entries that have been put together. -/
structure Joined (α : Type) where
  offset : ℕ
  shapeOffset : ℤ
  outputIx : ℕ → ℕ → ℤ
  outputVals : ℕ → α

/-- One round of the second loop. -/
def joinRound (primaryDim : ℕ) (s : Joined α) (st : SparseTensor α) : Option (Joined α) :=
  if int32 st.numEntries = st.numEntries then
    let inSlice (n : ℕ) : Bool := s.offset ≤ n && n < s.offset + st.numEntries
    some {
      offset := s.offset + st.numEntries
      shapeOffset := int64 (s.shapeOffset + st.dimSize primaryDim)
      outputIx := fun n j ↦
        if inSlice n then
          if j = primaryDim then int64 (st.ix (n - s.offset) j + s.shapeOffset) else st.ix
            (n - s.offset) j
        else s.outputIx n j
      outputVals := fun n ↦ if inSlice n then st.vals (n - s.offset) else s.outputVals n }
  else none

/-- `Concat` along the first dimension of the first tensor's order. The output has room for as many
entries as have been counted. -/
def concatAlong [Inhabited α] (primaryDim : ℤ) (t₀ : SparseTensor α)
    (tensors : List (SparseTensor α)) :
    Option (SparseTensor α) :=
  if primaryDim < 0 then none
  else do
    let finalShape ← setDim t₀.shape primaryDim.toNat 0
    let s ← tensors.foldlM (concatShapeRound t₀.dims primaryDim t₀.order) ⟨finalShape, 0, true⟩
    let joined ← tensors.foldlM (joinRound primaryDim.toNat) ⟨0, 0, fun _ _ ↦ 0, fun _ ↦ default⟩
    if s.numEntries = joined.offset then
      ofParts joined.offset joined.outputIx joined.outputVals s.finalShape
        (if s.fullyOrdered then t₀.order else undefinedOrder s.finalShape)
    else none

/-- `Concat`. -/
def concat [Inhabited α] (tensors : List (SparseTensor α)) : Option (SparseTensor α) :=
  match tensors with
  | [] => none
  | t₀ :: _ => if 1 ≤ t₀.dims then concatAlong (int32 (t₀.order.getD 0 0)) t₀ tensors else none

/-- The tensor, re-created with an order. -/
def withOrder (t : SparseTensor α) (order : List ℤ) : Option (SparseTensor α) :=
  ofParts t.numEntries t.ix t.vals t.shape order

end SparseTensor

end TensorFlowCore
