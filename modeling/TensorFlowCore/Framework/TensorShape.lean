import TensorFlowCore.Core.Status
import TensorFlowCore.Support.GuardedRun
import TensorFlowCore.Support.WrappedProduct

/-!
# `TensorShape`

The shape of a tensor, from `tensorflow/core/framework/tensor_shape.cc`: its dimension sizes, packed
in one of three layouts, and the number of elements, which is kept beside them as an `int64`. A
failed `CHECK` ends the process; an operation that can fail one returns an `Option`.

The number of elements is always the residue of the product of the sizes modulo `2 ^ 64`
(`Good`, which every call keeps: `good_of_run`). `kMaxElements` is compared with that residue,
after the multiplication, so a product that has wrapped around can pass for a small one. What
`IsValid` accepts is `isValid_iff`, and how far the number can be trusted is
`sound_iff_and_numElements_iff`.

The data type that `Tensor` keeps in the spare byte of the layout is left out.
-/

namespace TensorFlowCore

open List WrappedProduct

/-- The layouts of the 16-byte buffer: `REP16`, `REP32` and `REP_OUT_OF_LINE`. `ndims_byte` is the
length of the list. -/
inductive TensorShape.Rep where
  | rep16 (dims : List Int16)
  | rep32 (dims : List Int32)
  | outOfLine (dims : List Int64)
  deriving DecidableEq

structure TensorShape where
  rep : TensorShape.Rep
  numElements : Int64
  deriving DecidableEq

/-- The sizes of the dimensions of a `TensorShapeProto`. -/
abbrev TensorShapeProto := List Int64

namespace TensorShape

def kMaxElements : Int64 := (1 : Int64) <<< 40

def maxDimensions : ℕ := 255

def kMaxRep16 : Int64 := 32768

def kMaxRep32 : Int64 := ((1 : Int64) <<< 31) - 1

namespace Rep

/-- `AppendTo`: the sizes, widened. -/
def sizes : Rep → List Int64
  | rep16 dims => dims.map Int16.toInt64
  | rep32 dims => dims.map Int32.toInt64
  | outOfLine dims => dims

/-- The layout `AddDim` changes to when the current one cannot hold `vals`. -/
def changeRepresentation (vals : List Int64) : Rep :=
  if vals.length ≤ 3 ∧ (vals.all fun v ↦ v < kMaxRep32) then .rep32 (vals.map Int64.toInt32)
  else .outOfLine vals

def addDim : Rep → Int64 → Rep
  | rep16 dims, size =>
    if dims.length < 6 ∧ size < kMaxRep16 then rep16 (dims ++ [size.toInt16])
    else changeRepresentation ((rep16 dims).sizes ++ [size])
  | rep32 dims, size =>
    if dims.length < 3 ∧ size < kMaxRep32 then rep32 (dims ++ [size.toInt32])
    else changeRepresentation ((rep32 dims).sizes ++ [size])
  | outOfLine dims, size => outOfLine (dims ++ [size])

/-- The stores of `set_dim` that keep the layout, when `size` fits in it. -/
def setDim? : Rep → ℕ → Int64 → Option Rep
  | rep16 dims, d, size => if size < kMaxRep16 then some (rep16 (dims.set d size.toInt16)) else none
  | rep32 dims, d, size => if size < kMaxRep32 then some (rep32 (dims.set d size.toInt32)) else none
  | outOfLine dims, d, size => some (outOfLine (dims.set d size))

end Rep

/-- `TensorShape()`, which is also what `ClearAllButDataType` leaves. -/
def empty : TensorShape := ⟨.rep16 [], 1⟩

def dimSizes (s : TensorShape) : List Int64 := s.rep.sizes

/-- `dims`. -/
def dims (s : TensorShape) : ℕ := s.dimSizes.length

/-- `DebugString` of a proto, and of a shape with these sizes. -/
def debugString (proto : TensorShapeProto) : ByteString :=
  ascii "[" ++ (ascii ",").intercalate (proto.map fun d ↦ decimalInt d.toInt) ++ ascii "]"

/-- The loop of `IsValid`. -/
def isValidFrom (numElements : Int64) : TensorShapeProto → Bool
  | [] => true
  | d :: proto =>
    if d < 0 then false
    else if kMaxElements < numElements * d then false
    else isValidFrom (numElements * d) proto

def isValid (proto : TensorShapeProto) : Bool :=
  if maxDimensions < proto.length then false else isValidFrom 1 proto

/-- The loop of `IsValidShape`. -/
def isValidShapeFrom (proto : TensorShapeProto) (numElements : Int64) : List Int64 → Status
  | [] => .ok
  | d :: ds =>
    if d < 0 then
      invalidArgument [ascii "Shape ", debugString proto, ascii " has negative dimensions"]
    else if kMaxElements < numElements * d then
      invalidArgument [ascii "Shape ", debugString proto, ascii " is too large (more than ",
        decimalInt kMaxElements.toInt, ascii " entries)"]
    else isValidShapeFrom proto (numElements * d) ds

def isValidShape (proto : TensorShapeProto) : Status :=
  if maxDimensions < proto.length then
    invalidArgument [ascii "Shape ", debugString proto, ascii " has too many dimensions"]
  else isValidShapeFrom proto 1 proto

/-- The `CHECK`s on the number of elements after a multiplication. -/
def checkNumElements (n : Int64) : Option Int64 :=
  if 0 ≤ n ∧ n ≤ kMaxElements then some n else none

def addDim (s : TensorShape) (size : Int64) : Option TensorShape :=
  if 0 ≤ size ∧ s.dims < maxDimensions then
    (checkNumElements (s.numElements * size)).map fun n ↦ ⟨s.rep.addDim size, n⟩
  else none

/-- `AddDim` on each of the sizes in turn. -/
def addDims (s : TensorShape) (vals : List Int64) : Option TensorShape :=
  vals.foldlM addDim s

/-- `TensorShape(proto)` and `TensorShape(dim_sizes)`. -/
def ofProto (proto : TensorShapeProto) : Option TensorShape := empty.addDims proto

def recomputeNumElements (s : TensorShape) : Option TensorShape :=
  (s.dimSizes.foldlM (fun n size ↦ checkNumElements (n * size)) 1).map fun n ↦
    { s with numElements := n }

def insertDim (s : TensorShape) (d : ℤ) (size : Int64) : Option TensorShape :=
  if 0 ≤ d ∧ d ≤ s.dims ∧ 0 ≤ size ∧ s.dims < maxDimensions then
    empty.addDims (s.dimSizes.insertIdx d.toNat size)
  else none

def setDim (s : TensorShape) (d : ℤ) (size : Int64) : Option TensorShape :=
  if 0 ≤ d ∧ d < s.dims ∧ 0 ≤ size then
    match s.rep.setDim? d.toNat size with
    | some rep => recomputeNumElements { s with rep }
    -- the layout cannot hold `size`: "Must upgrade"
    | none => (empty.addDims (s.dimSizes.set d.toNat size)).bind recomputeNumElements
  else none

def removeDim (s : TensorShape) (d : ℤ) : Option TensorShape :=
  if 0 ≤ d ∧ d < s.dims then
    (empty.addDims (s.dimSizes.eraseIdx d.toNat)).bind recomputeNumElements
  else none

/-- The loop of `MakeShapeHelper`: what `*out` holds at the end, and the status. -/
def makeShapeLoop (out : TensorShape) : List Int64 → Option (TensorShape × Status)
  | [] => some (out, .ok)
  | dim :: dims =>
    if 0 ≤ dim then (out.addDim dim).bind fun out' ↦ makeShapeLoop out' dims
    else some (out, invalidArgument
      [ascii "Dimension ", decimalInt dim.toInt, ascii " must be >= 0"])

/-- `MakeShapeHelper`; `n` is the number of entries of `dims` to read. -/
def makeShapeHelper (dims : List Int64) (n : ℤ) : Option (TensorShape × Status) :=
  if maxDimensions < n then
    some (empty, invalidArgument [ascii "Too many dimensions"])
  else if n < 0 then
    some (empty, invalidArgument [ascii "Negative number of dimensions ", decimalInt n])
  else makeShapeLoop empty (dims.take n.toNat)

/-- The calls that change a shape. -/
inductive Op where
  | addDim (size : Int64)
  | insertDim (d : ℤ) (size : Int64)
  | setDim (d : ℤ) (size : Int64)
  | removeDim (d : ℤ)
  | makeShape (dims : List Int64) (n : ℤ)

/-- The shape after a call whose `CHECK`s pass. -/
def step (s : TensorShape) : Op → Option TensorShape
  | .addDim size => s.addDim size
  | .insertDim d size => s.insertDim d size
  | .setDim d size => s.setDim d size
  | .removeDim d => s.removeDim d
  | .makeShape dims n => (makeShapeHelper dims n).map Prod.fst

/-- What a call does to the list of sizes. -/
def Op.onSizes : Op → List Int64 → List Int64
  | .addDim size, vals => vals ++ [size]
  | .insertDim d size, vals => vals.insertIdx d.toNat size
  | .setDim d size, vals => vals.set d.toNat size
  | .removeDim d, vals => vals.eraseIdx d.toNat
  | .makeShape dims n, _ =>
    if maxDimensions < n ∨ n < 0 then [] else (dims.take n.toNat).takeWhile (0 ≤ ·)

/-! ## The layouts -/

theorem toInt_kMaxElements : kMaxElements.toInt = 2 ^ 40 := by decide

theorem nonneg_iff {x : Int64} : 0 ≤ x ↔ 0 ≤ x.toInt := Int64.le_iff_toInt_le

theorem le_kMaxElements_iff {x : Int64} : x ≤ kMaxElements ↔ x.toInt ≤ 2 ^ 40 := by
  rw [Int64.le_iff_toInt_le, toInt_kMaxElements]

theorem toInt64_toInt16 {x : Int64} (h0 : 0 ≤ x) (h : x < kMaxRep16) : x.toInt16.toInt64 = x := by
  have hlo : 0 ≤ x.toInt := nonneg_iff.1 h0
  have hhi : x.toInt < 32768 := Int64.lt_iff_toInt_lt.1 h
  refine Int64.toInt_inj.1 ?_
  rw [Int16.toInt_toInt64, Int64.toInt_toInt16]
  exact Int.bmod_eq_of_le (by omega) (by omega)

theorem toInt64_toInt32 {x : Int64} (h0 : 0 ≤ x) (h : x < kMaxRep32) : x.toInt32.toInt64 = x := by
  have hlo : 0 ≤ x.toInt := nonneg_iff.1 h0
  have hhi : x.toInt < 2147483647 := Int64.lt_iff_toInt_lt.1 h
  refine Int64.toInt_inj.1 ?_
  rw [Int32.toInt_toInt64, Int64.toInt_toInt32]
  exact Int.bmod_eq_of_le (by omega) (by omega)

namespace Rep

theorem sizes_changeRepresentation (h : ∀ v ∈ vals, 0 ≤ v) :
    (changeRepresentation vals).sizes = vals := by
  unfold changeRepresentation
  split
  · next hfit =>
    show (vals.map Int64.toInt32).map Int32.toInt64 = vals
    rw [map_map]
    calc vals.map (Int32.toInt64 ∘ Int64.toInt32) = vals.map id :=
          map_congr_left fun v hv ↦
            toInt64_toInt32 (h v hv) (of_decide_eq_true (all_eq_true.1 hfit.2 v hv))
      _ = vals := map_id vals
  · rfl

/-- Whatever layout `AddDim` chooses, it appends the size. -/
theorem sizes_addDim {r : Rep} (hr : ∀ v ∈ r.sizes, 0 ≤ v) (hsize : 0 ≤ size) :
    (r.addDim size).sizes = r.sizes ++ [size] := by
  have hall : ∀ v ∈ r.sizes ++ [size], 0 ≤ v := fun v hv ↦ by
    obtain hv | hv := mem_append.1 hv
    · exact hr v hv
    · exact mem_singleton.1 hv ▸ hsize
  cases r with
  | rep16 dims =>
    rw [addDim]
    split
    · next h =>
      show (dims ++ [size.toInt16]).map Int16.toInt64 = dims.map Int16.toInt64 ++ [size]
      rw [map_append, map_singleton, toInt64_toInt16 hsize h.2]
    · exact sizes_changeRepresentation hall
  | rep32 dims =>
    rw [addDim]
    split
    · next h =>
      show (dims ++ [size.toInt32]).map Int32.toInt64 = dims.map Int32.toInt64 ++ [size]
      rw [map_append, map_singleton, toInt64_toInt32 hsize h.2]
    · exact sizes_changeRepresentation hall
  | outOfLine dims => rfl

theorem sizes_of_setDim? {r r' : Rep} {d : ℕ} (hsize : 0 ≤ size) (h : r.setDim? d size = some r') :
    r'.sizes = r.sizes.set d size := by
  cases r with
  | rep16 dims =>
    obtain ⟨hfit, hr'⟩ := Option.ite_none_right_eq_some.1 h
    cases hr'
    show (dims.set d size.toInt16).map Int16.toInt64 = (dims.map Int16.toInt64).set d size
    rw [map_set, toInt64_toInt16 hsize hfit]
  | rep32 dims =>
    obtain ⟨hfit, hr'⟩ := Option.ite_none_right_eq_some.1 h
    cases hr'
    show (dims.set d size.toInt32).map Int32.toInt64 = (dims.map Int32.toInt64).set d size
    rw [map_set, toInt64_toInt32 hsize hfit]
  | outOfLine dims =>
    cases h
    rfl

end Rep

/-! ## The number of elements -/

/-- What holds of every shape: its number of elements is the residue of the product of its sizes,
and has passed the checks. -/
structure Good (s : TensorShape) : Prop where
  nonneg : ∀ size ∈ s.dimSizes, 0 ≤ size
  dims_le : s.dims ≤ maxDimensions
  residue : s.numElements.toInt = (exactProduct s.dimSizes).bmod (2 ^ 64)
  range : 0 ≤ s.numElements ∧ s.numElements ≤ kMaxElements

theorem good_empty : Good empty where
  nonneg := nofun
  dims_le := Nat.zero_le _
  residue := by decide
  range := by decide

theorem checkNumElements_eq_some_iff {n m : Int64} :
    checkNumElements n = some m ↔ n = m ∧ 0 ≤ m ∧ m ≤ kMaxElements := by
  unfold checkNumElements
  rw [Option.ite_none_right_eq_some, Option.some.injEq]
  exact ⟨fun ⟨h, heq⟩ ↦ ⟨heq, heq ▸ h⟩, fun ⟨heq, h⟩ ↦ ⟨heq ▸ h, heq⟩⟩

/-- `AddDim` appends a size and multiplies the number of elements by it. -/
theorem addDim_eq_some {s s' : TensorShape} (h : s.addDim size = some s') :
    0 ≤ size ∧ s.dims < maxDimensions ∧
      s' = ⟨s.rep.addDim size, s.numElements * size⟩ ∧
      0 ≤ s'.numElements ∧ s'.numElements ≤ kMaxElements := by
  obtain ⟨⟨hsize, hdims⟩, hmap⟩ := Option.ite_none_right_eq_some.1 h
  obtain ⟨n, hn, rfl⟩ := Option.map_eq_some_iff.1 hmap
  obtain ⟨rfl, hrange⟩ := checkNumElements_eq_some_iff.1 hn
  exact ⟨hsize, hdims, rfl, hrange⟩

theorem Good.addDim {s s' : TensorShape} (hs : Good s) (h : s.addDim size = some s') :
    Good s' ∧ s'.dimSizes = s.dimSizes ++ [size] := by
  obtain ⟨hsize, hdims, hs', hrange⟩ := addDim_eq_some h
  have hsizes : s'.dimSizes = s.dimSizes ++ [size] := by
    rw [hs']
    exact Rep.sizes_addDim hs.nonneg hsize
  refine ⟨⟨fun v hv ↦ ?_, ?_, ?_, hrange⟩, hsizes⟩
  · rw [hsizes] at hv
    obtain hv | hv := mem_append.1 hv
    · exact hs.nonneg v hv
    · exact mem_singleton.1 hv ▸ hsize
  · rw [dims, hsizes, length_append]
    exact hdims
  · rw [hsizes, exactProduct_append, hs', toInt_mul_of_residue hs.residue, exactProduct_cons,
      exactProduct_nil, mul_one]

theorem addDims_cons {s s' : TensorShape} {v : Int64} :
    s.addDims (v :: vals) = some s' ↔ ∃ t, s.addDim v = some t ∧ t.addDims vals = some s' := by
  rw [addDims, foldlM_cons]
  exact Option.bind_eq_some_iff

theorem Good.addDims {s s' : TensorShape} (hs : Good s) (h : s.addDims vals = some s') :
    Good s' ∧ s'.dimSizes = s.dimSizes ++ vals := by
  induction vals generalizing s with
  | nil =>
    obtain rfl : s = s' := Option.some.inj h
    exact ⟨hs, (append_nil _).symm⟩
  | cons v vals ih =>
    obtain ⟨t, ht, h⟩ := addDims_cons.1 h
    obtain ⟨ht', hsizes⟩ := hs.addDim ht
    obtain ⟨hs', hsizes'⟩ := ih ht' h
    exact ⟨hs', by rw [hsizes', hsizes, append_assoc, singleton_append]⟩

/-- The loop of `RecomputeNumElements`. -/
theorem toInt_of_recompute {n m : Int64} {x : ℤ} (hn : n.toInt = x.bmod (2 ^ 64))
    (hrange : 0 ≤ n ∧ n ≤ kMaxElements)
    (h : vals.foldlM (fun n size ↦ checkNumElements (n * size)) n = some m) :
    m.toInt = (x * exactProduct vals).bmod (2 ^ 64) ∧ 0 ≤ m ∧ m ≤ kMaxElements := by
  induction vals generalizing n x with
  | nil =>
    obtain rfl : n = m := Option.some.inj h
    exact ⟨by rw [exactProduct_nil, mul_one, hn], hrange⟩
  | cons v vals ih =>
    rw [foldlM_cons] at h
    obtain ⟨k, hk, h⟩ := Option.bind_eq_some_iff.1 h
    obtain ⟨rfl, hk⟩ := checkNumElements_eq_some_iff.1 hk
    have hm := ih (toInt_mul_of_residue hn v) hk h
    rwa [mul_assoc] at hm

/-- `RecomputeNumElements` restores the number of elements from the sizes. -/
theorem good_of_recomputeNumElements {s s' : TensorShape}
    (hnonneg : ∀ size ∈ s.dimSizes, 0 ≤ size) (hdims : s.dims ≤ maxDimensions)
    (h : s.recomputeNumElements = some s') : Good s' ∧ s'.dimSizes = s.dimSizes := by
  obtain ⟨n, hn, rfl⟩ := Option.map_eq_some_iff.1 h
  obtain ⟨hres, hrange⟩ := toInt_of_recompute (x := 1) (by decide) (by decide) hn
  exact ⟨⟨hnonneg, hdims, by rwa [one_mul] at hres, hrange⟩, rfl⟩

theorem Good.recomputeNumElements {s s' : TensorShape} (hs : Good s)
    (h : s.recomputeNumElements = some s') : Good s' ∧ s'.dimSizes = s.dimSizes :=
  good_of_recomputeNumElements hs.nonneg hs.dims_le h

/-- A shape rebuilt by `AddDim`s and recomputed has the sizes it was rebuilt from. -/
theorem good_of_rebuild {s' : TensorShape}
    (h : (empty.addDims vals).bind recomputeNumElements = some s') :
    Good s' ∧ s'.dimSizes = vals := by
  obtain ⟨t, ht, h⟩ := Option.bind_eq_some_iff.1 h
  obtain ⟨hgood, hsizes⟩ := good_empty.addDims ht
  obtain ⟨hgood', hsizes'⟩ := hgood.recomputeNumElements h
  exact ⟨hgood', hsizes'.trans hsizes⟩

/-- A size that is written over another one keeps within the limits. -/
theorem Good.sizes_of_setDim? {s : TensorShape} {d : ℕ} {rep : Rep} (hs : Good s)
    (hsize : 0 ≤ size) (h : s.rep.setDim? d size = some rep) :
    rep.sizes = s.dimSizes.set d size ∧ (∀ v ∈ rep.sizes, 0 ≤ v) ∧
      rep.sizes.length ≤ maxDimensions := by
  have hsizes : rep.sizes = s.dimSizes.set d size := Rep.sizes_of_setDim? hsize h
  rw [hsizes, length_set]
  refine ⟨rfl, fun v hv ↦ ?_, hs.dims_le⟩
  obtain hv | rfl := mem_or_eq_of_mem_set hv
  · exact hs.nonneg v hv
  · exact hsize

theorem Good.setDim {s s' : TensorShape} {d : ℤ} (hs : Good s) (h : s.setDim d size = some s') :
    Good s' ∧ s'.dimSizes = s.dimSizes.set d.toNat size := by
  obtain ⟨⟨-, -, hsize⟩, h⟩ := Option.ite_none_right_eq_some.1 h
  split at h
  · next rep hrep =>
    obtain ⟨hsizes, hnonneg, hlen⟩ := hs.sizes_of_setDim? hsize hrep
    obtain ⟨hgood, heq⟩ := good_of_recomputeNumElements (s := { s with rep }) hnonneg hlen h
    exact ⟨hgood, heq.trans hsizes⟩
  · exact good_of_rebuild h

theorem good_of_makeShapeLoop {out s' : TensorShape} {status : Status} (hout : Good out)
    (h : makeShapeLoop out vals = some (s', status)) :
    Good s' ∧ s'.dimSizes = out.dimSizes ++ vals.takeWhile (0 ≤ ·) := by
  induction vals generalizing out with
  | nil =>
    cases h
    exact ⟨hout, (append_nil _).symm⟩
  | cons v vals ih =>
    rw [makeShapeLoop] at h
    split at h
    · next hv =>
      obtain ⟨t, ht, h⟩ := Option.bind_eq_some_iff.1 h
      obtain ⟨hgood, hsizes⟩ := hout.addDim ht
      obtain ⟨hgood', hsizes'⟩ := ih hgood h
      refine ⟨hgood', ?_⟩
      rw [hsizes', hsizes, append_assoc, singleton_append, takeWhile_cons,
        if_pos (decide_eq_true hv)]
    · next hv =>
      cases h
      refine ⟨hout, ?_⟩
      rw [takeWhile_cons_of_neg (by simpa using hv), append_nil]

theorem good_of_makeShapeHelper {n : ℤ} {s' : TensorShape}
    (h : (makeShapeHelper vals n).map Prod.fst = some s') :
    Good s' ∧ s'.dimSizes = (Op.makeShape vals n).onSizes [] := by
  obtain ⟨⟨t, status⟩, ht, rfl⟩ := Option.map_eq_some_iff.1 h
  unfold makeShapeHelper at ht
  by_cases hmany : maxDimensions < n
  · rw [if_pos hmany] at ht
    cases ht
    exact ⟨good_empty, (if_pos (.inl hmany)).symm⟩
  · rw [if_neg hmany] at ht
    by_cases hneg : n < 0
    · rw [if_pos hneg] at ht
      cases ht
      exact ⟨good_empty, (if_pos (.inr hneg)).symm⟩
    · rw [if_neg hneg] at ht
      obtain ⟨hgood, hsizes⟩ := good_of_makeShapeLoop good_empty ht
      exact ⟨hgood, hsizes.trans (if_neg (not_or_intro hmany hneg)).symm⟩

/-- Every call whose checks pass does to the sizes what its name says, and leaves their product,
modulo `2 ^ 64`, as the number of elements. -/
theorem Good.step {s s' : TensorShape} {op : Op} (hs : Good s) (h : step s op = some s') :
    Good s' ∧ s'.dimSizes = op.onSizes s.dimSizes := by
  cases op with
  | addDim size => exact hs.addDim h
  | insertDim d size =>
    obtain ⟨-, h⟩ := Option.ite_none_right_eq_some.1 h
    exact good_empty.addDims h
  | setDim d size => exact hs.setDim h
  | removeDim d =>
    obtain ⟨-, h⟩ := Option.ite_none_right_eq_some.1 h
    exact good_of_rebuild h
  | makeShape dims n => exact good_of_makeShapeHelper h

/-! ## How far the number of elements can be trusted -/

/-- The sizes that a sequence of calls describes, whatever becomes of the number of elements. -/
def sizesAfter (vals : List Int64) (ops : List Op) : List Int64 :=
  ops.foldl (fun vals op ↦ op.onSizes vals) vals

theorem good_of_run {s s' : TensorShape} {ops : List Op} (hs : Good s)
    (h : GuardedRun.run step s ops = some s') :
    Good s' ∧ s'.dimSizes = sizesAfter s.dimSizes ops := by
  induction ops generalizing s with
  | nil =>
    obtain rfl : s = s' := Option.some.inj h
    exact ⟨hs, rfl⟩
  | cons op ops ih =>
    obtain ⟨t, ht, h⟩ := GuardedRun.run_cons_eq_some.1 h
    obtain ⟨hgood, hsizes⟩ := hs.step ht
    obtain ⟨hgood', hsizes'⟩ := ih hgood h
    exact ⟨hgood', by rw [hsizes', hsizes]; rfl⟩

theorem Good.exactProduct_nonneg {s : TensorShape} (hs : Good s) : 0 ≤ exactProduct s.dimSizes :=
  WrappedProduct.exactProduct_nonneg fun v hv ↦ nonneg_iff.1 (hs.nonneg v hv)

/-- The number of elements is the product of the sizes exactly when that product is within the
limit. -/
theorem Good.numElements_eq_iff {s : TensorShape} (hs : Good s) :
    s.numElements.toInt = exactProduct s.dimSizes ↔ exactProduct s.dimSizes ≤ 2 ^ 40 := by
  refine ⟨fun h ↦ h ▸ le_kMaxElements_iff.1 hs.range.2, fun h ↦ ?_⟩
  rw [hs.residue]
  exact bmod_of_fits hs.exactProduct_nonneg (by omega)

/-- A shape whose dimensions are positive and whose number of elements is their product. -/
structure Regular (s : TensorShape) : Prop where
  good : Good s
  exactProduct_le : exactProduct s.dimSizes ≤ 2 ^ 40
  pos : ∀ size ∈ s.dimSizes, 0 < size.toInt

/-! ## What `IsValid` accepts -/

/-- The shapes `IsValid` is meant to accept. -/
structure WithinLimits (proto : TensorShapeProto) : Prop where
  length_le : proto.length ≤ maxDimensions
  nonneg : ∀ d ∈ proto, 0 ≤ d
  exactProduct_le : ∀ p, p <+: proto → exactProduct p ≤ 2 ^ 40

/-- The sizes whose product exceeds the limit unnoticed: some partial product is beyond it, and the
residue of every one of them, as a signed word, is not. -/
structure WrapsBack (proto : TensorShapeProto) : Prop where
  length_le : proto.length ≤ maxDimensions
  nonneg : ∀ d ∈ proto, 0 ≤ d
  exceeds : ∃ p, p <+: proto ∧ 2 ^ 40 < exactProduct p
  residue_le : ∀ p, p <+: proto → (exactProduct p).bmod (2 ^ 64) ≤ 2 ^ 40

theorem exactProduct_prefix_nonneg {proto p : List Int64} (h : ∀ d ∈ proto, 0 ≤ d)
    (hp : p <+: proto) : 0 ≤ exactProduct p :=
  exactProduct_nonneg fun d hd ↦ nonneg_iff.1 (h d (hp.subset hd))

/-- The loop looks at the residues of the partial products. -/
theorem isValidFrom_iff {n : Int64} {x : ℤ} {proto : List Int64}
    (hn : n.toInt = x.bmod (2 ^ 64)) (hle : n.toInt ≤ 2 ^ 40) :
    isValidFrom n proto = true ↔
      (∀ d ∈ proto, 0 ≤ d) ∧
        ∀ p, p <+: proto → (x * exactProduct p).bmod (2 ^ 64) ≤ 2 ^ 40 := by
  induction proto generalizing n x with
  | nil =>
    rw [forall_prefix_nil, exactProduct_nil, mul_one, ← hn]
    exact iff_of_true rfl ⟨nofun, hle⟩
  | cons d proto ih =>
    have hmul := toInt_mul_of_residue hn d
    rw [forall_prefix_cons, exactProduct_nil, mul_one, ← hn, forall_mem_cons, isValidFrom]
    by_cases hd : d < 0
    · rw [if_pos hd]
      exact iff_of_false (by decide) fun h ↦ Int64.not_le.2 hd h.1.1
    by_cases hbig : kMaxElements < n * d
    · have hlt : ¬ n * d ≤ kMaxElements := Int64.not_le.2 hbig
      rw [if_neg hd, if_pos hbig]
      refine iff_of_false (by decide) fun h ↦ hlt (le_kMaxElements_iff.2 ?_)
      have hfirst := h.2.2 [] nil_prefix
      rwa [exactProduct_cons, exactProduct_nil, mul_one, ← hmul] at hfirst
    · have hle' : (n * d).toInt ≤ 2 ^ 40 := le_kMaxElements_iff.1 (by rwa [← Int64.not_lt])
      rw [if_neg hd, if_neg hbig, ih hmul hle']
      simp only [exactProduct_cons, mul_assoc]
      exact ⟨fun h ↦ ⟨⟨Int64.not_lt.1 hd, h.1⟩, hle, h.2⟩, fun h ↦ ⟨h.1.2, h.2.2⟩⟩

theorem isValid_iff : isValid proto = true ↔
      proto.length ≤ maxDimensions ∧ (∀ d ∈ proto, 0 ≤ d) ∧
        ∀ p, p <+: proto → (exactProduct p).bmod (2 ^ 64) ≤ 2 ^ 40 := by
  unfold isValid
  by_cases h : maxDimensions < proto.length
  · rw [if_pos h]
    exact iff_of_false (by decide) fun h' ↦ absurd h'.1 (Nat.not_le.2 h)
  · rw [if_neg h, isValidFrom_iff (x := 1) (by decide) (by decide)]
    simp only [one_mul]
    exact (and_iff_right (Nat.not_lt.1 h)).symm

/-- `IsValidShape` returns OK on the protos that `IsValid` accepts. -/
theorem isValidShape_eq_ok_iff : isValidShape proto = .ok ↔ isValid proto = true := by
  have hloop : ∀ (n : Int64) (ds : List Int64),
      isValidShapeFrom proto n ds = .ok ↔ isValidFrom n ds = true := fun n ds ↦ by
    induction ds generalizing n with
    | nil => exact iff_of_true rfl rfl
    | cons d ds ih =>
      rw [isValidShapeFrom, isValidFrom]
      split
      · simp
      · split
        · simp
        · exact ih _
  unfold isValidShape isValid
  split
  · simp
  · exact hloop 1 proto

theorem isValid_of_withinLimits (h : WithinLimits proto) : isValid proto = true := by
  refine isValid_iff.2 ⟨h.length_le, h.nonneg, fun p hp ↦ ?_⟩
  have hle : exactProduct p ≤ 2 ^ 40 := h.exactProduct_le p hp
  rw [bmod_of_fits (exactProduct_prefix_nonneg h.nonneg hp) (by omega)]
  exact hle

theorem withinLimits_iff (hwrap : ¬ WrapsBack proto) :
    isValid proto = true ↔ WithinLimits proto := by
  refine ⟨fun h ↦ ?_, isValid_of_withinLimits⟩
  obtain ⟨hlen, hnonneg, hres⟩ := isValid_iff.1 h
  refine ⟨hlen, hnonneg, fun p hp ↦ ?_⟩
  by_contra hbig
  exact hwrap ⟨hlen, hnonneg, ⟨p, hp, Int.not_le.1 hbig⟩, hres⟩

/-- The checks of `AddDim` pass as long as the exact product is within the limit. -/
theorem Good.exists_addDim {s : TensorShape} (hs : Good s)
    (hexact : exactProduct s.dimSizes ≤ 2 ^ 40) {d : Int64} (hd : 0 ≤ d)
    (hdims : s.dims < maxDimensions) (hle : exactProduct s.dimSizes * d.toInt ≤ 2 ^ 40) :
    ∃ s', s.addDim d = some s' := by
  have hnum := hs.numElements_eq_iff.2 hexact
  have hnonneg : 0 ≤ exactProduct s.dimSizes * d.toInt :=
    mul_nonneg hs.exactProduct_nonneg (nonneg_iff.1 hd)
  have hprod : (s.numElements * d).toInt = exactProduct s.dimSizes * d.toInt := by
    rw [toInt_mul, hnum]
    exact bmod_of_fits hnonneg (by omega)
  have hcheck : checkNumElements (s.numElements * d) = some (s.numElements * d) :=
    checkNumElements_eq_some_iff.2 ⟨rfl, nonneg_iff.2 (hprod ▸ hnonneg),
      le_kMaxElements_iff.2 (hprod ▸ hle)⟩
  refine ⟨⟨s.rep.addDim d, s.numElements * d⟩, ?_⟩
  rw [TensorShape.addDim, if_pos ⟨hd, hdims⟩, hcheck]
  rfl

/-- The checks of a sequence of `AddDim`s pass as long as the exact partial products are within the
limit. -/
theorem exists_addDims {s : TensorShape} (hs : Good s) (hexact : exactProduct s.dimSizes ≤ 2 ^ 40)
    (hlen : s.dims + vals.length ≤ maxDimensions) (hnonneg : ∀ d ∈ vals, 0 ≤ d)
    (hle : ∀ p, p <+: vals → exactProduct s.dimSizes * exactProduct p ≤ 2 ^ 40) :
    ∃ s', s.addDims vals = some s' := by
  induction vals generalizing s with
  | nil => exact ⟨s, rfl⟩
  | cons d vals ih =>
    obtain ⟨hd, hnonneg⟩ := forall_mem_cons.1 hnonneg
    obtain ⟨-, hle⟩ := forall_prefix_cons.1 hle
    rw [length_cons] at hlen
    have hfirst : exactProduct s.dimSizes * d.toInt ≤ 2 ^ 40 := by
      simpa using hle [] nil_prefix
    obtain ⟨t, ht⟩ := hs.exists_addDim hexact hd (by omega) hfirst
    obtain ⟨hgood, hsizes⟩ := hs.addDim ht
    have hproduct : exactProduct t.dimSizes = exactProduct s.dimSizes * d.toInt := by
      rw [hsizes, exactProduct_append, exactProduct_cons, exactProduct_nil, mul_one]
    have hlen' : t.dims + vals.length ≤ maxDimensions := by
      rw [dims, hsizes, length_append]
      exact (Nat.add_right_comm _ _ _).trans_le hlen
    obtain ⟨s', hs'⟩ := ih hgood (hproduct ▸ hfirst) hlen' hnonneg fun p hp ↦ by
      rw [hproduct, mul_assoc]
      exact hle p hp
    exact ⟨s', addDims_cons.2 ⟨t, ht, hs'⟩⟩

theorem exists_ofProto (h : WithinLimits proto) : ∃ s, ofProto proto = some s ∧ s.dimSizes = proto ∧
      s.numElements.toInt = exactProduct proto := by
  have hlen : empty.dims + proto.length ≤ maxDimensions := by
    show 0 + proto.length ≤ maxDimensions
    rw [Nat.zero_add]
    exact h.length_le
  have hle : ∀ p, p <+: proto → exactProduct empty.dimSizes * exactProduct p ≤ 2 ^ 40 :=
    fun p hp ↦ by
      show 1 * exactProduct p ≤ 2 ^ 40
      rw [one_mul]
      exact h.exactProduct_le p hp
  obtain ⟨s, hs⟩ := exists_addDims good_empty (by decide) hlen h.nonneg hle
  obtain ⟨hgood, hsizes⟩ := good_empty.addDims hs
  have hproto : s.dimSizes = proto := hsizes
  refine ⟨s, hs, hproto, ?_⟩
  rw [← hproto]
  exact hgood.numElements_eq_iff.2 (hproto ▸ h.exactProduct_le proto (prefix_refl proto))

/-- What `IsValid` and the constructor promise of a proto. -/
structure Sound (proto : TensorShapeProto) : Prop where
  numElements_eq : isValid proto = true → ∃ s, ofProto proto = some s ∧ s.dimSizes = proto ∧
    s.numElements.toInt = exactProduct proto
  isValid_iff : isValid proto = true ↔ WithinLimits proto

/-- **When the number of elements is the product of the dimensions.** `IsValid` and the constructor
do what they promise on every proto whose partial products do not wrap back below the limit, and on
no other; and after any sequence of calls whose checks pass, the number of elements is the product
of the sizes exactly when the sizes that the calls describe have a product within the limit. -/
theorem sound_iff_and_numElements_iff (proto : TensorShapeProto) (ops : List Op) :
    (Sound proto ↔ ¬ WrapsBack proto) ∧
      ∀ s, GuardedRun.run step empty ops = some s →
        s.dimSizes = sizesAfter [] ops ∧
          (s.numElements.toInt = exactProduct s.dimSizes ↔
            exactProduct (sizesAfter [] ops) ≤ 2 ^ 40) := by
  refine ⟨⟨fun h hwrap ↦ ?_, fun hwrap ↦ ⟨fun h ↦ ?_, withinLimits_iff hwrap⟩⟩, fun s hrun ↦ ?_⟩
  · obtain ⟨p, hp, hlt⟩ := hwrap.exceeds
    have hvalid : isValid proto = true :=
      TensorShape.isValid_iff.2 ⟨hwrap.length_le, hwrap.nonneg, hwrap.residue_le⟩
    exact Int.not_le.2 hlt ((h.isValid_iff.1 hvalid).exactProduct_le p hp)
  · exact exists_ofProto ((withinLimits_iff hwrap).1 h)
  · obtain ⟨hgood, hsizes⟩ := good_of_run good_empty hrun
    have hsizes' : s.dimSizes = sizesAfter [] ops := hsizes
    exact ⟨hsizes', by rw [hgood.numElements_eq_iff, hsizes']⟩

/-- Two dimensions of `2 ^ 32`: `IsValid` accepts them, and the shape has no elements. -/
theorem not_sound_two_pow_32 :
    ¬ Sound [4294967296, 4294967296] ∧
      ∃ s, GuardedRun.run step empty [.addDim 4294967296, .addDim 4294967296] = some s ∧
        s.numElements = 0 ∧ exactProduct s.dimSizes = 2 ^ 64 := by
  have hproduct : exactProduct [4294967296, 4294967296] = 2 ^ 64 := by
    show (4294967296 * (4294967296 * 1) : ℤ) = 2 ^ 64
    norm_num
  refine ⟨fun h ↦ ?_, ⟨.outOfLine [4294967296, 4294967296], 0⟩, by decide, rfl, hproduct⟩
  obtain ⟨s, hs, -, hnum⟩ := h.numElements_eq (by decide)
  obtain rfl : (⟨.outOfLine [4294967296, 4294967296], 0⟩ : TensorShape) = s :=
    Option.some.inj ((by decide : ofProto [4294967296, 4294967296] = some _).symm.trans hs)
  rw [hproduct] at hnum
  exact absurd (show (0 : ℤ) = 2 ^ 64 from hnum) (by norm_num)

end TensorShape

end TensorFlowCore

/-!
## Reading a shape back from its proto

`AsProto` writes the sizes of a shape, and `IsValid` and the constructor look at them one after
another. A shape is kept by other calls too, which check its number of elements at other points; all
of them leave sizes that the constructor accepts (`Rebuilds.step`), so that every shape is read back
(`ofProto_dimSizes_of_run`).
-/

namespace TensorFlowCore

open List

namespace TensorShape

theorem exists_addDims_of_append {s s' : TensorShape} {vals vals' : List Int64}
    (h : s.addDims (vals ++ vals') = some s') :
    ∃ t, s.addDims vals = some t ∧ t.addDims vals' = some s' := by
  rw [addDims, foldlM_append] at h
  exact Option.bind_eq_some_iff.1 h

theorem isValid_of_ofProto {s : TensorShape} (h : ofProto proto = some s) :
    isValid proto = true := by
  obtain ⟨hgood, hsizes⟩ := good_empty.addDims h
  have hproto : s.dimSizes = proto := hsizes
  refine isValid_iff.2 ⟨hproto ▸ hgood.dims_le, hproto ▸ hgood.nonneg, fun p hp ↦ ?_⟩
  obtain ⟨rest, rfl⟩ := hp
  obtain ⟨t, ht, -⟩ := exists_addDims_of_append h
  obtain ⟨htgood, htsizes⟩ := good_empty.addDims ht
  have htp : t.dimSizes = p := htsizes
  rw [← htp, ← htgood.residue]
  exact le_kMaxElements_iff.1 htgood.range.2

/-- The checks of `AddDim` pass along sizes along which those of `RecomputeNumElements` do. -/
theorem exists_addDims_of_recompute {s : TensorShape} (hs : Good s) {m : Int64}
    (hlen : s.dims + vals.length ≤ maxDimensions) (hnonneg : ∀ d ∈ vals, 0 ≤ d)
    (h : vals.foldlM (fun n size ↦ checkNumElements (n * size)) s.numElements = some m) :
    ∃ s', s.addDims vals = some s' := by
  induction vals generalizing s with
  | nil => exact ⟨s, rfl⟩
  | cons d vals ih =>
    obtain ⟨hd, hnonneg⟩ := forall_mem_cons.1 hnonneg
    rw [foldlM_cons] at h
    obtain ⟨k, hk, h⟩ := Option.bind_eq_some_iff.1 h
    rw [length_cons] at hlen
    have hadd : s.addDim d = some ⟨s.rep.addDim d, k⟩ := by
      rw [TensorShape.addDim, if_pos ⟨hd, by omega⟩, hk]
      rfl
    obtain ⟨hgood, hsizes⟩ := hs.addDim hadd
    have hlen' : (⟨s.rep.addDim d, k⟩ : TensorShape).dims + vals.length ≤ maxDimensions := by
      rw [dims, hsizes, length_append]
      exact (Nat.add_right_comm _ _ _).trans_le hlen
    obtain ⟨s', hs'⟩ := ih hgood hlen' hnonneg h
    exact ⟨s', addDims_cons.2 ⟨_, hadd, hs'⟩⟩

/-- A shape whose sizes the constructor accepts. -/
def Rebuilds (s : TensorShape) : Prop := ∃ s', ofProto s.dimSizes = some s'

theorem rebuilds_of_addDims {s : TensorShape} (h : empty.addDims vals = some s) : Rebuilds s := by
  have hsizes : s.dimSizes = vals := (good_empty.addDims h).2
  exact ⟨s, by rw [hsizes]; exact h⟩

theorem Rebuilds.addDim {s s' : TensorShape} (hs : Good s) (h : Rebuilds s)
    (hadd : s.addDim size = some s') : Rebuilds s' := by
  obtain ⟨t, ht⟩ := h
  obtain ⟨htgood, htsizes⟩ := good_empty.addDims ht
  have htsizes : t.dimSizes = s.dimSizes := htsizes
  have hnum : t.numElements = s.numElements := by
    rw [← Int64.toInt_inj, htgood.residue, hs.residue, htsizes]
  have htadd : t.addDim size = some ⟨t.rep.addDim size, s'.numElements⟩ := by
    obtain ⟨hsize, hdims, hs', hrange⟩ := addDim_eq_some hadd
    have hn : s'.numElements = t.numElements * size := by rw [hs', hnum]
    have hcheck : checkNumElements (t.numElements * size) = some s'.numElements :=
      checkNumElements_eq_some_iff.2 ⟨hn.symm, hrange⟩
    have hdims' : t.dims < maxDimensions := by rw [dims, htsizes]; exact hdims
    rw [TensorShape.addDim, if_pos ⟨hsize, hdims'⟩, hcheck]
    rfl
  refine ⟨⟨t.rep.addDim size, s'.numElements⟩, ?_⟩
  rw [(hs.addDim hadd).2, ofProto, addDims, foldlM_append]
  exact Option.bind_eq_some_iff.2 ⟨t, ht, addDims_cons.2 ⟨_, htadd, rfl⟩⟩

theorem Rebuilds.recompute {s s' : TensorShape} (hnonneg : ∀ size ∈ s.dimSizes, 0 ≤ size)
    (hdims : s.dims ≤ maxDimensions) (h : s.recomputeNumElements = some s') : Rebuilds s' := by
  have hsizes := (good_of_recomputeNumElements hnonneg hdims h).2
  obtain ⟨n, hn, -⟩ := Option.map_eq_some_iff.1 h
  obtain ⟨t, ht⟩ := exists_addDims_of_recompute good_empty (by rwa [← Nat.zero_add s.dims] at hdims)
    hnonneg hn
  exact ⟨t, by rw [hsizes]; exact ht⟩

theorem rebuilds_of_rebuild {s : TensorShape}
    (h : (empty.addDims vals).bind recomputeNumElements = some s) : Rebuilds s := by
  have hsizes := (good_of_rebuild h).2
  obtain ⟨t, ht, -⟩ := Option.bind_eq_some_iff.1 h
  exact ⟨t, by rw [hsizes]; exact ht⟩

theorem rebuilds_of_makeShapeLoop {out s : TensorShape} {status : Status} (hgood : Good out)
    (hout : Rebuilds out) (h : makeShapeLoop out vals = some (s, status)) : Rebuilds s := by
  induction vals generalizing out with
  | nil =>
    cases h
    exact hout
  | cons v vals ih =>
    rw [makeShapeLoop] at h
    split at h
    · obtain ⟨t, ht, h⟩ := Option.bind_eq_some_iff.1 h
      exact ih (hgood.addDim ht).1 (hout.addDim hgood ht) h
    · cases h
      exact hout

theorem rebuilds_empty : Rebuilds empty := ⟨empty, rfl⟩

/-- No operation makes sizes that the constructor refuses. -/
theorem Rebuilds.step {s s' : TensorShape} {op : Op} (hs : Good s) (h : Rebuilds s)
    (hstep : step s op = some s') : Rebuilds s' := by
  cases op with
  | addDim size => exact h.addDim hs hstep
  | insertDim d size => exact rebuilds_of_addDims (Option.ite_none_right_eq_some.1 hstep).2
  | setDim d size =>
    obtain ⟨⟨-, -, hsize⟩, hstep⟩ := Option.ite_none_right_eq_some.1 hstep
    split at hstep
    · next rep hrep =>
      obtain ⟨-, hnonneg, hlen⟩ := hs.sizes_of_setDim? hsize hrep
      exact Rebuilds.recompute (s := { s with rep }) hnonneg hlen hstep
    · exact rebuilds_of_rebuild hstep
  | removeDim d => exact rebuilds_of_rebuild (Option.ite_none_right_eq_some.1 hstep).2
  | makeShape dims n =>
    obtain ⟨⟨t, status⟩, ht, rfl⟩ := Option.map_eq_some_iff.1 hstep
    unfold makeShapeHelper at ht
    split at ht
    · cases ht
      exact rebuilds_empty
    · split at ht
      · cases ht
        exact rebuilds_empty
      · exact rebuilds_of_makeShapeLoop good_empty rebuilds_empty ht

/-- **A shape made by calls whose checks pass is read back from its proto.** -/
theorem ofProto_dimSizes_of_run {s : TensorShape} {ops : List Op}
    (h : GuardedRun.run step empty ops = some s) :
    isValid s.dimSizes = true ∧
      ∃ s', ofProto s.dimSizes = some s' ∧ s'.dimSizes = s.dimSizes ∧
        s'.numElements = s.numElements := by
  obtain ⟨hgood, s', hs'⟩ : Good s ∧ Rebuilds s :=
    GuardedRun.run_invariant (I := fun t ↦ Good t ∧ Rebuilds t)
      (fun _ ht hstep ↦ ⟨(ht.1.step hstep).1, ht.2.step ht.1 hstep⟩)
      ⟨good_empty, rebuilds_empty⟩ h
  obtain ⟨hgood', hsizes⟩ := good_empty.addDims hs'
  have hsizes : s'.dimSizes = s.dimSizes := hsizes
  refine ⟨isValid_of_ofProto hs', s', hs', hsizes, ?_⟩
  rw [← Int64.toInt_inj, hgood'.residue, hgood.residue, hsizes]

/-- **A shape is the list of its sizes**, whichever of the three layouts each call leaves: after
calls whose checks pass it holds what they do to a list, no more than the limit and none negative,
and its proto is valid and gives it back. -/
theorem refines_of_run {s : TensorShape} {ops : List Op}
    (h : GuardedRun.run step empty ops = some s) :
    s.dimSizes = sizesAfter [] ops ∧ s.dims ≤ maxDimensions ∧ (∀ size ∈ s.dimSizes, 0 ≤ size) ∧
      isValidShape s.dimSizes = .ok ∧ ∃ s', ofProto s.dimSizes = some s' ∧
      s'.dimSizes = s.dimSizes ∧
        s'.numElements = s.numElements := by
  obtain ⟨hgood, hsizes⟩ := good_of_run good_empty h
  obtain ⟨hvalid, hread⟩ := ofProto_dimSizes_of_run h
  exact ⟨hsizes, hgood.dims_le, hgood.nonneg, isValidShape_eq_ok_iff.2 hvalid, hread⟩

/-- The second call changes the layout, and the third one does not change it back. -/
theorem refines_of_run_three : ∃ s : TensorShape, s.rep = .rep32 [40000, 3] ∧
    s.dimSizes = sizesAfter [] [.addDim 2, .insertDim 0 40000, .setDim 1 3] := by
  refine ⟨_, ?_, (refines_of_run (show GuardedRun.run step empty
    [.addDim 2, .insertDim 0 40000, .setDim 1 3] = some _ from rfl)).1⟩
  rfl

end TensorShape

end TensorFlowCore
