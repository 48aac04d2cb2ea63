import TensorFlowCore.Framework.TensorShape
import TensorFlowCore.Framework.Types

/-!
# `TensorArray`

The writes of `tensorflow/core/kernels/tensor_array.h`. A write to an index that has been written to
before is added to what is there, if the array aggregates.

A dynamic array grows before the data type of the value is looked at, so that a value of another
type beyond the end is rejected and leaves new slots behind. No other rejection changes anything
(`rejectedUnchanged_iff`).

A tensor is its values: a slot that has no local copy is never written in place, and a local copy is
not shared before the slot has been read. `capacity()` and `reserve` are left out.
-/

namespace TensorFlowCore

/-- A `PersistentTensor`, with the elements of its buffer if it has one. -/
structure PersistentTensor (β : Type) where
  dtype : DataType
  shape : TensorShape
  buf : Option (List β)
  deriving DecidableEq

namespace PersistentTensor

variable {β : Type}

/-- `Tensor()`, one-dimensional and without elements. -/
def empty : PersistentTensor β := ⟨1, ⟨.rep16 [0], 0⟩, none⟩

def numElements (t : PersistentTensor β) : Int64 := t.shape.numElements

def isInitialized (t : PersistentTensor β) : Bool := t.buf.isSome ∨ t.shape.numElements = 0

/-- `flat<T>()`. -/
def flat (t : PersistentTensor β) : List β := t.buf.getD []

end PersistentTensor

/-- `TensorAndState`. -/
structure TensorAndState (β : Type) where
  tensor : PersistentTensor β := .empty
  shape : TensorShape := .empty
  written : Bool := false
  read : Bool := false
  cleared : Bool := false
  localCopy : Bool := false
  deriving DecidableEq

structure TensorArray (β : Type) where
  dtype : DataType
  /-- The second element of `handle_`. -/
  name : ByteString
  closed : Bool
  dynamicSize : Bool
  multipleWritesAggregate : Bool
  gradientsDisallowed : Bool
  clearAfterRead : Bool
  isGrad : Bool
  markedSize : ℤ
  tensors : List (TensorAndState β)
  deriving DecidableEq

namespace TensorArray

variable {β : Type}

/-- What the kernel calls, for elements of the type `T`. -/
structure Context (β : Type) where
  T : DataType
  /-- The sum of two elements, if `AddToTensor` is specialized for the type. -/
  add : Option (β → β → β)
  /-- The buffer of a tensor that `allocate_persistent` makes. -/
  allocatePersistent : DataType → TensorShape → Except Status (List β)

/-- `AddToTensor`: the elements of `sum`. -/
def addToTensor (ctx : Context β) (current add : PersistentTensor β) : Except Status (List β) :=
  match ctx.add with
  | none => .error (invalidArgument [ascii "tensor_array::AddToTensor type not supported: ",
      ctx.T.toByteString])
  | some f => .ok (List.zipWith f current.flat add.flat)

/-- The `TensorArray` with the given name has an error to report. -/
def error (a : TensorArray β) (parts : List ByteString) : Status :=
  invalidArgument (ascii "TensorArray " :: a.name :: parts)

/-- `LockedReturnIfClosed`. -/
def lockedReturnIfClosed (a : TensorArray β) : Status :=
  if a.closed then a.error [ascii " has already been closed."] else .ok

/-- `tensors_.resize(index_size + 1)`, if the array is dynamic and has no such index. -/
def grow (a : TensorArray β) (index : ℕ) : TensorArray β :=
  if a.dynamicSize ∧ a.tensors.length ≤ index then
    { a with tensors := a.tensors ++ List.replicate (index + 1 - a.tensors.length) {} }
  else a

/-- `tensors_[index] = t`. -/
def setTensor (a : TensorArray β) (index : ℕ) (t : TensorAndState β) : TensorArray β :=
  { a with tensors := a.tensors.set index t }

/-- A write to a slot that has been written to. -/
def aggregate (ctx : Context β) (a : TensorArray β) (index : ℕ) (t : TensorAndState β)
    (value : PersistentTensor β) : Status × TensorArray β :=
  if value.shape.dimSizes ≠ t.shape.dimSizes then
    (a.error [ascii ": Could not aggregate to TensorArray index ", decimal index,
      ascii " because the existing shape is ", TensorShape.debugString t.shape.dimSizes,
      ascii " but the new input shape is ", TensorShape.debugString value.shape.dimSizes,
      ascii "."], a)
  -- only a shape has been stored, which means zeros
  else if ¬t.tensor.isInitialized ∨ t.tensor.numElements = 0 then
    (.ok, a.setTensor index { t with tensor := value })
  else if t.localCopy then
    match addToTensor ctx t.tensor value with
    | .error s => (s, a)
    | .ok sum =>
      (.ok, { a.setTensor index { t with tensor := { t.tensor with buf := some sum } } with
        gradientsDisallowed := true })
  else
    match ctx.allocatePersistent a.dtype t.tensor.shape with
    | .error s => (s, a)
    | .ok _ =>
      match addToTensor ctx t.tensor value with
      | .error s => (s, a)
      | .ok sum =>
        (.ok, { a.setTensor index
            { t with tensor := ⟨a.dtype, t.tensor.shape, some sum⟩, localCopy := true } with
          gradientsDisallowed := true })

/-- The write to a slot, of an array that is open and has the index. -/
def writeSlot (ctx : Context β) (a : TensorArray β) (index : ℕ) (value : PersistentTensor β) :
    Status × TensorArray β :=
  let t := a.tensors.getD index {}
  if value.dtype ≠ a.dtype then
    (a.error [ascii ": Could not write to TensorArray index ", decimal index,
      ascii " because the value dtype is ", value.dtype.toByteString,
      ascii " but TensorArray dtype is ",
      a.dtype.toByteString, ascii "."], a)
  else if t.read then
    (a.error [ascii ": Could not write to TensorArray index ", decimal index,
      ascii " because it has already been read."], a)
  else if ¬a.multipleWritesAggregate ∧ t.written then
    (a.error [ascii ": Could not write to TensorArray index ", decimal index,
      ascii " because it has already been written to."], a)
  else if t.written then aggregate ctx a index t value
  else (.ok, a.setTensor index { t with tensor := value, shape := value.shape, written := true })

/-- `LockedWriteOrAggregate`. -/
def lockedWriteOrAggregate (ctx : Context β) (a : TensorArray β) (index : ℤ)
    (value : PersistentTensor β) :
    Status × TensorArray β :=
  if a.closed then (a.lockedReturnIfClosed, a)
  else if index < 0 ∨ (¬a.dynamicSize ∧ a.tensors.length ≤ index.toNat) then
    (a.error [ascii ": Tried to write to index ", decimalInt index,
      ascii " but array is not resizeable and size is: ", decimal a.tensors.length], a)
  else writeSlot ctx (a.grow index.toNat) index.toNat value

/-- If the write is rejected it has not changed anything: the size, the flags and the slots are as
before. -/
def RejectedUnchanged (ctx : Context β) (a : TensorArray β) (index : ℤ)
    (value : PersistentTensor β) : Prop :=
  (lockedWriteOrAggregate ctx a index value).1 ≠ .ok →
    (lockedWriteOrAggregate ctx a index value).2 = a

/-- A dynamic array grows, and then the value is of another type. -/
structure GrowsForNothing (a : TensorArray β) (index : ℤ) (value : PersistentTensor β) : Prop where
  notClosed : a.closed = false
  dynamicSize : a.dynamicSize = true
  nonneg : 0 ≤ index
  beyond : a.tensors.length ≤ index.toNat
  dtype : value.dtype ≠ a.dtype

/-! ### The exits -/

variable {ctx : Context β} {a : TensorArray β} {index : ℕ} {t : TensorAndState β}
    {value : PersistentTensor β}

theorem error_ne_ok (parts : List ByteString) : a.error parts ≠ .ok := invalidArgument_ne_ok _

@[simp] theorem dtype_grow : (a.grow index).dtype = a.dtype := by
  rw [grow]
  split <;> rfl

theorem grow_of_lt (h : index < a.tensors.length) : a.grow index = a := by
  rw [grow, if_neg fun hgrow ↦ Nat.not_le.2 h hgrow.2]

theorem tensors_grow (hdynamic : a.dynamicSize = true) (h : a.tensors.length ≤ index) :
    (a.grow index).tensors =
      a.tensors ++ List.replicate (index + 1 - a.tensors.length) ({} : TensorAndState β) := by
  rw [grow, if_pos ⟨hdynamic, h⟩]

/-- A slot that is new has not been written to. -/
theorem getD_tensors_grow (hdynamic : a.dynamicSize = true) (h : a.tensors.length ≤ index) :
    (a.grow index).tensors.getD index {} = {} := by
  rw [tensors_grow hdynamic h, List.getD_eq_getElem?_getD, List.getElem?_append_right h,
    List.getElem?_replicate, if_pos (by omega)]
  rfl

/-- Once the array has its final size, a rejection comes before the first assignment. -/
theorem aggregate_rejected (h : (aggregate ctx a index t value).1 ≠ .ok) :
    (aggregate ctx a index t value).2 = a := by
  rw [aggregate] at h ⊢
  split
  · rfl
  next hshape =>
  rw [if_neg hshape] at h
  split
  · next hzeros =>
    rw [if_pos hzeros] at h
    exact absurd rfl h
  next hzeros =>
  rw [if_neg hzeros] at h
  split
  · next hlocal =>
    rw [if_pos hlocal] at h
    cases hadd : addToTensor ctx t.tensor value with
    | error s => rfl
    | ok sum =>
      rw [hadd] at h
      exact absurd rfl h
  next hlocal =>
  rw [if_neg hlocal] at h
  cases halloc : ctx.allocatePersistent a.dtype t.tensor.shape with
  | error s => rfl
  | ok buf =>
    rw [halloc] at h
    cases hadd : addToTensor ctx t.tensor value with
    | error s => rfl
    | ok sum =>
      rw [hadd] at h
      exact absurd rfl h

/-- A write that is rejected changes nothing. -/
theorem writeSlot_rejected (h : (writeSlot ctx a index value).1 ≠ .ok) :
    (writeSlot ctx a index value).2 = a := by
  rw [writeSlot] at h ⊢
  split
  · rfl
  next hdtype =>
  rw [if_neg hdtype] at h
  split
  · rfl
  next hread =>
  rw [if_neg hread] at h
  split
  · rfl
  next hagain =>
  rw [if_neg hagain] at h
  split
  · next hwritten =>
    rw [if_pos hwritten] at h
    exact aggregate_rejected h
  · next hwritten =>
    rw [if_neg hwritten] at h
    exact absurd rfl h

/-- A new slot takes every value of the array's type. -/
theorem writeSlot_grow (hdynamic : a.dynamicSize = true) (h : a.tensors.length ≤ index)
    (hdtype : value.dtype = a.dtype) : (writeSlot ctx (a.grow index) index value).1 = .ok := by
  rw [writeSlot, getD_tensors_grow hdynamic h, dtype_grow, if_neg (not_not_intro hdtype),
    if_neg Bool.false_ne_true, if_neg fun hagain ↦ Bool.false_ne_true hagain.2,
    if_neg Bool.false_ne_true]

theorem lockedWriteOrAggregate_of_growsForNothing (ctx : Context β) {index : ℤ}
    (h : GrowsForNothing a index value) :
    (lockedWriteOrAggregate ctx a index value).1 ≠ .ok ∧
      (lockedWriteOrAggregate ctx a index value).2 = a.grow index.toNat := by
  have hindex : ¬(index < 0 ∨ (¬a.dynamicSize = true ∧ a.tensors.length ≤ index.toNat)) := by
    rintro (hneg | ⟨hdynamic, -⟩)
    · exact absurd h.nonneg (Int.not_le.2 hneg)
    · exact hdynamic h.dynamicSize
  rw [lockedWriteOrAggregate, if_neg (Bool.eq_false_iff.1 h.notClosed), if_neg hindex, writeSlot,
    dtype_grow, if_pos h.dtype]
  exact ⟨error_ne_ok _, rfl⟩

/-- **A rejected write changes nothing**, unless the array is dynamic, the index is beyond its end
and the value is of another data type. -/
theorem rejectedUnchanged_iff (ctx : Context β) (a : TensorArray β) (index : ℤ)
    (value : PersistentTensor β) :
    RejectedUnchanged ctx a index value ↔ ¬GrowsForNothing a index value := by
  constructor
  · intro hunchanged h
    obtain ⟨hrejected, hgrown⟩ := lockedWriteOrAggregate_of_growsForNothing ctx h
    have hlength := congrArg (fun a ↦ a.tensors.length) (hgrown.symm.trans (hunchanged hrejected))
    have hbeyond := h.beyond
    rw [tensors_grow h.dynamicSize hbeyond, List.length_append, List.length_replicate] at hlength
    omega
  · intro h hrejected
    rw [lockedWriteOrAggregate] at hrejected ⊢
    split
    · rfl
    next hclosed =>
    rw [if_neg hclosed] at hrejected
    split
    · rfl
    next hindex =>
    rw [if_neg hindex] at hrejected
    obtain ⟨hnonneg, hfixed⟩ := not_or.1 hindex
    rw [writeSlot_rejected hrejected]
    obtain hlt | hbeyond := Nat.lt_or_ge index.toNat a.tensors.length
    · exact grow_of_lt hlt
    · have hdynamic : a.dynamicSize = true := by
        by_contra hdynamic
        exact hfixed ⟨hdynamic, hbeyond⟩
      by_cases hdtype : value.dtype = a.dtype
      · exact absurd (writeSlot_grow hdynamic hbeyond hdtype) hrejected
      · exact absurd ⟨Bool.eq_false_iff.2 hclosed, hdynamic, Int.not_lt.1 hnonneg, hbeyond,
          hdtype⟩ h

/-- An empty dynamic array of floats. -/
def emptyFloats : TensorArray ℤ := ⟨1, ascii "a", false, true, false, false, true, false, -1, []⟩

/-- An `int32` that is written to index 3 is rejected, and leaves four slots. -/
theorem not_rejectedUnchanged :
    ¬RejectedUnchanged ⟨1, some (· + ·), fun _ _ ↦ .ok []⟩ emptyFloats 3 ⟨3, .empty, some [7]⟩ := by
  intro hunchanged
  have hlength := congrArg (fun a ↦ a.tensors.length) (hunchanged (error_ne_ok _))
  exact absurd hlength (by decide)

end TensorArray

end TensorFlowCore
