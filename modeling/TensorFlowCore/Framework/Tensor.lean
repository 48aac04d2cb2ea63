import TensorFlowCore.Framework.TensorShape
import TensorFlowCore.Framework.Types
import TensorFlowCore.Platform.TensorCoding
import TensorFlowCore.Support.Layout

/-!
# Tensors and their protos

`Tensor` and the two ways of writing it as a `TensorProto`, from
`tensorflow/core/framework/tensor.cc`: into the repeated field that belongs to the element type
(`AsProtoField`), or as the bytes of its buffer (`AsProtoTensorContent`). `FromProto` reads either.

A number is its bits, and a buffer is the list of its elements; casts between element types go
through the bytes of a little-endian host (`Layout`). Allocations succeed.
-/

namespace TensorFlowCore

/-- The types that the `CASES` of `tensor.cc` are expanded for. -/
inductive ElementType where
  | float | double | int32 | uint8 | uint16 | int16 | int8 | string | complex64 | complex128
  | int64 | bool | qint32 | quint8 | qint8 | quint16 | qint16 | bfloat16 | half
  deriving DecidableEq

namespace ElementType

/-- `DataTypeToEnum`. -/
def dataType : ElementType → DataType
  | float => 1 | double => 2 | int32 => 3 | uint8 => 4 | int16 => 5 | int8 => 6 | string => 7
  | complex64 => 8 | int64 => 9 | bool => 10 | qint8 => 11 | quint8 => 12 | qint32 => 13
  | bfloat16 => 14 | qint16 => 15 | quint16 => 16 | uint16 => 17 | complex128 => 18 | half => 19

/-- `CASES`; the other data types end the process. -/
def ofDataType : DataType → Option ElementType
  | 1 => some float | 2 => some double | 3 => some int32 | 4 => some uint8 | 5 => some int16
  | 6 => some int8 | 7 => some string | 8 => some complex64 | 9 => some int64 | 10 => some bool
  | 11 => some qint8 | 12 => some quint8 | 13 => some qint32 | 14 => some bfloat16
  | 15 => some qint16 | 16 => some quint16 | 17 => some uint16 | 18 => some complex128
  | 19 => some half | _ => none

@[simp] theorem ofDataType_dataType (T : ElementType) : ofDataType T.dataType = some T := by
  cases T <;> rfl

/-- The values of an element. -/
def Elem : ElementType → Type
  | float | int32 | qint32 => BitVec 32
  | double | int64 => BitVec 64
  | uint8 | int8 | quint8 | qint8 => BitVec 8
  | uint16 | int16 | quint16 | qint16 | bfloat16 | half => BitVec 16
  | complex64 => BitVec 32 × BitVec 32
  | complex128 => BitVec 64 × BitVec 64
  | bool => Bool
  | string => ByteString

end ElementType

/-! ## The bytes of a buffer -/

def byteLayout : Layout (BitVec 8) := .word 1 (by decide)

def halfWordLayout : Layout (BitVec 16) := .word 2 (by decide)

def wordLayout : Layout (BitVec 32) := .word 4 (by decide)

def longWordLayout : Layout (BitVec 64) := .word 8 (by decide)

/-- `Helper<T>`. -/
structure Helper (T : Type) where
  encode : List T → ByteString
  decode : ByteString → ℕ → Option (List T)

/-- `Helper<T>` of a simple type: the bytes as they are. -/
def Helper.simple {T : Type} (L : Layout T) : Helper T where
  encode := L.writeAll
  decode content n := if content.length ≠ L.size * n then none else some (L.read n content)

def Helper.string : Helper ByteString where
  encode := encodeStringList
  decode := decodeStringList

namespace ElementType

def helper : (T : ElementType) → Helper T.Elem
  | float | int32 | qint32 => .simple wordLayout
  | double | int64 => .simple longWordLayout
  | uint8 | int8 | quint8 | qint8 => .simple byteLayout
  | uint16 | int16 | quint16 | qint16 | bfloat16 | half => .simple halfWordLayout
  | complex64 => .simple (.prod wordLayout wordLayout)
  | complex128 => .simple (.prod longWordLayout longWordLayout)
  | bool => .simple .bool
  | string => .string

end ElementType

/-! ## The repeated fields -/

structure TensorProto where
  dtype : DataType := 0
  tensorShape : TensorShapeProto := []
  tensorContent : ByteString := []
  halfVal : List (BitVec 32) := []
  floatVal : List (BitVec 32) := []
  doubleVal : List (BitVec 64) := []
  intVal : List (BitVec 32) := []
  stringVal : List ByteString := []
  scomplexVal : List (BitVec 32) := []
  int64Val : List (BitVec 64) := []
  boolVal : List Bool := []
  dcomplexVal : List (BitVec 64) := []

/-- `ProtoHelper<T>`. -/
structure ProtoHelper (T : Type) where
  /-- The elements from `Begin` on. -/
  begin : TensorProto → List T
  numElements : TensorProto → ℕ
  fill : List T → TensorProto → TensorProto
  /-- `T()`. -/
  default : T

/-- `PROTO_TRAITS`, with the conversions between `T` and the type `F` of the field. -/
def ProtoHelper.protoTraits {T F : Type} (widen : T → F) (narrow : F →
    T) (get : TensorProto → List F)
    (set : List F → TensorProto → TensorProto) (default : T) : ProtoHelper T where
  begin proto := (get proto).map narrow
  numElements proto := (get proto).length
  fill data := set (data.map widen)
  default

/-- The helpers of the types that are read and written through a pointer to the field's type. -/
def ProtoHelper.cast {T F : Type} (L : Layout T) (M : Layout F) (perElement : ℕ)
    (get : TensorProto → List F) (set : List F → TensorProto → TensorProto) (default : T) :
    ProtoHelper T where
  begin proto := L.readAll (M.writeAll (get proto))
  numElements proto := (get proto).length / perElement
  fill data := set (M.readAll (L.writeAll data))
  default

namespace ElementType

/-- The types kept in `int_val`. -/
def protoTraitsInt {w : ℕ} (widen : BitVec w → BitVec 32) : ProtoHelper (BitVec w) :=
  .protoTraits widen (BitVec.setWidth w) TensorProto.intVal (fun v p ↦ { p with intVal := v }) 0

/-- `FromProtoField` of `half` reads `half_val` as the others read their field, as `uint16`s. -/
def protoHelper : (T : ElementType) → ProtoHelper T.Elem
  | float => .protoTraits id id TensorProto.floatVal (fun v p ↦ { p with floatVal := v })
      (0 : BitVec 32)
  | double =>
    .protoTraits id id TensorProto.doubleVal (fun v p ↦ { p with doubleVal := v }) (0 : BitVec 64)
  | int32 => protoTraitsInt (w := 32) id
  | uint8 | quint8 => protoTraitsInt (w := 8) (BitVec.setWidth 32)
  | uint16 | quint16 => protoTraitsInt (w := 16) (BitVec.setWidth 32)
  | int16 | qint16 => protoTraitsInt (w := 16) (BitVec.signExtend 32)
  | int8 | qint8 => protoTraitsInt (w := 8) (BitVec.signExtend 32)
  | bool => .protoTraits id id TensorProto.boolVal (fun v p ↦ { p with boolVal := v }) false
  | string =>
    .protoTraits id id TensorProto.stringVal (fun v p ↦ { p with stringVal := v }) ([] : ByteString)
  | int64 =>
    .cast longWordLayout longWordLayout 1 TensorProto.int64Val (fun v p ↦ { p with int64Val := v })
      (0 : BitVec 64)
  | complex64 =>
    .cast (.prod wordLayout wordLayout) wordLayout 2 TensorProto.scomplexVal
      (fun v p ↦ { p with scomplexVal := v }) ((0, 0) : BitVec 32 × BitVec 32)
  | complex128 =>
    .cast (.prod longWordLayout longWordLayout) longWordLayout 2 TensorProto.dcomplexVal
      (fun v p ↦ { p with dcomplexVal := v }) ((0, 0) : BitVec 64 × BitVec 64)
  | qint32 =>
    .cast wordLayout wordLayout 1 TensorProto.intVal (fun v p ↦ { p with intVal := v })
      (0 : BitVec 32)
  | bfloat16 => {
      -- "Isn't this wrong, given that int_val is 32 bits long?"
      begin := fun proto ↦ halfWordLayout.readAll (wordLayout.writeAll proto.intVal)
      numElements := fun proto ↦ proto.intVal.length
      fill := fun data proto ↦
        { proto with intVal := proto.intVal ++ data.map (BitVec.setWidth 32) }
      default := (0 : BitVec 16) }
  | half => {
      begin := fun proto ↦ proto.halfVal.map (BitVec.setWidth 16)
      numElements := fun proto ↦ proto.halfVal.length
      fill := fun data proto ↦
        { proto with halfVal := proto.halfVal ++ data.map (BitVec.setWidth 32) }
      default := (0 : BitVec 16) }

end ElementType

/-- `FromProtoField`, for `n > 0`. -/
def fromProtoField {T : Type} (h : ProtoHelper T) (proto : TensorProto) (n : ℕ) : List T :=
  let inN := h.numElements proto
  if n ≤ inN then (h.begin proto).take n
  else if 0 < inN then
    let data := (h.begin proto).take inN
    data ++ List.replicate (n - inN) (data.getD (inN - 1) h.default)
  else List.replicate n h.default

/-! ## Tensors -/

/-- A tensor with a buffer of its own: `buf` is absent where `buf_` is null. -/
structure Tensor where
  dtype : ElementType
  shape : TensorShape
  buf : Option (List dtype.Elem)

namespace Tensor

/-- The elements. -/
def elements (t : Tensor) : List t.dtype.Elem := t.buf.getD []

def asProtoField (t : Tensor) : TensorProto :=
  let proto : TensorProto := { dtype := t.dtype.dataType, tensorShape := t.shape.dimSizes }
  match t.buf with
  | none => proto
  | some data => t.dtype.protoHelper.fill data proto

def asProtoTensorContent (t : Tensor) : TensorProto :=
  { dtype := t.dtype.dataType
    tensorShape := t.shape.dimSizes
    tensorContent := (t.buf.map t.dtype.helper.encode).getD [] }

/-- `FromProto`: none where it returns false, or where the process ends. A proto without elements of
a data type that has no `CASE` makes a tensor that is left out here. -/
def fromProto (proto : TensorProto) : Option Tensor :=
  if ¬ TensorShape.isValid proto.tensorShape then none
  else
    (TensorShape.ofProto proto.tensorShape).bind fun shape ↦
      (ElementType.ofDataType proto.dtype).bind fun T ↦
        let n := shape.numElements.toNatClampNeg
        if 0 < n then
          if proto.tensorContent ≠ [] then
            (T.helper.decode proto.tensorContent n).map fun data ↦ ⟨T, shape, some data⟩
          else some ⟨T, shape, some (fromProtoField T.protoHelper proto n)⟩
        else some ⟨T, shape, none⟩

end Tensor

end TensorFlowCore
