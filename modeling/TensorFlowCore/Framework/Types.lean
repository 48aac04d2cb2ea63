import TensorFlowCore.Core.Status

/-!
# Data types

`DataType` of `tensorflow/core/framework/types.proto`, with its references, and the names of
`tensorflow/core/framework/types.cc`.
-/

namespace TensorFlowCore

/-- `DataType`, by the numbers of `types.proto`. -/
abbrev DataType := ℕ

namespace DataType

/-- `kDataTypeRefOffset`: `DT_FLOAT + kDataTypeRefOffset == DT_FLOAT_REF`. -/
def kDataTypeRefOffset : ℕ := 100

/-- `IsRefType`. -/
def isRefType (dtype : DataType) : Bool := kDataTypeRefOffset < dtype

/-- `BaseType`. -/
def baseType (dtype : DataType) : DataType :=
  if isRefType dtype then dtype - kDataTypeRefOffset else dtype

/-- The names in `DataTypeString`, from `DT_INVALID` on. -/
def names : List ByteString :=
  ["INVALID", "float", "double", "int32", "uint8", "int16", "int8", "string", "complex64", "int64",
    "bool", "qint8", "quint8", "qint32", "bfloat16", "qint16", "quint16", "uint16", "complex128",
    "half"].map ascii

/-- `DataTypeString`. -/
def toByteString (dtype : DataType) : ByteString :=
  if isRefType dtype then names.getD (dtype - kDataTypeRefOffset) [] ++ ascii "_ref"
  else names.getD dtype []

end DataType

/-- `TypesCompatible`: the actual type is the expected one or a reference to it. -/
def typesCompatible (expected actual : DataType) : Bool :=
  expected = actual ∨ expected = DataType.baseType actual

end TensorFlowCore
