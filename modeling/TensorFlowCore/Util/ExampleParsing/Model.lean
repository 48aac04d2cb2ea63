import TensorFlowCore.Framework.Types
import TensorFlowCore.Support.ParallelWrites

/-!
# `FastParseExample`

The parser of `tensorflow/core/util/example_proto_fast_parsing.cc`, which reads a batch of
serialized `Example`s into dense and sparse tensors. The batch is cut into minibatches that run in
parallel: the rows of the dense tensors are written in place, and the values of the sparse ones go
to a buffer of the minibatch and are merged at the end.

The wire format below `Feature`, which is read with protobuf's `CodedInputStream`, and the hash
table of the feature names are parameters. Allocations succeed.
-/

namespace TensorFlowCore

namespace DataType

def dtInvalid : DataType := 0
def dtFloat : DataType := 1
def dtString : DataType := 7
def dtInt64 : DataType := 9

end DataType

namespace ExampleParsing

open DataType

/-- How a call ends that does not return `OK`: with a status, or with a failed `CHECK` or an access
out of bounds. -/
inductive Fault where
  | status (s : Status)
  | crash
  deriving DecidableEq

/-- An element of a tensor, of one of the three types; a float is its bits. -/
inductive Value where
  | int64 (n : ℤ)
  | float (bits : UInt32)
  | string (s : ByteString)
  deriving DecidableEq

/-- A `Tensor`, with its elements in row-major order. -/
structure Tensor where
  dtype : DataType
  shape : List ℕ
  values : List Value
  deriving DecidableEq

/-- `AddDim`, with its `CHECK`s. -/
def addDim (shape : List ℕ) (size : ℕ) : Except Fault (List ℕ) :=
  if shape.length < 255 ∧
    (shape ++ [size]).prod ≤ 2 ^ 40 then .ok (shape ++ [size]) else .error .crash

/-- A `TensorShape` to which the dimensions have been added. -/
def tensorShape (dims : List ℕ) : Except Fault (List ℕ) := dims.foldlM addDim []

/-! ## The configuration -/

/-- `FastParseExampleConfig::Dense`. -/
structure Dense where
  featureName : ByteString
  dtype : DataType
  shape : List ℕ
  defaultValue : Tensor

/-- `FastParseExampleConfig::Sparse`. -/
structure Sparse where
  featureName : ByteString
  dtype : DataType

/-- `FastParseExampleConfig`. -/
structure Config where
  dense : List Dense
  sparse : List Sparse

/-- `enum class Type`. -/
inductive Kind where
  | sparse
  | dense
  deriving DecidableEq

/-- What the parser works with. -/
structure Env (M : Type) where
  /-- `ParseExample`: the names of the features with their serialized `Feature`s, as they stand in
  the input. -/
  parseExample : ByteString → Option (List (ByteString × ByteString))
  /-- `ParseInt64List`, `ParseFloatList` and `ParseBytesList`, on what follows the tag of a
  `Feature`. -/
  parseList : DataType → ByteString → Option (List Value)
  /-- The constructor of `PresizedCuckooMap`, and its `Clear`. -/
  newMap : ℕ → M
  /-- `InsertUnique`. -/
  insertUnique : M → UInt64 → ℕ × Kind → Bool × M
  /-- `Find`. -/
  find : M → UInt64 → Option (ℕ × Kind)
  /-- `SeededHasher`, by its seed. -/
  hasher : UInt64 → ByteString → UInt64

/-- `CheckConfigDataType`. -/
def checkConfigDataType (dtype : DataType) : Except Fault Unit :=
  if dtype = dtInt64 ∨ dtype = dtFloat ∨ dtype = dtString then .ok ()
  else .error (.status (invalidArgument [ascii "Invalid config dtype: ", dtype.toByteString]))

variable {M : Type} (env : Env M)

/-! ## The index of the features -/

/-- The insertions of one round, with the flag `ok` before and after it. -/
def insertFeatures (config : Config) (seed : UInt64) (ok : Bool) : Bool × M :=
  let insert (kind : Kind) (acc : Bool × M) (f : ByteString × ℕ) : Bool × M :=
    let r := env.insertUnique acc.2 (env.hasher seed f.1) (f.2, kind)
    (acc.1 && r.1, r.2)
  let acc := (config.dense.map Dense.featureName).zipIdx.foldl (insert .dense)
    (ok, env.newMap (config.dense.length + config.sparse.length))
  (config.sparse.map Sparse.featureName).zipIdx.foldl (insert .sparse) acc

/-- The rounds that are left. The flag is not set to `true` again for a new round. -/
def buildConfigIndexFrom (config : Config) : ℕ → UInt64 → Bool → Option (UInt64 × M)
  | 0, _, _ => none
  | rounds + 1, seed, ok =>
    let r := insertFeatures env config seed ok
    if r.1 then some (seed, r.2) else buildConfigIndexFrom config rounds (seed + 1) r.1

/-- The seed of the hasher, and the index. -/
def buildConfigIndex (config : Config) : Except Fault (UInt64 × M) :=
  match buildConfigIndexFrom env config 1000 0xDECAFCAFFE true with
  | some r => .ok r
  | none => .error
      (.status (internalError [ascii "Could not avoid collision. This should not happen."]))

/-- The `d_and_type` of a feature, if the configuration has it. -/
def findFeature (config : Config) (index : UInt64 × M) (featureName : ByteString) :
    Except Fault (Option (ℕ × Kind)) :=
  match env.find index.2 (env.hasher index.1 featureName) with
  | none => .ok none
  | some (d, kind) =>
    let configFeatureName? := match kind with
      | .dense => config.dense[d]?.map Dense.featureName
      | .sparse => config.sparse[d]?.map Sparse.featureName
    match configFeatureName? with
    | none => .error .crash
    | some configFeatureName =>
      .ok (if featureName = configFeatureName then some (d, kind) else none)

/-! ## One example -/

/-- A write to the buffer of a dense tensor: the tensor, the offset and the value. -/
abbrev Write := (ℕ × ℕ) × Value

/-- `SparseBuffer`, whose three lists are one: only that of the configured type is used. -/
structure SparseBuffer where
  values : List Value := []
  exampleEndIndices : List ℕ := []

/-- What `FastParseSerializedExample` writes to. -/
structure Output where
  /-- The writes to `output_dense`, in their order. -/
  writes : List Write := []
  /-- `output_sparse`. -/
  buffers : ℕ → SparseBuffer := fun _ ↦ {}

/-- The state of a call of `FastParseSerializedExample`. -/
structure Progress where
  sparseFeatureLastExample : ℕ → ℤ := fun _ ↦ -1
  denseFeatureLastExample : ℕ → ℤ := fun _ ↦ -1
  out : Output

/-- `ParseDataType`: the type of a `Feature`, and what follows its tag. -/
def parseDataType : ByteString → Except Fault (DataType × ByteString)
  | [] => .ok (dtInvalid, [])
  | tag :: serialized =>
    if tag = 10 then .ok (dtString, serialized)
    else if tag = 18 then .ok (dtFloat, serialized)
    else if tag = 26 then .ok (dtInt64, serialized)
    else .error (.status (invalidArgument [ascii "Unsuported datatype."]))

/-- `type_str`. -/
def typeStr (dtype : DataType) : ByteString :=
  if dtype = dtInt64 then ascii "int64" else if dtype =
    dtFloat then ascii "float" else ascii "bytes"

/-- `DebugString` of a shape. -/
def debugString (shape : List ℕ) : ByteString :=
  ascii "[" ++ (ascii ",").intercalate (shape.map decimal) ++ ascii "]"

/-- `std::copy_n` to the buffer of a dense tensor. -/
def copyRow (d offset : ℕ) (values : List Value) : List Write :=
  (values.zipIdx offset).map fun v ↦ ((d, v.2), v.1)

variable (config : Config) (index : UInt64 × M) (exampleName : ByteString) (e : ℕ)

/-- `example_error`. -/
def exampleError {α : Type} (featureName suffix : ByteString) : Except Fault α :=
  .error (.status (invalidArgument [ascii "Name: ", exampleName, ascii ", Key: ", featureName,
    ascii ", Index: ",
    decimal e, ascii ".  ", suffix]))

/-- An entry of a dense feature. -/
def handleDense (featureName : ByteString) (d : ℕ) (exampleDtype : DataType)
    (serialized : ByteString)
    (p : Progress) : Except Fault Progress :=
  if exampleDtype = dtInvalid then .ok p
  else if p.denseFeatureLastExample d = e then .ok p
  else
    match config.dense[d]? with
    | none => .error .crash
    | some c =>
      if exampleDtype ≠ c.dtype then
        exampleError exampleName e featureName (ascii "Data types don't match. Data type: " ++
          exampleDtype.toByteString ++ ascii "Expected type: " ++ c.dtype.toByteString)
      else
        match env.parseList c.dtype serialized with
        | none => exampleError exampleName e featureName (ascii "Can't parse serialized Example.")
        | some list =>
          if list.length ≠ c.shape.prod then
            exampleError exampleName e featureName (ascii "Number of " ++ typeStr c.dtype ++
              ascii " values != expected.  " ++ ascii "Values size: " ++ decimal list.length ++
              ascii " but output shape: " ++ debugString c.shape)
          else
            .ok
              { p with
                denseFeatureLastExample := Function.update p.denseFeatureLastExample d e
                out := { p.out with writes := p.out.writes ++ copyRow d (e * c.shape.prod) list } }

/-- What is appended to the list of a sparse feature. -/
def sparseValues (featureName : ByteString) (dtype exampleDtype : DataType)
    (serialized : ByteString) :
    Except Fault (List Value) :=
  if exampleDtype = dtInvalid then .ok []
  else
    match env.parseList dtype serialized with
    | none => exampleError exampleName e featureName (ascii "Can't parse serialized Example.")
    | some list => .ok list

/-- Append the values of an example. -/
def SparseBuffer.push (b : SparseBuffer) (values : List Value) : SparseBuffer where
  values := b.values ++ values
  exampleEndIndices := b.exampleEndIndices ++ [(b.values ++ values).length]

/-- An entry of a sparse feature. -/
def handleSparse (featureName : ByteString) (d : ℕ) (exampleDtype : DataType)
    (serialized : ByteString)
    (p : Progress) : Except Fault Progress :=
  if p.sparseFeatureLastExample d = e then .ok p
  else
    match config.sparse[d]? with
    | none => .error .crash
    | some c =>
      if exampleDtype ≠ dtInvalid ∧ exampleDtype ≠ c.dtype then
        exampleError exampleName e featureName (ascii "Data types don't match. " ++
          ascii "Expected type: " ++
          c.dtype.toByteString)
      else do
        let values ← sparseValues env exampleName e featureName c.dtype exampleDtype serialized
        return { p with
          sparseFeatureLastExample := Function.update p.sparseFeatureLastExample d e
          out := { p.out with buffers := Function.update p.out.buffers d ((p.out.buffers d).push
            values) } }

/-- One round of the loop over the features of the example. -/
def handleFeature (p : Progress) (nameAndFeature : ByteString × ByteString) : Except Fault
    Progress := do
  match ← findFeature env config index nameAndFeature.1 with
  | none => return p
  | some (d, kind) =>
    let (exampleDtype, serialized) ← parseDataType nameAndFeature.2
    match kind with
    | .dense => handleDense env config exampleName e nameAndFeature.1 d exampleDtype serialized p
    | .sparse => handleSparse env config exampleName e nameAndFeature.1 d exampleDtype serialized p

/-- One round of the loop over the dense features that are missing. -/
def handleMissingDense (p : Progress) (c : Dense × ℕ) : Except Fault Progress :=
  if p.denseFeatureLastExample c.2 = e then .ok p
  else if c.1.defaultValue.values.length = 0 then
    .error (.status (invalidArgument [ascii "Name: ", exampleName, ascii ", Feature: ",
      c.1.featureName,
      ascii " is required but could not be found."]))
  else if c.1.defaultValue.dtype ≠ c.1.dtype then .error .crash
  else
    let numElements := c.1.defaultValue.values.length
    .ok { p with out := { p.out with
      writes := p.out.writes ++ copyRow c.2 (e * numElements) c.1.defaultValue.values } }

/-- A missing feature of a sparse buffer: the last end, once more. -/
def SparseBuffer.pushMissing (b : SparseBuffer) : SparseBuffer :=
  { b with exampleEndIndices := b.exampleEndIndices ++ [b.exampleEndIndices.getLast?.getD 0] }

/-- One round of the loop over the sparse features that are missing. -/
def handleMissingSparse (p : Progress) (d : ℕ) : Progress :=
  if p.sparseFeatureLastExample d = e then p
  else
    { p with out := { p.out with
      buffers := Function.update p.out.buffers d (p.out.buffers d).pushMissing } }

/-- `FastParseSerializedExample`. -/
def fastParseSerializedExample (serializedExample : ByteString) (out : Output) :
    Except Fault Output :=
  match env.parseExample serializedExample with
  | none =>
    .error (.status (invalidArgument [ascii "Could not parse example input, value: '",
      serializedExample, ascii "'"]))
  | some parsedExample => do
    -- the last entry of a name is the first to be handled
    let p ← parsedExample.reverse.foldlM (handleFeature env config index exampleName e)
      { out := out }
    let p ← config.dense.zipIdx.foldlM (handleMissingDense exampleName e) p
    return ((List.range config.sparse.length).foldl (handleMissingSparse e) p).out

end ExampleParsing

end TensorFlowCore
