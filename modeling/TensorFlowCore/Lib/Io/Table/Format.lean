import TensorFlowCore.Lib.Core.Coding
import TensorFlowCore.Lib.Hash.Crc32c
import TensorFlowCore.Lib.Io.RandomAccessInputStream
import TensorFlowCore.Lib.Io.Snappy.OutputBuffer

/-!
# The format of a table file

`BlockHandle`, `Footer` and `ReadBlock` of `tensorflow/core/lib/io/format.cc`.
-/

namespace TensorFlowCore.Table

open List

/-- `CompressionType`. -/
inductive CompressionType where
  | kNoCompression
  | kSnappyCompression
  deriving DecidableEq

/-- The byte that stores a compression type. -/
def CompressionType.toByte : CompressionType → UInt8
  | kNoCompression => 0x0
  | kSnappyCompression => 0x1

/-- `BlockHandle`: the extent of a block in the file. -/
structure BlockHandle where
  offset : UInt64 := 0xffffffffffffffff
  size : UInt64 := 0xffffffffffffffff
  deriving DecidableEq

namespace BlockHandle

/-- `BlockHandle::kMaxEncodedLength`. -/
def kMaxEncodedLength : ℕ := 20

/-- `BlockHandle::EncodeTo`. -/
def encodeTo (h : BlockHandle) (dst : ByteString) : ByteString :=
  dst ++ encodeVarint64 h.offset ++ encodeVarint64 h.size

/-- `BlockHandle::DecodeFrom`: the handle and the rest of the input. -/
def decodeFrom (input : ByteString) : Except Status (BlockHandle × ByteString) :=
  match getVarint64 input with
  | none => .error (.error .dataLoss (ascii "bad block handle"))
  | some (offset, input) =>
    match getVarint64 input with
    | none => .error (.error .dataLoss (ascii "bad block handle"))
    | some (size, input) => .ok (⟨offset, size⟩, input)

end BlockHandle

/-- `Footer`. -/
structure Footer where
  metaindexHandle : BlockHandle := {}
  indexHandle : BlockHandle := {}

/-- `kTableMagicNumber`. -/
def kTableMagicNumber : UInt64 := 0xdb4775248b80fb57

namespace Footer

/-- `Footer::kEncodedLength`. -/
def kEncodedLength : ℕ := 2 * BlockHandle.kMaxEncodedLength + 8

/-- `string::resize`: cut, or fill up with zero bytes. -/
def resize (n : ℕ) (x : ByteString) : ByteString := x.take n ++ List.replicate (n - x.length) 0

/-- `Footer::EncodeTo`. -/
def encodeTo (f : Footer) (dst : ByteString) : ByteString :=
  resize (2 * BlockHandle.kMaxEncodedLength)
    (f.indexHandle.encodeTo (f.metaindexHandle.encodeTo dst)) ++
    encodeFixed32 (kTableMagicNumber &&& 0xffffffff).toUInt32 ++
    encodeFixed32 (kTableMagicNumber >>> 32).toUInt32

/-- `Footer::DecodeFrom`, of an input of at least `kEncodedLength` bytes. -/
def decodeFrom (input : ByteString) : Except Status Footer :=
  let magicPtr := input.drop (kEncodedLength - 8)
  let magicLo := decodeFixed32 magicPtr
  let magicHi := decodeFixed32 (magicPtr.drop 4)
  let magic := magicHi.toUInt64 <<< 32 ||| magicLo.toUInt64
  if magic ≠ kTableMagicNumber then
    .error (.error .dataLoss (ascii "not an sstable (bad magic number)"))
  else
    match BlockHandle.decodeFrom input with
    | .error s => .error s
    | .ok (metaindexHandle, input) =>
      match BlockHandle.decodeFrom input with
      | .error s => .error s
      | .ok (indexHandle, _) => .ok ⟨metaindexHandle, indexHandle⟩

end Footer

/-- `kBlockTrailerSize`: a type and a checksum. -/
def kBlockTrailerSize : ℕ := 5

/-- The part of `ReadBlock` behind the checksum: undo the compression that the type byte names. -/
def uncompressBlock (snappy : Snappy) (type : UInt8) (data : ByteString) :
    Except Status ByteString :=
  if type = CompressionType.kNoCompression.toByte then .ok data
  else if type = CompressionType.kSnappyCompression.toByte then
    match snappy.getUncompressedLength data with
    | none => .error (.error .dataLoss (ascii "corrupted compressed block contents"))
    | some ulength =>
      match snappy.uncompress data with
      | none => .error (.error .dataLoss (ascii "corrupted compressed block contents"))
      | some ubuf => .ok (ubuf.take ulength)
  else .error (.error .dataLoss (ascii "bad block type"))

/-- `ReadBlock`. -/
def readBlock (step : UInt32 → UInt8 → UInt32) (snappy : Snappy) (file : ByteString)
    (handle : BlockHandle) : Except Status ByteString :=
  let n := handle.size
  match readFile file handle.offset (n + kBlockTrailerSize.toUInt64) with
  | (.error code msg, _) => .error (.error code msg)
  | (.ok, contents) =>
    if contents.length ≠ (n + kBlockTrailerSize.toUInt64).toNat then
      .error (.error .dataLoss (ascii "truncated block read"))
    else
      let crc := unmask (decodeFixed32 (contents.drop (n.toNat + 1)))
      let actual := crcValue step (contents.take (n.toNat + 1))
      if actual ≠ crc then .error (.error .dataLoss (ascii "block checksum mismatch"))
      else uncompressBlock snappy (contents.getD n.toNat 0) (contents.take n.toNat)

/-! ### Reading what was written -/

namespace BlockHandle

theorem encodeTo_eq (h : BlockHandle) (dst : ByteString) :
    h.encodeTo dst = dst ++ h.encodeTo [] := by
  rw [encodeTo, encodeTo, nil_append, append_assoc]

theorem decodeFrom_encodeTo (h : BlockHandle) (rest : ByteString) :
    decodeFrom (h.encodeTo [] ++ rest) = .ok (h, rest) := by
  rw [encodeTo, nil_append, append_assoc, decodeFrom]
  simp only [getVarint64_append]

theorem length_encodeTo_le (h : BlockHandle) : (h.encodeTo []).length ≤ kMaxEncodedLength := by
  have hoffset := length_encodeVarint64_le h.offset
  have hsize := length_encodeVarint64_le h.size
  rw [encodeTo, nil_append, length_append, kMaxEncodedLength]
  omega

end BlockHandle

namespace Footer

/-- The handles and the padding behind them. -/
theorem encodeTo_nil (f : Footer) : ∃ padding, f.encodeTo [] =
    f.metaindexHandle.encodeTo [] ++ (f.indexHandle.encodeTo [] ++ padding) ++
      (encodeFixed32 (kTableMagicNumber &&& 0xffffffff).toUInt32 ++
        encodeFixed32 (kTableMagicNumber >>> 32).toUInt32) ∧
    (f.metaindexHandle.encodeTo [] ++ (f.indexHandle.encodeTo [] ++ padding)).length = 40 := by
  have hmeta := f.metaindexHandle.length_encodeTo_le
  have hindex := f.indexHandle.length_encodeTo_le
  rw [BlockHandle.kMaxEncodedLength] at hmeta hindex
  set handles := f.metaindexHandle.encodeTo [] ++ f.indexHandle.encodeTo [] with hhandles
  have hlen : handles.length ≤ 40 := by
    rw [hhandles, length_append]
    omega
  have hresize : resize (2 * BlockHandle.kMaxEncodedLength) handles =
      handles ++ replicate (40 - handles.length) 0 := by
    rw [resize, BlockHandle.kMaxEncodedLength, take_of_length_le (by omega)]
  refine ⟨replicate (40 - handles.length) 0, ?_, ?_⟩
  · rw [encodeTo, BlockHandle.encodeTo_eq f.indexHandle, ← hhandles, hresize, hhandles]
    simp only [append_assoc]
  · rw [← append_assoc, ← hhandles, length_append, length_replicate]
    omega

theorem length_encodeTo (f : Footer) : (f.encodeTo []).length = kEncodedLength := by
  obtain ⟨padding, heq, hlen⟩ := f.encodeTo_nil
  rw [heq, length_append, hlen]
  rfl

theorem decodeFrom_encodeTo (f : Footer) : decodeFrom (f.encodeTo []) = .ok f := by
  obtain ⟨padding, heq, hlen⟩ := f.encodeTo_nil
  have hdrop : (f.encodeTo []).drop (kEncodedLength - 8) =
      encodeFixed32 (kTableMagicNumber &&& 0xffffffff).toUInt32 ++
        encodeFixed32 (kTableMagicNumber >>> 32).toUInt32 := by
    rw [heq]
    exact drop_left' hlen
  have hmagic : (decodeFixed32 ((encodeFixed32 (kTableMagicNumber &&& 0xffffffff).toUInt32 ++
        encodeFixed32 (kTableMagicNumber >>> 32).toUInt32).drop 4)).toUInt64 <<< 32 |||
      (decodeFixed32 (encodeFixed32 (kTableMagicNumber &&& 0xffffffff).toUInt32 ++
        encodeFixed32 (kTableMagicNumber >>> 32).toUInt32)).toUInt64 = kTableMagicNumber := by
    decide
  rw [decodeFrom]
  simp only [hdrop, hmagic, ne_eq, not_true_eq_false, if_false]
  rw [heq]
  simp only [append_assoc, BlockHandle.decodeFrom_encodeTo]

end Footer

end TensorFlowCore.Table
