import TensorFlowCore.Lib.Io.Table.Block
import TensorFlowCore.Lib.Io.Table.Format

/-!
# `TableBuilder`

`tensorflow/core/lib/io/table_builder.cc`, writing to a file that takes every `Append`, so that the
status stays `OK`.
-/

namespace TensorFlowCore.Table

/-- `FindShortestSeparator`: a key from `start` on and before `limit`, shorter where that is
easy. -/
def findShortestSeparator (start limit : ByteString) : ByteString :=
  let minLength := min start.length limit.length
  let diffIndex := sharedPrefix start limit
  if diffIndex ≥ minLength then start
  else
    let diffByte := start.getD diffIndex 0
    if diffByte < 0xff ∧ diffByte.toNat + 1 < (limit.getD diffIndex 0).toNat then
      (start.set diffIndex (diffByte + 1)).take (diffIndex + 1)
    else start

/-- `FindShortSuccessor`: the first byte that can be incremented is, and the rest is dropped. -/
def findShortSuccessor : ByteString → ByteString
  | [] => []
  | byte :: key =>
    if byte ≠ 0xff then [byte + 1]
    else byte :: findShortSuccessor key

/-- The `Options` that a table is built with. -/
structure Options where
  blockSize : UInt64 := 262144
  blockRestartInterval : ℕ := 16
  compression : CompressionType := .kSnappyCompression

/-- `TableBuilder::Rep`. -/
structure TableBuilder where
  options : Options
  file : ByteString := []
  offset : UInt64 := 0
  dataBlock : BlockBuilder := { blockRestartInterval := options.blockRestartInterval }
  /-- The index block restarts at every entry. -/
  indexBlock : BlockBuilder := { blockRestartInterval := 1 }
  lastKey : ByteString := []
  numEntries : ℕ := 0
  /-- An index entry is held back until the first key of the next block is seen. -/
  pendingIndexEntry : Bool := false
  pendingHandle : BlockHandle := {}
  /-- The blocks written so far, before compression. No step reads this. -/
  rawBlocks : List ByteString := []

namespace TableBuilder

section

variable (step : UInt32 → UInt8 → UInt32) (snappy : Snappy)

/-- `TableBuilder::WriteRawBlock`. -/
def writeRawBlock (r : TableBuilder) (blockContents : ByteString) (type : CompressionType) :
    TableBuilder × BlockHandle :=
  let crc := crcExtend step (crcValue step blockContents) [type.toByte]
  let trailer := type.toByte :: encodeFixed32 (mask crc)
  ({ r with
    file := r.file ++ blockContents ++ trailer
    offset := r.offset + (blockContents.length + kBlockTrailerSize).toUInt64 },
    ⟨r.offset, blockContents.length.toUInt64⟩)

/-- The contents and the type that `WriteBlock` stores a finished block with: compressed only if
that saves more than an eighth. -/
def compressBlock (type : CompressionType) (raw : ByteString) : ByteString × CompressionType :=
  match type with
  | .kNoCompression => (raw, .kNoCompression)
  | .kSnappyCompression =>
    match snappy.compress raw with
    | some compressed =>
      if compressed.length < raw.length - raw.length / 8 then (compressed, .kSnappyCompression)
      else (raw, .kNoCompression)
    | none => (raw, .kNoCompression)

/-- `TableBuilder::WriteBlock`, without the `Reset` of the block. -/
def writeBlock (r : TableBuilder) (block : BlockBuilder) : TableBuilder × BlockHandle :=
  let raw := block.finish
  let stored := compressBlock snappy r.options.compression raw
  writeRawBlock step { r with rawBlocks := r.rawBlocks ++ [raw] } stored.1 stored.2

/-- `TableBuilder::Flush`. -/
def flush (r : TableBuilder) : TableBuilder :=
  if r.dataBlock.buffer = [] then r
  else
    let (r', handle) := writeBlock step snappy r r.dataBlock
    { r' with dataBlock := r.dataBlock.reset, pendingHandle := handle, pendingIndexEntry := true }

/-- The index entry that is held back, with the key that closes its block. -/
def addIndexEntry (r : TableBuilder) (separator : ByteString) : TableBuilder :=
  { r with
    indexBlock := r.indexBlock.add separator (r.pendingHandle.encodeTo [])
    pendingIndexEntry := false }

/-- `TableBuilder::Add`. -/
def add (r : TableBuilder) (key value : ByteString) : TableBuilder :=
  let r :=
    if r.numEntries > 0 ∧ key.length + value.length ≥ (2 * r.options.blockSize).toNat then
      flush step snappy r
    else r
  let r :=
    if r.pendingIndexEntry then r.addIndexEntry (findShortestSeparator r.lastKey key) else r
  let r :=
    { r with
      lastKey := key
      numEntries := r.numEntries + 1
      dataBlock := r.dataBlock.add key value }
  if r.dataBlock.currentSizeEstimate ≥ r.options.blockSize.toNat then flush step snappy r else r

/-- `TableBuilder::Finish`. -/
def finish (r : TableBuilder) : TableBuilder :=
  let r := flush step snappy r
  let (r, metaindexBlockHandle) :=
    writeBlock step snappy r { blockRestartInterval := r.options.blockRestartInterval }
  let r := if r.pendingIndexEntry then r.addIndexEntry (findShortSuccessor r.lastKey) else r
  let (r, indexBlockHandle) := writeBlock step snappy r r.indexBlock
  let footerEncoding := Footer.encodeTo ⟨metaindexBlockHandle, indexBlockHandle⟩ []
  { r with
    file := r.file ++ footerEncoding
    offset := r.offset + footerEncoding.length.toUInt64 }

end

end TableBuilder

/-- The builder after `Add`ing a list of pairs and `Finish`. -/
def buildTable (step : UInt32 → UInt8 → UInt32) (snappy : Snappy) (options : Options)
    (kvs : List (ByteString × ByteString)) : TableBuilder :=
  (kvs.foldl (fun r kv ↦ TableBuilder.add step snappy r kv.1 kv.2)
    { options := options }).finish step snappy

/-!
## `Table`

Reading a table: `TwoLevelIterator` of `tensorflow/core/lib/io/two_level_iterator.cc` and `Table` of
`table.cc`. A `TwoLevelIterator` goes through an index iterator, and for each value of it through
the iterator that the block function makes of that value.
-/

/-- `Iterator::key` and `Iterator::value` of a valid iterator. -/
def Iterator.value (it : Iterator) : ByteString := (it.entry.getD ([], [])).2

/-- More steps than an iterator can take before it is past its last entry. -/
def Iterator.steps : Iterator → ℕ
  | entries it => it.data.length + 2
  | empty _ => 1

/-- `TwoLevelIterator`. -/
structure TwoLevelIterator where
  blockFunction : ByteString → Iterator
  indexIter : Iterator
  /-- May be null. -/
  dataIter : Option Iterator := none
  /-- The value that `dataIter` was made of. -/
  dataBlockHandle : ByteString := []
  status : Status := .ok

namespace TwoLevelIterator

/-- `TwoLevelIterator::Valid`. -/
def valid (tl : TwoLevelIterator) : Bool :=
  match tl.dataIter with
  | none => false
  | some it => it.valid

/-- `TwoLevelIterator::key` and `TwoLevelIterator::value`. -/
def entry (tl : TwoLevelIterator) : Option (ByteString × ByteString) := tl.dataIter.bind (·.entry)

/-- `TwoLevelIterator::SaveError`. -/
def saveError (tl : TwoLevelIterator) (s : Status) : TwoLevelIterator :=
  if tl.status = .ok ∧ s ≠ .ok then { tl with status := s } else tl

/-- `TwoLevelIterator::SetDataIterator`. -/
def setDataIterator (tl : TwoLevelIterator) (dataIter : Option Iterator) : TwoLevelIterator :=
  match tl.dataIter with
  | none => { tl with dataIter := dataIter }
  | some old => { tl.saveError old.status with dataIter := dataIter }

/-- `TwoLevelIterator::InitDataBlock`. -/
def initDataBlock (tl : TwoLevelIterator) : TwoLevelIterator :=
  if ¬tl.indexIter.valid then tl.setDataIterator none
  else
    let handle := tl.indexIter.value
    if tl.dataIter.isSome ∧ handle = tl.dataBlockHandle then tl
    else { tl with dataBlockHandle := handle }.setDataIterator (some (tl.blockFunction handle))

/-- `TwoLevelIterator::SkipEmptyDataBlocksForward`, for at most the given number of blocks. -/
def skipEmptyDataBlocksForward : ℕ → TwoLevelIterator → TwoLevelIterator
  | 0, tl => tl
  | n + 1, tl =>
    if tl.valid then tl
    else if ¬tl.indexIter.valid then tl.setDataIterator none
    else
      let tl := { tl with indexIter := tl.indexIter.next }.initDataBlock
      skipEmptyDataBlocksForward n { tl with dataIter := tl.dataIter.map Iterator.seekToFirst }

/-- The skipping that ends every positioning of the iterator. -/
def skip (tl : TwoLevelIterator) : TwoLevelIterator :=
  tl.skipEmptyDataBlocksForward tl.indexIter.steps

/-- `TwoLevelIterator::Seek`. -/
def seek (tl : TwoLevelIterator) (target : ByteString) : TwoLevelIterator :=
  let tl := { tl with indexIter := tl.indexIter.seek target }.initDataBlock
  skip { tl with dataIter := tl.dataIter.map (·.seek target) }

/-- `TwoLevelIterator::SeekToFirst`. -/
def seekToFirst (tl : TwoLevelIterator) : TwoLevelIterator :=
  let tl := { tl with indexIter := tl.indexIter.seekToFirst }.initDataBlock
  skip { tl with dataIter := tl.dataIter.map Iterator.seekToFirst }

/-- `TwoLevelIterator::Next`. -/
def next (tl : TwoLevelIterator) : TwoLevelIterator :=
  skip { tl with dataIter := tl.dataIter.map Iterator.next }

instance : IteratorMethods TwoLevelIterator where
  valid := valid
  entry := entry
  seekToFirst := seekToFirst
  seek := seek
  next := next

end TwoLevelIterator

/-- `Table::Rep`. -/
structure TableRep where
  file : ByteString
  metaindexHandle : BlockHandle
  indexBlock : Block

section

variable (step : UInt32 → UInt8 → UInt32) (snappy : Snappy)

/-- `Table::Open`. -/
def openTable (file : ByteString) (size : UInt64) : Except Status TableRep :=
  if size.toNat < Footer.kEncodedLength then
    .error (.error .dataLoss (ascii "file is too short to be an sstable"))
  else
    match readFile file (size - Footer.kEncodedLength.toUInt64) Footer.kEncodedLength.toUInt64 with
    | (.error code msg, _) => .error (.error code msg)
    | (.ok, footerInput) =>
      match Footer.decodeFrom footerInput with
      | .error s => .error s
      | .ok footer =>
        match readBlock step snappy file footer.indexHandle with
        | .error s => .error s
        | .ok contents => .ok ⟨file, footer.metaindexHandle, Block.new contents⟩

namespace TableRep

variable (t : TableRep)

/-- `Table::BlockReader`: the iterator over the block that an index value points to. -/
def blockReader (indexValue : ByteString) : Iterator :=
  match BlockHandle.decodeFrom indexValue with
  | .error s => .empty s
  | .ok (handle, _) =>
    match readBlock step snappy t.file handle with
    | .error s => .empty s
    | .ok contents => (Block.new contents).newIterator

/-- `Table::NewIterator`. -/
def newIterator : TwoLevelIterator where
  blockFunction := t.blockReader step snappy
  indexIter := t.indexBlock.newIterator

/-- The iterator over the block that the index selects for a key, if it selects one. -/
def selectedBlock (key : ByteString) : Option Iterator :=
  let iiter := t.indexBlock.newIterator.seek key
  if iiter.valid then some (t.blockReader step snappy iiter.value) else none

/-- `Table::InternalGet`: the pair that the callback is called with, if it is, and the status. -/
def internalGet (key : ByteString) : Option (ByteString × ByteString) × Status :=
  let iiter := t.indexBlock.newIterator.seek key
  if iiter.valid then
    let blockIter := (t.blockReader step snappy iiter.value).seek key
    (blockIter.entry, if blockIter.status = .ok then iiter.status else blockIter.status)
  else (none, iiter.status)

end TableRep

end

/-- An iterator shows a pair when a client goes on from the first one. -/
def Iterator.Shows (it : Iterator) (kv : ByteString × ByteString) : Prop :=
  ∃ n, (∀ m < n, (Iterator.next^[m] it.seekToFirst).valid) ∧
    (Iterator.next^[n] it.seekToFirst).entry = some kv

/-- A table gives back the pairs it was built from: it is opened, its iterator goes through them,
and a lookup calls its callback with the first one at or past the key if the block that the index
selects has one. -/
def TableRoundTrips (step : UInt32 → UInt8 → UInt32) (snappy : Snappy) (options : Options)
    (kvs : List (ByteString × ByteString)) : Prop :=
  let file := (buildTable step snappy options kvs).file
  ∃ t, openTable step snappy file file.length.toUInt64 = .ok t ∧
    GoesThrough (t.newIterator step snappy) kvs ∧
    ∀ key it, t.selectedBlock step snappy key = some it →
      (∃ kv, it.Shows kv ∧ key ≤ kv.1) →
        (t.internalGet step snappy key).1 = kvs.find? fun kv ↦ key ≤ kv.1

end TensorFlowCore.Table
