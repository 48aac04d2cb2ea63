import TensorFlowCore.Lib.Io.Table.BlockIterator
import TensorFlowCore.Lib.Io.Table.Table

/-!
# The layout of a table

What `TableBuilder` writes: data blocks, each closed by an index entry whose key separates its keys
from those of the next blocks, the index block and the footer. `Builds` relates a builder to the
blocks it has closed, the block whose index entry it holds back and the pairs of the block it is
filling; `exists_tableFile` says what the finished file holds.
-/

namespace TensorFlowCore.Table

open List

variable {step : UInt32 → UInt8 → UInt32} {snappy : Snappy}

/-! ### Separators -/

theorem lt_of_lt_of_le {x y z : ByteString} (hxy : x < y) (hyz : y ≤ z) : x < z :=
  Classical.byContradiction fun hzx ↦ hyz (List.lt_of_le_of_lt hzx hxy)

theorem findShortestSeparator_cons (a : UInt8) (x y : ByteString) :
    findShortestSeparator (a :: x) (a :: y) = a :: findShortestSeparator x y := by
  simp only [findShortestSeparator, sharedPrefix, if_true, length_cons, ge_iff_le, getD_cons_succ,
    set_cons_succ, take_succ_cons, Nat.add_min_add_right, Nat.add_le_add_iff_right]
  split
  · rfl
  · split <;> rfl

theorem findShortestSeparator_cons_of_ne {a b : UInt8} (h : a ≠ b) (x y : ByteString) :
    findShortestSeparator (a :: x) (b :: y) =
      if a < 0xff ∧ a.toNat + 1 < b.toNat then [a + 1] else a :: x := by
  simp [findShortestSeparator, sharedPrefix, h]

theorem toNat_succ {a : UInt8} (h : a ≠ 0xff) : (a + 1).toNat = a.toNat + 1 := by
  have hne : a.toNat ≠ 255 := fun h' ↦ h (UInt8.toNat_inj.1 h')
  have hlt : a.toNat < 256 := a.toNat_lt
  rw [UInt8.toNat_add]
  show (a.toNat + 1) % 256 = a.toNat + 1
  omega

theorem cons_lt_succ {a : UInt8} (h : a ≠ 0xff) (x y : ByteString) : a :: x < (a + 1) :: y := by
  refine cons_lt_cons_iff.2 (.inl (UInt8.lt_iff_toNat_lt.2 ?_))
  rw [toNat_succ h]
  exact Nat.lt_succ_self _

/-- A separator lies between the two keys it separates. -/
theorem findShortestSeparator_spec {start limit : ByteString} (h : start < limit) :
    start ≤ findShortestSeparator start limit ∧ findShortestSeparator start limit < limit := by
  induction start generalizing limit with
  | nil =>
    have hnil : findShortestSeparator [] limit = [] := by simp [findShortestSeparator]
    rw [hnil]
    exact ⟨List.lt_irrefl _, h⟩
  | cons a x ih =>
    rcases limit with - | ⟨b, y⟩
    · exact absurd h (not_lt_nil _)
    · by_cases hab : a = b
      · subst hab
        obtain hlt | ⟨-, hxy⟩ := cons_lt_cons_iff.1 h
        · exact absurd hlt (UInt8.lt_irrefl _)
        · obtain ⟨hle, hlt⟩ := ih hxy
          rw [findShortestSeparator_cons]
          refine ⟨fun hcontra ↦ ?_, cons_lt_cons_iff.2 (.inr ⟨rfl, hlt⟩)⟩
          obtain hlt' | ⟨-, hlt'⟩ := cons_lt_cons_iff.1 hcontra
          · exact absurd hlt' (UInt8.lt_irrefl _)
          · exact hle hlt'
      · rw [findShortestSeparator_cons_of_ne hab]
        split
        · rename_i hshort
          have hne : a ≠ 0xff := by
            rintro rfl
            exact absurd hshort.1 (UInt8.lt_irrefl _)
          refine ⟨List.lt_asymm (cons_lt_succ hne x []), List.cons_lt_cons_iff.2 (.inl ?_)⟩
          rw [UInt8.lt_iff_toNat_lt, toNat_succ hne]
          exact hshort.2
        · exact ⟨List.lt_irrefl _, h⟩

/-- The short successor of a key is at or past it. -/
theorem le_findShortSuccessor (key : ByteString) : key ≤ findShortSuccessor key := by
  induction key with
  | nil => exact not_lt_nil _
  | cons byte key ih =>
    rw [findShortSuccessor]
    split
    · rename_i hbyte
      exact List.lt_asymm (cons_lt_succ hbyte key [])
    · intro hlt
      obtain hlt | ⟨-, hlt⟩ := cons_lt_cons_iff.1 hlt
      · exact absurd hlt (UInt8.lt_irrefl _)
      · exact ih hlt

/-! ### Stored blocks -/

variable (step snappy) in
/-- A block as it is stored: its contents, maybe compressed, and the trailer. -/
def storedBlock (type : CompressionType) (raw : ByteString) : ByteString :=
  let stored := TableBuilder.compressBlock snappy type raw
  stored.1 ++ stored.2.toByte ::
    encodeFixed32 (mask (crcExtend step (crcValue step stored.1) [stored.2.toByte]))

variable (step snappy) in
/-- A handle points to a stored block in the file. -/
def StoredAt (type : CompressionType) (file : ByteString) (handle : BlockHandle)
    (raw : ByteString) : Prop :=
  ∃ pre rest, file = pre ++ (storedBlock step snappy type raw ++ rest) ∧
    handle = ⟨pre.length.toUInt64,
      (TableBuilder.compressBlock snappy type raw).1.length.toUInt64⟩

theorem StoredAt.append {type : CompressionType} {file : ByteString} {handle : BlockHandle}
    {raw : ByteString} (h : StoredAt step snappy type file handle raw) (more : ByteString) :
    StoredAt step snappy type (file ++ more) handle raw := by
  obtain ⟨pre, rest, rfl, rfl⟩ := h
  exact ⟨pre, rest ++ more, by simp only [append_assoc], rfl⟩

theorem length_storedBlock (type : CompressionType) (raw : ByteString) :
    (storedBlock step snappy type raw).length =
      (TableBuilder.compressBlock snappy type raw).1.length + kBlockTrailerSize := by
  rw [storedBlock, length_append, length_cons, length_encodeFixed32]
  rfl

/-- What was compressed is uncompressed again. -/
theorem uncompressBlock_compressBlock (hsnappy : snappy.Undoes) (type : CompressionType)
    (raw : ByteString) :
    uncompressBlock snappy (TableBuilder.compressBlock snappy type raw).2.toByte
      (TableBuilder.compressBlock snappy type raw).1 = .ok raw := by
  cases type with
  | kNoCompression => rfl
  | kSnappyCompression =>
    rw [TableBuilder.compressBlock]
    split
    · rename_i compressed hcompress
      obtain ⟨hlength, huncompress⟩ := hsnappy raw compressed hcompress
      split
      · rw [uncompressBlock, if_neg (show ¬CompressionType.kSnappyCompression.toByte = _ by decide),
          if_pos rfl]
        simp only [hlength, huncompress, take_length]
      · rfl
    · rfl

/-- `ReadBlock` reads a stored block back from a file that `uint64` offsets can address. -/
theorem StoredAt.readBlock_eq {type : CompressionType} {file : ByteString} {handle : BlockHandle}
    {raw : ByteString} (hsnappy : snappy.Undoes) (h : StoredAt step snappy type file handle raw)
    (hfile : file.length < 2 ^ 64) : readBlock step snappy file handle = .ok raw := by
  obtain ⟨pre, rest, rfl, rfl⟩ := h
  set stored := TableBuilder.compressBlock snappy type raw with hstored
  have hlen : pre.length + (stored.1.length + 5) ≤
      (pre ++ (storedBlock step snappy type raw ++ rest)).length := by
    rw [length_append, length_append, length_storedBlock, kBlockTrailerSize, ← hstored]
    omega
  have hoffset : pre.length.toUInt64.toNat = pre.length :=
    Nat.mod_eq_of_lt (by show pre.length < 2 ^ 64; omega)
  have hn : stored.1.length.toUInt64.toNat = stored.1.length :=
    Nat.mod_eq_of_lt (by show stored.1.length < 2 ^ 64; omega)
  have hsize : (stored.1.length.toUInt64 + kBlockTrailerSize.toUInt64).toNat =
      (storedBlock step snappy type raw).length := by
    rw [UInt64.toNat_add, hn, length_storedBlock, ← hstored]
    exact Nat.mod_eq_of_lt (by show stored.1.length + 5 < 2 ^ 64; omega)
  have hread := readFile_append hoffset hsize rest
  have hbytes : storedBlock step snappy type raw = stored.1 ++ [stored.2.toByte] ++
      encodeFixed32 (mask (crcExtend step (crcValue step stored.1) [stored.2.toByte])) := by
    rw [storedBlock, ← hstored]
    simp only [append_assoc, singleton_append]
  have hcontents : (stored.1 ++ [stored.2.toByte]).length = stored.1.length + 1 := by
    rw [length_append, length_singleton]
  have hcrc : unmask (decodeFixed32 ((storedBlock step snappy type raw).drop
      (stored.1.length + 1))) = crcValue step ((storedBlock step snappy type raw).take
        (stored.1.length + 1)) := by
    have hdecode := decodeFixed32_append
      (mask (crcExtend step (crcValue step stored.1) [stored.2.toByte])) []
    rw [append_nil] at hdecode
    rw [hbytes, drop_left' hcontents, take_left' hcontents, hdecode, unmask_mask,
      crcExtend_crcValue]
  rw [readBlock]
  simp only [hread, hsize, hn, hcrc, ne_eq, not_true_eq_false, if_false]
  have htype : (storedBlock step snappy type raw).getD stored.1.length 0 = stored.2.toByte := by
    rw [hbytes]
    simp
  have htake : (storedBlock step snappy type raw).take stored.1.length = stored.1 := by
    rw [hbytes, append_assoc, take_left]
  rw [htype, htake, hstored]
  exact uncompressBlock_compressBlock hsnappy type raw

/-! ### The progress of a builder -/

/-- A data block that has its index entry. -/
structure Closed where
  pairs : List (ByteString × ByteString)
  handle : BlockHandle
  separator : ByteString

/-- The index entry of a block. -/
def Closed.indexEntry (c : Closed) : ByteString × ByteString :=
  (c.separator, c.handle.encodeTo [])

/-- Every separator is at or past the keys of its block and before those of the next blocks. -/
structure Separated (closed : List Closed) : Prop where
  le : ∀ c ∈ closed, ∀ kv ∈ c.pairs, kv.1 ≤ c.separator
  lt : closed.Pairwise fun c c' ↦ ∀ kv ∈ c'.pairs, c.separator < kv.1

/-- What a builder has done: the blocks with an index entry, the block whose entry is held back and
the pairs of the block that is being filled. -/
structure Progress where
  closed : List Closed := []
  pending : Option (List (ByteString × ByteString) × BlockHandle) := none
  current : List (ByteString × ByteString) := []

namespace Progress

/-- The pairs of the block whose index entry is held back. -/
def held (P : Progress) : List (ByteString × ByteString) := (P.pending.map Prod.fst).getD []

/-- All pairs added so far. -/
def pairs (P : Progress) : List (ByteString × ByteString) :=
  P.closed.flatMap Closed.pairs ++ (P.held ++ P.current)

end Progress

variable (step snappy) in
/-- The block that these pairs make is stored at the handle. -/
structure BlockAt (r : TableBuilder) (pairs : List (ByteString × ByteString))
    (handle : BlockHandle) : Prop where
  ne_nil : pairs ≠ []
  stored : StoredAt step snappy r.options.compression r.file handle
    (buildBlock r.options.blockRestartInterval pairs)
  mem : buildBlock r.options.blockRestartInterval pairs ∈ r.rawBlocks

variable (step snappy) in
/-- The state of a builder with this progress. -/
structure Builds (r : TableBuilder) (P : Progress) : Prop where
  dataBlock_eq : r.dataBlock = P.current.foldl (fun (b : BlockBuilder) kv ↦ b.add kv.1 kv.2)
    { blockRestartInterval := r.options.blockRestartInterval }
  index : ∃ L, r.indexBlock.Lays L ∧ L.pairs = P.closed.map Closed.indexEntry
  offset_eq : r.offset = r.file.length.toUInt64
  closed : ∀ c ∈ P.closed, BlockAt step snappy r c.pairs c.handle
  pending_eq : r.pendingIndexEntry = P.pending.isSome
  pending : ∀ p ∈ P.pending, BlockAt step snappy r p.1 p.2 ∧ r.pendingHandle = p.2 ∧ P.current = []
  lastKey_eq : ∀ kv ∈ P.pairs.getLast?, r.lastKey = kv.1
  separated : Separated P.closed
  after : ∀ c ∈ P.closed, ∀ kv ∈ P.held ++ P.current, c.separator < kv.1
  increasing : Increasing P.pairs

section

variable {r r' : TableBuilder} {P : Progress}

/-- The block of the builder is empty exactly if no pair went into it. -/
theorem Builds.buffer_eq_nil_iff (h : Builds step snappy r P) :
    r.dataBlock.buffer = [] ↔ P.current = [] := by
  obtain ⟨L, hlays, hpairs⟩ :=
    (BlockBuilder.lays_nil r.options.blockRestartInterval).foldl P.current
  rw [← h.dataBlock_eq] at hlays
  have hlength : L.entries.length = P.current.length := by
    have hcurrent : L.pairs = P.current := hpairs
    rw [← hcurrent, Layout.length_pairs]
  rw [hlays.buffer_eq, ← length_eq_zero_iff (l := P.current), ← hlength]
  constructor
  · intro hnil
    have hle := L.length_entries_le
    rw [hnil, length_nil] at hle
    exact Nat.le_zero.1 hle
  · intro hzero
    rw [Layout.buffer, length_eq_zero_iff.1 hzero]
    rfl

theorem blockRestartInterval_foldl (kvs : List (ByteString × ByteString)) (b : BlockBuilder) :
    (kvs.foldl (fun (b : BlockBuilder) kv ↦ b.add kv.1 kv.2) b).blockRestartInterval =
      b.blockRestartInterval := by
  induction kvs generalizing b with
  | nil => rfl
  | cons kv kvs ih =>
    rw [foldl_cons, ih, BlockBuilder.add]
    split <;> rfl

theorem Builds.blockRestartInterval_eq (h : Builds step snappy r P) :
    r.dataBlock.blockRestartInterval = r.options.blockRestartInterval := by
  rw [h.dataBlock_eq, blockRestartInterval_foldl]

theorem Builds.finish_eq (h : Builds step snappy r P) :
    r.dataBlock.finish = buildBlock r.options.blockRestartInterval P.current := by
  rw [h.dataBlock_eq, buildBlock]

section

variable {pairs : List (ByteString × ByteString)} {handle : BlockHandle}
  (h : BlockAt step snappy r pairs handle) (hoptions : r'.options = r.options)
include h hoptions

theorem BlockAt.mono {more : ByteString} (hfile : r'.file = r.file ++ more) {raws : List ByteString}
    (hraws : r'.rawBlocks = r.rawBlocks ++ raws) : BlockAt step snappy r' pairs handle := by
  refine ⟨h.ne_nil, ?_, ?_⟩
  · rw [hoptions, hfile]
    exact h.stored.append more
  · rw [hoptions, hraws]
    exact mem_append_left _ h.mem

theorem BlockAt.congr (hfile : r'.file = r.file) (hraws : r'.rawBlocks = r.rawBlocks) :
    BlockAt step snappy r' pairs handle := by
  refine ⟨h.ne_nil, ?_, ?_⟩
  · rw [hoptions, hfile]
    exact h.stored
  · rw [hoptions, hraws]
    exact h.mem

end

theorem toUInt64_add (m n : ℕ) : m.toUInt64 + n.toUInt64 = (m + n).toUInt64 :=
  (UInt64.ofNat_add m n).symm

/-- What `WriteBlock` does to a builder. -/
structure Wrote (r r' : TableBuilder) (raw : ByteString) (handle : BlockHandle) : Prop where
  options_eq : r'.options = r.options
  dataBlock_eq : r'.dataBlock = r.dataBlock
  indexBlock_eq : r'.indexBlock = r.indexBlock
  lastKey_eq : r'.lastKey = r.lastKey
  pendingIndexEntry_eq : r'.pendingIndexEntry = r.pendingIndexEntry
  pendingHandle_eq : r'.pendingHandle = r.pendingHandle
  rawBlocks_eq : r'.rawBlocks = r.rawBlocks ++ [raw]
  offset_eq : r'.offset = r'.file.length.toUInt64
  file_eq : ∃ more, r'.file = r.file ++ more

variable (step snappy) in
theorem wrote_writeBlock (hoffset : r.offset = r.file.length.toUInt64) (block : BlockBuilder) :
    Wrote r (r.writeBlock step snappy block).1 block.finish (r.writeBlock step snappy block).2 ∧
      StoredAt step snappy r.options.compression (r.writeBlock step snappy block).1.file
        (r.writeBlock step snappy block).2 block.finish := by
  have hfile : (r.writeBlock step snappy block).1.file =
      r.file ++ storedBlock step snappy r.options.compression block.finish := by
    simp only [TableBuilder.writeBlock, TableBuilder.writeRawBlock, storedBlock, append_assoc]
  refine ⟨⟨rfl, rfl, rfl, rfl, rfl, rfl, rfl, ?_, _, hfile⟩, r.file, [], ?_, ?_⟩
  · rw [hfile, length_append, length_storedBlock, ← toUInt64_add, ← hoffset]
    rfl
  · rw [hfile, append_nil]
  · rw [← hoffset]
    rfl

section

variable (h : Builds step snappy r P)
include h

/-- Writing another block leaves the progress as it is. -/
theorem Builds.wrote {raw : ByteString} {handle : BlockHandle} (hw : Wrote r r' raw handle) :
    Builds step snappy r' P := by
  obtain ⟨more, hfile⟩ := hw.file_eq
  have hmono : ∀ {pairs : List (ByteString × ByteString)} {handle : BlockHandle},
      BlockAt step snappy r pairs handle → BlockAt step snappy r' pairs handle :=
    fun hblock ↦ hblock.mono hw.options_eq hfile hw.rawBlocks_eq
  refine ⟨?_, ?_, hw.offset_eq, fun c hc ↦ hmono (h.closed c hc), ?_, fun p hp ↦ ?_,
    fun kv hkv ↦ ?_, h.separated, h.after, h.increasing⟩
  · rw [hw.dataBlock_eq, hw.options_eq, h.dataBlock_eq]
  · rw [hw.indexBlock_eq]
    exact h.index
  · rw [hw.pendingIndexEntry_eq, h.pending_eq]
  · obtain ⟨hblock, hhandle, hcurrent⟩ := h.pending p hp
    exact ⟨hmono hblock, hw.pendingHandle_eq.trans hhandle, hcurrent⟩
  · rw [hw.lastKey_eq]
    exact h.lastKey_eq kv hkv

/-- `Flush` closes the block that is being filled. -/
theorem Builds.flush :
    ∃ P', Builds step snappy (r.flush step snappy) P' ∧ P'.pairs = P.pairs ∧ P'.current = [] ∧
      P'.closed = P.closed ∧ (r.flush step snappy).options = r.options := by
  by_cases hcurrent : P.current = []
  · rw [TableBuilder.flush, if_pos (h.buffer_eq_nil_iff.2 hcurrent)]
    exact ⟨P, h, rfl, hcurrent, rfl, rfl⟩
  · have hnone : P.pending = none :=
      Option.eq_none_iff_forall_not_mem.2 fun p hp ↦ hcurrent (h.pending p hp).2.2
    have hheld : P.held = [] := by rw [Progress.held, hnone]; rfl
    obtain ⟨hw, hstored⟩ := wrote_writeBlock step snappy h.offset_eq r.dataBlock
    have hwrote := h.wrote hw
    have hreset : r.dataBlock.reset =
        { blockRestartInterval := r.options.blockRestartInterval } := by
      rw [BlockBuilder.reset, h.blockRestartInterval_eq]
    rw [TableBuilder.flush, if_neg (mt h.buffer_eq_nil_iff.1 hcurrent)]
    set written := r.writeBlock step snappy r.dataBlock
    let P' : Progress := ⟨P.closed, some (P.current, written.2), []⟩
    have hpairs : P'.pairs = P.pairs := by
      simp [Progress.pairs, P', Progress.held, hnone]
    refine ⟨P', ⟨?_, hwrote.index, hwrote.offset_eq,
      fun c hc ↦ (hwrote.closed c hc).congr rfl rfl rfl, rfl, fun p hp ↦ ?_, ?_,
      h.separated, ?_, ?_⟩, hpairs, rfl, rfl, hw.options_eq⟩
    · show r.dataBlock.reset = { blockRestartInterval := written.1.options.blockRestartInterval }
      rw [hreset, hw.options_eq]
    · obtain rfl : (P.current, written.2) = p := Option.some.inj hp
      refine ⟨⟨hcurrent, ?_, ?_⟩, rfl, rfl⟩
      · show StoredAt step snappy written.1.options.compression written.1.file written.2
          (buildBlock written.1.options.blockRestartInterval P.current)
        rw [hw.options_eq, ← h.finish_eq]
        exact hstored
      · show buildBlock written.1.options.blockRestartInterval P.current ∈ written.1.rawBlocks
        rw [hw.options_eq, ← h.finish_eq, hw.rawBlocks_eq]
        exact mem_append_right _ (mem_singleton_self _)
    · rw [hpairs]
      exact hwrote.lastKey_eq
    · intro c hc kv hkv
      refine h.after c hc kv ?_
      rw [hheld, nil_append]
      simpa [P', Progress.held] using hkv
    · rw [hpairs]
      exact h.increasing

/-- Adding the index entry that was held back closes its block. -/
theorem Builds.addIndexEntry {p : List (ByteString × ByteString) × BlockHandle}
    (hp : P.pending = some p) {separator : ByteString} (hle : ∀ kv ∈ p.1, kv.1 ≤ separator) :
    Builds step snappy (r.addIndexEntry separator)
      ⟨P.closed ++ [⟨p.1, p.2, separator⟩], none, []⟩ := by
  obtain ⟨hblock, hhandle, hcurrent⟩ := h.pending p hp
  have hheld : P.held = p.1 := by rw [Progress.held, hp]; rfl
  have hpairs : Progress.pairs ⟨P.closed ++ [⟨p.1, p.2, separator⟩], none, []⟩ = P.pairs := by
    simp [Progress.pairs, Progress.held, hp, hcurrent]
  refine ⟨?_, ?_, h.offset_eq, fun c hc ↦ ?_, rfl, by simp, ?_, ⟨fun c hc ↦ ?_, ?_⟩, by
    simp [Progress.held], ?_⟩
  · rw [← hcurrent]
    exact h.dataBlock_eq
  · obtain ⟨L, hlays, hL⟩ := h.index
    obtain ⟨L', hlays', hL'⟩ := hlays.add separator (p.2.encodeTo [])
    refine ⟨L', ?_, ?_⟩
    · rw [← hhandle] at hlays'
      exact hlays'
    · rw [hL', hL, map_append]
      rfl
  · obtain hc | hc := mem_append.1 hc
    · exact (h.closed c hc).congr rfl rfl rfl
    · obtain rfl := mem_singleton.1 hc
      exact hblock.congr rfl rfl rfl
  · rw [hpairs]
    exact h.lastKey_eq
  · obtain hc | hc := mem_append.1 hc
    · exact h.separated.le c hc
    · obtain rfl := mem_singleton.1 hc
      exact hle
  · refine pairwise_append.2 ⟨h.separated.lt, pairwise_singleton _ _, ?_⟩
    intro c hc c' hc' kv hkv
    obtain rfl := mem_singleton.1 hc'
    refine h.after c hc kv (mem_append_left _ ?_)
    rwa [hheld]
  · rw [hpairs]
    exact h.increasing

/-- A pair behind all separators goes into the block that is being filled. -/
theorem Builds.push (hnone : P.pending = none) {key value : ByteString}
    (hsep : ∀ c ∈ P.closed, c.separator < key) (hinc : Increasing (P.pairs ++ [(key, value)])) :
    Builds step snappy
      { r with
        lastKey := key
        numEntries := r.numEntries + 1
        dataBlock := r.dataBlock.add key value }
      ⟨P.closed, none, P.current ++ [(key, value)]⟩ := by
  have hheld : P.held = [] := by rw [Progress.held, hnone]; rfl
  have hpairs : Progress.pairs ⟨P.closed, none, P.current ++ [(key, value)]⟩ =
      P.pairs ++ [(key, value)] := by
    simp [Progress.pairs, Progress.held, hnone]
  refine ⟨?_, h.index, h.offset_eq, fun c hc ↦ ?_, ?_, by simp, ?_, h.separated, ?_, ?_⟩
  · show r.dataBlock.add key value = _
    rw [foldl_append, ← h.dataBlock_eq]
    rfl
  · exact (h.closed c hc).congr rfl rfl rfl
  · exact h.pending_eq.trans (by rw [hnone])
  · rw [hpairs]
    intro kv hkv
    rw [getLast?_concat] at hkv
    rw [← Option.some.inj hkv]
  · intro c hc kv hkv
    obtain hkv | hkv := mem_append.1 hkv
    · simp [Progress.held] at hkv
    · obtain hkv | hkv := mem_append.1 hkv
      · exact h.after c hc kv (mem_append_right _ hkv)
      · obtain rfl := mem_singleton.1 hkv
        exact hsep c hc
  · rw [hpairs]
    exact hinc

end

/-- Some pair comes behind the blocks that have an index entry. -/
def Progress.Open (P : Progress) : Prop := P.closed ≠ [] → P.held ++ P.current ≠ []

/-- The last key of an increasing list is at or past all of them. -/
theorem Increasing.le_getLast {kvs : List (ByteString × ByteString)} (h : Increasing kvs)
    {last : ByteString × ByteString} (hlast : kvs.getLast? = some last)
    {kv : ByteString × ByteString} (hkv : kv ∈ kvs) : kv.1 ≤ last.1 := by
  obtain ⟨init, rfl⟩ := getLast?_eq_some_iff.1 hlast
  obtain hkv | hkv := mem_append.1 hkv
  · exact List.le_of_lt ((List.pairwise_append.1 h).2.2 kv hkv last (List.mem_singleton_self _))
  · obtain rfl := mem_singleton.1 hkv
    exact List.le_refl _

theorem Builds.flush_if (h : Builds step snappy r P) (c : Prop) [Decidable c] :
    ∃ P', Builds step snappy (if c then r.flush step snappy else r) P' ∧ P'.pairs = P.pairs ∧
      P'.closed = P.closed ∧ (if c then r.flush step snappy else r).options = r.options := by
  split
  · obtain ⟨P', h', hpairs, -, hclosed, hoptions⟩ := h.flush
    exact ⟨P', h', hpairs, hclosed, hoptions⟩
  · exact ⟨P, h, rfl, rfl, rfl⟩

theorem Builds.flush_full (h : Builds step snappy r P) :
    ∃ P', Builds step snappy (if r.dataBlock.currentSizeEstimate ≥ r.options.blockSize.toNat then
        r.flush step snappy else r) P' ∧ P'.pairs = P.pairs ∧ P'.closed = P.closed ∧
      (if r.dataBlock.currentSizeEstimate ≥ r.options.blockSize.toNat then
        r.flush step snappy else r).options = r.options :=
  h.flush_if _

theorem Progress.Open.of_eq {P P' : Progress} (h : P.Open) (hpairs : P'.pairs = P.pairs)
    (hclosed : P'.closed = P.closed) : P'.Open := by
  intro hne
  rw [Progress.pairs, Progress.pairs, hclosed] at hpairs
  rw [append_cancel_left hpairs]
  exact h (hclosed ▸ hne)

/-- While an index entry is held back, the pairs of its block are the last ones. -/
theorem Builds.pairs_of_pending {p : List (ByteString × ByteString) × BlockHandle}
    (h : Builds step snappy r P) (hp : P.pending = some p) :
    P.pairs = P.closed.flatMap Closed.pairs ++ p.1 ∧ ∃ last, P.pairs.getLast? = some last := by
  obtain ⟨hblock, -, hcurrent⟩ := h.pending p hp
  have hpairs : P.pairs = P.closed.flatMap Closed.pairs ++ p.1 := by
    rw [Progress.pairs, hcurrent, append_nil, Progress.held, hp]
    rfl
  refine ⟨hpairs, _, getLast?_eq_getLast_of_ne_nil ?_⟩
  rw [hpairs]
  exact append_ne_nil_of_right_ne_nil _ hblock.ne_nil

section

variable {key value : ByteString} (h : Builds step snappy r P) (hopen : P.Open)
  (hinc : Increasing (P.pairs ++ [(key, value)]))
include h hopen hinc

/-- Before a pair goes in, the index entry that was held back is added. -/
theorem Builds.addIndexEntry_if : ∃ P', Builds step snappy
        (if r.pendingIndexEntry then r.addIndexEntry (findShortestSeparator r.lastKey key) else r)
        P' ∧ P'.pairs = P.pairs ∧ P'.pending = none ∧ (∀ c ∈ P'.closed, c.separator < key) ∧
      (if r.pendingIndexEntry then r.addIndexEntry (findShortestSeparator r.lastKey key)
        else r).options = r.options := by
  have hbefore : ∀ kv ∈ P.pairs, kv.1 < key := fun kv hkv ↦
    (pairwise_append.1 hinc).2.2 kv hkv _ (mem_singleton_self _)
  -- the separators that are there are before some pair, and so before the key
  have hold : ∀ c ∈ P.closed, c.separator < key := by
    intro c hc
    obtain ⟨kv, hkv⟩ := exists_mem_of_ne_nil _ (hopen (ne_nil_of_mem hc))
    exact List.lt_trans (h.after c hc kv hkv) (hbefore kv (List.mem_append_right _ hkv))
  rcases hp : P.pending with - | p
  · have hpending := h.pending_eq
    rw [hp] at hpending
    rw [hpending]
    exact ⟨P, h, rfl, hp, hold, rfl⟩
  · obtain ⟨hpairs, last, hlast⟩ := h.pairs_of_pending hp
    have hlastKey : r.lastKey = last.1 := h.lastKey_eq last hlast
    have hlt : r.lastKey < key := by
      rw [hlastKey]
      exact hbefore last (mem_of_getLast? hlast)
    obtain ⟨hle, hsep⟩ := findShortestSeparator_spec hlt
    have hpending := h.pending_eq
    rw [hp] at hpending
    rw [hpending]
    refine ⟨_, h.addIndexEntry hp fun kv hkv ↦ ?_, ?_, rfl, fun c hc ↦ ?_, rfl⟩
    · refine List.le_trans ?_ hle
      rw [hlastKey]
      exact h.increasing.le_getLast hlast (by rw [hpairs]; exact mem_append_right _ hkv)
    · rw [hpairs]
      simp [Progress.pairs, Progress.held]
    · obtain hc | hc := mem_append.1 hc
      · exact hold c hc
      · obtain rfl := mem_singleton.1 hc
        exact hsep

/-- `Add` puts one more pair into the table. -/
theorem Builds.add : ∃ P', Builds step snappy (r.add step snappy key value) P' ∧ P'.Open ∧
      P'.pairs = P.pairs ++ [(key, value)] ∧ (r.add step snappy key value).options = r.options := by
  obtain ⟨P₁, h₁, hpairs₁, hclosed₁, hoptions₁⟩ := h.flush_if
    (r.numEntries > 0 ∧ key.length + value.length ≥ (2 * r.options.blockSize).toNat)
  have hopen₁ := hopen.of_eq hpairs₁ hclosed₁
  rw [← hpairs₁] at hinc
  obtain ⟨P₂, h₂, hpairs₂, hnone₂, hsep₂, hoptions₂⟩ := h₁.addIndexEntry_if hopen₁ hinc
  rw [← hpairs₂] at hinc
  have h₃ := h₂.push hnone₂ hsep₂ hinc
  have hpairs₃ : Progress.pairs ⟨P₂.closed, none, P₂.current ++ [(key, value)]⟩ =
      P.pairs ++ [(key, value)] := by
    rw [← hpairs₁, ← hpairs₂]
    simp [Progress.pairs, Progress.held, hnone₂]
  have hopen₃ : Progress.Open ⟨P₂.closed, none, P₂.current ++ [(key, value)]⟩ := by
    intro _
    simp [Progress.held]
  obtain ⟨P₄, h₄, hpairs₄, hclosed₄, hoptions₄⟩ := h₃.flush_full
  refine ⟨P₄, h₄, hopen₃.of_eq hpairs₄ hclosed₄, hpairs₄.trans hpairs₃,
    hoptions₄.trans (hoptions₂.trans hoptions₁)⟩

end

theorem Builds.foldl (h : Builds step snappy r P) (hopen : P.Open)
    (kvs : List (ByteString × ByteString)) (hinc : Increasing (P.pairs ++ kvs)) :
    ∃ P', Builds step snappy (kvs.foldl (fun r kv ↦ r.add step snappy kv.1 kv.2) r) P' ∧
      P'.pairs = P.pairs ++ kvs ∧
        (kvs.foldl (fun r kv ↦ r.add step snappy kv.1 kv.2) r).options = r.options := by
  induction kvs generalizing r P with
  | nil => exact ⟨P, h, (append_nil _).symm, rfl⟩
  | cons kv kvs ih =>
    have hsplit : P.pairs ++ kv :: kvs = P.pairs ++ [(kv.1, kv.2)] ++ kvs := by simp
    rw [hsplit] at hinc ⊢
    obtain ⟨P₁, h₁, hopen₁, hpairs₁, hoptions₁⟩ := h.add hopen (pairwise_append.1 hinc).1
    rw [← hpairs₁] at hinc ⊢
    obtain ⟨P₂, h₂, hpairs₂, hoptions₂⟩ := ih h₁ hopen₁ hinc
    exact ⟨P₂, h₂, hpairs₂, hoptions₂.trans hoptions₁⟩

variable (step snappy) in
theorem builds_nil (options : Options) : Builds step snappy { options := options } {} where
  dataBlock_eq := rfl
  index := ⟨Layout.nil, BlockBuilder.lays_nil 1, rfl⟩
  offset_eq := rfl
  closed := by simp
  pending_eq := rfl
  pending := by simp
  lastKey_eq := by simp [Progress.pairs, Progress.held]
  separated := ⟨by simp, Pairwise.nil⟩
  after := by simp
  increasing := Pairwise.nil

/-! ### The finished file -/

variable (step snappy) in
/-- What a finished table file holds. -/
structure TableFile (r : TableBuilder) (kvs : List (ByteString × ByteString))
    (closed : List Closed) (index : Layout) (footer : Footer) : Prop where
  pairs_eq : closed.flatMap Closed.pairs = kvs
  separated : Separated closed
  block : ∀ c ∈ closed, BlockAt step snappy r c.pairs c.handle
  index_pairs : index.pairs = closed.map Closed.indexEntry
  index_stored : StoredAt step snappy r.options.compression r.file footer.indexHandle index.contents
  index_mem : index.contents ∈ r.rawBlocks
  footer_eq : ∃ body, r.file = body ++ footer.encodeTo []

/-- At the end the last index entry is added, with a key past the last one. -/
theorem Builds.close (h : Builds step snappy r P) (hcurrent : P.current = []) :
    ∃ closed, Builds step snappy
        (if r.pendingIndexEntry then r.addIndexEntry (findShortSuccessor r.lastKey) else r)
        ⟨closed, none, []⟩ ∧ closed.flatMap Closed.pairs = P.pairs ∧
      (if r.pendingIndexEntry then r.addIndexEntry (findShortSuccessor r.lastKey)
        else r).options = r.options := by
  have hpending := h.pending_eq
  rcases hp : P.pending with - | p
  · rw [hp] at hpending
    rw [hpending]
    obtain ⟨closed, pending, current⟩ := P
    obtain rfl : pending = none := hp
    obtain rfl : current = [] := hcurrent
    exact ⟨closed, h, by simp [Progress.pairs, Progress.held], rfl⟩
  · rw [hp] at hpending
    rw [hpending]
    obtain ⟨hpairs, last, hlast⟩ := h.pairs_of_pending hp
    refine ⟨_, h.addIndexEntry hp fun kv hkv ↦ ?_, ?_, rfl⟩
    · refine List.le_trans ?_ (le_findShortSuccessor r.lastKey)
      rw [h.lastKey_eq last hlast]
      exact h.increasing.le_getLast hlast (by rw [hpairs]; exact mem_append_right _ hkv)
    · rw [hpairs]
      simp

/-- The index block and the footer complete the file. -/
theorem Builds.tableFile {closed : List Closed} (h : Builds step snappy r ⟨closed, none, []⟩)
    (metaindexHandle : BlockHandle) (offset : UInt64) :
    ∃ index footer, TableFile step snappy
      { (r.writeBlock step snappy r.indexBlock).1 with
        file := (r.writeBlock step snappy r.indexBlock).1.file ++
          Footer.encodeTo ⟨metaindexHandle, (r.writeBlock step snappy r.indexBlock).2⟩ []
        offset := offset } (closed.flatMap Closed.pairs) closed index footer := by
  obtain ⟨L, hlays, hL⟩ := h.index
  obtain ⟨hw, hstored⟩ := wrote_writeBlock step snappy h.offset_eq r.indexBlock
  rw [hlays.finish_eq] at hw hstored
  have hwrote := h.wrote hw
  refine ⟨L, _, rfl, h.separated, fun c hc ↦ ?_, hL, ?_, ?_, _, rfl⟩
  · exact (hwrote.closed c hc).mono rfl rfl (append_nil _).symm
  · rw [← hw.options_eq] at hstored
    exact hstored.append _
  · show L.contents ∈ (r.writeBlock step snappy r.indexBlock).1.rawBlocks
    rw [hw.rawBlocks_eq]
    exact mem_append_right _ (mem_singleton_self _)

variable (step snappy) in
/-- Every list of pairs with increasing keys is written to a table file. -/
theorem exists_tableFile (options : Options) {kvs : List (ByteString × ByteString)}
    (hinc : Increasing kvs) :
    ∃ closed index footer,
      TableFile step snappy (buildTable step snappy options kvs) kvs closed index footer := by
  obtain ⟨P, h, hpairs, -⟩ :=
    (builds_nil step snappy options).foldl (fun hne ↦ absurd rfl hne) kvs hinc
  obtain ⟨P₁, h₁, hpairs₁, hcurrent₁, -⟩ := h.flush
  obtain ⟨hw, -⟩ := wrote_writeBlock step snappy h₁.offset_eq
    { blockRestartInterval := (TableBuilder.options _).blockRestartInterval }
  obtain ⟨closed, h₂, hclosed, -⟩ := (h₁.wrote hw).close hcurrent₁
  obtain ⟨index, footer, hfile⟩ := h₂.tableFile _ _
  refine ⟨closed, index, footer, ?_⟩
  have hkvs : closed.flatMap Closed.pairs = kvs := hclosed.trans (hpairs₁.trans hpairs)
  rw [hkvs] at hfile
  exact hfile

end

end TensorFlowCore.Table
