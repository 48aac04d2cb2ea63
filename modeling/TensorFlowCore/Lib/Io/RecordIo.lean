import TensorFlowCore.Lib.Core.Coding
import TensorFlowCore.Lib.Hash.Crc32c
import TensorFlowCore.Lib.Io.RandomAccessInputStream

/-!
# Record files

`RecordWriter::WriteRecord` and `RecordReader::ReadRecord` of `tensorflow/core/lib/io` without
compression. A file is its contents; `size_t` has 64 bits. The checksum `crc32c::Value` is an
arbitrary function of the bytes.

`ReadChecksummed` means to tell a clean end of file (no byte left) from a cut record (fewer bytes
than it asked for), but it returns the `OutOfRange` of a short `Read` before it looks at how many
bytes came back. A file cut inside the twelve header bytes of a record is therefore taken for one
that ends there (`reads_prefix_iff`).
-/

namespace TensorFlowCore.RecordIo

open List

section

variable (value : ByteString → UInt32)

/-- `MaskedCrc`. -/
def maskedCrc (data : ByteString) : UInt32 := mask (value data)

/-- `RecordWriter::WriteRecord`: the file it appends to, after the three `Append`s. -/
def writeRecord (dest data : ByteString) : ByteString :=
  let length := encodeFixed64 data.length.toUInt64
  let header := length ++ encodeFixed32 (maskedCrc value length)
  let footer := encodeFixed32 (maskedCrc value data)
  dest ++ header ++ data ++ footer

/-- `sizeof(uint64) + sizeof(uint32)`. -/
def kHeaderSize : UInt64 := 12

/-- `sizeof(uint32)`. -/
def kFooterSize : UInt64 := 4

/-- `RecordReader::ReadChecksummed`: `n` bytes with a valid checksum behind them. -/
def readChecksummed (file : ByteString) (offset n : UInt64) : Except Status ByteString :=
  if n ≥ 0xffffffffffffffff - kFooterSize then
    .error (.error .dataLoss (ascii "record size too large"))
  else
    let expected := n + kFooterSize
    match readFile file offset expected with
    | (.error code msg, _) => .error (.error code msg)
    | (.ok, data) =>
      if data.length ≠ expected.toNat then
        if data.length = 0 then .error (.error .outOfRange (ascii "eof"))
        else .error (.error .dataLoss (ascii s!"truncated record at {offset.toNat}"))
      else
        let maskedCrc := decodeFixed32 (data.drop n.toNat)
        if unmask maskedCrc ≠ value (data.take n.toNat) then
          .error (.error .dataLoss (ascii s!"corrupted record at {offset.toNat}"))
        else .ok (data.take n.toNat)

/-- `RecordReader::ReadRecord`: the record and the offset of the next one. -/
def readRecord (file : ByteString) (offset : UInt64) : Except Status (ByteString × UInt64) :=
  match readChecksummed value file offset 8 with
  | .error s => .error s
  | .ok lbuf =>
    let length := decodeFixed64 lbuf
    match readChecksummed value file (offset + kHeaderSize) length with
    | .error (.error .outOfRange _) =>
      .error (.error .dataLoss (ascii s!"truncated record at {offset.toNat}"))
    | .error s => .error s
    | .ok data => .ok (data, offset + (kHeaderSize + length + kFooterSize))

/-- The results of `n` calls of `ReadRecord`, each from the offset the call before left. -/
def readRecords (file : ByteString) : ℕ → UInt64 → List (Except Status ByteString)
  | 0, _ => []
  | n + 1, offset =>
    match readRecord value file offset with
    | .error s => .error s :: readRecords file n offset
    | .ok (record, next) => .ok record :: readRecords file n next

/-- The file `WriteRecord` makes of a list of records, from an empty one. -/
def writeRecords (records : List ByteString) : ByteString :=
  records.foldl (writeRecord value) []

/-- A client that reads from the start gets exactly `records` and then an error of this code. -/
def Reads (file : ByteString) (records : List ByteString) (code : Code) : Prop :=
  ∃ msg, readRecords value file (records.length + 1) 0 =
    records.map .ok ++ [.error (.error code msg)]

end

/-- The bytes that a record takes in the file. -/
def recordSize (record : ByteString) : ℕ := 16 + record.length

/-- The records that lie wholly in the first `k` bytes of their file, and how many of the `k` bytes
lie behind them. -/
def wholeRecords : ℕ → List ByteString → List ByteString × ℕ
  | k, [] => ([], k)
  | k, record :: records =>
    if recordSize record ≤ k then
      let whole := wholeRecords (k - recordSize record) records
      (record :: whole.1, whole.2)
    else ([], k)

/-! ### One record -/

section

variable {value : ByteString → UInt32}

/-- Bytes with their checksum behind them are read from wherever they stand. -/
theorem readChecksummed_ok {pre data rest : ByteString} {offset n : UInt64}
    (hoff : offset.toNat = pre.length) (hn : n.toNat = data.length)
    (hfit : data.length + 16 < 2 ^ 64) :
    readChecksummed value (pre ++ (data ++ encodeFixed32 (maskedCrc value data) ++ rest)) offset n =
      .ok data := by
  have hsmall : ¬n ≥ 0xffffffffffffffff - kFooterSize := by
    rw [ge_iff_le, UInt64.le_iff_toNat_le]
    show ¬2 ^ 64 - 1 - 4 ≤ n.toNat
    omega
  have hexp : (n + kFooterSize).toNat = data.length + 4 := by
    rw [UInt64.toNat_add, hn]
    exact Nat.mod_eq_of_lt (by show data.length + 4 < 2 ^ 64; omega)
  have hread : readFile (pre ++ (data ++ encodeFixed32 (maskedCrc value data) ++ rest)) offset
      (n + kFooterSize) = (.ok, data ++ encodeFixed32 (maskedCrc value data)) := by
    refine readFile_append hoff ?_ rest
    rw [hexp, length_append, length_encodeFixed32]
  rw [readChecksummed, if_neg hsmall]
  simp only [hread, hexp, length_append, length_encodeFixed32, hn, drop_left, take_left, ne_eq,
    not_true_eq_false, if_false]
  have hcrc : decodeFixed32 (encodeFixed32 (maskedCrc value data)) = maskedCrc value data := by
    simpa using decodeFixed32_append (maskedCrc value data) []
  rw [hcrc, maskedCrc, unmask_mask, if_neg (not_not.2 rfl)]

/-- With fewer bytes left than asked for, the `OutOfRange` of `Read` is what comes back. -/
theorem readChecksummed_short (value : ByteString → UInt32) {pre cut : ByteString}
    {offset n : UInt64} (hoff : offset.toNat = pre.length) (hfit : n.toNat + 16 < 2 ^ 64)
    (hcut : cut.length < n.toNat + 4) :
    readChecksummed value (pre ++ cut) offset n =
      .error (.error .outOfRange (ascii "Read less bytes than requested")) := by
  have hsmall : ¬n ≥ 0xffffffffffffffff - kFooterSize := by
    rw [ge_iff_le, UInt64.le_iff_toNat_le]
    show ¬2 ^ 64 - 1 - 4 ≤ n.toNat
    omega
  have hexp : (n + kFooterSize).toNat = n.toNat + 4 := by
    rw [UInt64.toNat_add]
    exact Nat.mod_eq_of_lt (by show n.toNat + 4 < 2 ^ 64; omega)
  have hread : readFile (pre ++ cut) offset (n + kFooterSize) =
      (.error .outOfRange (ascii "Read less bytes than requested"), cut) := by
    rw [readFile, drop_of_toNat_eq hoff, hexp, take_of_length_le hcut.le, if_pos hcut]
  rw [readChecksummed, if_neg hsmall]
  simp only [hread]

variable (value) in
/-- The twelve bytes in front of a record. -/
def header (record : ByteString) : ByteString :=
  encodeFixed64 record.length.toUInt64 ++
    encodeFixed32 (maskedCrc value (encodeFixed64 record.length.toUInt64))

variable (value) in
/-- The record and the checksum behind it. -/
def body (record : ByteString) : ByteString :=
  record ++ encodeFixed32 (maskedCrc value record)

theorem length_header (record : ByteString) : (header value record).length = 12 := rfl

theorem length_body (record : ByteString) : (body value record).length = record.length + 4 := by
  rw [body, length_append, length_encodeFixed32]

theorem writeRecord_eq (dest record : ByteString) :
    writeRecord value dest record = dest ++ (header value record ++ body value record) := by
  simp only [writeRecord, header, body, append_assoc]

theorem toNat_length {record : ByteString} (hfit : record.length + 16 < 2 ^ 64) :
    record.length.toUInt64.toNat = record.length :=
  Nat.mod_eq_of_lt (by show record.length < 2 ^ 64; omega)

theorem toNat_add_header {pre : ByteString} (hoff : offset.toNat = pre.length)
    (hfit : pre.length + 12 < 2 ^ 64) (record : ByteString) :
    (offset + kHeaderSize).toNat = (pre ++ header value record).length := by
  rw [UInt64.toNat_add, hoff, length_append, length_header]
  exact Nat.mod_eq_of_lt hfit

/-- A whole record is read, and the offset moves behind it. -/
theorem readRecord_whole (value : ByteString → UInt32) {pre record : ByteString}
    (hoff : offset.toNat = pre.length) (hfit : pre.length + recordSize record < 2 ^ 64)
    (rest : ByteString) : ∃ next : UInt64, next.toNat = pre.length + recordSize record ∧
      readRecord value (pre ++ (header value record ++ body value record ++ rest)) offset =
        .ok (record, next) := by
  have hlen : record.length + 16 < 2 ^ 64 := by rw [recordSize] at hfit; omega
  have hheader : readChecksummed value (pre ++ (header value record ++ body value record ++ rest))
      offset 8 = .ok (encodeFixed64 record.length.toUInt64) := by
    rw [append_assoc]
    exact readChecksummed_ok hoff rfl (by rw [length_encodeFixed64]; decide)
  have hbody : readChecksummed value (pre ++ (header value record ++ body value record ++ rest))
      (offset + kHeaderSize) record.length.toUInt64 = .ok record := by
    rw [append_assoc, ← append_assoc]
    exact readChecksummed_ok (toNat_add_header hoff (by rw [recordSize] at hfit; omega) record)
      (toNat_length hlen) hlen
  have hdecode : decodeFixed64 (encodeFixed64 record.length.toUInt64) =
      record.length.toUInt64 := by
    simpa using decodeFixed64_append record.length.toUInt64 []
  refine ⟨offset + (kHeaderSize + record.length.toUInt64 + kFooterSize), ?_, ?_⟩
  · have hsize : (kHeaderSize + record.length.toUInt64 + kFooterSize).toNat =
        recordSize record := by
      rw [UInt64.toNat_add, UInt64.toNat_add, toNat_length hlen]
      show ((12 + record.length) % 2 ^ 64 + 4) % 2 ^ 64 = 16 + record.length
      omega
    rw [UInt64.toNat_add, hoff, hsize]
    exact Nat.mod_eq_of_lt hfit
  · rw [readRecord, hheader]
    simp only [hdecode, hbody]

/-- What `ReadRecord` reports when `n` bytes of a record are left: the header is not looked into. -/
def endCode (n : ℕ) : Code := if 12 ≤ n then .dataLoss else .outOfRange

/-- A record that is not whole is reported by how far it goes. -/
theorem readRecord_cut (value : ByteString → UInt32) {pre record : ByteString}
    (hoff : offset.toNat = pre.length) (hfit : pre.length + recordSize record < 2 ^ 64) {n : ℕ}
    (hn : n < recordSize record) :
    ∃ msg, readRecord value (pre ++ (header value record ++ body value record).take n) offset =
      .error (.error (endCode n) msg) := by
  rw [recordSize] at hfit hn
  have hlen : record.length + 16 < 2 ^ 64 := by omega
  by_cases h : 12 ≤ n
  · have htake : (header value record ++ body value record).take n =
        header value record ++ (body value record).take (n - 12) := by
      rw [take_append, length_header, take_of_length_le (by rw [length_header]; exact h)]
    have hheader : readChecksummed value
        (pre ++ (header value record ++ (body value record).take (n - 12))) offset 8 =
          .ok (encodeFixed64 record.length.toUInt64) :=
      readChecksummed_ok hoff rfl (by rw [length_encodeFixed64]; decide)
    have hbody : readChecksummed value
        (pre ++ (header value record ++ (body value record).take (n - 12)))
          (offset + kHeaderSize) record.length.toUInt64 =
            .error (.error .outOfRange (ascii "Read less bytes than requested")) := by
      rw [← append_assoc]
      refine readChecksummed_short value (toNat_add_header hoff (by omega) record)
        (by rw [toNat_length hlen]; exact hlen) ?_
      rw [toNat_length hlen, length_take, length_body]
      omega
    have hdecode : decodeFixed64 (encodeFixed64 record.length.toUInt64) =
        record.length.toUInt64 := by
      simpa using decodeFixed64_append record.length.toUInt64 []
    refine ⟨ascii s!"truncated record at {offset.toNat}", ?_⟩
    rw [htake, readRecord, hheader, endCode, if_pos h]
    simp only [hdecode, hbody]
  · have hcut : ((header value record ++ body value record).take n).length < 8 + 4 := by
      rw [length_take]
      omega
    have hheader := readChecksummed_short (n := 8) value hoff (by decide) hcut
    refine ⟨ascii "Read less bytes than requested", ?_⟩
    rw [readRecord, hheader, endCode, if_neg h]

/-! ### Whole files -/

theorem writeRecords_eq (records : List ByteString) :
    writeRecords value records =
      records.flatMap fun record ↦ header value record ++ body value record := by
  have h : ∀ dest, records.foldl (writeRecord value) dest =
      dest ++ records.flatMap fun record ↦ header value record ++ body value record := by
    induction records with
    | nil => exact fun dest ↦ (append_nil dest).symm
    | cons record records ih =>
      intro dest
      rw [foldl_cons, ih, writeRecord_eq, flatMap_cons, append_assoc]
  exact h []

theorem writeRecords_cons (record : ByteString) (records : List ByteString) :
    writeRecords value (record :: records) =
      header value record ++ body value record ++ writeRecords value records := by
  rw [writeRecords_eq, writeRecords_eq, flatMap_cons]

theorem length_header_body (record : ByteString) :
    (header value record ++ body value record).length = recordSize record := by
  rw [length_append, length_header, length_body, recordSize]
  omega

/-- Reading any beginning of a file that stands behind `pre`: the whole records, and then the error
that the rest of the bytes gives. -/
theorem readRecords_take (records : List ByteString) {k : ℕ} {pre : ByteString}
    (hk : k ≤ (writeRecords value records).length) (hoff : offset.toNat = pre.length)
    (hfit : pre.length + (writeRecords value records).length < 2 ^ 64) :
    ∃ msg, readRecords value (pre ++ (writeRecords value records).take k)
        ((wholeRecords k records).1.length + 1) offset =
      (wholeRecords k records).1.map .ok ++
        [.error (.error (endCode (wholeRecords k records).2) msg)] := by
  induction records generalizing k pre offset with
  | nil =>
    obtain rfl : k = 0 := Nat.le_zero.1 hk
    have hend : readChecksummed value (pre ++ []) offset 8 = _ :=
      readChecksummed_short value hoff (by decide) (by decide)
    refine ⟨ascii "Read less bytes than requested", ?_⟩
    rw [take_zero]
    simp only [wholeRecords, length_nil, readRecords, readRecord, hend]
    rfl
  | cons record records ih =>
    have hlen : (writeRecords value (record :: records)).length =
        recordSize record + (writeRecords value records).length := by
      rw [writeRecords_cons, length_append, length_header_body]
    rw [hlen] at hk hfit
    by_cases hwhole : recordSize record ≤ k
    · have htake : (writeRecords value (record :: records)).take k =
          header value record ++ body value record ++
            (writeRecords value records).take (k - recordSize record) := by
        rw [writeRecords_cons, take_append, length_header_body, take_of_length_le]
        rwa [length_header_body]
      have hone : pre.length + recordSize record < 2 ^ 64 := by omega
      obtain ⟨next, hnext, hread⟩ := readRecord_whole value hoff hone
        ((writeRecords value records).take (k - recordSize record))
      have hbehind : next.toNat = (pre ++ (header value record ++ body value record)).length := by
        rw [hnext, length_append, length_header_body]
      obtain ⟨msg, hrest⟩ := ih (k := k - recordSize record) (by omega) hbehind
        (by rw [length_append, length_header_body]; omega)
      rw [append_assoc] at hrest
      refine ⟨msg, ?_⟩
      rw [htake, wholeRecords, if_pos hwhole]
      simp only [length_cons, readRecords, hread, map_cons, cons_append]
      rw [← hrest]
      rfl
    · have hcut : k < recordSize record := Nat.not_le.1 hwhole
      have htake : (writeRecords value (record :: records)).take k =
          (header value record ++ body value record).take k := by
        rw [writeRecords_cons, take_append_of_le_length]
        rw [length_header_body]
        exact hcut.le
      obtain ⟨msg, hread⟩ := readRecord_cut value hoff (by omega) hcut
      refine ⟨msg, ?_⟩
      rw [htake, wholeRecords, if_neg hwhole]
      simp only [length_nil, readRecords, hread]
      rfl

/-- A file of the reader ends in one way only. -/
theorem Reads.code_eq {file : ByteString} {records : List ByteString} {code code' : Code}
    (h : Reads value file records code) (h' : Reads value file records code') : code = code' := by
  obtain ⟨msg, h⟩ := h
  obtain ⟨msg', h'⟩ := h'
  have heq := append_cancel_left (h.symm.trans h')
  simp only [cons.injEq, Except.error.injEq, Status.error.injEq] at heq
  exact heq.1.1

theorem reads_take (value : ByteString → UInt32) (records : List ByteString) {k : ℕ}
    (hk : k ≤ (writeRecords value records).length)
    (hfit : (writeRecords value records).length < 2 ^ 64) :
    Reads value ((writeRecords value records).take k) (wholeRecords k records).1
      (endCode (wholeRecords k records).2) := by
  have hstart : (0 : UInt64).toNat = ([] : ByteString).length := rfl
  exact readRecords_take records hk hstart (by rwa [length_nil, Nat.zero_add])

theorem wholeRecords_length (records : List ByteString) :
    wholeRecords (writeRecords value records).length records = (records, 0) := by
  induction records with
  | nil => rfl
  | cons record records ih =>
    rw [writeRecords_cons, length_append, length_header_body, wholeRecords,
      if_pos (Nat.le_add_right _ _), Nat.add_sub_cancel_left, ih]

variable (value) in
/-- What a reader should report of the first `k` bytes of a file: the records that lie wholly in
them, and then a clean end if nothing else does and a loss of data otherwise. -/
def ReadsPrefix (records : List ByteString) (k : ℕ) : Prop :=
  Reads value ((writeRecords value records).take k) (wholeRecords k records).1
    (if (wholeRecords k records).2 = 0 then .outOfRange else .dataLoss)

/-- A file of records is read back, and a file cut short is reported as it should be exactly if the
cut does not fall inside the header of a record. -/
theorem reads_prefix_iff (records : List ByteString)
    (hfit : (writeRecords value records).length < 2 ^ 64) :
    Reads value (writeRecords value records) records .outOfRange ∧
      ∀ k < (writeRecords value records).length,
        (ReadsPrefix value records k ↔
          ¬(0 < (wholeRecords k records).2 ∧ (wholeRecords k records).2 < 12)) := by
  constructor
  · have h := reads_take value records le_rfl hfit
    rwa [take_length, wholeRecords_length] at h
  · intro k hk
    have hcode := reads_take value records hk.le hfit
    constructor
    · rintro h ⟨hpos, hlt⟩
      rw [ReadsPrefix, if_neg hpos.ne'] at h
      have heq := h.code_eq hcode
      rw [endCode, if_neg (Nat.not_le.2 hlt)] at heq
      cases heq
    · intro h
      rw [ReadsPrefix]
      obtain hzero | hge : (wholeRecords k records).2 = 0 ∨ 12 ≤ (wholeRecords k records).2 := by
        omega
      · rw [if_pos hzero]
        rwa [hzero] at hcode
      · rw [if_neg (by omega)]
        rwa [endCode, if_pos hge] at hcode

end

/-- One empty record: the file is read back, and its beginnings are reported right at every cut but
those inside the header. -/
theorem reads_prefix_iff_empty :
    Reads (crcValue step1) (writeRecords (crcValue step1) [[]]) [[]] .outOfRange ∧
      ∀ k < (writeRecords (crcValue step1) [[]]).length,
        (ReadsPrefix (crcValue step1) [[]] k ↔
          ¬(0 < (wholeRecords k [[]]).2 ∧ (wholeRecords k [[]]).2 < 12)) :=
  reads_prefix_iff [[]] (by decide)

/-- Five bytes of the header of the only record are taken for a clean end of the file. -/
theorem not_readsPrefix_five : ¬ReadsPrefix (crcValue step1) [[]] 5 := by
  intro h
  have hcode := reads_take (crcValue step1) [[]] (k := 5) (by decide) (by decide)
  have heq := h.code_eq hcode
  exact absurd heq (by decide)

end TensorFlowCore.RecordIo
