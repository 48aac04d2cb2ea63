import TensorFlowCore.Lib.Io.RandomAccessInputStream
import TensorFlowCore.Lib.Io.Snappy.OutputBuffer

/-!
# `SnappyInputBuffer`

The reader of `tensorflow/core/lib/io/snappy/snappy_inputbuffer.cc`. It refills an input buffer from
the file, keeping what has not been used yet, and uncompresses one block at a time into an output
buffer, from which reads are served.

The bytes of the block length go into a `uint32` through a `char`, which is signed here: a byte with
its high bit set is extended with ones (`pushLengthByte`).
-/

namespace TensorFlowCore

open List

variable {byte : UInt8}

structure SnappyInputBuffer where
  file : ByteString
  inputBufferCapacity : ℕ
  outputBufferCapacity : ℕ
  filePos : ℕ
  /-- The `avail_in_` bytes at `next_in_`. -/
  input : ByteString
  /-- The `avail_out_` bytes at `next_out_`. -/
  output : ByteString

namespace SnappyInputBuffer

def eofReached : Status := .error .outOfRange (ascii "EOF reached")

/-- `int bytes_to_read` of `ReadFromFile`. -/
def bytesToRead (s : SnappyInputBuffer) : Int32 :=
  Int32.ofNat s.inputBufferCapacity - Int32.ofNat s.input.length

/-- `ReadFromFile`; none where `bytes_to_read` is negative and so asks for more bytes than there is
room for. The file has no errors of its own. -/
def readFromFile (s : SnappyInputBuffer) : Option (Status × SnappyInputBuffer) :=
  if s.bytesToRead < 0 then none
  else
    let data := (readAt s.file s.filePos s.bytesToRead.toNatClampNeg).2
    let s := { s with input := s.input ++ data, filePos := s.filePos + data.length }
    some (if data.length = 0 then eofReached else .ok, s)

/-- `*length = (*length << 8) | next_in_[0]`. -/
def pushLengthByte (length : UInt32) (byte : UInt8) : UInt32 :=
  length <<< 8 ||| byte.toInt8.toInt32.toUInt32

/-- `ReadCompressedBlockLength`, byte by byte: it reads from the file when the input is used up. -/
def readCompressedBlockLength : ℕ → UInt32 → SnappyInputBuffer →
    Option (Status × UInt32 × SnappyInputBuffer)
  | 0, length, s => some (.ok, length, s)
  | bytesToRead + 1, length, s =>
    match (if s.input.length = 0 then readFromFile s else some (.ok, s)) with
    | some (.ok, s) =>
      match s.input with
      | byte :: input =>
        readCompressedBlockLength bytesToRead (pushLengthByte length byte) { s with input }
      | [] => some (.ok, length, s)
    | some (status, s) => some (status, length, s)
    | none => none

variable (Z : Snappy)

/-- `Inflate`, once the length of the block is read and, if it can be, the whole block is in the
input; none where the uncompressed data do not fit in the output buffer. -/
def inflateBlock (length : ℕ) (s : SnappyInputBuffer) : Option (Status × SnappyInputBuffer) :=
  if s.input.length < length then
    if s.inputBufferCapacity < length then
      some (.error .resourceExhausted [ascii "Input buffer(size: ", decimal s.inputBufferCapacity,
        ascii " bytes) too small. Should be larger than ", decimal length, ascii " bytes."].flatten,
        s)
    else
      some (.error .dataLoss [ascii "Failed to read ", decimal length,
        ascii " bytes from file. Possible data corruption."].flatten, s)
  else
    match Z.getUncompressedLength (s.input.take length) with
    | none => some (.error .dataLoss (ascii "Parsing error in Snappy_GetUncompressedLength"), s)
    | some uncompressedLength =>
      if s.outputBufferCapacity < uncompressedLength then none
      else
        match Z.uncompress (s.input.take length) with
        | none => some (.error .dataLoss (ascii "Snappy_Uncompress failed"), s)
        | some data => some (.ok, { s with input := s.input.drop length, output := data })

def inflate (s : SnappyInputBuffer) : Option (Status × SnappyInputBuffer) :=
  match readCompressedBlockLength 4 0 s with
  | some (.ok, length, s) =>
    if s.input.length < length.toNat then
      match readFromFile s with
      | some (.ok, s) => inflateBlock Z length.toNat s
      | r => r
    else inflateBlock Z length.toNat s
  | some (status, _, s) => some (status, s)
  | none => none

def readBytesFromCache (bytesToRead : ℕ) (s : SnappyInputBuffer) : ByteString × SnappyInputBuffer :=
  (s.output.take bytesToRead, { s with output := s.output.drop bytesToRead })

/-- The loop of `ReadNBytes`; none where it does not end within `fuel` rounds. -/
def readLoop : ℕ → ℕ → ByteString → SnappyInputBuffer →
    Option ((Status × ByteString) × SnappyInputBuffer)
  | 0, _, _, _ => none
  | fuel + 1, bytesToRead, result, s =>
    if bytesToRead = 0 then some ((.ok, result), s)
    else
      (inflate Z s).bind fun (status, s) ↦
        if status ≠ .ok then some ((status, result), s)
        else
          match readBytesFromCache bytesToRead s with
          | (bytes, s) => readLoop fuel (bytesToRead - bytes.length) (result ++ bytes) s

/-- `ReadNBytes`. Every round of the loop but the last takes a block from the file. -/
def readNBytes (bytesToRead : ℕ) (s : SnappyInputBuffer) :
    Option ((Status × ByteString) × SnappyInputBuffer) :=
  match readBytesFromCache bytesToRead s with
  | (bytes, s) => readLoop Z (s.file.length + 2) (bytesToRead - bytes.length) bytes s

/-- A `ReadNBytes` of each of the sizes. -/
def reads : List ℕ → SnappyInputBuffer → Option (List (Status × ByteString))
  | [], _ => some []
  | n :: ns, s => (readNBytes Z n s).bind fun (r, s) ↦ (reads ns s).map (r :: ·)

/-- A new buffer. -/
def init (file : ByteString) (inputBufferBytes outputBufferBytes : ℕ) : SnappyInputBuffer :=
  ⟨file, inputBufferBytes, outputBufferBytes, 0, [], []⟩

/-! ### What fits in an `int` -/

/-- The capacity as `ReadFromFile` has it, unless that is negative. -/
def intCapacity (s : SnappyInputBuffer) : ℕ := s.inputBufferCapacity % 2 ^ 32

theorem toInt_bytesToRead (s : SnappyInputBuffer) :
    s.bytesToRead.toInt = ((s.inputBufferCapacity : ℤ) - s.input.length).bmod (2 ^ 32) := by
  rw [bytesToRead, Int32.toInt_sub, Int32.toInt_ofNat', Int32.toInt_ofNat']
  simp [Int32.size]

theorem bytesToRead_eq {s : SnappyInputBuffer} (hint : s.intCapacity < 2 ^ 31)
    (hle : s.input.length ≤ s.intCapacity) :
    ¬ s.bytesToRead < 0 ∧ s.bytesToRead.toNatClampNeg = s.intCapacity - s.input.length := by
  have htoInt : s.bytesToRead.toInt = (s.intCapacity - s.input.length : ℕ) := by
    rw [toInt_bytesToRead, Int.bmod_def]
    unfold intCapacity at *
    omega
  refine ⟨fun hneg ↦ ?_, ?_⟩
  · rw [Int32.lt_iff_toInt_lt, htoInt] at hneg
    exact absurd hneg (Int.not_lt.2 (Int.natCast_nonneg _))
  · rw [Int32.toNatClampNeg, htoInt, Int.toNat_natCast]

/-- A capacity that is a negative `int` asks for too many bytes at once. -/
theorem bytesToRead_neg {s : SnappyInputBuffer} (hint : ¬ s.intCapacity < 2 ^ 31)
    (hempty : s.input = []) : s.bytesToRead < 0 := by
  rw [Int32.lt_iff_toInt_lt, toInt_bytesToRead, hempty, Int.bmod_def]
  show _ < (0 : ℤ)
  unfold intCapacity at hint
  rw [length_nil]
  omega

/-! ### The length of a block -/

/-- What the reader makes of the four bytes of a length. -/
def readLength (bytes : ByteString) : UInt32 := bytes.foldl pushLengthByte 0

/-- None of the four bytes of the length has its high bit set. -/
def LengthReadable (length : ℕ) : Prop := ∀ byte ∈ SnappyOutputBuffer.lengthBytes length, byte < 128

instance (length : ℕ) : Decidable (LengthReadable length) :=
  List.decidableBAll (· < 128) (SnappyOutputBuffer.lengthBytes length)

theorem toNat_signExtend_byte (byte : UInt8) :
    byte.toInt8.toInt32.toUInt32.toNat =
      byte.toNat + if byte < 128 then 0 else 2 ^ 32 - 2 ^ 8 := by
  have hmsb : byte.toBitVec.msb = decide ¬ byte < 128 := by
    rw [BitVec.msb_eq_decide]
    congr 1
    rw [UInt8.not_lt, UInt8.le_iff_toNat_le]
    rfl
  show (byte.toBitVec.signExtend 32).toNat = _
  rw [BitVec.toNat_signExtend, hmsb, BitVec.toNat_setWidth_of_le (by decide)]
  by_cases h : byte < 128 <;> simp [h]

theorem or_two_pow_sub_one {m k : ℕ} (h : m < 2 ^ k) : m ||| (2 ^ k - 1) = 2 ^ k - 1 := by
  refine Nat.eq_of_testBit_eq fun i ↦ ?_
  rw [Nat.testBit_or, Nat.testBit_two_pow_sub_one]
  by_cases hi : i < k
  · simp [hi]
  · rw [Nat.testBit_lt_two_pow (h.trans_le (Nat.pow_le_pow_right (by decide) (by omega)))]
    rfl

/-- A byte without its high bit is appended as a digit. -/
theorem toNat_pushLengthByte_of_lt (length : UInt32) (h : byte < 128) :
    (pushLengthByte length byte).toNat = length.toNat % 2 ^ 24 * 256 + byte.toNat := by
  have hb : byte.toNat < 2 ^ 8 := byte.toNat_lt
  have hshift : length.toNat <<< 8 % 2 ^ 32 = 2 ^ 8 * (length.toNat % 2 ^ 24) := by
    rw [Nat.shiftLeft_eq]
    omega
  rw [pushLengthByte, UInt32.toNat_or, UInt32.toNat_shiftLeft, toNat_signExtend_byte, if_pos h,
    Nat.add_zero]
  show length.toNat <<< 8 % 2 ^ 32 ||| byte.toNat = _
  rw [hshift, ← Nat.two_pow_add_eq_or_of_lt hb, Nat.mul_comm]

/-- Any other byte sets all the bits above it. -/
theorem toNat_pushLengthByte_of_le (length : UInt32) (h : ¬ byte < 128) :
    (pushLengthByte length byte).toNat = 2 ^ 32 - 2 ^ 8 + byte.toNat := by
  have hb : byte.toNat < 2 ^ 8 := byte.toNat_lt
  have hlow : length.toNat % 2 ^ 24 < 2 ^ 24 := Nat.mod_lt _ (by decide)
  have hshift : length.toNat <<< 8 % 2 ^ 32 = 2 ^ 8 * (length.toNat % 2 ^ 24) := by
    rw [Nat.shiftLeft_eq]
    omega
  have hones : byte.toNat + (2 ^ 32 - 2 ^ 8) = 2 ^ 8 * (2 ^ 24 - 1) + byte.toNat := by omega
  rw [pushLengthByte, UInt32.toNat_or, UInt32.toNat_shiftLeft, toNat_signExtend_byte, if_neg h]
  show length.toNat <<< 8 % 2 ^ 32 ||| (byte.toNat + (2 ^ 32 - 2 ^ 8)) = _
  rw [hshift, hones, Nat.two_pow_add_eq_or_of_lt hb, ← Nat.or_assoc, Nat.mul_comm,
    Nat.mul_comm (2 ^ 8), ← Nat.shiftLeft_eq, ← Nat.shiftLeft_eq, ← Nat.shiftLeft_or_distrib,
    or_two_pow_sub_one hlow, Nat.shiftLeft_eq, Nat.mul_comm, ← Nat.two_pow_add_eq_or_of_lt hb]
  omega

theorem toNat_shiftRight_toUInt8 (length i : ℕ) :
    (length >>> i).toUInt8.toNat = length / 2 ^ i % 256 := by
  rw [Nat.shiftRight_eq_div_pow]
  rfl

theorem lt_128_iff : byte < 128 ↔ byte.toNat < 128 := UInt8.lt_iff_toNat_lt

/-- The four bytes of a length, the most significant one first. -/
theorem lengthBytes_eq (length : ℕ) :
    SnappyOutputBuffer.lengthBytes length = [(length >>> 24).toUInt8, (length >>> 16).toUInt8,
      (length >>> 8).toUInt8, (length >>> 0).toUInt8] := rfl

theorem lengthReadable_iff {length : ℕ} :
    LengthReadable length ↔ length / 2 ^ 24 % 256 < 128 ∧ length / 2 ^ 16 % 256 < 128 ∧
      length / 2 ^ 8 % 256 < 128 ∧ length % 256 < 128 := by
  simp only [LengthReadable, lengthBytes_eq, forall_mem_cons, lt_128_iff, toNat_shiftRight_toUInt8,
    Nat.pow_zero, Nat.div_one]
  simp

/-- A length without high bits is read back, up to what four bytes hold. -/
theorem readLength_eq {length : ℕ} (h : LengthReadable length) :
    (readLength (SnappyOutputBuffer.lengthBytes length)).toNat = length % 2 ^ 32 := by
  obtain ⟨h24, h16, h8, h0⟩ := lengthReadable_iff.1 h
  have hbyte (i : ℕ) (hi : length / 2 ^ i % 256 < 128) : (length >>> i).toUInt8 < 128 := by
    rw [lt_128_iff, toNat_shiftRight_toUInt8]
    exact hi
  have h0' : length / 2 ^ 0 % 256 < 128 := by rwa [Nat.pow_zero, Nat.div_one]
  simp only [readLength, lengthBytes_eq, foldl_cons, foldl_nil,
    toNat_pushLengthByte_of_lt _ (hbyte 24 h24), toNat_pushLengthByte_of_lt _ (hbyte 16 h16),
    toNat_pushLengthByte_of_lt _ (hbyte 8 h8), toNat_pushLengthByte_of_lt _ (hbyte 0 h0'),
    toNat_shiftRight_toUInt8]
  have hzero : (0 : UInt32).toNat = 0 := rfl
  omega

theorem toNat_pushLengthByte_ge_of_le (length : UInt32) (h : 128 ≤ byte.toNat) :
    2 ^ 32 - 2 ^ 7 ≤ (pushLengthByte length byte).toNat := by
  rw [toNat_pushLengthByte_of_le length (by rw [lt_128_iff]; omega)]
  omega

/-- A word that is close to the limit is so after one more byte. -/
theorem toNat_pushLengthByte_ge {length : UInt32} {k : ℕ} (hk : 2 ^ k ≤ 2 ^ 23)
    (h : 2 ^ 32 - 2 ^ k ≤ length.toNat) (byte : UInt8) :
    2 ^ 32 - 2 ^ k * 256 ≤ (pushLengthByte length byte).toNat := by
  have hlength : length.toNat < 2 ^ 32 := length.toNat_lt
  have hpos : 1 ≤ 2 ^ k := Nat.one_le_two_pow
  by_cases hbyte : byte < 128
  · rw [toNat_pushLengthByte_of_lt length hbyte]
    omega
  · have hge := toNat_pushLengthByte_ge_of_le length (Nat.le_of_not_lt (mt lt_128_iff.2 hbyte))
    omega

/-- After at most three more bytes, a byte with its high bit set still makes for a length of `2 ^
31` or more. By induction on the bytes that follow. -/
theorem two_pow_31_le_foldl {bytes : ByteString} {length : UInt32} {k : ℕ}
    (hk : k + 8 * bytes.length ≤ 31) (h : 2 ^ 32 - 2 ^ k ≤ length.toNat) :
    2 ^ 31 ≤ (bytes.foldl pushLengthByte length).toNat := by
  induction bytes generalizing length k with
  | nil =>
    have hle : 2 ^ k ≤ 2 ^ 31 := Nat.pow_le_pow_right (by decide) hk
    rw [foldl_nil]
    omega
  | cons byte bytes ih =>
    rw [length_cons] at hk
    have hpow : 2 ^ k * 256 = 2 ^ (k + 8) := (Nat.pow_add 2 k 8).symm
    have hle : 2 ^ k ≤ 2 ^ 23 := Nat.pow_le_pow_right (by decide) (by omega)
    exact ih (by omega) (hpow ▸ toNat_pushLengthByte_ge hle h byte)

/-- A length with a high bit set in one of its bytes is read as one beyond every `int`: such a byte
sets all the bits above it, and at most three more bytes follow. -/
theorem two_pow_31_le_readLength {length : ℕ} (h : ¬ LengthReadable length) :
    2 ^ 31 ≤ (readLength (SnappyOutputBuffer.lengthBytes length)).toNat := by
  obtain ⟨byte, hmem, hbyte⟩ : ∃ byte ∈ SnappyOutputBuffer.lengthBytes length, ¬ byte < 128 := by
    simpa only [LengthReadable, not_forall, exists_prop] using h
  obtain ⟨front, back, hsplit⟩ := append_of_mem hmem
  have hlength : front.length + (back.length + 1) = 4 := by
    have := congrArg List.length hsplit
    rw [length_append, length_cons] at this
    exact this.symm
  rw [readLength, hsplit, foldl_append, foldl_cons]
  exact two_pow_31_le_foldl (by omega)
    (toNat_pushLengthByte_ge_of_le _ (Nat.le_of_not_lt (mt lt_128_iff.2 hbyte)))

end SnappyInputBuffer

end TensorFlowCore
