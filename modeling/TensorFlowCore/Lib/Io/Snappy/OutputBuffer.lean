import TensorFlowCore.Core.Status
import TensorFlowCore.Support.Bytes

/-!
# The compression library

`Snappy` stands for the library that `port::Snappy_Compress` and its siblings call, in
`tensorflow/core/platform/snappy.h`, and `Snappy.Undoes` is what its readers rely on.
-/

namespace TensorFlowCore

open List

/-- The port to the compression library: `none` where a call returns `false`. -/
structure Snappy where
  compress : ByteString → Option ByteString
  getUncompressedLength : ByteString → Option ℕ
  uncompress : ByteString → Option ByteString

/-- Uncompressing undoes compressing, and the stored length is that of the original. -/
def Snappy.Undoes (snappy : Snappy) : Prop :=
  ∀ raw compressed, snappy.compress raw = some compressed →
    snappy.getUncompressedLength compressed = some raw.length ∧
      snappy.uncompress compressed = some raw

/-- The port of a build without the library. -/
def Snappy.unsupported : Snappy := ⟨fun _ ↦ none, fun _ ↦ none, fun _ ↦ none⟩

theorem Snappy.undoes_unsupported : Snappy.unsupported.Undoes := fun _ _ h ↦ nomatch h

/-- Everything can be compressed, and uncompressing undoes it. -/
structure Snappy.Inverse (Z : Snappy) : Prop where
  exists_compress : ∀ x, ∃ y, Z.compress x = some y
  undoes : Z.Undoes

/-- Compressed data that have been cut short do not uncompress. -/
def Snappy.RejectsTruncated (Z : Snappy) : Prop :=
  ∀ x y, Z.compress x = some y → ∀ k < y.length, Z.uncompress (y.take k) = none

/-!
## `SnappyOutputBuffer`

The writer of `tensorflow/core/lib/io/snappy/snappy_outputbuffer.cc`. It gathers what is written in
an input buffer, and compresses a full buffer, or a write that is too large for it, into one block:
four bytes with the length of the compressed data, and the data. The blocks go through an output
buffer to the file.

A buffer is the bytes in it: between two calls the input starts at the head of its buffer. Appending
to the file succeeds. `blocksFrom` is how the writes are split into blocks, and `file_of_writes`
what the file holds after a `Flush`.
-/

structure SnappyOutputBuffer where
  inputBufferCapacity : ℕ
  outputBufferCapacity : ℕ
  /-- Copying to a buffer without room would not end. -/
  outputBufferCapacity_pos : 0 < outputBufferCapacity
  /-- The `avail_in_` bytes at `next_in_`. -/
  input : ByteString
  /-- The bytes before `next_out_`. -/
  output : ByteString
  file : ByteString

namespace SnappyOutputBuffer

def availableInputSpace (w : SnappyOutputBuffer) : ℕ := w.inputBufferCapacity - w.input.length

def addToInputBuffer (w : SnappyOutputBuffer) (data : ByteString) : SnappyOutputBuffer :=
  { w with input := w.input ++ data }

def flushOutputBufferToFile (w : SnappyOutputBuffer) : SnappyOutputBuffer :=
  { w with output := [], file := w.file ++ w.output }

/-- `AddToOutputBuffer`, byte by byte: the buffer is flushed whenever it is full. -/
def addToOutputBuffer : ByteString → SnappyOutputBuffer → SnappyOutputBuffer
  | [], w => w
  | b :: data, w =>
    let w' := { w with output := w.output ++ [b] }
    addToOutputBuffer data
      (if w'.outputBufferCapacity - w'.output.length = 0 then w'.flushOutputBufferToFile else w')

/-- The loop that fills `compressed_length_array`. -/
def lengthBytes (size : ℕ) : ByteString :=
  (List.range 4).map fun i ↦ (size >>> (8 * (3 - i))).toUInt8

variable (Z : Snappy)

/-- `Deflate`, of the bytes at `next_in_`. -/
def deflate (w : SnappyOutputBuffer) : Status × SnappyOutputBuffer :=
  if w.input = [] then (.ok, w)
  else
    match Z.compress w.input with
    | none => (.error .dataLoss (ascii "Snappy_Compress failed"), w)
    | some output =>
      let w := addToOutputBuffer (lengthBytes output.length) w
      let w := addToOutputBuffer output w
      (.ok, { w with input := [] })

def write (w : SnappyOutputBuffer) (data : ByteString) : Status × SnappyOutputBuffer :=
  if data.length ≤ w.availableInputSpace then (.ok, w.addToInputBuffer data)
  else
    match deflate Z w with
    | (.ok, w) =>
      if data.length ≤ w.availableInputSpace then (.ok, w.addToInputBuffer data)
      -- "`data` is too large to fit in input buffer so we deflate it directly."
      else deflate Z { w with input := data }
    | r => r

def flush (w : SnappyOutputBuffer) : Status × SnappyOutputBuffer :=
  match deflate Z w with
  | (.ok, w) => (.ok, w.flushOutputBufferToFile)
  | r => r

/-- `Write` of each string in turn, up to an error, and then `Flush`. -/
def writes : List ByteString → SnappyOutputBuffer → Status × SnappyOutputBuffer
  | [], w => flush Z w
  | data :: datas, w =>
    match write Z w data with
    | (.ok, w) => writes datas w
    | r => r

/-- A new buffer for an empty file. -/
def init (inputBufferBytes outputBufferBytes : ℕ) (h : 0 < outputBufferBytes) :
    SnappyOutputBuffer :=
  ⟨inputBufferBytes, outputBufferBytes, h, [], [], []⟩

/-! ### The blocks -/

/-- A block of no bytes is not written. -/
def block (data : ByteString) : List ByteString := if data = [] then [] else [data]

/-- The blocks that come of writes, when `input` is in the input buffer. -/
def blocksFrom (capacity : ℕ) : ByteString → List ByteString → List ByteString
  | input, [] => block input
  | input, data :: datas =>
    if data.length ≤ capacity - input.length then blocksFrom capacity (input ++ data) datas
    else
      block input ++
        (if data.length ≤ capacity then blocksFrom capacity data datas
        else block data ++ blocksFrom capacity [] datas)

/-- The blocks that the writes are split into. -/
def blocks (capacity : ℕ) (datas : List ByteString) : List ByteString :=
  blocksFrom capacity [] datas

/-- The compressed data of a block. -/
def compressed (data : ByteString) : ByteString := (Z.compress data).getD []

/-- A block in the file. -/
def encodeBlock (data : ByteString) : ByteString :=
  lengthBytes (compressed Z data).length ++ compressed Z data

theorem flatten_block (data : ByteString) : (block data).flatten = data := by
  unfold block
  split
  next h => rw [h, flatten_nil]
  · rw [flatten_singleton]

theorem ne_nil_of_mem_block {data b : ByteString} (h : b ∈ block data) : b ≠ [] := by
  unfold block at h
  split at h
  · nomatch h
  next hne => exact mem_singleton.1 h ▸ hne

theorem flatten_blocksFrom (capacity : ℕ) (input : ByteString) (datas : List ByteString) :
    (blocksFrom capacity input datas).flatten = input ++ datas.flatten := by
  induction datas generalizing input with
  | nil => rw [blocksFrom, flatten_block, flatten_nil, append_nil]
  | cons data datas ih =>
    rw [blocksFrom, flatten_cons]
    split
    · rw [ih, append_assoc]
    · rw [flatten_append, flatten_block]
      split
      · rw [ih]
      · rw [flatten_append, flatten_block, ih, nil_append]

/-- Nothing that is written is lost or reordered by the split. -/
theorem flatten_blocks (capacity : ℕ) (datas : List ByteString) :
    (blocks capacity datas).flatten = datas.flatten := flatten_blocksFrom capacity [] datas

theorem ne_nil_of_mem_blocksFrom {capacity : ℕ} {input : ByteString} {datas : List ByteString}
    {b : ByteString} (h : b ∈ blocksFrom capacity input datas) : b ≠ [] := by
  induction datas generalizing input with
  | nil => exact ne_nil_of_mem_block h
  | cons data datas ih =>
    rw [blocksFrom] at h
    split at h
    · exact ih h
    · obtain h | h := mem_append.1 h
      · exact ne_nil_of_mem_block h
      · split at h
        · exact ih h
        · obtain h | h := mem_append.1 h
          · exact ne_nil_of_mem_block h
          · exact ih h

/-! ### What is written to the file -/

/-- The bytes that are in the file or on their way to it. -/
def emitted (w : SnappyOutputBuffer) : ByteString := w.file ++ w.output

/-- Copying to the output buffer appends the bytes, whether or not the buffer is flushed. -/
theorem addToOutputBuffer_spec (data : ByteString) (w : SnappyOutputBuffer) :
    (addToOutputBuffer data w).emitted = w.emitted ++ data ∧
      (addToOutputBuffer data w).input = w.input ∧
      (addToOutputBuffer data w).inputBufferCapacity = w.inputBufferCapacity := by
  induction data generalizing w with
  | nil => exact ⟨(append_nil _).symm, rfl, rfl⟩
  | cons b data ih =>
    rw [addToOutputBuffer]
    split
    · obtain ⟨hemitted, hinput, hcapacity⟩ :=
        ih ({ w with output := w.output ++ [b] } : SnappyOutputBuffer).flushOutputBufferToFile
      refine ⟨?_, hinput, hcapacity⟩
      rw [hemitted]
      simp [emitted, flushOutputBufferToFile]
    · obtain ⟨hemitted, hinput, hcapacity⟩ := ih { w with output := w.output ++ [b] }
      refine ⟨?_, hinput, hcapacity⟩
      rw [hemitted]
      simp [emitted]

/-- What a deflation makes of a buffer. -/
structure Deflated (w w' : SnappyOutputBuffer) : Prop where
  emitted : w'.emitted = w.emitted ++ (block w.input).flatMap (encodeBlock Z)
  input : w'.input = []
  inputBufferCapacity : w'.inputBufferCapacity = w.inputBufferCapacity

variable {Z}

theorem deflate_spec (hZ : Z.Inverse) (w : SnappyOutputBuffer) :
    ∃ w', deflate Z w = (.ok, w') ∧ Deflated Z w w' := by
  unfold deflate
  split
  next hnil =>
    refine ⟨w, rfl, ?_, hnil, rfl⟩
    rw [block, if_pos hnil, flatMap_nil, append_nil]
  next hne =>
    obtain ⟨output, houtput⟩ := hZ.exists_compress w.input
    obtain ⟨hemitted, -, hcapacity⟩ := addToOutputBuffer_spec (lengthBytes output.length) w
    obtain ⟨hemitted', -, hcapacity'⟩ :=
      addToOutputBuffer_spec output (addToOutputBuffer (lengthBytes output.length) w)
    rw [houtput]
    refine ⟨_, rfl, ?_, rfl, hcapacity'.trans hcapacity⟩
    rw [block, if_neg hne, flatMap_singleton, encodeBlock, compressed, houtput, Option.getD_some,
      ← append_assoc, ← hemitted]
    exact hemitted'

/-- The writes come out as blocks, by induction on the writes. -/
theorem writes_spec (hZ : Z.Inverse) (datas : List ByteString) (w : SnappyOutputBuffer) :
    ∃ w', writes Z datas w = (.ok, w') ∧ w'.file = w.emitted ++
      (blocksFrom w.inputBufferCapacity w.input datas).flatMap (encodeBlock Z) := by
  induction datas generalizing w with
  | nil =>
    obtain ⟨w', hdeflate, hspec⟩ := deflate_spec hZ w
    refine ⟨w'.flushOutputBufferToFile, ?_, ?_⟩
    · rw [writes, flush, hdeflate]
    · rw [blocksFrom, ← hspec.emitted]
      rfl
  | cons data datas ih =>
    rw [writes, write, blocksFrom]
    by_cases hfits : data.length ≤ w.availableInputSpace
    · obtain ⟨w', hwrites, hfile⟩ := ih (w.addToInputBuffer data)
      have hfits' : data.length ≤ w.inputBufferCapacity - w.input.length := hfits
      rw [if_pos hfits, if_pos hfits']
      exact ⟨w', hwrites, hfile⟩
    obtain ⟨w₁, hdeflate, hspec⟩ := deflate_spec hZ w
    have hfits' : ¬ data.length ≤ w.inputBufferCapacity - w.input.length := hfits
    have hspace : w₁.availableInputSpace = w.inputBufferCapacity := by
      rw [availableInputSpace, hspec.input, hspec.inputBufferCapacity]
      rfl
    rw [if_neg hfits, if_neg hfits', hdeflate]
    dsimp only
    rw [hspace, flatMap_append, ← append_assoc, ← hspec.emitted]
    by_cases hempty : data.length ≤ w.inputBufferCapacity
    · obtain ⟨w', hwrites, hfile⟩ := ih (w₁.addToInputBuffer data)
      have hinput : (w₁.addToInputBuffer data).input = data := by
        rw [addToInputBuffer, hspec.input, nil_append]
      have hcapacity : (w₁.addToInputBuffer data).inputBufferCapacity = w.inputBufferCapacity :=
        hspec.inputBufferCapacity
      rw [if_pos hempty, if_pos hempty]
      rw [hinput, hcapacity] at hfile
      exact ⟨w', hwrites, hfile⟩
    · obtain ⟨w₂, hdeflate', hspec'⟩ := deflate_spec hZ { w₁ with input := data }
      obtain ⟨w', hwrites, hfile⟩ := ih w₂
      have hcapacity : w₂.inputBufferCapacity = w.inputBufferCapacity :=
        hspec'.inputBufferCapacity.trans hspec.inputBufferCapacity
      have hemitted : w₂.emitted = w₁.emitted ++ (block data).flatMap (encodeBlock Z) :=
        hspec'.emitted
      rw [if_neg hempty, if_neg hempty, hdeflate', flatMap_append, ← append_assoc, ← hemitted]
      rw [hspec'.input, hcapacity] at hfile
      exact ⟨w', hwrites, hfile⟩

/-- **The file after the writes and a `Flush`.** -/
theorem file_of_writes (hZ : Z.Inverse) (datas : List ByteString) (inputBufferBytes : ℕ)
    {outputBufferBytes : ℕ} (h : 0 < outputBufferBytes) :
    ∃ w, writes Z datas (init inputBufferBytes outputBufferBytes h) = (.ok, w) ∧
      w.file = (blocks inputBufferBytes datas).flatMap (encodeBlock Z) := by
  obtain ⟨w, hwrites, hfile⟩ := writes_spec hZ datas (init inputBufferBytes outputBufferBytes h)
  exact ⟨w, hwrites, hfile⟩

end SnappyOutputBuffer

/-!
## The Snappy format without copies

A compressor that finds nothing to copy, as the library's does for short data without repetitions:
the length in base `128`, and all the data as one literal.
-/

namespace Snappy

/-- A number in base `128`, and what follows it. -/
def readBase128 : ByteString → Option (ℕ × ByteString)
  | [] => none
  | b :: x =>
    if b.toNat < 128 then some (b.toNat, x)
    else (readBase128 x).map fun (n, rest) ↦ (b.toNat % 128 + n * 128, rest)

theorem readBase128_append (n : ℕ) (rest : ByteString) :
    readBase128 (base128 n ++ rest) = some (n, rest) := by
  induction n using Nat.strong_induction_on with
  | h n ih =>
    by_cases hn : n < 128
    · have hbyte : n.toUInt8.toNat = n := Nat.mod_eq_of_lt (by omega)
      rw [base128_of_lt hn, singleton_append, readBase128, hbyte, if_pos hn]
    · have hbyte : (n % 128 + 128).toUInt8.toNat = n % 128 + 128 := Nat.mod_eq_of_lt (by omega)
      have hdigits : (n % 128 + 128) % 128 + n / 128 * 128 = n := by omega
      rw [base128_of_le (Nat.le_of_not_lt hn), cons_append, readBase128, hbyte, if_neg (by omega),
        ih (n / 128) (by omega), Option.map_some]
      dsimp only
      rw [hdigits]

/-- The head of a literal: up to 60 bytes, their number less one stands in the tag, and else in the
one to four bytes after it. -/
def literalTag (length : ℕ) : ByteString :=
  let n := length - 1
  if n < 60 then [(n * 4).toUInt8]
  else
    let count := n.log2 / 8 + 1
    ((59 + count) * 4).toUInt8 :: (List.range count).map fun i ↦ (n >>> (8 * i)).toUInt8

def literal (x : ByteString) : ByteString := if x = [] then [] else literalTag x.length ++ x

def encodeLiteral (x : ByteString) : ByteString := base128 x.length ++ literal x

/-- Compressed data have to be those of a literal. -/
def literals : Snappy where
  compress x := some (encodeLiteral x)
  getUncompressedLength y := (readBase128 y).map Prod.fst
  uncompress y := (readBase128 y).bind fun (n, rest) ↦
    let x := rest.drop (rest.length - n)
    if encodeLiteral x = y then some x else none

theorem drop_literal (x : ByteString) : (literal x).drop ((literal x).length - x.length) = x := by
  unfold literal
  split
  next hnil => rw [hnil, drop_nil]
  · rw [length_append, Nat.add_sub_cancel, drop_left]

theorem literals_inverse : literals.Inverse where
  exists_compress x := ⟨encodeLiteral x, rfl⟩
  undoes x y h := by
    cases h
    constructor
    · show (readBase128 (encodeLiteral x)).map Prod.fst = _
      rw [encodeLiteral, readBase128_append]
      rfl
    · show (readBase128 (encodeLiteral x)).bind _ = _
      rw [encodeLiteral, readBase128_append, Option.bind_some]
      dsimp only
      rw [drop_literal, ← encodeLiteral, if_pos rfl]

theorem length_encodeLiteral_congr {x y : ByteString} (h : x.length = y.length) :
    (encodeLiteral x).length = (encodeLiteral y).length := by
  have hnil : x = [] ↔ y = [] := by rw [← length_eq_zero_iff, h, length_eq_zero_iff]
  have hliteral : (literal x).length = (literal y).length := by
    unfold literal
    by_cases hx : x = []
    · rw [if_pos hx, if_pos (hnil.1 hx)]
    · rw [if_neg hx, if_neg (mt hnil.2 hx), length_append, length_append, h]
  rw [encodeLiteral, encodeLiteral, length_append, length_append, hliteral, h]

theorem literals_rejectsTruncated : literals.RejectsTruncated := by
  intro x y h k hk
  cases h
  refine Option.eq_none_iff_forall_ne_some.2 fun x' huncompress ↦ ?_
  obtain ⟨⟨n, rest⟩, -, hx'⟩ := Option.bind_eq_some_iff.1 huncompress
  obtain ⟨heq, hx'⟩ := Option.ite_none_right_eq_some.1 hx'
  rw [Option.some.inj hx'] at heq
  -- both literals begin with the same length, and so are of one size
  have hx : readBase128 (encodeLiteral x) = some (x.length, literal x) := readBase128_append _ _
  rw [← take_append_drop k (encodeLiteral x), ← heq, encodeLiteral, append_assoc,
    readBase128_append] at hx
  have hlength := length_encodeLiteral_congr (Prod.mk.inj (Option.some.inj hx)).1
  rw [heq, length_take] at hlength
  omega

theorem length_compressed_literals {x : ByteString} (hne : x ≠ []) (hlt : x.length < 128) :
    (SnappyOutputBuffer.compressed literals x).length =
      1 + ((literalTag x.length).length + x.length) := by
  show (encodeLiteral x).length = _
  rw [encodeLiteral, literal, if_neg hne, base128_of_lt hlt, length_append, length_append,
    length_singleton]

/-- The bytes of a copy, one after another: it may overlap with what it copies from. -/
def copyBack (offset : ℕ) : ℕ → ByteString → ByteString
  | 0, out => out
  | n + 1, out => copyBack offset n (out ++ [out.getD (out.length - offset) 0])

/-- The elements behind the length: literals of up to 60 bytes, and copies with an offset of two
bytes. Each takes a byte, so that `y.length` is enough fuel. -/
def expand : ℕ → ByteString → ByteString → Option ByteString
  | _, [], out => some out
  | 0, _ :: _, _ => none
  | fuel + 1, tag :: y, out =>
    let n := tag.toNat / 4 + 1
    match tag.toNat % 4, y with
    | 0, y => if n ≤ 60 ∧ n ≤ y.length then expand fuel (y.drop n) (out ++ y.take n) else none
    | 2, low :: high :: y => expand fuel y (copyBack (low.toNat + 256 * high.toNat) n out)
    | _, _ => none

/-- `literals`, with a block of data that the library packs with copies. -/
def withCopies (raw packed : ByteString) : Snappy where
  compress x := if x = raw then some packed else literals.compress x
  getUncompressedLength := literals.getUncompressedLength
  uncompress y := (literals.uncompress y).or
    ((readBase128 y).bind fun (_, rest) ↦ expand rest.length rest [])

theorem undoes_withCopies {raw packed rest : ByteString}
    (hread : readBase128 packed = some (raw.length, rest))
    (hnot : literals.uncompress packed = none) (hexpand : expand rest.length rest [] = some raw) :
    (withCopies raw packed).Undoes := by
  intro x y h
  by_cases hx : x = raw
  · obtain rfl : packed = y := Option.some.inj ((if_pos hx).symm.trans h)
    rw [hx]
    constructor
    · exact congrArg (Option.map Prod.fst) hread
    · show (literals.uncompress packed).or _ = _
      rw [hnot, hread, Option.none_or, Option.bind_some]
      exact hexpand
  · obtain ⟨hlength, huncompress⟩ := literals_inverse.undoes x y ((if_neg hx).symm.trans h)
    refine ⟨hlength, ?_⟩
    show (literals.uncompress y).or _ = _
    rw [huncompress, Option.some_or]

end Snappy

end TensorFlowCore
