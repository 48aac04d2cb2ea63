import TensorFlowCore.Lib.Core.Coding
import TensorFlowCore.Lib.Io.RandomAccessInputStream
import TensorFlowCore.Support.CallByCall

/-!
# `InputBuffer`

`tensorflow/core/lib/io/inputbuffer.cc` and `inputbuffer.h`: reading a file through a buffer. The
buffer holds the bytes just before `filePos`, of which those from `pos` on have not been read yet,
so that the position in the file is `tell`. Such a buffer is a lawful reader of what stands in the
file from there on (`lawful_access`).
-/

namespace TensorFlowCore

open FileCursor List

/-- `io::InputBuffer`. The bytes of `buf` end at `limit_`. -/
structure InputBuffer where
  file : ByteString
  filePos : ℕ := 0
  size : ℕ
  buf : ByteString := []
  pos : ℕ := 0

namespace InputBuffer

/-- `Tell`. -/
def tell (b : InputBuffer) : ℕ := b.filePos - (b.buf.length - b.pos)

def fillBuffer (b : InputBuffer) : Status × InputBuffer :=
  let (s, data) := readAt b.file b.filePos b.size
  (s, { b with buf := data, pos := 0, filePos := b.filePos + data.length })

/-- The loop of `ReadNBytes`, with the status of the last `FillBuffer`, for as many rounds as there
are bytes to read. -/
def readNBytesLoop : ℕ → InputBuffer → Status → ByteString → ℕ → Status × ByteString × InputBuffer
  | 0, b, status, result, _ => (status, result, b)
  | rounds + 1, b, status, result, bytesToRead =>
    if result.length < bytesToRead then
      let (status, b) := if b.pos = b.buf.length then b.fillBuffer else (status, b)
      if b.buf = [] then (status, result, b)
      else
        let bytesToCopy := min (b.buf.length - b.pos) (bytesToRead - result.length)
        readNBytesLoop rounds { b with pos := b.pos + bytesToCopy } status
          (result ++ (b.buf.drop b.pos).take bytesToCopy) bytesToRead
    else (status, result, b)

/-- `ReadNBytes`: the bytes that are read, and the status. -/
def readNBytes (b : InputBuffer) (bytesToRead : ℕ) : Status × ByteString × InputBuffer :=
  let (status, result, b) := readNBytesLoop bytesToRead b .ok [] bytesToRead
  (if isOutOfRange status ∧ result.length = bytesToRead then .ok else status, result, b)

/-- The loop of `ReadVarint32Fallback`, for the given number of bytes. -/
def readVarint32FallbackLoop :
    ℕ → InputBuffer → (shift : ℕ) → BitVec 32 → Except Status UInt32 × InputBuffer
  | 0, b, _, _ =>
    (.error (.error .dataLoss (ascii "Stored data is too large to be a varint32.")), b)
  | n + 1, b, shift, result =>
    match b.readNBytes 1 with
    | (.error code msg, _, b) => (.error (.error code msg), b)
    | (.ok, scratch, b) =>
      let scratch := scratch.headD 0
      let result := result ||| ((scratch &&& 127).toBitVec.setWidth 32 <<< shift)
      if scratch &&& 128 = 0 then (.ok ⟨result⟩, b)
      else readVarint32FallbackLoop n b (shift + 7) result

/-- `ReadVarint32Fallback`: the shifts are 0, 7, 14, 21 and 28. -/
def readVarint32Fallback (b : InputBuffer) : Except Status UInt32 × InputBuffer :=
  readVarint32FallbackLoop 5 b 0 0

/-- `core::kMaxVarint32Bytes`. -/
def kMaxVarint32Bytes : ℕ := 5

/-- `ReadVarint32`. -/
def readVarint32 (b : InputBuffer) : Except Status UInt32 × InputBuffer :=
  if b.pos + kMaxVarint32Bytes ≤ b.buf.length then
    match getVarint32Ptr (b.buf.drop b.pos) with
    | none => (.error (.error .outOfRange (ascii "Parsed past limit.")), b)
    | some (result, rest) => (.ok result, { b with pos := b.buf.length - rest.length })
  else b.readVarint32Fallback

/-- What the loops over the buffer use of it. -/
def access : BufferedReader.Access InputBuffer Status UInt8 where
  buf := buf
  pos := pos
  moveTo b k := { b with pos := k }
  fill := fillBuffer

/-- `ReadLine`: the line, and the status. No line has more bytes than the file. -/
def readLine (b : InputBuffer) : Status × ByteString × InputBuffer :=
  let (found, result, b) :=
    BufferedReader.lineLoop access (· == 10) (· != 13) (b.file.length + 1) b .ok []
  (FileCursor.lineStatus found result, result, b)

/-- `SkipNBytes`. -/
def skipNBytes (b : InputBuffer) (bytesToSkip : ℕ) : Status × InputBuffer :=
  let (s, bytesSkipped, b) := BufferedReader.skipLoop access bytesToSkip b .ok 0 bytesToSkip
  (if isOutOfRange s ∧ bytesSkipped = bytesToSkip then .ok else s, b)

/-- `Seek`, to a position that is not negative. -/
def seek (b : InputBuffer) (position : ℕ) : InputBuffer :=
  let bufpos := b.filePos - b.buf.length
  if bufpos ≤ position ∧ position < b.filePos then { b with pos := position - bufpos }
  else { b with pos := 0, buf := [], filePos := position }

/-! ### The buffer and the file -/

/-- The buffer holds what stands in the file before `filePos`. -/
structure Inv (b : InputBuffer) : Prop where
  size_pos : 0 < b.size
  pos_le : b.pos ≤ b.buf.length
  buf_eq : b.buf = (b.file.drop (b.filePos - b.buf.length)).take b.buf.length
  length_le : b.buf.length ≤ b.filePos

/-- The rest of the file from the position on. -/
def remaining (b : InputBuffer) : ByteString := b.file.drop b.tell

variable {b : InputBuffer}

theorem inv_new (file : ByteString) {size : ℕ} (h : 0 < size) : Inv { file, size } :=
  ⟨h, le_rfl, by simp, Nat.zero_le _⟩

/-- What is left in the buffer comes next in the file. -/
theorem Inv.remaining_eq (h : b.Inv) : b.remaining = b.buf.drop b.pos ++ b.file.drop b.filePos := by
  have hpos := h.pos_le
  have hle := h.length_le
  have htell : b.tell = b.filePos - b.buf.length + b.pos := by
    rw [tell]
    omega
  have hfile : b.filePos = b.filePos - b.buf.length + b.buf.length := by omega
  have hbuf := h.buf_eq
  set start := b.filePos - b.buf.length
  calc b.remaining = (b.file.drop start).drop b.pos := by rw [remaining, htell, drop_drop]
    _ = ((b.file.drop start).take b.buf.length ++ (b.file.drop start).drop b.buf.length).drop
      b.pos := by
        rw [take_append_drop]
    _ = (b.buf ++ b.file.drop b.filePos).drop b.pos := by
        rw [← hbuf, drop_drop, ← hfile]
    _ = b.buf.drop b.pos ++ b.file.drop b.filePos := drop_append_of_le_length hpos

theorem Inv.seek (h : b.Inv) (position : ℕ) :
    (b.seek position).Inv ∧ (b.seek position).tell = position ∧
    (b.seek position).file = b.file := by
  have hle := h.length_le
  unfold InputBuffer.seek
  dsimp only
  split
  next hin =>
    refine ⟨⟨h.size_pos, by dsimp only; omega, h.buf_eq, hle⟩, ?_, rfl⟩
    rw [tell]
    dsimp only
    omega
  next => exact ⟨⟨h.size_pos, le_rfl, by simp, Nat.zero_le _⟩, Nat.sub_zero _, rfl⟩

/-- Reading the whole buffer leaves it at its end. -/
theorem Inv.fillBuffer (h : b.Inv) (hpos : b.pos = b.buf.length) :
    b.fillBuffer.2.Inv ∧ b.fillBuffer.2.tell = b.tell ∧ b.fillBuffer.2.file = b.file ∧
      b.fillBuffer.2.pos = 0 ∧ b.fillBuffer.2.buf = b.remaining.take b.size ∧
      (b.fillBuffer.1 = .ok ∨ isOutOfRange b.fillBuffer.1) := by
  have htell : b.tell = b.filePos := by
    rw [tell, hpos, Nat.sub_self, Nat.sub_zero]
  have hread : (readAt b.file b.filePos b.size).2 = b.remaining.take b.size := by
    rw [snd_readAt, remaining, htell]
  have hbuf : b.fillBuffer.2.buf = b.remaining.take b.size := hread
  have hfilePos : b.fillBuffer.2.filePos = b.filePos + b.fillBuffer.2.buf.length := rfl
  refine ⟨⟨h.size_pos, Nat.zero_le _, ?_, ?_⟩, ?_, rfl, rfl, hbuf, ?_⟩
  · rw [hfilePos, Nat.add_sub_cancel, hbuf, remaining, htell]
    show _ = (b.file.drop b.filePos).take _
    rw [length_take, take_eq_take_min]
  · rw [hfilePos]
    exact Nat.le_add_left _ _
  · rw [tell, hfilePos, htell]
    show b.filePos + _ - (_ - 0) = _
    rw [Nat.sub_zero, Nat.add_sub_cancel]
  · unfold InputBuffer.fillBuffer readAt
    dsimp only
    split
    · exact .inr rfl
    · exact .inl rfl

/-- Moving the position forward within the buffer. -/
theorem Inv.advance (h : b.Inv) {k : ℕ} (hk : b.pos + k ≤ b.buf.length) :
    Inv { b with pos := b.pos + k } ∧ tell { b with pos := b.pos + k } = b.tell + k := by
  have hle := h.length_le
  refine ⟨⟨h.size_pos, hk, h.buf_eq, hle⟩, ?_⟩
  rw [tell, tell]
  dsimp only
  omega

/-- The buffer reads `file` and is at a position in it. -/
structure At (file : ByteString) (position : ℕ) (b : InputBuffer) : Prop where
  inv : b.Inv
  file_eq : b.file = file
  tell_eq : b.tell = position

variable {file : ByteString} {p : ℕ}

theorem at_new (file : ByteString) {size : ℕ} (h : 0 < size) : At file 0 { file, size } :=
  ⟨inv_new file h, rfl, rfl⟩

theorem At.seek (h : At file p b) (position : ℕ) : At file position (b.seek position) :=
  have hseek := h.inv.seek position
  ⟨hseek.1, hseek.2.2.trans h.file_eq, hseek.2.1⟩

theorem At.remaining_eq (h : At file p b) : b.remaining = file.drop p := by
  rw [remaining, h.tell_eq, h.file_eq]

variable (file) in
/-- Buffers over a file are lawful readers. -/
theorem lawful_access :
    BufferedReader.Lawful access (fun b ↦ b.Inv ∧ b.file = file) remaining tell Status.ok
    (isOutOfRange · = true) where
  pos_le h := h.1.pos_le
  rest_eq h := ⟨_, h.1.remaining_eq⟩
  moveTo {b k} h hk := by
    obtain ⟨hinv, htell⟩ := h.1.advance hk
    refine ⟨⟨hinv, h.2⟩, ?_, htell⟩
    show b.file.drop _ = (b.file.drop b.tell).drop k
    rw [drop_drop, ← htell]
    rfl
  fill {b} h hpos := by
    obtain ⟨hinv, htell, hfile, hzero, hbuf, hstatus⟩ := h.1.fillBuffer hpos
    refine ⟨⟨hinv, hfile.trans h.2⟩, ?_, htell, hzero, ?_, hstatus, fun hnil ↦ ?_⟩
    · show b.fillBuffer.2.file.drop b.fillBuffer.2.tell = _
      rw [htell, hfile]
      rfl
    · show b.fillBuffer.2.buf = [] ↔ _
      rw [hbuf, take_eq_nil_iff, or_iff_right h.1.size_pos.ne']
    · -- nothing is read, which is less than the size of the buffer
      have hread : (readAt b.file b.filePos b.size).2.length < b.size := by
        have hsnd : (readAt b.file b.filePos b.size).2 = b.fillBuffer.2.buf := rfl
        rw [hsnd, hbuf, hnil, take_nil]
        exact h.1.size_pos
      rw [snd_readAt] at hread
      show isOutOfRange (readAt b.file b.filePos b.size).1 = true
      rw [readAt, if_pos hread]
      rfl

theorem readNBytesLoop_eq (rounds : ℕ) (b : InputBuffer) (status : Status) (result : ByteString)
    (n : ℕ) :
    b.readNBytesLoop rounds status result n = BufferedReader.readLoop access rounds b status
    result n := by
  induction rounds generalizing b status result with
  | zero => rfl
  | succ rounds ih =>
    rw [readNBytesLoop, BufferedReader.readLoop]
    simp only [ih]
    rfl

/-- The buffer is where the cursor is. -/
def Follows (b : InputBuffer) (c : FileCursor) : Prop := At c.file c.position b

variable {c : FileCursor}

theorem follows_new (file : ByteString) {size : ℕ} (h : 0 < size) :
    Follows { file, size } { file } :=
  at_new file h

theorem Follows.lawful (h : Follows b c) : b.Inv ∧ b.file = c.file := ⟨h.inv, h.file_eq⟩

theorem Follows.rest_eq (h : Follows b c) : b.remaining = c.rest := h.remaining_eq

/-- `ReadNBytes` reads what a cursor reads. -/
theorem Follows.readNBytes (h : Follows b c) (n : ℕ) :
    ∃ s b', b.readNBytes n = (s, (c.readNBytes n).2.1, b') ∧
    Follows b' (c.readNBytes n).2.2 ∧ s.code = (c.readNBytes n).1 := by
  obtain ⟨status, b', hloop, hinv, htell, hcode⟩ :=
    readLoop (lawful_access c.file) h.lawful h.rest_eq
    h.tell_eq n
  rw [InputBuffer.readNBytes, readNBytesLoop_eq, hloop]
  exact ⟨_, b', rfl, ⟨hinv.1, hinv.2, htell⟩, hcode⟩

end InputBuffer

/-!
## `InputBuffer` and a cursor

Every call on an `InputBuffer` does what it does on a cursor over the file, whatever the buffer
holds, but for one: `ReadLine` takes an empty result for the end of the file. A last line of `\r`s
only, without a `\n`, is passed over and reported as `OutOfRange` (`run_eq_iff`).
-/

/-- A call of the interface. -/
inductive ReadCall where
  | readLine
  | readNBytes (bytesToRead : ℤ)
  | skipNBytes (bytesToSkip : ℤ)
  | seek (position : ℤ)
  | tell
  deriving DecidableEq

namespace InputBuffer

/-- A call, with the checks for negative arguments. -/
def call (b : InputBuffer) : ReadCall → Status × ByteString × InputBuffer
  | .readLine => b.readLine
  | .readNBytes bytesToRead =>
    if bytesToRead < 0 then
      (invalidArgument [ascii "Can't read a negative number of bytes: ", decimalInt bytesToRead],
        [], b)
    else b.readNBytes bytesToRead.toNat
  | .skipNBytes bytesToSkip =>
    if bytesToSkip < 0 then
      (invalidArgument [ascii "Can only skip forward, not ", decimalInt bytesToSkip], [], b)
    else
      let (s, b) := b.skipNBytes bytesToSkip.toNat
      (s, [], b)
  | .seek position =>
    if position < 0 then
      (invalidArgument [ascii "Seeking to a negative position: ", decimalInt position], [], b)
    else (.ok, [], b.seek position.toNat)
  | .tell => (.ok, [], b)

/-- A call, and what it shows. -/
def step (b : InputBuffer) (a : ReadCall) : ReadOutcome × InputBuffer :=
  let (s, bytes, b) := b.call a
  (⟨s.code, bytes, b.tell⟩, b)

/-- What the calls of a client show. -/
def run (b : InputBuffer) (calls : List ReadCall) : List ReadOutcome :=
  CallByCall.outcomes step b calls

end InputBuffer

namespace FileCursor

/-- A call on a cursor. -/
def call (c : FileCursor) : ReadCall → Option Code × ByteString × FileCursor
  | .readLine => c.readLine
  | .readNBytes bytesToRead =>
    if bytesToRead < 0 then (some .invalidArgument, [], c) else c.readNBytes bytesToRead.toNat
  | .skipNBytes bytesToSkip =>
    if bytesToSkip < 0 then (some .invalidArgument, [], c)
    else
      let (code, c) := c.skipNBytes bytesToSkip.toNat
      (code, [], c)
  | .seek position =>
    if position < 0 then (some .invalidArgument, [], c)
    else (none, [], { c with position := position.toNat })
  | .tell => (none, [], c)

/-- A call, and what it shows. -/
def step (c : FileCursor) (a : ReadCall) : ReadOutcome × FileCursor :=
  let (code, bytes, c) := c.call a
  (⟨code, bytes, c.position⟩, c)

/-- What the calls of a client show. -/
def run (c : FileCursor) (calls : List ReadCall) : List ReadOutcome :=
  CallByCall.outcomes step c calls

/-- The call reads a line of `\r`s without end. -/
def StrandsReturns (c : FileCursor) (a : ReadCall) : Prop := a = .readLine ∧ c.OnlyReturns

instance (c : FileCursor) (a : ReadCall) : Decidable (c.StrandsReturns a) :=
  inferInstanceAs (Decidable (_ ∧ _))

end FileCursor

namespace InputBuffer

variable {b : InputBuffer} {c : FileCursor}

/-- `ReadLine` moves like a cursor, and reports what a cursor does unless there are only `\r`s
left. -/
theorem Follows.readLine (h : Follows b c) : ∃ s b', b.readLine = (s, c.readLine.2.1, b') ∧
    Follows b' c.readLine.2.2 ∧
    s.code = if c.OnlyReturns then some .outOfRange else c.readLine.1 := by
  have hlen : c.rest.length < b.file.length + 1 := by
    rw [rest, length_drop, h.file_eq]
    omega
  obtain ⟨found, b', hloop, hinv, htell, hcode⟩ :=
    lineLoop (lawful_access c.file) h.lawful h.rest_eq
    h.tell_eq hlen
  rw [InputBuffer.readLine, hloop]
  exact ⟨_, b', rfl, ⟨hinv.1, hinv.2, htell⟩, hcode⟩

theorem Follows.skipNBytes (h : Follows b c) (n : ℕ) : ∃ s b', b.skipNBytes n = (s, b') ∧
    Follows b' (c.skipNBytes n).2 ∧ s.code = (c.skipNBytes n).1 := by
  obtain ⟨status, b', hloop, hinv, -, htell, hstatus, hend⟩ := (lawful_access c.file).skipLoop
    (n := n) h.lawful (.inl rfl) le_rfl
  rw [h.rest_eq] at hloop htell hend
  rw [h.tell_eq] at htell
  rw [InputBuffer.skipNBytes, hloop]
  exact ⟨_, b', rfl, ⟨hinv.1, hinv.2, htell⟩, codeOfRead rfl hstatus hend⟩

/-- A call on a buffer shows what it shows on the cursor, unless it reads a line of `\r`s without
end. -/
theorem Follows.call (h : Follows b c) (a : ReadCall) : ∃ s b', b.call a = (s, (c.call a).2.1, b') ∧
    Follows b' (c.call a).2.2 ∧
    s.code = if c.StrandsReturns a then some .outOfRange else (c.call a).1 := by
  have hsame : ∀ a, a ≠ ReadCall.readLine → (if c.StrandsReturns a then some .outOfRange else
      (c.call a).1) = (c.call a).1 := fun a ha ↦ if_neg fun hboth ↦ ha hboth.1
  cases a with
  | readLine =>
    obtain ⟨s, b', hread, hfollows, hcode⟩ := h.readLine
    refine ⟨s, b', hread, hfollows, hcode.trans ?_⟩
    simp only [StrandsReturns, true_and]
    rfl
  | readNBytes n =>
    rw [hsame _ (by simp), InputBuffer.call, FileCursor.call]
    split
    · exact ⟨_, b, rfl, h, rfl⟩
    · exact h.readNBytes n.toNat
  | skipNBytes n =>
    rw [hsame _ (by simp), InputBuffer.call, FileCursor.call]
    split
    · exact ⟨_, b, rfl, h, rfl⟩
    · obtain ⟨s, b', hskip, hfollows, hcode⟩ := h.skipNBytes n.toNat
      rw [hskip]
      exact ⟨s, b', rfl, hfollows, hcode⟩
  | seek position =>
    rw [hsame _ (by simp), InputBuffer.call, FileCursor.call]
    split
    · exact ⟨_, b, rfl, h, rfl⟩
    · exact ⟨.ok, _, rfl, At.seek h position.toNat, rfl⟩
  | tell => exact ⟨.ok, b, rfl, h, (hsame .tell (by simp)).symm⟩

theorem Follows.step (h : Follows b c) (a : ReadCall) : Follows (b.step a).2 (c.step a).2 ∧
    ((b.step a).1 = (c.step a).1 ↔ ¬c.StrandsReturns a) := by
  obtain ⟨s, b', hcall, hfollows, hcode⟩ := h.call a
  rw [InputBuffer.step, hcall]
  refine ⟨hfollows, ?_⟩
  show (⟨s.code, _, b'.tell⟩ : ReadOutcome) =
    ⟨(c.call a).1, (c.call a).2.1, (c.call a).2.2.position⟩ ↔ _
  rw [hfollows.tell_eq, ReadOutcome.mk.injEq, hcode]
  simp only [and_true]
  split
  · rename_i hstrands
    obtain ⟨rfl, honly⟩ := hstrands
    rw [show (c.call .readLine).1 = none from honly.code]
    exact iff_of_false nofun (not_not_intro ⟨rfl, honly⟩)
  · rename_i hnot
    exact iff_of_true rfl hnot

/-- The calls on a new buffer show what they show on a cursor at the start of the file, exactly if
none of them reads a line of `\r`s without end. -/
theorem run_eq_iff (file : ByteString) {size : ℕ} (hsize : 0 < size) (calls : List ReadCall) :
    run { file, size } calls = FileCursor.run { file } calls ↔
      CallByCall.Never FileCursor.step FileCursor.StrandsReturns { file } calls :=
  CallByCall.outcomes_eq_iff (R := Follows) (fun a h ↦ h.step a) (follows_new file hsize) calls

/-- A file that is read with a buffer of two bytes: a line and the start of the next. -/
theorem run_eq_iff_twoLines :
    run { file := ascii "ab\r\nc\r", size := 2 } [.readLine, .readNBytes 1, .tell, .seek 1,
      .readLine] =
        FileCursor.run { file := ascii "ab\r\nc\r" } [.readLine, .readNBytes 1, .tell, .seek 1,
          .readLine] ↔
      CallByCall.Never FileCursor.step FileCursor.StrandsReturns { file := ascii "ab\r\nc\r" }
        [.readLine, .readNBytes 1, .tell, .seek 1, .readLine] :=
  run_eq_iff _ (by decide) _

/-- The file is one `\r`. A cursor returns an empty line and then reports the end; the buffer
reports the end at once. -/
theorem not_run_eq : ¬∀ (file : ByteString) (size : ℕ), 0 < size → ∀ calls : List ReadCall,
    run { file, size } calls = FileCursor.run { file } calls :=
  fun h ↦ absurd (h [13] 1 (by decide) [.readLine]) (by decide)

end InputBuffer

/-!
## `ReadVarint32` and the buffer

Where at least five bytes are buffered, `ReadVarint32` decodes them in place, and otherwise it reads
byte by byte. The two agree but for a varint that goes on after its fifth byte: the one reports
`OutOfRange` and stays where it is, the other reports `DataLoss` behind the fifth byte. So what
`ReadVarint32` shows at a position of a file depends on the buffer exactly at these
(`varintOutcome_eq_iff`).
-/

/-- What `ReadVarint32` shows: the code of its status, the value if it is OK, and `Tell`
afterwards. -/
structure VarintOutcome where
  code : Option Code
  value : Option UInt32
  tell : ℕ
  deriving DecidableEq

/-- A varint of at most `n` more bytes is read from those at the position `p`. -/
def decodeVarint32 : ℕ → (shift : ℕ) → BitVec 32 → ByteString → (p : ℕ) → VarintOutcome
  | 0, _, _, _, p => ⟨some .dataLoss, none, p⟩
  | _ + 1, _, _, [], p => ⟨some .outOfRange, none, p⟩
  | n + 1, shift, result, byte :: rest, p =>
    let result := result ||| ((byte &&& 127).toBitVec.setWidth 32 <<< shift)
    if byte &&& 128 = 0 then ⟨none, some ⟨result⟩, p + 1⟩
    else decodeVarint32 n (shift + 7) result rest (p + 1)

/-- A varint starts here that goes on after its fifth byte. -/
def Overlong (rest : ByteString) : Prop := 5 ≤ rest.length ∧ ∀ byte ∈ rest.take 5, byte &&& 128 ≠ 0

instance (rest : ByteString) : Decidable (Overlong rest) := inferInstanceAs (Decidable (_ ∧ _))

variable {n shift p : ℕ} {result v : BitVec 32} {x rest later : ByteString}

/-- All of its bytes continue the varint: it is too long. -/
theorem decodeVarint32_of_continued (hn : n ≤ x.length) (h : ∀ byte ∈ x.take n, byte &&& 128 ≠ 0) :
    decodeVarint32 n shift result x p = ⟨some .dataLoss, none, p + n⟩ := by
  induction n generalizing x shift result p with
  | zero => rfl
  | succ n ih =>
    cases x with
    | nil => exact absurd hn (Nat.not_succ_le_zero n)
    | cons byte x =>
      rw [take_succ_cons, forall_mem_cons] at h
      rw [decodeVarint32, if_neg h.1, ih (Nat.le_of_succ_le_succ hn) h.2, Nat.add_right_comm,
        Nat.add_assoc]

/-- The parser accepts what is read byte by byte, with the same value. The induction is on the
bytes: the shift says how many of the five are still to come. -/
theorem decodeVarint32_of_getVarintLoop (later : ByteString) (hshift : shift + 7 * n = 35)
    (h : getVarintLoop 32 28 shift result x = some (v, rest)) :
    rest.length ≤ x.length ∧
      decodeVarint32 n shift result (x ++ later) p =
        ⟨none, some ⟨v⟩, p + (x.length - rest.length)⟩ := by
  induction x generalizing n shift result p with
  | nil => cases h
  | cons byte x ih =>
    rw [getVarintLoop] at h
    split at h
    · rename_i hle
      obtain ⟨n, rfl⟩ : ∃ m, n = m + 1 := Nat.exists_eq_succ_of_ne_zero (by omega)
      rw [cons_append, decodeVarint32, length_cons]
      split at h
      · rename_i hmore
        obtain ⟨hlen, hdecode⟩ := ih (n := n) (p := p + 1) (by omega) h
        rw [if_neg hmore, hdecode]
        refine ⟨by omega, ?_⟩
        congr 1
        omega
      · rename_i hlast
        obtain ⟨hv, rfl⟩ := Prod.mk.inj (Option.some.inj h)
        have hbyte : byte &&& 127 = byte := by
          apply UInt8.toNat_inj.1
          rw [toNat_and_127, Nat.mod_eq_of_lt ((and_128_eq_zero_iff byte).1 (not_not.1 hlast))]
        rw [if_pos (not_not.1 hlast), hbyte, hv]
        refine ⟨Nat.le_succ _, ?_⟩
        congr 1
        omega
    · cases h

theorem getVarintLoop_eq_none_iff (hshift : shift + 7 * n = 35) (hn : n ≤ x.length) :
    getVarintLoop 32 28 shift result x = none ↔ ∀ byte ∈ x.take n, byte &&& 128 ≠ 0 := by
  induction x generalizing n shift result with
  | nil =>
    rw [take_nil]
    exact iff_of_true rfl (by simp)
  | cons byte x ih =>
    rw [getVarintLoop]
    split
    · rename_i hle
      obtain ⟨n, rfl⟩ : ∃ m, n = m + 1 := Nat.exists_eq_succ_of_ne_zero (by omega)
      rw [take_succ_cons, forall_mem_cons]
      split
      · rename_i hmore
        rw [ih (n := n) (by omega) (Nat.le_of_succ_le_succ hn)]
        exact (and_iff_right hmore).symm
      · rename_i hlast
        exact iff_of_false (by simp) fun hall ↦ hlast hall.1
    · obtain rfl : n = 0 := by omega
      exact iff_of_true rfl (by simp)

/-- The fast path for one byte is the first round of the loop. -/
theorem getVarint32Ptr_eq (x : ByteString) : getVarint32Ptr x = getVarint32PtrFallback x := by
  cases x with
  | nil => rfl
  | cons byte x =>
    rw [getVarint32Ptr]
    split
    · rename_i hlast
      rw [getVarint32PtrFallback, getVarintLoop, if_pos (Nat.zero_le _),
        if_neg (not_not_intro hlast), Option.map_some]
      show _ = some ((⟨0#32 ||| BitVec.setWidth 32 byte.toBitVec <<< 0⟩ : UInt32), x)
      rw [BitVec.zero_or, BitVec.shiftLeft_zero]
      rfl
    · rfl

namespace InputBuffer

def outcomeOf : Except Status UInt32 × InputBuffer → VarintOutcome
  | (.ok value, b) => ⟨none, some value, b.tell⟩
  | (.error s, b) => ⟨s.code, none, b.tell⟩

/-- `ReadVarint32`, and what it shows. -/
def varintOutcome (b : InputBuffer) : VarintOutcome := outcomeOf b.readVarint32

/-- There is enough in the buffer to decode a varint there. -/
def DecodesInPlace (b : InputBuffer) : Prop := b.pos + kMaxVarint32Bytes ≤ b.buf.length

instance (b : InputBuffer) : Decidable b.DecodesInPlace := inferInstanceAs (Decidable (_ ≤ _))

variable {file : ByteString} {b b₁ b₂ : InputBuffer}

/-- By induction on the bytes that are left: each is read on its own. -/
theorem At.readVarint32FallbackLoop (h : At file p b) (n shift : ℕ) (result : BitVec 32) :
    outcomeOf (b.readVarint32FallbackLoop n shift result) =
      decodeVarint32 n shift result (file.drop p) p := by
  induction n generalizing b p shift result with
  | zero =>
    show (⟨_, none, b.tell⟩ : VarintOutcome) = _
    rw [h.tell_eq]
    rfl
  | succ n ih =>
    -- the byte is read as by a cursor at the position
    have hfollows : Follows b ⟨file, p⟩ := h
    obtain ⟨status, b', hread, hat, hstatus⟩ := hfollows.readNBytes 1
    have hrest' : (⟨file, p⟩ : FileCursor).rest = file.drop p := rfl
    cases hrest : file.drop p with
    | nil =>
      rw [hrest] at hrest'
      rw [FileCursor.readNBytes,
        FileCursor.codeFor_of_lt (by rw [hrest']; exact Nat.one_pos)] at hstatus
      rw [InputBuffer.readVarint32FallbackLoop, hread]
      cases status with
      | ok => cases hstatus
      | error code msg =>
        obtain rfl : code = .outOfRange := Option.some.inj hstatus
        show (⟨_, none, b'.tell⟩ : VarintOutcome) = _
        rw [hat.tell_eq, FileCursor.readNBytes, FileCursor.advance, hrest']
        rfl
    | cons byte rest =>
      rw [hrest] at hrest'
      have hnext : file.drop (p + 1) = rest := by
        rw [← drop_drop, hrest]
        rfl
      have hlen : 1 ≤ (⟨file, p⟩ : FileCursor).rest.length := by
        rw [hrest', length_cons]
        omega
      have hat' : At file (p + 1) b' := by
        rw [FileCursor.readNBytes, FileCursor.advance, Nat.min_eq_left hlen] at hat
        exact hat
      rw [FileCursor.readNBytes, FileCursor.codeFor_of_le hlen] at hstatus
      have hok : status = .ok := by
        cases status with
        | ok => rfl
        | error => cases hstatus
      rw [InputBuffer.readVarint32FallbackLoop, hread, hok, decodeVarint32, FileCursor.readNBytes,
        hrest']
      show outcomeOf (if byte &&& 128 = 0 then (.ok ⟨_⟩, b') else b'.readVarint32FallbackLoop n
        (shift + 7)
        (result ||| ((byte &&& 127).toBitVec.setWidth 32 <<< shift))) = _
      by_cases hlast : byte &&& 128 = 0
      · rw [if_pos hlast, if_pos hlast]
        show (⟨none, _, b'.tell⟩ : VarintOutcome) = _
        rw [hat'.tell_eq]
        rfl
      · rw [if_neg hlast, if_neg hlast, ih hat', hnext]

/-- Decoding in place gives what reading byte by byte gives, or fails before it has read
anything. -/
theorem At.varintOutcome (h : At file p b) : b.varintOutcome =
    if Overlong (file.drop p) ∧ b.DecodesInPlace then ⟨some .outOfRange, none, p⟩
    else decodeVarint32 5 0 0 (file.drop p) p := by
  rw [InputBuffer.varintOutcome, readVarint32]
  split
  · rename_i hfast
    have hfast' : b.pos + 5 ≤ b.buf.length := hfast
    have hlen : 5 ≤ (b.buf.drop b.pos).length := by
      rw [length_drop]
      omega
    have hsplit : file.drop p = b.buf.drop b.pos ++ file.drop b.filePos := by
      rw [← h.remaining_eq, h.inv.remaining_eq, h.file_eq]
    have hoverlong : Overlong (file.drop p) ↔ getVarintLoop 32 28 0 0 (b.buf.drop b.pos) =
        none := by
      rw [getVarintLoop_eq_none_iff rfl hlen, Overlong, hsplit, length_append,
        take_append_of_le_length hlen]
      exact and_iff_right (by omega)
    rw [getVarint32Ptr_eq, getVarint32PtrFallback]
    cases hparse : getVarintLoop 32 28 0 0 (b.buf.drop b.pos) with
    | none =>
      rw [if_pos ⟨hoverlong.2 hparse, hfast⟩]
      show (⟨_, none, b.tell⟩ : VarintOutcome) = _
      rw [h.tell_eq]
      rfl
    | some parsed =>
      obtain ⟨v, rest⟩ := parsed
      obtain ⟨hle, hdecode⟩ :=
        decodeVarint32_of_getVarintLoop (n := 5) (p := p) (file.drop b.filePos)
        rfl hparse
      rw [length_drop] at hle hdecode
      have hpos : b.buf.length - rest.length = b.pos + (b.buf.length - b.pos - rest.length) := by
        omega
      have htell := (h.inv.advance (k := b.buf.length - b.pos - rest.length) (by omega)).2
      rw [if_neg fun hboth ↦ by
        rw [hoverlong.1 hboth.1] at hparse
        cases hparse]
      rw [hsplit, hdecode]
      show (⟨none, some ⟨v⟩, tell { b with pos := b.buf.length - rest.length }⟩ : VarintOutcome) = _
      rw [hpos, htell, h.tell_eq]
  · rename_i hslow
    rw [if_neg fun hboth ↦ hslow hboth.2]
    exact h.readVarint32FallbackLoop 5 0 0

theorem at_afterRead {size : ℕ} (h : 0 < size) (n : ℕ) :
    At file (min n file.length) (({ file, size } : InputBuffer).readNBytes n).2.2 := by
  obtain ⟨status, b', hread, hat, -⟩ := (follows_new file h).readNBytes n
  rw [hread]
  have hposition : (FileCursor.readNBytes { file } n).2.2.position = min n file.length :=
    Nat.zero_add _
  rw [← hposition]
  exact hat

/-- At a position of a file, what `ReadVarint32` shows depends on the buffer exactly if the varint
there is too long and one of the buffers has enough of it, and the other has not. -/
theorem varintOutcome_eq_iff (h₁ : At file p b₁) (h₂ : At file p b₂) :
    b₁.varintOutcome = b₂.varintOutcome ↔
      (Overlong (file.drop p) → (b₁.DecodesInPlace ↔ b₂.DecodesInPlace)) := by
  rw [h₁.varintOutcome, h₂.varintOutcome]
  by_cases hlong : Overlong (file.drop p)
  · have hslow : decodeVarint32 5 0 0 (file.drop p) p = ⟨some .dataLoss, none, p + 5⟩ :=
      decodeVarint32_of_continued hlong.1 hlong.2
    have hne : (⟨some .outOfRange, none, p⟩ : VarintOutcome) ≠ ⟨some .dataLoss, none, p + 5⟩ := by
      simp
    rw [hslow]
    by_cases hfast₁ : b₁.DecodesInPlace <;> by_cases hfast₂ : b₂.DecodesInPlace <;>
      simp [hlong, hfast₁, hfast₂, hne, hne.symm]
  · simp only [hlong, false_and, if_false, false_imp_iff]

/-- Six bytes that continue a varint, of which one buffer holds all but the first and the other one
byte. -/
theorem varintOutcome_eq_iff_overlong :
    (({ file := List.replicate 6 255, size := 8 } : InputBuffer).readNBytes 1).2.2.varintOutcome =
        (({ file := List.replicate 6 255, size := 1 } : InputBuffer).readNBytes
          1).2.2.varintOutcome ↔
      (Overlong ((List.replicate 6 255).drop 1) →
        ((({ file := List.replicate 6 255, size := 8 } : InputBuffer).readNBytes
          1).2.2.DecodesInPlace ↔
          (({ file := List.replicate 6 255, size := 1 } : InputBuffer).readNBytes
            1).2.2.DecodesInPlace)) :=
  varintOutcome_eq_iff (at_afterRead (by decide) 1) (at_afterRead (by decide) 1)

/-- The same buffers show different things, at the same position of the same file. -/
theorem not_varintOutcome_eq : ¬∀ (file : ByteString) (size₁ size₂ n : ℕ), 0 < size₁ → 0 < size₂ →
    (({ file, size := size₁ } : InputBuffer).readNBytes n).2.2.varintOutcome =
      (({ file, size := size₂ } : InputBuffer).readNBytes n).2.2.varintOutcome :=
  fun h ↦ absurd (h (replicate 6 255) 8 1 1 (by decide) (by decide)) (by decide)

end InputBuffer

end TensorFlowCore
