import TensorFlowCore.Lib.Io.InputBuffer

/-!
# `BufferedInputStream`

`tensorflow/core/lib/io/buffered_inputstream.cc` and `buffered_inputstream.h`, over a
`RandomAccessInputStream`. What it holds is what an `InputBuffer` over the file would hold (`view`).
The calls do what they do on a cursor but for `ReadLine`, which takes an empty result for the end of
the file (`stream_run_eq_iff`).
-/

namespace TensorFlowCore

open FileCursor

/-- `io::BufferedInputStream`. The bytes of `buf` end at `limit_`. -/
structure BufferedInputStream where
  inputStream : RandomAccessInputStream
  size : ℕ
  buf : ByteString := []
  pos : ℕ := 0

/-- A call of the interface. -/
inductive StreamCall where
  | readLine
  | readNBytes (bytesToRead : ℤ)
  | skipNBytes (bytesToSkip : ℤ)
  | seek (position : ℤ)
  | tell
  | reset
  deriving DecidableEq

namespace BufferedInputStream

/-- `Tell`. -/
def tell (b : BufferedInputStream) : ℕ := b.inputStream.pos - (b.buf.length - b.pos)

def fillBuffer (b : BufferedInputStream) : Status × BufferedInputStream :=
  let (s, buf, inputStream) := b.inputStream.readNBytes b.size
  (s, { b with inputStream, buf, pos := 0 })

/-- What the loops over the buffer use of it. -/
def access : BufferedReader.Access BufferedInputStream Status UInt8 where
  buf := buf
  pos := pos
  moveTo b k := { b with pos := k }
  fill := fillBuffer

/-- `ReadLineHelper`. No line has more bytes than the file. -/
def readLineHelper (b : BufferedInputStream) (includeEol : Bool) :
    Status × ByteString × BufferedInputStream :=
  let (found, result, b) :=
    BufferedReader.lineLoop access (· == 10) (· != 13) (b.inputStream.file.length + 1) b .ok []
  let result := if includeEol && found.isNone then result ++ [10] else result
  (FileCursor.lineStatus found result, result, b)

/-- `ReadLine`. -/
def readLine (b : BufferedInputStream) : Status × ByteString × BufferedInputStream :=
  b.readLineHelper false

/-- `ReadNBytes`, for a number that is not negative. -/
def readNBytes (b : BufferedInputStream) (bytesToRead : ℕ) :
    Status × ByteString × BufferedInputStream :=
  let (s, result, b) := BufferedReader.readLoop access bytesToRead b .ok [] bytesToRead
  (if isOutOfRange s ∧ result.length = bytesToRead then .ok else s, result, b)

/-- `SkipNBytes`, for a number that is not negative. -/
def skipNBytes (b : BufferedInputStream) (bytesToSkip : ℕ) : Status × BufferedInputStream :=
  if b.pos + bytesToSkip < b.buf.length then (.ok, { b with pos := b.pos + bytesToSkip })
  else
    let (s, inputStream) := b.inputStream.skipNBytes (bytesToSkip - (b.buf.length - b.pos))
    (s, { b with inputStream, buf := [], pos := 0 })

/-- `Reset`. -/
def reset (b : BufferedInputStream) : Status × BufferedInputStream :=
  match b.inputStream.reset with
  | (.ok, inputStream) => (.ok, { b with inputStream, buf := [], pos := 0 })
  | (.error code msg, inputStream) => (.error code msg, { b with inputStream })

/-- `Seek`, to a position that is not negative. -/
def seek (b : BufferedInputStream) (position : ℕ) : Status × BufferedInputStream :=
  let bufpos := b.tell
  if position < bufpos then
    match b.reset with
    | (.ok, b) => b.skipNBytes position
    | (.error code msg, b) => (.error code msg, b)
  else b.skipNBytes (position - bufpos)

/-- A call, with the checks for negative arguments. -/
def call (b : BufferedInputStream) : StreamCall → Status × ByteString × BufferedInputStream
  | .readLine => b.readLine
  | .readNBytes bytesToRead =>
    if bytesToRead < 0 then
      (invalidArgument [ascii "Can't read a negative number of bytes: ", decimalInt bytesToRead],
        [], b)
    else b.readNBytes bytesToRead.toNat
  | .skipNBytes bytesToSkip =>
    if bytesToSkip < 0 then
      (invalidArgument [ascii "Can only skip forward, not ", decimalInt bytesToSkip], [], b)
    else
      let (s, b) := b.skipNBytes bytesToSkip.toNat
      (s, [], b)
  | .seek position =>
    if position < 0 then
      (invalidArgument [ascii "Seeking to a negative position: ", decimalInt position], [], b)
    else
      let (s, b) := b.seek position.toNat
      (s, [], b)
  | .tell => (.ok, [], b)
  | .reset =>
    let (s, b) := b.reset
    (s, [], b)

/-- A call, and what it shows. -/
def step (b : BufferedInputStream) (a : StreamCall) : ReadOutcome × BufferedInputStream :=
  let (s, bytes, b) := b.call a
  (⟨s.code, bytes, b.tell⟩, b)

/-- What the calls of a client show. -/
def run (b : BufferedInputStream) (calls : List StreamCall) : List ReadOutcome :=
  CallByCall.outcomes step b calls

end BufferedInputStream

namespace FileCursor

def reset (c : FileCursor) : FileCursor := { c with position := 0 }

/-- A call on the cursor of a stream. `Seek` is `Reset` and `SkipNBytes`: it does not go past the
end. -/
def streamCall (c : FileCursor) : StreamCall → Option Code × ByteString × FileCursor
  | .readLine => c.readLine
  | .readNBytes bytesToRead =>
    if bytesToRead < 0 then (some .invalidArgument, [], c) else c.readNBytes bytesToRead.toNat
  | .skipNBytes bytesToSkip =>
    if bytesToSkip < 0 then (some .invalidArgument, [], c)
    else
      let (code, c) := c.skipNBytes bytesToSkip.toNat
      (code, [], c)
  | .seek position =>
    if position < 0 then (some .invalidArgument, [], c)
    else
      let (code, c) := c.reset.skipNBytes position.toNat
      (code, [], c)
  | .tell => (none, [], c)
  | .reset => (none, [], c.reset)

/-- A call, and what it shows. -/
def streamStep (c : FileCursor) (a : StreamCall) : ReadOutcome × FileCursor :=
  let (code, bytes, c) := c.streamCall a
  (⟨code, bytes, c.position⟩, c)

/-- What the calls of a client show. -/
def streamRun (c : FileCursor) (calls : List StreamCall) : List ReadOutcome :=
  CallByCall.outcomes streamStep c calls

/-- The call reads a line of `\r`s without end. -/
def StreamStrandsReturns (c : FileCursor) (a : StreamCall) : Prop := a = .readLine ∧ c.OnlyReturns

instance (c : FileCursor) (a : StreamCall) : Decidable (c.StreamStrandsReturns a) :=
  inferInstanceAs (Decidable (_ ∧ _))

end FileCursor

namespace BufferedInputStream

/-- The `InputBuffer` over the file that holds the same. -/
def view (b : BufferedInputStream) : InputBuffer :=
  { file := b.inputStream.file, filePos := b.inputStream.pos, size := b.size, buf := b.buf,
    pos := b.pos }

/-- The buffer holds what the stream has read last, and the stream has not gone past the end of the
file. -/
structure Inv (file : ByteString) (b : BufferedInputStream) : Prop where
  view : b.view.Inv
  file_eq : b.view.file = file
  pos_le : b.inputStream.pos ≤ file.length

variable {b : BufferedInputStream} {c : FileCursor}

theorem view_fillBuffer (b : BufferedInputStream) : b.fillBuffer.2.view = b.view.fillBuffer.2 := by
  have hread : (readAt b.inputStream.file b.inputStream.pos b.size).2 =
      (b.inputStream.cursor.readNBytes b.size).2.1 := snd_readAt _ _ _
  rw [fillBuffer, RandomAccessInputStream.readNBytes_eq, InputBuffer.fillBuffer]
  show (⟨_, _, _, _, _⟩ : InputBuffer) =
    ⟨_, b.inputStream.pos + (readAt b.inputStream.file b.inputStream.pos b.size).2.length, _,
      (readAt b.inputStream.file b.inputStream.pos b.size).2, 0⟩
  rw [hread]
  show _ = (⟨_, b.inputStream.pos + (b.inputStream.cursor.rest.take b.size).length, _, _,
    _⟩ : InputBuffer)
  rw [List.length_take]
  rfl

/-- Filling the buffer, which takes the stream no further than to the end of the file. -/
theorem Inv.fillBuffer {file : ByteString} (h : Inv file b) (hpos : b.pos = b.buf.length) :
    Inv file b.fillBuffer.2 := by
  obtain ⟨hinv, -, hfile, -⟩ := h.view.fillBuffer hpos
  refine ⟨view_fillBuffer b ▸ hinv, (congrArg InputBuffer.file (view_fillBuffer b)).trans
    (hfile.trans h.file_eq), ?_⟩
  have hle := h.pos_le
  have hlen : b.inputStream.cursor.rest.length = file.length - b.inputStream.pos := by
    rw [length_rest, ← h.file_eq]
    rfl
  rw [BufferedInputStream.fillBuffer, RandomAccessInputStream.readNBytes_eq]
  show b.inputStream.pos + min b.size b.inputStream.cursor.rest.length ≤ _
  rw [hlen]
  omega

variable (file : ByteString) in
/-- Streams over a file are lawful readers, as the buffers are that hold the same. -/
theorem lawful_access : BufferedReader.Lawful access (Inv file) (·.view.remaining) tell Status.ok
    (isOutOfRange · = true) where
  pos_le h := h.view.pos_le
  rest_eq h := ⟨_, h.view.remaining_eq⟩
  moveTo h hk := by
    obtain ⟨hinv, hrest, htell⟩ := (InputBuffer.lawful_access file).moveTo ⟨h.view, h.file_eq⟩ hk
    exact ⟨⟨hinv.1, h.file_eq, h.pos_le⟩, hrest, htell⟩
  fill {b} h hpos := by
    obtain ⟨-, hrest, htell, hzero, hempty, -⟩ :=
      (InputBuffer.lawful_access file).fill ⟨h.view, h.file_eq⟩ hpos
    have hview := view_fillBuffer b
    have hpos' : b.pos = b.buf.length := hpos
    have hstatus : b.fillBuffer.1 = if b.inputStream.cursor.rest.length < b.size then
        .error .outOfRange (ascii "reached end of file") else .ok := by
      rw [BufferedInputStream.fillBuffer, RandomAccessInputStream.readNBytes_eq]
    refine ⟨h.fillBuffer hpos, ?_, ?_, ?_, ?_, ?_, fun hnil ↦ ?_⟩
    · show b.fillBuffer.2.view.remaining = _
      rw [hview]
      exact hrest
    · show b.fillBuffer.2.view.tell = b.view.tell
      rw [hview]
      exact htell
    · show b.fillBuffer.2.view.pos = 0
      rw [hview]
      exact hzero
    · show b.fillBuffer.2.view.buf = [] ↔ _
      rw [hview]
      exact hempty
    · show b.fillBuffer.1 = .ok ∨ isOutOfRange b.fillBuffer.1 = true
      rw [hstatus]
      split
      · exact .inr rfl
      · exact .inl rfl
    · -- nothing is read, which is less than the size of the buffer
      have hrest' : b.inputStream.cursor.rest = b.view.remaining := by
        show b.inputStream.file.drop b.inputStream.pos =
          b.inputStream.file.drop (b.inputStream.pos - (b.buf.length - b.pos))
        rw [hpos', Nat.sub_self, Nat.sub_zero]
      show isOutOfRange b.fillBuffer.1 = true
      have hsize : (0 : ℕ) < b.size := h.view.size_pos
      rw [hstatus, hrest', hnil, List.length_nil, if_pos hsize]
      rfl

/-- The stream is where the cursor is. -/
structure Follows (b : BufferedInputStream) (c : FileCursor) : Prop where
  inv : Inv c.file b
  tell_eq : b.tell = c.position

theorem follows_new (file : ByteString) {size : ℕ} (h : 0 < size) :
    Follows { inputStream := { file }, size } { file } :=
  ⟨⟨InputBuffer.inv_new file h, rfl, Nat.zero_le _⟩, rfl⟩

section

variable (h : Follows b c)
include h

theorem Follows.rest_eq : b.view.remaining = c.rest := by
  show b.view.file.drop b.tell = c.file.drop c.position
  rw [h.inv.file_eq, h.tell_eq]

theorem Follows.position_le : c.position ≤ c.file.length := by
  rw [← h.tell_eq]
  exact (Nat.sub_le _ _).trans h.inv.pos_le

/-- `ReadLine` moves like a cursor, and reports what a cursor does unless there are only `\r`s
left. -/
theorem Follows.readLine : ∃ s b', b.readLine = (s, c.readLine.2.1, b') ∧
    Follows b' c.readLine.2.2 ∧
    s.code = if c.OnlyReturns then some .outOfRange else c.readLine.1 := by
  have hlen : c.rest.length < b.inputStream.file.length + 1 := by
    have hfile : b.inputStream.file = c.file := h.inv.file_eq
    rw [length_rest, hfile]
    omega
  obtain ⟨found, b', hloop, hinv, htell, hcode⟩ := lineLoop (lawful_access c.file) h.inv h.rest_eq
    h.tell_eq hlen
  rw [BufferedInputStream.readLine, readLineHelper, hloop]
  exact ⟨_, b', rfl, ⟨hinv, htell⟩, hcode⟩

theorem Follows.readNBytes (n : ℕ) : ∃ s b', b.readNBytes n = (s, (c.readNBytes n).2.1, b') ∧
    Follows b' (c.readNBytes n).2.2 ∧ s.code = (c.readNBytes n).1 := by
  obtain ⟨status, b', hloop, hinv, htell, hcode⟩ := readLoop (lawful_access c.file) h.inv h.rest_eq
    h.tell_eq n
  rw [BufferedInputStream.readNBytes, hloop]
  exact ⟨_, b', rfl, ⟨hinv, htell⟩, hcode⟩

/-- What is skipped is in the buffer, or it is what is left there and a part of what the stream has
not read. -/
theorem Follows.skipNBytes (n : ℕ) : ∃ s b', b.skipNBytes n = (s, b') ∧
    Follows b' (c.skipNBytes n).2 ∧ s.code = (c.skipNBytes n).1 := by
  have hpos : b.pos ≤ b.buf.length := h.inv.view.pos_le
  have hlength : b.buf.length ≤ b.inputStream.pos := h.inv.view.length_le
  have htell : b.inputStream.pos - (b.buf.length - b.pos) = c.position := h.tell_eq
  have hfile : b.inputStream.file = c.file := h.inv.file_eq
  have hle := h.inv.pos_le
  have hbuffered : b.buf.length - b.pos ≤ c.rest.length := by
    rw [length_rest]
    omega
  rw [BufferedInputStream.skipNBytes]
  split
  · rename_i hlt
    obtain ⟨hinv, htell'⟩ := h.inv.view.advance (k := n) hlt.le
    have hn : n ≤ c.rest.length := by omega
    refine ⟨.ok, _, rfl, ⟨⟨hinv, h.inv.file_eq, hle⟩, ?_⟩, (codeFor_of_le hn).symm⟩
    show _ = c.position + min n c.rest.length
    rw [Nat.min_eq_left hn, ← h.tell_eq]
    exact htell'
  · rename_i hge
    obtain ⟨m, hm⟩ : ∃ m, m = b.buf.length - b.pos := ⟨_, rfl⟩
    have hmn : m ≤ n := by omega
    obtain ⟨hcode, hcursor⟩ := b.inputStream.skipNBytes_spec (n - m)
    have hstart : b.inputStream.cursor = c.advance m := by
      show (⟨b.inputStream.file, b.inputStream.pos⟩ : FileCursor) =
        ⟨c.file, c.position + min m c.rest.length⟩
      rw [hfile, Nat.min_eq_left (hm ▸ hbuffered)]
      congr 1
      omega
    rw [hstart, advance_advance, Nat.add_sub_cancel' hmn] at hcursor
    rw [hstart, codeFor_advance hmn (hm ▸ hbuffered)] at hcode
    rw [← hm]
    have hfile' : (b.inputStream.skipNBytes (n - m)).2.file = c.file := congrArg file hcursor
    have hposition : (b.inputStream.skipNBytes (n - m)).2.pos = c.position + min n c.rest.length :=
      congrArg position hcursor
    refine ⟨_, _, rfl, ⟨⟨⟨h.inv.view.size_pos, le_rfl, by simp [view], Nat.zero_le _⟩, hfile', ?_⟩,
      ?_⟩, hcode⟩
    · have hposition_le := h.position_le
      show (b.inputStream.skipNBytes (n - m)).2.pos ≤ c.file.length
      rw [hposition, length_rest]
      omega
    · exact (Nat.sub_zero _).trans hposition

theorem Follows.reset : ∃ b', b.reset = (.ok, b') ∧ Follows b' c.reset :=
  ⟨_, rfl, ⟨⟨h.inv.view.size_pos, le_rfl, by simp [view], Nat.zero_le _⟩, h.inv.file_eq,
    Nat.zero_le _⟩, rfl⟩

end

/-- Skipping forward to a position is skipping to it from the start. -/
theorem skipNBytes_reset {position : ℕ} (hle : c.position ≤ position)
    (hlen : c.position ≤ c.file.length) :
    c.reset.skipNBytes position = c.skipNBytes (position - c.position) := by
  rw [FileCursor.skipNBytes, FileCursor.skipNBytes, Prod.mk.injEq, FileCursor.codeFor,
    FileCursor.codeFor, FileCursor.advance, FileCursor.advance, FileCursor.mk.injEq]
  simp only [FileCursor.length_rest, FileCursor.reset]
  refine ⟨?_, trivial, by omega⟩
  congr 1
  apply propext
  omega

theorem Follows.seek (h : Follows b c) (position : ℕ) : ∃ s b', b.seek position = (s, b') ∧
    Follows b' (c.reset.skipNBytes position).2 ∧ s.code = (c.reset.skipNBytes position).1 := by
  rw [BufferedInputStream.seek, h.tell_eq]
  split
  · obtain ⟨b₀, hreset, hfollows⟩ := h.reset
    rw [hreset]
    exact hfollows.skipNBytes position
  · rename_i hge
    rw [skipNBytes_reset (Nat.not_lt.1 hge) h.position_le]
    exact h.skipNBytes (position - c.position)

/-- A call on a stream shows what it shows on the cursor, unless it reads a line of `\r`s without
end. -/
theorem Follows.call (h : Follows b c) (a : StreamCall) :
    ∃ s b', b.call a = (s, (c.streamCall a).2.1, b') ∧
    Follows b' (c.streamCall a).2.2 ∧
      s.code = if c.StreamStrandsReturns a then some .outOfRange else (c.streamCall a).1 := by
  have hsame : ∀ a, a ≠ StreamCall.readLine →
    (if c.StreamStrandsReturns a then some .outOfRange else
      (c.streamCall a).1) = (c.streamCall a).1 := fun a ha ↦ if_neg fun hboth ↦ ha hboth.1
  cases a with
  | readLine =>
    obtain ⟨s, b', hread, hfollows, hcode⟩ := h.readLine
    refine ⟨s, b', hread, hfollows, hcode.trans ?_⟩
    simp only [StreamStrandsReturns, true_and]
    rfl
  | readNBytes n =>
    rw [hsame _ (by simp), BufferedInputStream.call, streamCall]
    split
    · exact ⟨_, b, rfl, h, rfl⟩
    · exact h.readNBytes n.toNat
  | skipNBytes n =>
    rw [hsame _ (by simp), BufferedInputStream.call, streamCall]
    split
    · exact ⟨_, b, rfl, h, rfl⟩
    · obtain ⟨s, b', hskip, hfollows, hcode⟩ := h.skipNBytes n.toNat
      rw [hskip]
      exact ⟨s, b', rfl, hfollows, hcode⟩
  | seek position =>
    rw [hsame _ (by simp), BufferedInputStream.call, streamCall]
    split
    · exact ⟨_, b, rfl, h, rfl⟩
    · obtain ⟨s, b', hseek, hfollows, hcode⟩ := h.seek position.toNat
      rw [hseek]
      exact ⟨s, b', rfl, hfollows, hcode⟩
  | tell => exact ⟨.ok, b, rfl, h, (hsame .tell (by simp)).symm⟩
  | reset =>
    obtain ⟨b', hreset, hfollows⟩ := h.reset
    rw [hsame _ (by simp), BufferedInputStream.call, hreset]
    exact ⟨.ok, b', rfl, hfollows, rfl⟩

theorem Follows.step (h : Follows b c) (a : StreamCall) : Follows (b.step a).2 (c.streamStep a).2 ∧
    ((b.step a).1 = (c.streamStep a).1 ↔ ¬c.StreamStrandsReturns a) := by
  obtain ⟨s, b', hcall, hfollows, hcode⟩ := h.call a
  rw [BufferedInputStream.step, hcall]
  refine ⟨hfollows, ?_⟩
  show (⟨s.code, _, b'.tell⟩ : ReadOutcome) =
    ⟨(c.streamCall a).1, (c.streamCall a).2.1, (c.streamCall a).2.2.position⟩ ↔ _
  rw [hfollows.tell_eq, ReadOutcome.mk.injEq, hcode]
  simp only [and_true]
  split
  · rename_i hstrands
    obtain ⟨rfl, honly⟩ := hstrands
    rw [show (c.streamCall .readLine).1 = none from honly.code]
    exact iff_of_false nofun (not_not_intro ⟨rfl, honly⟩)
  · rename_i hnot
    exact iff_of_true rfl hnot

/-- The calls on a new stream show what they show on a cursor at the start of the file, exactly if
none of them reads a line of `\r`s without end. -/
theorem stream_run_eq_iff (file : ByteString) {size : ℕ} (hsize : 0 < size)
    (calls : List StreamCall) :
    run { inputStream := { file }, size } calls = FileCursor.streamRun { file } calls ↔
      CallByCall.Never FileCursor.streamStep FileCursor.StreamStrandsReturns { file } calls :=
  CallByCall.outcomes_eq_iff (R := Follows) (fun a h ↦ h.step a) (follows_new file hsize) calls

/-- A stream with a buffer of two bytes, that is moved backward and past its end. -/
theorem stream_run_eq_iff_twoLines :
    run { inputStream := { file := ascii "ab\r\nc" }, size := 2 } [.readLine, .seek 1,
      .readNBytes 2, .seek 9] =
        FileCursor.streamRun { file := ascii "ab\r\nc" } [.readLine, .seek 1, .readNBytes 2,
          .seek 9] ↔
      CallByCall.Never FileCursor.streamStep FileCursor.StreamStrandsReturns
      { file := ascii "ab\r\nc" }
        [.readLine, .seek 1, .readNBytes 2, .seek 9] :=
  stream_run_eq_iff _ (by decide) _

/-- The file is one `\r`. A cursor returns an empty line and then reports the end; the stream
reports the end at once. -/
theorem not_stream_run_eq : ¬∀ (file : ByteString) (size : ℕ), 0 < size → ∀ calls : List StreamCall,
    run { inputStream := { file }, size } calls = FileCursor.streamRun { file } calls :=
  fun h ↦ absurd (h [13] 1 (by decide) [.readLine]) (by decide)

end BufferedInputStream

end TensorFlowCore
