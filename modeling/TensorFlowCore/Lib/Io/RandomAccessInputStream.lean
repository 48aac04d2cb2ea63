import Mathlib.Data.List.TakeWhile
import TensorFlowCore.Core.Status
import TensorFlowCore.Support.BufferedReader

/-!
# A cursor over a file

What reading a file means, without a buffer: a position in the contents. A line ends at a `\n`, and
its `\r`s are left out; the last one may do without the `\n`. A position behind the end is one where
nothing can be read. What a lawful reader of a buffer reads is compared with it, for the statuses
that the source makes of those of the fills (`codeOfLine`, `codeOfRead`).
-/

namespace TensorFlowCore

open List

/-- A position in a file. -/
structure FileCursor where
  file : ByteString
  position : ℕ := 0

/-- What a call shows: the code of its status, the bytes it returns, and `Tell` afterwards. -/
structure ReadOutcome where
  code : Option Code
  bytes : ByteString
  tell : ℕ
  deriving DecidableEq

namespace FileCursor

variable (c : FileCursor)

/-- What can be read from the position on. -/
def rest : ByteString := c.file.drop c.position

/-- Move forward, but not past the end of the file. -/
def advance (n : ℕ) : FileCursor := { c with position := c.position + min n c.rest.length }

/-- `OutOfRange` where there is less than asked for. -/
def codeFor (n : ℕ) : Option Code := if c.rest.length < n then some .outOfRange else none

/-- The bytes of the line at the position. -/
def line : ByteString := c.rest.takeWhile (· != 10)

/-- Read a line. -/
def readLine : Option Code × ByteString × FileCursor :=
  (c.codeFor 1, c.line.filter (· != 13), c.advance (c.line.length + 1))

/-- Read so many bytes. -/
def readNBytes (n : ℕ) : Option Code × ByteString × FileCursor :=
  (c.codeFor n, c.rest.take n, c.advance n)

/-- Skip so many bytes. -/
def skipNBytes (n : ℕ) : Option Code × FileCursor := (c.codeFor n, c.advance n)

/-- There is only a line left that consists of `\r`s and has no `\n`. -/
def OnlyReturns : Prop := c.rest ≠ [] ∧ ∀ b ∈ c.rest, b = 13

instance : Decidable c.OnlyReturns := inferInstanceAs (Decidable (_ ∧ _))

/-- There is a line to be read that consists of `\r`s only. -/
theorem OnlyReturns.code {c : FileCursor} (h : c.OnlyReturns) : c.readLine.1 = none :=
  if_neg (Nat.not_lt.2 (length_pos_of_ne_nil h.1))

@[simp] theorem length_rest : c.rest.length = c.file.length - c.position := length_drop

variable {c}

theorem codeFor_of_lt {n : ℕ} (h : c.rest.length < n) : c.codeFor n = some .outOfRange := if_pos h

theorem codeFor_of_le {n : ℕ} (h : n ≤ c.rest.length) :
    c.codeFor n = none := if_neg (Nat.not_lt.2 h)

/-- Moving forward in two steps. -/
theorem advance_advance (m n : ℕ) : (c.advance m).advance n = c.advance (m + n) := by
  rw [advance, advance, advance, length_rest, length_rest, mk.injEq]
  refine ⟨rfl, ?_⟩
  dsimp only
  omega

theorem codeFor_advance {m n : ℕ} (h : m ≤ n) (hm : m ≤ c.rest.length) :
    (c.advance m).codeFor (n - m) = c.codeFor n := by
  rw [length_rest] at hm
  rw [codeFor, codeFor, length_rest, length_rest, advance, length_rest]
  dsimp only
  congr 1
  apply propext
  omega

/-! ### Reading through a buffer -/

/-- The status made of the last fill, which may have met the end of the file when enough had been
read. -/
theorem codeOfRead {status : Status} {n k : ℕ} (hk : k = min n c.rest.length)
    (hstatus : status = .ok ∨ isOutOfRange status = true)
    (hend : c.rest.length < n → isOutOfRange status = true) :
    Status.code (if isOutOfRange status ∧ k = n then .ok else status) = c.codeFor n := by
  subst hk
  rcases Nat.lt_or_ge c.rest.length n with hlt | hle
  · rw [if_neg (by omega), codeFor_of_lt hlt, code_of_isOutOfRange (hend hlt)]
  · rw [codeFor_of_le hle]
    split
    · rfl
    · rename_i hnot
      rw [hstatus.resolve_right fun hrange ↦ hnot ⟨hrange, Nat.min_eq_left hle⟩]
      rfl

/-- The status that the source makes of a line, and of the last fill if the line has not been ended:
to have read nothing is taken for the end of the file. -/
def lineStatus : Option Status → ByteString → Status
  | none, _ => .ok
  | some s, line => if isOutOfRange s ∧ line ≠ [] then .ok else s

/-- It is that of a cursor, unless there are only `\r`s left. -/
theorem codeOfLine {found : Option Status}
    (hfound : if c.rest.any (· == 10) then found = none else ∃ e, found = some e ∧
      isOutOfRange e = true) :
    (lineStatus found c.readLine.2.1).code =
      if c.OnlyReturns then some .outOfRange else c.readLine.1 := by
  split at hfound
  · rename_i hany
    obtain ⟨x, hx, hx10⟩ := any_eq_true.1 hany
    have hnot : ¬c.OnlyReturns := fun honly ↦ by
      rw [honly.2 x hx] at hx10
      exact absurd hx10 (by decide)
    rw [hfound, if_neg hnot]
    exact (codeFor_of_le (length_pos_of_mem hx)).symm
  · rename_i hany
    obtain ⟨e, rfl, hend⟩ := hfound
    have hresult : c.readLine.2.1 = c.rest.filter (· != 13) := by
      show (c.rest.takeWhile (fun x ↦ !(x == 10))).filter _ = _
      rw [takeWhile_eq_self_iff.2 fun x hx ↦ ?_]
      rw [Bool.not_eq_true']
      exact Bool.eq_false_iff.2 fun hx10 ↦ hany (any_eq_true.2 ⟨x, hx, hx10⟩)
    show Status.code (if _ then Status.ok else e) = _
    rw [hresult]
    by_cases hkept : c.rest.filter (· != 13) = []
    · rw [if_neg fun hboth ↦ hboth.2 hkept, code_of_isOutOfRange hend]
      split
      · rfl
      · rename_i honly
        have hnil : c.rest = [] := by
          by_contra hne
          exact honly ⟨hne, fun x hx ↦ by simpa using filter_eq_nil_iff.1 hkept x hx⟩
        exact (codeFor_of_lt (by rw [hnil]; exact Nat.one_pos)).symm
    · have hnot : ¬c.OnlyReturns := fun honly ↦ hkept (filter_eq_nil_iff.2 fun x hx ↦ by
        rw [honly.2 x hx]
        decide)
      have hne : c.rest ≠ [] := fun hnil ↦ hkept (by rw [hnil]; rfl)
      rw [if_pos ⟨hend, hkept⟩, if_neg hnot]
      exact (codeFor_of_le (length_pos_of_ne_nil hne)).symm

section Lawful

open BufferedReader

variable {σ : Type} {A : Access σ Status UInt8} {Inv : σ → Prop} {rest : σ → ByteString} {tell : σ →
    ℕ} {s : σ}

variable (hA : Lawful A Inv rest tell .ok (isOutOfRange · = true)) (h : Inv s)
  (hrest : rest s = c.rest) (htell : tell s = c.position)
include hA h hrest htell

/-- A line that is read through a buffer. -/
theorem lineLoop {rounds : ℕ} (hrounds : c.rest.length < rounds) :
    ∃ found s', BufferedReader.lineLoop A (· == 10) (· != 13) rounds s .ok [] =
      (found, c.readLine.2.1, s') ∧
      Inv s' ∧ tell s' = c.readLine.2.2.position ∧
        (lineStatus found c.readLine.2.1).code =
          if c.OnlyReturns then some .outOfRange else c.readLine.1 := by
  obtain ⟨found, s', hloop, hinv, -, htell', hfound⟩ :=
    hA.lineLoop (· == 10) (· != 13) [] h (.inl rfl) (hrest ▸ hrounds)
  rw [hrest] at hloop htell' hfound
  rw [htell] at htell'
  exact ⟨found, s', hloop, hinv, htell', codeOfLine hfound⟩

/-- Bytes that are read through a buffer. -/
theorem readLoop (n : ℕ) :
    ∃ status s', BufferedReader.readLoop A n s .ok [] n = (status, (c.readNBytes n).2.1, s') ∧
    Inv s' ∧
      tell s' = (c.readNBytes n).2.2.position ∧
        Status.code (if isOutOfRange status ∧
          (c.readNBytes n).2.1.length = n then .ok else status) =
          (c.readNBytes n).1 := by
  obtain ⟨status, s', hloop, hinv, -, htell', hstatus, hend⟩ := hA.readLoop (n := n) [] h (.inl rfl)
    le_rfl
  rw [length_nil, Nat.zero_add, nil_append, hrest] at hloop
  rw [hrest, htell] at htell'
  rw [hrest] at hend
  exact ⟨status, s', hloop, hinv, htell', codeOfRead length_take hstatus hend⟩

end Lawful

end FileCursor

/-!
## `RandomAccessFile`

Reading from a file, as the comment of `RandomAccessFile::Read` in
`tensorflow/core/platform/file_system.h` has it and `PosixRandomAccessFile` does it. A file is its
contents.
-/

/-- `RandomAccessFile::Read(offset, n)`: the bytes there are, and `OutOfRange` if they are fewer
than `n` because the file ends. -/
def readFile (file : ByteString) (offset n : UInt64) : Status × ByteString :=
  let result := (file.drop offset.toNat).take n.toNat
  if result.length < n.toNat then
    (.error .outOfRange (ascii "Read less bytes than requested"), result)
  else (.ok, result)

/-- `Read` at a position in a file of any size. -/
def readAt (file : ByteString) (offset n : ℕ) : Status × ByteString :=
  let result := (file.drop offset).take n
  if result.length < n then
    (.error .outOfRange (ascii "Read less bytes than requested"), result)
  else (.ok, result)

theorem snd_readAt (file : ByteString) (offset n : ℕ) :
    (readAt file offset n).2 = (file.drop offset).take n := by
  unfold readAt
  dsimp only
  split <;> rfl

theorem drop_of_toNat_eq {pre : ByteString} {offset : UInt64} (hoff : offset.toNat = pre.length)
    (x : ByteString) : (pre ++ x).drop offset.toNat = x := by
  rw [hoff, drop_left]

/-- Bytes that stand in the file are read. -/
theorem readFile_append {pre x : ByteString} {offset n : UInt64} (hoff : offset.toNat = pre.length)
    (hn : n.toNat = x.length) (rest : ByteString) :
    readFile (pre ++ (x ++ rest)) offset n = (.ok, x) := by
  rw [readFile, drop_of_toNat_eq hoff, hn, take_left, if_neg (Nat.lt_irrefl _)]

/-!
## `RandomAccessInputStream`

`tensorflow/core/lib/io/random_inputstream.cc`, with the `SkipNBytes` of `inputstream_interface.cc`.
It moves through the file as a cursor does (`readNBytes_eq`, `skipNBytes_spec`).
-/

/-- `io::RandomAccessInputStream`. -/
structure RandomAccessInputStream where
  file : ByteString
  pos : ℕ := 0

namespace RandomAccessInputStream

/-- `ReadNBytes`, for a number that is not negative. -/
def readNBytes (r : RandomAccessInputStream) (bytesToRead : ℕ) :
    Status × ByteString × RandomAccessInputStream :=
  let (s, data) := readAt r.file r.pos bytesToRead
  if s = .ok ∨ isOutOfRange s then
    let r := { r with pos := r.pos + data.length }
    if data.length < bytesToRead then (.error .outOfRange (ascii "reached end of file"), data, r)
    else (.ok, data, r)
  else (s, data, r)

/-- `ReadNBytes`, which refuses a negative number. -/
def readInt (r : RandomAccessInputStream) (bytesToRead : ℤ) :
    Status × ByteString × RandomAccessInputStream :=
  if bytesToRead <
    0 then (.error .invalidArgument (ascii "Cannot read negative number of bytes"), [], r)
  else r.readNBytes bytesToRead.toNat

/-- `kMaxSkipSize`. -/
def kMaxSkipSize : ℕ := 8 * 1024 * 1024

/-- The loop of `InputStreamInterface::SkipNBytes`, for as many rounds as there are bytes to
skip. -/
def skipNBytesLoop : ℕ → RandomAccessInputStream → ℕ → Status × RandomAccessInputStream
  | 0, r, _ => (.ok, r)
  | rounds + 1, r, bytesToSkip =>
    if 0 < bytesToSkip then
      let bytesToRead := min kMaxSkipSize bytesToSkip
      match r.readNBytes bytesToRead with
      | (.ok, _, r) => skipNBytesLoop rounds r (bytesToSkip - bytesToRead)
      | (.error code msg, _, r) => (.error code msg, r)
    else (.ok, r)

/-- `InputStreamInterface::SkipNBytes`, for a number that is not negative. -/
def skipNBytes (r : RandomAccessInputStream) (bytesToSkip : ℕ) : Status × RandomAccessInputStream :=
  skipNBytesLoop bytesToSkip r bytesToSkip

/-- `Seek`. -/
def seek (r : RandomAccessInputStream) (position : ℕ) : Status × RandomAccessInputStream :=
  (.ok, { r with pos := position })

/-- `Reset`. -/
def reset (r : RandomAccessInputStream) : Status × RandomAccessInputStream := r.seek 0

/-- The cursor where the stream is. -/
def cursor (r : RandomAccessInputStream) : FileCursor := ⟨r.file, r.pos⟩

variable (r : RandomAccessInputStream)

theorem readNBytes_eq (n : ℕ) : r.readNBytes n =
    (if r.cursor.rest.length < n then .error .outOfRange (ascii "reached end of file") else .ok,
      (r.cursor.readNBytes n).2.1, { r with pos := (r.cursor.readNBytes n).2.2.position }) := by
  have hrest : r.cursor.rest = r.file.drop r.pos := rfl
  have hlen : ((r.file.drop r.pos).take n).length < n ↔ r.cursor.rest.length < n := by
    rw [hrest, length_take]
    omega
  have hposition : (r.cursor.readNBytes n).2.2.position = r.pos +
      ((r.file.drop r.pos).take n).length := by
    rw [length_take]
    rfl
  rw [readNBytes, readAt, hposition]
  dsimp only
  split
  · rename_i hlt
    rw [if_pos (.inr rfl), if_pos (hlen.1 hlt)]
    rfl
  · rename_i hle
    rw [if_pos (.inl rfl), if_neg fun hlt ↦ hle (hlen.2 hlt)]
    rfl

variable {r}

/-- By induction on the rounds: a piece that is not the last one is read whole, or there is less
than that. -/
theorem skipNBytesLoop_spec {rounds n : ℕ} (h : n ≤ rounds) :
    (skipNBytesLoop rounds r n).1.code = r.cursor.codeFor n ∧
      (skipNBytesLoop rounds r n).2.cursor = r.cursor.advance n := by
  induction rounds generalizing r n with
  | zero =>
    obtain rfl := Nat.le_zero.1 h
    exact ⟨(FileCursor.codeFor_of_le (Nat.zero_le _)).symm, by simp [skipNBytesLoop,
      FileCursor.advance]⟩
  | succ rounds ih =>
    rw [skipNBytesLoop]
    split
    · rename_i hpos
      obtain ⟨k, hk⟩ : ∃ k, k = min kMaxSkipSize n := ⟨_, rfl⟩
      have hk0 : 0 < k := by
        rw [hk]
        exact Nat.lt_min.2 ⟨by decide, hpos⟩
      have hkn : k ≤ n := hk ▸ Nat.min_le_right _ _
      rw [← hk]
      dsimp only
      rw [readNBytes_eq]
      rcases Nat.lt_or_ge r.cursor.rest.length k with hlt | hle
      · rw [if_pos hlt]
        refine ⟨(FileCursor.codeFor_of_lt (hlt.trans_le hkn)).symm, ?_⟩
        show r.cursor.advance k = r.cursor.advance n
        rw [FileCursor.advance, FileCursor.advance, Nat.min_eq_right hlt.le,
          Nat.min_eq_right (hlt.le.trans hkn)]
      · rw [if_neg (Nat.not_lt.2 hle)]
        obtain ⟨hcode, hcursor⟩ := ih (r := { r with pos := (r.cursor.readNBytes k).2.2.position })
          (n := n - k) (by omega)
        have hstep : cursor { r with pos := (r.cursor.readNBytes k).2.2.position } =
            r.cursor.advance k := rfl
        rw [hstep] at hcode hcursor
        refine ⟨hcode.trans (FileCursor.codeFor_advance hkn hle), hcursor.trans ?_⟩
        rw [FileCursor.advance_advance, Nat.add_sub_cancel' hkn]
    · obtain rfl : n = 0 := by omega
      exact ⟨(FileCursor.codeFor_of_le (Nat.zero_le _)).symm, by simp [FileCursor.advance]⟩

theorem skipNBytes_spec (n : ℕ) : (r.skipNBytes n).1.code = r.cursor.codeFor n ∧
    (r.skipNBytes n).2.cursor = r.cursor.advance n :=
  skipNBytesLoop_spec le_rfl

end RandomAccessInputStream

end TensorFlowCore
