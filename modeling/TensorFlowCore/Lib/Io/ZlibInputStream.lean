import TensorFlowCore.Lib.Io.RandomAccessInputStream
import TensorFlowCore.Support.Rounds

/-!
# `ZlibInputStream`

`ReadNBytes` of `tensorflow/core/lib/io/zlib_inputstream.cc` over a file. `inflate` of zlib is a
parameter, of which `Zlib.Lawful` is assumed. Nothing bounds the rounds of the loop of `ReadNBytes`;
`readNBytes` is given a number of them.
-/

namespace TensorFlowCore

open List

/-! ### zlib -/

/-- What a call of `inflate` does. -/
structure InflateResult (Z : Type) where
  code : ℤ
  /-- How many bytes of the input have been taken. -/
  consumed : ℕ
  /-- The bytes written to the output. -/
  produced : ByteString
  state : Z
  msg : Option ByteString := none

/-- `Z_OK`. -/
def zOk : ℤ := 0

/-- `Z_STREAM_END`. -/
def zStreamEnd : ℤ := 1

/-- zlib with its options: the state that `inflateInit2` makes, and `inflate` of a state, the bytes
at `next_in` and `avail_out`. -/
structure Zlib (Z : Type) where
  init : Z
  inflate : Z → ByteString → ℕ → InflateResult Z
  /-- `Z_STREAM_END` has been returned. -/
  ended : Z → Bool

/-- `Z_OK` means that there has been progress, and nothing happens after `Z_STREAM_END`. -/
structure Zlib.Lawful {Z : Type} (zlib : Zlib Z) : Prop where
  progress : ∀ z input availOut, (zlib.inflate z input availOut).code = zOk →
    0 < (zlib.inflate z input availOut).consumed ∨ (zlib.inflate z input availOut).produced ≠ []
  ended_of_streamEnd : ∀ z input availOut, (zlib.inflate z input availOut).code = zStreamEnd →
    zlib.ended (zlib.inflate z input availOut).state
  streamEnd_of_ended : ∀ z input availOut, zlib.ended z →
    (zlib.inflate z input availOut).code = zStreamEnd ∧
    (zlib.inflate z input availOut).consumed = 0 ∧
      (zlib.inflate z input availOut).produced = []

/-! ### The stream -/

/-- What a `ZlibInputStream` inflates from: the stream underneath and the input buffer. -/
structure CompressedInput (Z : Type) where
  stream : RandomAccessInputStream
  inputBufferCapacity : ℕ
  outputBufferCapacity : ℕ
  zStream : Z
  /-- The bytes at `next_in`, `avail_in` of them. -/
  input : ByteString := []

/-- `ZlibInputStream`. -/
structure ZlibInputStream (Z : Type) where
  compressed : CompressedInput Z
  /-- The bytes from `next_unread_byte_` up to `next_out`. -/
  unread : ByteString := []

variable {Z : Type} (zlib : Zlib Z)

namespace CompressedInput

variable (c : CompressedInput Z)

/-- The number of bytes that `ReadFromStream` asks for, an `int`. -/
def bytesToRead : ℤ := ((c.inputBufferCapacity : ℤ) - c.input.length).bmod (2 ^ 32)

/-- `ReadFromStream`. -/
def readFromStream : Status × CompressedInput Z :=
  let (s, data, stream) := c.stream.readInt c.bytesToRead
  let c := { c with stream, input := c.input ++ data }
  if s ≠ .ok ∧ isOutOfRange s = false then (s, c)
  else if data.length = 0 then (.error .outOfRange (ascii "EOF reached"), c)
  else (.ok, c)

/-- Step 1 of a round of `ReadNBytes`. -/
def fillInput : Status × CompressedInput Z :=
  if c.input.length = 0 then c.readFromStream else (.ok, c)

/-- `Inflate` into an output buffer that has been set up anew, and what is in it then. -/
def inflate : Status × ByteString × CompressedInput Z :=
  let r := zlib.inflate c.zStream c.input (c.outputBufferCapacity % 2 ^ 32)
  let c := { c with zStream := r.state, input := c.input.drop r.consumed }
  if r.code ≠ zOk ∧ r.code ≠ zStreamEnd then
    (.error .dataLoss (ascii "inflate() failed with error " ++ decimalInt r.code ++
      match r.msg with
      | none => []
      | some msg => ascii ": " ++ msg), r.produced, c)
  else (.ok, r.produced, c)

end CompressedInput

namespace ZlibInputStream

/-- `ZlibInputStream::ZlibInputStream`. -/
def new (stream : RandomAccessInputStream) (inputBufferBytes outputBufferBytes : ℕ) :
    ZlibInputStream Z where
  compressed :=
    { stream
      inputBufferCapacity := inputBufferBytes
      outputBufferCapacity := outputBufferBytes
      zStream := zlib.init }

/-- `ReadBytesFromCache`. -/
def readBytesFromCache (s : ZlibInputStream Z) (bytesToRead : UInt64) :
    ByteString × ZlibInputStream Z :=
  let canReadBytes := min bytesToRead.toNat s.unread.length
  (s.unread.take canReadBytes, { s with unread := s.unread.drop canReadBytes })

/-- The steps 1 to 3 of a round of `ReadNBytes`. -/
def inflateMore (s : ZlibInputStream Z) : Status × ZlibInputStream Z :=
  match s.compressed.fillInput with
  | (.ok, c) =>
    let (status, unread, compressed) := c.inflate zlib
    (status, { compressed, unread })
  | (.error code msg, compressed) => (.error code msg, { s with compressed })

/-- The variables of the loop of `ReadNBytes`. -/
structure Reading (Z : Type) where
  bytesToRead : Int64
  result : ByteString
  stream : ZlibInputStream Z

/-- Take what there is in the cache. -/
def takeFromCache (r : Reading Z) : Reading Z :=
  let (data, stream) := r.stream.readBytesFromCache r.bytesToRead.toUInt64
  { bytesToRead := r.bytesToRead - Int64.ofNat data.length, result := r.result ++ data, stream }

/-- A round of the loop of `ReadNBytes`. -/
def round (r : Reading Z) : Reading Z ⊕ Status × ByteString × ZlibInputStream Z :=
  if 0 < r.bytesToRead then
    match r.stream.inflateMore zlib with
    | (.ok, stream) => .inl (takeFromCache { r with stream })
    | (.error code msg, stream) => .inr (.error code msg, r.result, stream)
  else .inr (.ok, r.result, r.stream)

/-- `ReadNBytes`, with so many rounds of its loop at most. -/
def readNBytes (rounds : ℕ) (s : ZlibInputStream Z) (bytesToRead : Int64) :
    Option (Status × ByteString × ZlibInputStream Z) :=
  Rounds.loop (round zlib) rounds (takeFromCache { bytesToRead, result := [], stream := s })

/-- `OK`, `OutOfRange` or `DataLoss`. -/
def Expected (status : Status) : Prop :=
  status.code = none ∨ status.code = some .outOfRange ∨ status.code = some .dataLoss

/-- `ReadNBytes` ends, with `OK`, `OutOfRange` or `DataLoss`. -/
def ReadEnds (s : ZlibInputStream Z) (bytesToRead : Int64) : Prop :=
  ∃ rounds status result s', readNBytes zlib rounds s bytesToRead = some (status, result, s') ∧
    Expected status

/-- What the cache leaves to be read. -/
def wanted (s : ZlibInputStream Z) (bytesToRead : Int64) : Int64 :=
  (takeFromCache { bytesToRead, result := [], stream := s }).bytesToRead

end ZlibInputStream

end TensorFlowCore

/-!
## When `ReadNBytes` of a `ZlibInputStream` ends

A round of its loop takes input, hands out bytes or comes to the end of the compressed data. There
the next rounds do nothing while input is left, and the loop goes on for ever if bytes are wanted
still (`readNBytes_ends_iff`). The loop also ends otherwise than it should where the capacity of the
input buffer is a negative `int`.
-/

namespace TensorFlowCore

open List

variable {Z : Type} (zlib : Zlib Z)

namespace CompressedInput

/-- Inflating on gives these bytes and comes to there. -/
inductive Inflates : CompressedInput Z → ByteString → CompressedInput Z → Prop where
  | refl (c : CompressedInput Z) : Inflates c [] c
  | step {c c₁ c₂ c₃ : CompressedInput Z} {produced more : ByteString} :
    c.fillInput = (.ok, c₁) → c₁.inflate zlib = (.ok, produced, c₂) → Inflates c₂ more c₃ →
      Inflates c (produced ++ more) c₃

/-- The compressed data have ended, and there is something behind them. -/
def PastEnd (c : CompressedInput Z) : Prop := zlib.ended c.zStream ∧ c.fillInput.1 = .ok

/-- The input buffer is too large for an `int`, so that a negative number of bytes is asked for. -/
def AsksForNegative (c : CompressedInput Z) : Prop := c.input = [] ∧ c.bytesToRead < 0

variable {zlib} {c c' : CompressedInput Z} {produced : ByteString}

/-- The input that has not been inflated. -/
def remaining (c : CompressedInput Z) : ℕ := c.input.length + c.stream.cursor.rest.length

theorem fillInput_of_asksForNegative (h : c.AsksForNegative) :
    c.fillInput.1.code = some .invalidArgument := by
  rw [fillInput, if_pos (by rw [h.1]; rfl), readFromStream, RandomAccessInputStream.readInt,
    if_pos h.2]
  rfl

/-- What `ReadFromStream` does, when it asks for bytes: there are some, or it is the end of the
file. -/
theorem readFromStream_cases (h : c.input = []) (hbytes : 0 ≤ c.bytesToRead) :
    c.readFromStream.1.code = some .outOfRange ∨
      c.readFromStream.1 = .ok ∧ c.readFromStream.2.input ≠ [] ∧
        c.readFromStream.2.remaining = c.remaining ∧ c.readFromStream.2.zStream = c.zStream := by
  rw [readFromStream, RandomAccessInputStream.readInt, if_neg (by omega),
    RandomAccessInputStream.readNBytes_eq]
  dsimp only
  rw [if_neg (by split <;> simp [isOutOfRange])]
  split
  · exact .inl rfl
  · rename_i hlength
    refine .inr ⟨rfl, ?_, ?_, rfl⟩
    · rw [h]
      exact fun hnil ↦ hlength (congrArg length hnil)
    · simp only [remaining, h, RandomAccessInputStream.cursor, FileCursor.length_rest,
        FileCursor.readNBytes, FileCursor.advance, nil_append, length_take, length_nil]
      omega

/-- Step 1 finds the end of the file, or there is input. -/
theorem fillInput_cases (h : ¬c.AsksForNegative) :
    c.fillInput.1.code = some .outOfRange ∨
      c.fillInput.1 = .ok ∧ c.fillInput.2.input ≠ [] ∧ c.fillInput.2.remaining = c.remaining ∧
        c.fillInput.2.zStream = c.zStream := by
  rw [fillInput]
  split
  · rename_i hlength
    have hnil := length_eq_zero_iff.1 hlength
    exact readFromStream_cases hnil (Int.not_lt.1 fun hlt ↦ h ⟨hnil, hlt⟩)
  · rename_i hlength
    exact .inr ⟨rfl, fun hnil ↦ hlength (congrArg length hnil), rfl, rfl⟩

/-- `Inflate` fails, or it has taken input, written output or come to the end of the compressed
data. -/
theorem inflate_cases (hzlib : zlib.Lawful) (hinput : c.input ≠ []) :
    (c.inflate zlib).1.code = some .dataLoss ∨
      ∃ produced c', c.inflate zlib = (.ok, produced, c') ∧ c'.remaining ≤ c.remaining ∧
        (zlib.ended c'.zStream ∨ produced ≠ [] ∨ c'.remaining < c.remaining) := by
  have hpos : 0 < c.input.length := length_pos_of_ne_nil hinput
  rw [inflate]
  split
  · exact .inl rfl
  · rename_i hcode
    refine .inr ⟨_, _, rfl, ?_, ?_⟩
    · simp only [remaining, length_drop]
      omega
    · by_cases hend : (zlib.inflate c.zStream c.input (c.outputBufferCapacity % 2 ^ 32)).code =
        zStreamEnd
      · exact .inl (hzlib.ended_of_streamEnd _ _ _ hend)
      · have hok := not_and_not_right.1 hcode
        refine .inr ?_
        rcases hzlib.progress c.zStream c.input (c.outputBufferCapacity % 2 ^ 32)
          (by_contra fun hne ↦ hend (hok hne)) with hconsumed | hproduced
        · refine .inr ?_
          simp only [remaining, length_drop]
          omega
        · exact .inl hproduced

/-- Behind the end of the compressed data nothing changes. -/
theorem inflate_of_ended (hzlib : zlib.Lawful) (hended : zlib.ended c.zStream) :
    ∃ c', c.inflate zlib = (.ok, [], c') ∧ zlib.ended c'.zStream ∧ c'.input = c.input := by
  obtain ⟨hcode, hconsumed, hproduced⟩ := hzlib.streamEnd_of_ended c.zStream c.input
    (c.outputBufferCapacity % 2 ^ 32) hended
  have hinflate : c.inflate zlib = (.ok, [], { c with
      zStream := (zlib.inflate c.zStream c.input (c.outputBufferCapacity % 2 ^ 32)).state }) := by
    rw [inflate, if_neg fun h ↦ h.2 hcode, hproduced, hconsumed, drop_zero]
  exact ⟨_, hinflate, hzlib.ended_of_streamEnd _ _ _ hcode, rfl⟩

end CompressedInput

namespace ZlibInputStream

open CompressedInput

variable {zlib} {r : Reading Z} {c c' : CompressedInput Z} {produced : ByteString}

/-- What is taken from the cache, when bytes are wanted. -/
theorem toInt_takeFromCache (h : 0 ≤ r.bytesToRead.toInt) :
    (takeFromCache r).bytesToRead.toInt =
      r.bytesToRead.toInt - min r.bytesToRead.toInt r.stream.unread.length := by
  have hle : 0 ≤ r.bytesToRead := Int64.le_iff_toInt_le.2 h
  have hnat : r.bytesToRead.toUInt64.toNat = r.bytesToRead.toInt.toNat :=
    Int64.toNat_toUInt64_of_le hle
  have hlt := r.bytesToRead.toInt_lt
  show (r.bytesToRead - Int64.ofNat
    (r.stream.unread.take (min r.bytesToRead.toUInt64.toNat r.stream.unread.length)).length).toInt =
    _
  rw [length_take, Nat.min_assoc, Nat.min_self, hnat, Int64.toInt_sub,
    Int64.toInt_ofNat_of_lt (by omega), Int.bmod_eq_of_le (by omega) (by omega)]
  omega

/-- The loop does not come to where it fails otherwise than at the end of the file or of the
data. -/
def Fine (zlib : Zlib Z) (r : Reading Z) : Prop :=
  ∀ data c, Inflates zlib r.stream.compressed data c → (data.length : ℤ) < r.bytesToRead.toInt →
    ¬c.PastEnd zlib ∧ ¬c.AsksForNegative

/-- What is to be done, at most. -/
def work (zlib : Zlib Z) (r : Reading Z) : ℕ :=
  r.bytesToRead.toInt.toNat + r.stream.compressed.remaining +
    if zlib.ended r.stream.compressed.zStream then 0 else 1

theorem inflateMore_of_fill (zlib : Zlib Z) {s : ZlibInputStream Z}
    (h : s.compressed.fillInput = (.ok, c)) :
    s.inflateMore zlib = ((c.inflate zlib).1, ⟨(c.inflate zlib).2.2, (c.inflate zlib).2.1⟩) := by
  rw [inflateMore, h]

theorem inflateMore_of_not_fill (zlib : Zlib Z) {s : ZlibInputStream Z}
    (h : s.compressed.fillInput.1 ≠ .ok) : (s.inflateMore zlib).1 = s.compressed.fillInput.1 := by
  rw [inflateMore]
  rcases hfill : s.compressed.fillInput with ⟨_ | _, c⟩
  · exact absurd (congrArg Prod.fst hfill) h
  · rfl

/-- A round that goes on. -/
theorem round_of_ok {s : ZlibInputStream Z} (hpos : 0 < r.bytesToRead)
    (h : r.stream.inflateMore zlib = (.ok, s)) :
    round zlib r = .inl (takeFromCache { r with stream := s }) := by
  rw [round, if_pos hpos, h]

/-- A round that leaves the loop. -/
theorem round_of_error (hpos : 0 < r.bytesToRead) (h : (r.stream.inflateMore zlib).1 ≠ .ok) :
    round zlib r =
      .inr ((r.stream.inflateMore zlib).1, r.result, (r.stream.inflateMore zlib).2) := by
  rw [round, if_pos hpos]
  rcases hmore : r.stream.inflateMore zlib with ⟨_ | _, s⟩
  · exact absurd (congrArg Prod.fst hmore) h
  · rfl

theorem ne_ok_of_code {status : Status} {code : Code} (h : status.code = some code) :
    status ≠ .ok := by
  rintro rfl
  cases h

/-- A round ends the loop as it should, or it leaves less to be done. -/
theorem Fine.round (hzlib : zlib.Lawful) (h : Fine zlib r) :
    (∃ returned, ZlibInputStream.round zlib r = .inr returned ∧ Expected returned.1) ∨
      ∃ r', ZlibInputStream.round zlib r = .inl r' ∧ Fine zlib r' ∧ work zlib r' < work zlib r := by
  by_cases hpos : 0 < r.bytesToRead
  · have hpos' : 0 < r.bytesToRead.toInt := Int64.lt_iff_toInt_lt.1 hpos
    obtain ⟨hend, hneg⟩ := h [] _ (.refl _) hpos'
    rcases fillInput_cases hneg with hcode | ⟨hok, hinput, hremaining, hz⟩
    · have hmore := inflateMore_of_not_fill zlib (ne_ok_of_code hcode)
      exact .inl ⟨_, round_of_error hpos (hmore ▸ ne_ok_of_code hcode), .inr (.inl (hmore ▸ hcode))⟩
    · have hended : ¬zlib.ended r.stream.compressed.zStream := fun hended ↦ hend ⟨hended, hok⟩
      have hfill : r.stream.compressed.fillInput = (.ok, r.stream.compressed.fillInput.2) :=
        Prod.ext hok rfl
      have hmore := inflateMore_of_fill zlib hfill
      rcases inflate_cases hzlib hinput with hcode | ⟨produced, c₂, hinflate, hle, hprogress⟩
      · have hcode' : (r.stream.inflateMore zlib).1.code = some .dataLoss := hmore ▸ hcode
        exact .inl ⟨_, round_of_error hpos (ne_ok_of_code hcode'), .inr (.inr hcode')⟩
      · rw [hinflate] at hmore
        refine .inr ⟨_, round_of_ok hpos hmore, fun data c hinflates hlt ↦ ?_, ?_⟩
        · have hn := toInt_takeFromCache (r := { r with stream := ⟨c₂, produced⟩ }) hpos'.le
          refine h _ _ (.step hfill hinflate hinflates) ?_
          rw [length_append]
          have hlt' := hlt.trans_eq hn
          dsimp only at hlt'
          omega
        · have hn := toInt_takeFromCache (r := { r with stream := ⟨c₂, produced⟩ }) hpos'.le
          rw [work, work, hn, if_neg hended]
          show (r.bytesToRead.toInt - min r.bytesToRead.toInt produced.length).toNat +
            c₂.remaining +
            (if zlib.ended c₂.zStream then 0 else 1) < _
          rcases hprogress with hended' | hproduced | hlt
          · rw [if_pos hended']
            omega
          · have := length_pos_of_ne_nil hproduced
            split <;> omega
          · split <;> omega
  · rw [ZlibInputStream.round, if_neg hpos]
    exact .inl ⟨_, rfl, .inl rfl⟩

/-- Behind the end of the compressed data the loop goes on for ever, while there is input. -/
theorem not_returns_of_pastEnd (hzlib : zlib.Lawful) (hpos : 0 < r.bytesToRead)
    (h : r.stream.compressed.PastEnd zlib) {returned : Status × ByteString × ZlibInputStream Z} :
    ¬Rounds.Returns (ZlibInputStream.round zlib) r returned := by
  refine Rounds.not_returns_of_closed (I := fun r ↦ 0 < r.bytesToRead ∧
    r.stream.compressed.PastEnd zlib)
    (fun r ⟨hpos, hended, hok⟩ ↦ ?_) ⟨hpos, h⟩
  have hpos' : 0 < r.bytesToRead.toInt := Int64.lt_iff_toInt_lt.1 hpos
  have hneg : ¬r.stream.compressed.AsksForNegative := fun hneg ↦
    ne_ok_of_code (fillInput_of_asksForNegative hneg) hok
  rcases fillInput_cases hneg with hcode | ⟨-, hinput, -, hz⟩
  · exact absurd hok (ne_ok_of_code hcode)
  · obtain ⟨c', hinflate, hended', hinput'⟩ :=
      inflate_of_ended (c := r.stream.compressed.fillInput.2) hzlib
      (hz ▸ hended)
    have hmore := inflateMore_of_fill zlib (s := r.stream) (Prod.ext hok rfl)
    rw [hinflate] at hmore
    have hn := toInt_takeFromCache (r := { r with stream := ⟨c', []⟩ }) hpos'.le
    refine ⟨_, round_of_ok hpos hmore, Int64.lt_iff_toInt_lt.2 ?_, hended', ?_⟩
    · refine lt_of_lt_of_eq ?_ hn.symm
      show (0 : ℤ) < r.bytesToRead.toInt - min r.bytesToRead.toInt 0
      omega
    · show (fillInput c').1 = .ok
      rw [fillInput, if_neg (by rw [hinput']; exact (length_pos_of_ne_nil hinput).ne')]

/-- Where inflating on from here goes wrong while bytes are wanted, the loop does not end as it
should. -/
theorem not_returns_of_inflates (hzlib : zlib.Lawful) {data : ByteString}
    (hinflates : Inflates zlib r.stream.compressed data c)
    (hlt : (data.length : ℤ) < r.bytesToRead.toInt) (hwrong : c.PastEnd zlib ∨ c.AsksForNegative)
    {returned : Status × ByteString × ZlibInputStream Z} (hexpected : Expected returned.1) :
    ¬Rounds.Returns (ZlibInputStream.round zlib) r returned := by
  generalize hc : r.stream.compressed = c₀ at hinflates
  induction hinflates generalizing r with
  | refl c =>
    subst hc
    have hpos : 0 < r.bytesToRead := Int64.lt_iff_toInt_lt.2 hlt
    rcases hwrong with hend | hneg
    · exact not_returns_of_pastEnd hzlib hpos hend
    · have hcode := fillInput_of_asksForNegative hneg
      have hmore := inflateMore_of_not_fill zlib (ne_ok_of_code hcode)
      rw [Rounds.returns_of_inr (round_of_error hpos (hmore ▸ ne_ok_of_code hcode))]
      rintro rfl
      have hcode' : (r.stream.inflateMore zlib).1.code = some .invalidArgument := hmore ▸ hcode
      rw [Expected, hcode'] at hexpected
      simp at hexpected
  | @step c c₁ c₂ c₃ produced more hfill hinflate _ ih =>
    subst hc
    rw [length_append] at hlt
    have hpos' : 0 < r.bytesToRead.toInt := by omega
    have hmore := inflateMore_of_fill zlib hfill
    rw [hinflate] at hmore
    rw [Rounds.returns_of_inl (round_of_ok (Int64.lt_iff_toInt_lt.2 hpos') hmore)]
    have hn := toInt_takeFromCache (r := { r with stream := ⟨c₂, produced⟩ }) hpos'.le
    refine ih (lt_of_lt_of_eq ?_ hn.symm) hwrong rfl
    show (more.length : ℤ) < r.bytesToRead.toInt - min r.bytesToRead.toInt produced.length
    omega

/-- **`ReadNBytes` ends** with `OK`, `OutOfRange` or `DataLoss` exactly if the compressed data do
not end with input left behind them before enough has been read, and no negative number of bytes is
asked for. -/
theorem readNBytes_ends_iff (hzlib : zlib.Lawful) (s : ZlibInputStream Z) (bytesToRead : Int64) :
    ReadEnds zlib s bytesToRead ↔
      ∀ data c, Inflates zlib s.compressed data c →
      (data.length : ℤ) < (s.wanted bytesToRead).toInt →
        ¬c.PastEnd zlib ∧ ¬c.AsksForNegative := by
  constructor
  · rintro ⟨rounds, status, result, s', hread, hexpected⟩ data c hinflates hlt
    rw [← not_or]
    intro hwrong
    have hreturns : Rounds.Returns (round zlib)
        (takeFromCache { bytesToRead, result := [], stream := s })
      (status, result, s') := ⟨rounds, hread⟩
    exact not_returns_of_inflates hzlib hinflates hlt hwrong hexpected hreturns
  · intro h
    obtain ⟨⟨status, result, s'⟩, ⟨rounds, hread⟩, hexpected⟩ :=
      Rounds.returns_of_measure (I := Fine zlib) (work zlib) (fun r hr ↦ hr.round hzlib)
        (s := takeFromCache { bytesToRead, result := [], stream := s }) h
    exact ⟨rounds, status, result, s', hread, hexpected⟩

end ZlibInputStream

/-! ### Stored blocks -/

/-- Where the inflating of raw data is, between two bytes. -/
inductive StoredState where
  | header
  /-- In the length of a block and its complement. -/
  | length (final : Bool) (read : ByteString)
  /-- One more byte than this is left of a block. -/
  | stored (final : Bool) (left : ℕ)
  | done
  | bad
  deriving DecidableEq

namespace StoredState

/-- In front of so many bytes of a block. -/
def block (final : Bool) : ℕ → StoredState
  | 0 => if final then done else header
  | left + 1 => stored final left

/-- The state after the two bytes of a length and those of its complement. -/
def ofLength (final : Bool) : ByteString → StoredState
  | [l₀, l₁, n₀, n₁] =>
    if n₀ = ~~~l₀ ∧ n₁ = ~~~l₁ then block final (l₀.toNat + 256 * l₁.toNat) else bad
  | read => length final read

/-- Inflating as far as input and output go. -/
def run : ByteString → StoredState → ℕ → StoredState × ℕ × ByteString
  | [], z, _ => (z, 0, [])
  | b :: input, z, availOut =>
    match z with
    | header =>
      let (z, consumed, produced) :=
        run input (if b &&& 6 = 0 then length (b &&& 1 == 1) [] else bad) availOut
      (z, consumed + 1, produced)
    | length final read =>
      let (z, consumed, produced) := run input (ofLength final (read ++ [b])) availOut
      (z, consumed + 1, produced)
    | stored final left =>
      if availOut = 0 then (stored final left, 0, [])
      else
        let (z, consumed, produced) := run input (block final left) (availOut - 1)
        (z, consumed + 1, b :: produced)
    | done => (done, 0, [])
    | bad => (bad, 0, [])

/-- zlib on raw data of stored blocks only. -/
def storedZlib : Zlib StoredState where
  init := .header
  inflate z input availOut :=
    let (z, consumed, produced) := run input z availOut
    { code :=
        if z = done then zStreamEnd
        else if z = bad then -3
        else if consumed = 0 ∧ produced = [] then -5
        else zOk
      consumed, produced, state := z }
  ended z := z = .done

@[simp] theorem run_done (input : ByteString) (availOut : ℕ) :
    run input done availOut = (done, 0, []) := by
  cases input <;> rfl

theorem lawful_storedZlib : StoredState.storedZlib.Lawful where
  progress z input availOut h := by
    simp only [StoredState.storedZlib] at h ⊢
    split at h
    · cases h
    · split at h
      · cases h
      · split at h
        · cases h
        · rename_i hnot
          rw [Nat.pos_iff_ne_zero]
          exact not_and_or.1 hnot
  ended_of_streamEnd z input availOut h := by
    simp only [StoredState.storedZlib] at h ⊢
    split at h
    · rename_i hdone
      exact decide_eq_true hdone
    · split at h
      · cases h
      · split at h <;> cases h
  streamEnd_of_ended z input availOut h := by
    obtain rfl : z = done := of_decide_eq_true h
    simp only [storedZlib, run_done]
    exact ⟨if_pos trivial, trivial, trivial⟩

end StoredState

namespace ZlibInputStream

/-- The last block, of the byte `a`, with a byte behind it. -/
def storedThenByte : ZlibInputStream StoredState :=
  new StoredState.storedZlib { file := [1, 1, 0, 254, 255, 97, 0] } 256 256

theorem readNBytes_ends_iff_storedThenByte : ReadEnds StoredState.storedZlib storedThenByte 1 ↔
    ∀ data c, CompressedInput.Inflates StoredState.storedZlib storedThenByte.compressed data c →
      (data.length : ℤ) < (storedThenByte.wanted 1).toInt →
        ¬c.PastEnd StoredState.storedZlib ∧ ¬c.AsksForNegative :=
  readNBytes_ends_iff StoredState.lawful_storedZlib storedThenByte 1

/-- Two bytes are asked for where there is one. -/
theorem not_readEnds : ¬∀ (Z : Type) (zlib : Zlib Z), zlib.Lawful →
    ∀ (stream : RandomAccessInputStream) (inputBufferBytes outputBufferBytes : ℕ)
    (bytesToRead : Int64),
      1 ≤ inputBufferBytes → 1 ≤ outputBufferBytes →
        ReadEnds zlib (new zlib stream inputBufferBytes outputBufferBytes) bytesToRead := by
  intro h
  obtain ⟨rounds, status, result, s', hread, hexpected⟩ := h _ _ StoredState.lawful_storedZlib
    { file := [1, 1, 0, 254, 255, 97, 0] } 256 256 2 (by decide) (by decide)
  have hinflates : CompressedInput.Inflates StoredState.storedZlib storedThenByte.compressed
    ([97] ++ [])
      { storedThenByte.compressed with
        stream := { file := [1, 1, 0, 254, 255, 97, 0], pos := 7 }
        zStream := .done
        input := [0] } := .step rfl rfl (.refl _)
  exact not_returns_of_inflates StoredState.lawful_storedZlib
    (r := takeFromCache { bytesToRead := 2, result := [], stream := storedThenByte }) hinflates
    (by decide)
    (.inl ⟨rfl, rfl⟩) hexpected ⟨rounds, hread⟩

end ZlibInputStream

end TensorFlowCore
