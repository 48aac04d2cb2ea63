import TensorFlowCore.Lib.Io.Snappy.InputBuffer

/-!
# Reading back a Snappy stream

`SnappyInputBuffer` returns what was written to `SnappyOutputBuffer`, whatever the sizes of the
writes, of the reads and of the buffers, as long as it does not come to a block with a high bit set
in one of the four bytes of its compressed length. The bytes go through a signed `char`, so that
such a length is read as one beyond every buffer (`two_pow_31_le_readLength`), and the read fails.

`Opens` is what a block has to be for that, `GoodWithin` says of the blocks ahead that a reader of
so many bytes comes to no other, and `roundTrips_iff_canRead` that the reads are right exactly then.
-/

namespace TensorFlowCore

open List Option SnappyOutputBuffer

namespace SnappyInputBuffer

/-- The bytes ahead: those in the input buffer, and those left in the file. -/
def stream (s : SnappyInputBuffer) : ByteString := s.input ++ s.file.drop s.filePos

/-- What a step that reads from the file leaves as it was. -/
structure Frame (s s' : SnappyInputBuffer) : Prop where
  file : s'.file = s.file
  inputBufferCapacity : s'.inputBufferCapacity = s.inputBufferCapacity
  outputBufferCapacity : s'.outputBufferCapacity = s.outputBufferCapacity

theorem Frame.refl (s : SnappyInputBuffer) : Frame s s := ⟨rfl, rfl, rfl⟩

theorem Frame.trans {s s' s'' : SnappyInputBuffer} (h : Frame s s') (h' : Frame s' s'') :
    Frame s s'' :=
  ⟨h'.file.trans h.file, h'.inputBufferCapacity.trans h.inputBufferCapacity,
    h'.outputBufferCapacity.trans h.outputBufferCapacity⟩

/-! ### Reading from the file -/

theorem take_append_drop_length_take {α : Type} (k : ℕ) (l : List α) :
    l.take k ++ l.drop (l.take k).length = l := by
  rw [length_take]
  by_cases h : k ≤ l.length
  · rw [Nat.min_eq_left h, take_append_drop]
  · rw [Nat.min_eq_right (by omega), drop_length, take_of_length_le (by omega), append_nil]

/-- `ReadFromFile` fills the input buffer, and changes nothing of what is ahead. -/
theorem readFromFile_spec (hint : s.intCapacity < 2 ^ 31) (hle : s.input.length ≤ s.intCapacity) :
    ∃ s', readFromFile s = some (if s.input.length < min s.intCapacity s.stream.length then .ok
        else eofReached, s') ∧
      s'.stream = s.stream ∧ s'.input = s.stream.take s.intCapacity ∧ s'.output = s.output ∧
      Frame s s' := by
  obtain ⟨hneg, hbytes⟩ := bytesToRead_eq hint hle
  obtain ⟨data, hdata⟩ : ∃ data, (readAt s.file s.filePos (s.intCapacity - s.input.length)).2 =
      data := ⟨_, rfl⟩
  have htake : data = (s.file.drop s.filePos).take (s.intCapacity - s.input.length) :=
    hdata.symm.trans (snd_readAt _ _ _)
  have hinput : s.input ++ data = s.stream.take s.intCapacity := by
    rw [stream, take_append, take_of_length_le hle, htake]
  have hstream : (s.input ++ data) ++ s.file.drop (s.filePos + data.length) = s.stream := by
    rw [append_assoc, ← drop_drop, stream, htake, take_append_drop_length_take]
  have hlength : data.length = min s.intCapacity s.stream.length - s.input.length := by
    have := congrArg length hinput
    rw [length_append, length_take] at this
    omega
  refine ⟨{ s with input := s.input ++ data, filePos := s.filePos + data.length }, ?_,
    hstream, hinput,
    rfl, rfl, rfl, rfl⟩
  rw [readFromFile, if_neg hneg, hbytes]
  dsimp only
  rw [hdata]
  by_cases hzero : data.length = 0
  · rw [if_pos hzero, if_neg (by omega)]
  · rw [if_neg hzero, if_pos (by omega)]

/-- A state from which the bytes `ahead` can be read. -/
structure Ahead (s₀ : SnappyInputBuffer) (s : SnappyInputBuffer) (ahead : ByteString) : Prop where
  frame : Frame s₀ s
  int : s₀.intCapacity < 2 ^ 31
  output : s.output = s₀.output
  stream : s.stream = ahead
  input_le : s.input.length ≤ s₀.intCapacity

theorem Frame.intCapacity {s s' : SnappyInputBuffer} (h : Frame s s') :
    s'.intCapacity = s.intCapacity := congrArg (· % 2 ^ 32) h.inputBufferCapacity

/-- Filling the input buffer: it then holds as many of the bytes ahead as it can. -/
theorem Ahead.readFromFile {s₀ s : SnappyInputBuffer} {ahead : ByteString} (h : Ahead s₀ s ahead) :
    ∃ s', readFromFile s = some (if s.input.length < min s₀.intCapacity ahead.length then .ok
        else eofReached, s') ∧
      s'.input = ahead.take s₀.intCapacity ∧ Ahead s₀ s' ahead := by
  have hcapacity := h.frame.intCapacity
  obtain ⟨s', hread, hstream, hinput, houtput, hframe⟩ :=
    readFromFile_spec (hcapacity.symm ▸ h.int) (hcapacity.symm ▸ h.input_le)
  rw [hcapacity, h.stream] at hread hinput
  refine ⟨s', hread, hinput, h.frame.trans hframe, h.int, houtput.trans h.output,
    hstream.trans h.stream, ?_⟩
  rw [hinput, length_take]
  exact Nat.min_le_left _ _

/-- The bytes of a length are taken off the stream, across any refills. -/
theorem readCompressedBlockLength_spec {s₀ : SnappyInputBuffer} (hcapacity : 0 < s₀.intCapacity)
    (bytes : ByteString) (length : UInt32) {rest : ByteString} (h : Ahead s₀ s (bytes ++ rest)) :
    ∃ s', readCompressedBlockLength bytes.length length s =
      some (.ok, bytes.foldl pushLengthByte length, s') ∧ Ahead s₀ s' rest := by
  induction bytes generalizing length s with
  | nil => exact ⟨s, rfl, h⟩
  | cons byte bytes ih =>
    -- after the refill, if there is one, the first byte ahead is in the input
    obtain ⟨s₁, hfill, h₁, input, hinput⟩ : ∃ s₁, (if s.input.length = 0 then
        SnappyInputBuffer.readFromFile s else some (.ok, s)) = some (.ok, s₁) ∧
          Ahead s₀ s₁ (byte :: (bytes ++ rest)) ∧ ∃ input, s₁.input = byte :: input := by
      split
      next hempty =>
        obtain ⟨s₁, hread, hinput, h₁⟩ := h.readFromFile
        rw [hempty, cons_append, length_cons, if_pos (by omega)] at hread
        refine ⟨s₁, hread, h₁, (bytes ++ rest).take (s₀.intCapacity - 1), ?_⟩
        obtain ⟨k, hk⟩ : ∃ k, s₀.intCapacity = k + 1 := ⟨s₀.intCapacity - 1, by omega⟩
        rw [hinput, cons_append, hk, take_succ_cons, Nat.add_sub_cancel]
      next hne =>
        have hahead : s.stream = byte :: (bytes ++ rest) := h.stream
        refine ⟨s, rfl, h, ?_⟩
        cases hinput : s.input with
        | nil => exact absurd (congrArg List.length hinput) hne
        | cons b input =>
          rw [stream, hinput, cons_append] at hahead
          exact ⟨input, by rw [(cons.inj hahead).1]⟩
    have h₂ : Ahead s₀ { s₁ with input } (bytes ++ rest) := by
      have hstream := h₁.stream
      rw [stream, hinput, cons_append] at hstream
      have hle := h₁.input_le
      rw [hinput, length_cons] at hle
      exact ⟨⟨h₁.frame.file, h₁.frame.inputBufferCapacity, h₁.frame.outputBufferCapacity⟩, h₁.int,
        h₁.output, (cons.inj hstream).2, Nat.le_of_succ_le hle⟩
    obtain ⟨s', hread, h'⟩ := ih (pushLengthByte length byte) h₂
    refine ⟨s', ?_, h'⟩
    rw [length_cons, readCompressedBlockLength, hfill]
    dsimp only
    rw [hinput]
    exact hread

/-- Without a byte ahead, or without room for one, there is no length to read. -/
theorem readCompressedBlockLength_fails {ahead : ByteString} (h : Ahead s₀ s ahead)
    (hnone : ahead = [] ∨ s₀.intCapacity = 0) :
    ∃ s', readCompressedBlockLength 4 0 s = some (eofReached, 0, s') ∧ Ahead s₀ s' ahead := by
  have hempty : s.input.length = 0 := by
    rcases hnone with rfl | hzero
    · rw [(append_eq_nil_iff.1 h.stream).1]
      rfl
    · exact Nat.le_zero.1 (hzero ▸ h.input_le)
  have hlt : ¬ s.input.length < min s₀.intCapacity ahead.length := by
    rcases hnone with rfl | hzero
    · rw [length_nil]
      omega
    · omega
  obtain ⟨s', hread, -, h'⟩ := h.readFromFile
  rw [if_neg hlt] at hread
  refine ⟨s', ?_, h'⟩
  rw [readCompressedBlockLength, if_pos hempty, hread]
  rfl

/-! ### One block -/

variable {Z : Snappy}

/-- A block that the reader can open: there is room for its compressed data in what `ReadFromFile`
takes for the input buffer, and no byte of their length has its high bit set. -/
structure Opens (Z : Snappy) (intCapacity : ℕ) (b : ByteString) : Prop where
  pos : 0 < intCapacity
  le : (compressed Z b).length ≤ intCapacity
  lengthReadable : LengthReadable (compressed Z b).length

instance (intCapacity : ℕ) (b : ByteString) : Decidable (Opens Z intCapacity b) :=
  decidable_of_iff (0 < intCapacity ∧ (compressed Z b).length ≤ intCapacity ∧
    LengthReadable (compressed Z b).length) ⟨fun ⟨h₁, h₂, h₃⟩ ↦ ⟨h₁, h₂, h₃⟩, fun ⟨h₁, h₂, h₃⟩ ↦
    ⟨h₁, h₂, h₃⟩⟩

/-- Bytes that come first in the stream and are all in the input buffer stand at its head. -/
theorem Ahead.exists_input_eq {x rest : ByteString} (h : Ahead s₀ s (x ++ rest))
    (hle : x.length ≤ s.input.length) : ∃ rest', s.input = x ++ rest' := by
  have hstream : s.input ++ s.file.drop s.filePos = x ++ rest := h.stream
  obtain ⟨rest', hrest'⟩ := prefix_of_prefix_length_le (prefix_append x rest)
    (hstream ▸ prefix_append s.input _) hle
  exact ⟨rest', hrest'.symm⟩

/-- The block at the head of the input is uncompressed into the output buffer. -/
theorem inflateBlock_spec (hZ : Z.Inverse) {b y rest : ByteString} (hy : Z.compress b = some y)
    (h : Ahead s₀ s (y ++ rest)) (hfits : b.length ≤ s₀.outputBufferCapacity)
    (hle : y.length ≤ s.input.length) :
    ∃ s', inflateBlock Z y.length s = some (.ok, s') ∧ Frame s₀ s' ∧ s'.output = b ∧
      s'.stream = rest ∧ s'.input.length ≤ s₀.intCapacity := by
  obtain ⟨rest', hinput⟩ := h.exists_input_eq hle
  have hstream : s.input ++ s.file.drop s.filePos = y ++ rest := h.stream
  rw [hinput, append_assoc] at hstream
  refine ⟨{ s with input := rest', output := b }, ?_, ⟨h.frame.file, h.frame.inputBufferCapacity,
    h.frame.outputBufferCapacity⟩, rfl, append_cancel_left hstream, ?_⟩
  · have hroom : ¬ s.outputBufferCapacity < b.length := by
      rw [h.frame.outputBufferCapacity]
      exact Nat.not_lt.2 hfits
    rw [inflateBlock, if_neg (Nat.not_lt.2 hle), hinput, take_left, drop_left, (hZ.undoes b y hy).1]
    dsimp only
    rw [if_neg hroom, (hZ.undoes b y hy).2]
  · have hinput_le := h.input_le
    rw [hinput, length_append] at hinput_le
    exact (Nat.le_add_left _ _).trans hinput_le

/-- `Inflate` of a block that can be opened. -/
theorem inflate_spec (hZ : Z.Inverse) {b rest : ByteString}
    (h : Ahead s s (encodeBlock Z b ++ rest)) (hfits : b.length ≤ s.outputBufferCapacity)
    (hopens : Opens Z s.intCapacity b) :
    ∃ s', inflate Z s = some (.ok, s') ∧ Frame s s' ∧ s'.output = b ∧ s'.stream = rest ∧
      s'.input.length ≤ s.intCapacity := by
  obtain ⟨y, hy⟩ := hZ.exists_compress b
  have hcompressed : compressed Z b = y := by rw [compressed, hy, getD_some]
  obtain ⟨hpos, hle, hreadable⟩ := hopens
  rw [hcompressed] at hle hreadable
  have hint := h.int
  rw [encodeBlock, hcompressed, append_assoc] at h
  obtain ⟨s₁, hread, h₁⟩ := readCompressedBlockLength_spec hpos _ 0 h
  have hfour : (lengthBytes y.length).length = 4 := rfl
  have hlength : ((lengthBytes y.length).foldl pushLengthByte 0).toNat = y.length := by
    rw [← readLength, readLength_eq hreadable]
    omega
  rw [hfour] at hread
  rw [inflate, hread]
  dsimp only
  rw [hlength]
  by_cases hshort : s₁.input.length < y.length
  · obtain ⟨s₂, hfill, hinput, h₂⟩ := h₁.readFromFile
    rw [length_append, if_pos (by omega)] at hfill
    rw [if_pos hshort, hfill]
    refine inflateBlock_spec hZ hy h₂ hfits ?_
    rw [hinput, length_take, length_append]
    omega
  · rw [if_neg hshort]
    exact inflateBlock_spec hZ hy h₁ hfits (Nat.le_of_not_lt hshort)

/-- The length that is read of a block that cannot be opened: it is more than the input buffer
takes, or cuts the compressed data short. -/
theorem readLength_of_not_opens {intCapacity : ℕ} {b : ByteString} (hpos : 0 < intCapacity)
    (hint : intCapacity < 2 ^ 31) (hbad : ¬ Opens Z intCapacity b) :
    intCapacity < (readLength (lengthBytes (compressed Z b).length)).toNat ∨
      (readLength (lengthBytes (compressed Z b).length)).toNat < (compressed Z b).length := by
  by_cases hreadable : LengthReadable (compressed Z b).length
  · have hlong : intCapacity < (compressed Z b).length :=
      Nat.lt_of_not_le fun hle ↦ hbad ⟨hpos, hle, hreadable⟩
    rw [readLength_eq hreadable]
    omega
  · exact .inl (hint.trans_le (two_pow_31_le_readLength hreadable))

/-- With a length like that, the data are not uncompressed. -/
theorem inflateBlock_fails (hcut : Z.RejectsTruncated) {s₀ s s' : SnappyInputBuffer}
    {b y rest : ByteString} (hy : Z.compress b = some y) (h : Ahead s₀ s (y ++ rest)) {length : ℕ}
    (hlength : s₀.intCapacity < length ∨ length < y.length) :
    inflateBlock Z length s ≠ some (.ok, s') := by
  have herror {code : Code} {msg : ByteString} {t : SnappyInputBuffer} :
      (some (Status.error code msg, t) : Option (Status × SnappyInputBuffer)) ≠ some (.ok, s') :=
    fun heq ↦ Status.noConfusion (Prod.mk.inj (some.inj heq)).1
  unfold inflateBlock
  split
  · split <;> exact herror
  next henough =>
    have hle := h.input_le
    have hshort : length < y.length := by omega
    have htake : s.input.take length = y.take length := by
      have hstream : s.input ++ s.file.drop s.filePos = y ++ rest := h.stream
      rw [← take_append_of_le_length (Nat.le_of_not_lt henough), hstream,
        take_append_of_le_length hshort.le]
    rw [htake, hcut b y hy length hshort]
    split
    · exact herror
    · split
      · exact nofun
      · exact herror

/-- `Inflate` of a block that cannot be opened. -/
theorem inflate_fails (hZ : Z.Inverse) (hcut : Z.RejectsTruncated) {s s' : SnappyInputBuffer}
    {b rest : ByteString} (h : Ahead s s (encodeBlock Z b ++ rest))
    (hbad : ¬ Opens Z s.intCapacity b) : inflate Z s ≠ some (.ok, s') := by
  have heof {t : SnappyInputBuffer} {r : Option (Status × SnappyInputBuffer)}
      (hr : r = some (eofReached, t)) : r ≠ some (.ok, s') := by
    rw [hr]
    exact fun heq ↦ Status.noConfusion (Prod.mk.inj (some.inj heq)).1
  by_cases hzero : s.intCapacity = 0
  · obtain ⟨s₁, hread, -⟩ := readCompressedBlockLength_fails h (.inr hzero)
    refine heof (t := s₁) ?_
    rw [inflate, hread]
    rfl
  have hpos := Nat.pos_of_ne_zero hzero
  obtain ⟨y, hy⟩ := hZ.exists_compress b
  have hcompressed : compressed Z b = y := by rw [compressed, hy, getD_some]
  have hlength := readLength_of_not_opens hpos h.int hbad
  rw [encodeBlock, append_assoc] at h
  rw [hcompressed] at h hlength
  obtain ⟨s₁, hread, h₁⟩ := readCompressedBlockLength_spec hpos _ 0 h
  have hfour : (lengthBytes y.length).length = 4 := rfl
  rw [hfour] at hread
  rw [inflate, hread]
  dsimp only
  rw [← readLength]
  generalize (readLength (lengthBytes y.length)).toNat = length at hlength ⊢
  split
  · obtain ⟨s₂, hfill, -, h₂⟩ := h₁.readFromFile
    rw [hfill]
    by_cases hmore : s₁.input.length < min s.intCapacity (y ++ rest).length
    · rw [if_pos hmore]
      exact inflateBlock_fails hcut hy h₂ hlength
    · rw [if_neg hmore]
      exact heof rfl
  · exact inflateBlock_fails hcut hy h₁ hlength

/-- At the end of the file there is nothing to uncompress. -/
theorem inflate_nil (h : Ahead s s []) :
    ∃ s', inflate Z s = some (eofReached, s') ∧ Ahead s s' [] := by
  obtain ⟨s', hread, h'⟩ := readCompressedBlockLength_fails h (.inl rfl)
  refine ⟨s', ?_, h'⟩
  rw [inflate, hread]
  rfl

/-! ### Reads -/

/-- A reader of so many bytes comes to no block that it cannot open. -/
def GoodWithin (Z : Snappy) (intCapacity : ℕ) : ℕ → List ByteString → Prop
  | _, [] => True
  | requested, b :: bs =>
    0 < requested → Opens Z intCapacity b ∧ GoodWithin Z intCapacity (requested - b.length) bs

theorem GoodWithin.mono {intCapacity : ℕ} {n m : ℕ} (h : GoodWithin Z intCapacity m bs)
    (hle : n ≤ m) : GoodWithin Z intCapacity n bs := by
  induction bs generalizing n m with
  | nil => trivial
  | cons b bs ih =>
    intro hpos
    obtain ⟨hb, hbs⟩ := h (hpos.trans_le hle)
    exact ⟨hb, ih hbs (by omega)⟩

theorem goodWithin_zero {intCapacity : ℕ} : GoodWithin Z intCapacity 0 bs := by
  cases bs with
  | nil => trivial
  | cons b bs => exact fun h ↦ absurd h (lt_irrefl 0)

/-- A state with the bytes `cache` uncompressed and the blocks `bs` ahead. -/
structure Holds (Z : Snappy) (intCapacity : ℕ) (s : SnappyInputBuffer) (cache : ByteString)
    (bs : List ByteString) : Prop where
  intCapacity_eq : s.intCapacity = intCapacity
  int : intCapacity < 2 ^ 31
  output : s.output = cache
  stream : s.stream = bs.flatMap (encodeBlock Z)
  input_le : s.input.length ≤ intCapacity
  fits : ∀ b ∈ bs, b.length ≤ s.outputBufferCapacity
  nonempty : ∀ b ∈ bs, b ≠ []
  length_le : bs.length ≤ s.file.length

section Reads

variable {c : ℕ} {s : SnappyInputBuffer} {cache : ByteString} {bs : List ByteString}

theorem Holds.ahead (h : Holds Z c s cache bs) : Ahead s s (bs.flatMap (encodeBlock Z)) := by
  obtain ⟨rfl, hint, -, hstream, hle, -, -, -⟩ := h
  exact ⟨.refl s, hint, rfl, hstream, hle⟩

/-- Opening the next block. -/
theorem Holds.inflate (hZ : Z.Inverse) {b : ByteString} (h : Holds Z c s cache (b :: bs))
    (hopens : Opens Z c b) : ∃ s', inflate Z s = some (.ok, s') ∧ Holds Z c s' b bs := by
  have hahead := h.ahead
  rw [flatMap_cons] at hahead
  obtain ⟨rfl, hint, -, -, -, hfits, hnonempty, hlength⟩ := h
  obtain ⟨s', hinflate, hframe, houtput, hstream, hle⟩ :=
    inflate_spec hZ hahead (hfits b mem_cons_self) hopens
  exact ⟨s', hinflate, hframe.intCapacity, hint, houtput, hstream, hle,
    fun c hc ↦ hframe.outputBufferCapacity ▸ hfits c (mem_cons_of_mem _ hc),
    fun c hc ↦ hnonempty c (mem_cons_of_mem _ hc), hframe.file ▸ Nat.le_of_succ_le hlength⟩

theorem Holds.readBytesFromCache (h : Holds Z c s cache bs) (n : ℕ) :
    (readBytesFromCache n s).1 = cache.take n ∧
      Holds Z c (readBytesFromCache n s).2 (cache.drop n) bs :=
  ⟨congrArg (take n) h.output, h.intCapacity_eq, h.int, congrArg (drop n) h.output, h.stream,
    h.input_le, h.fits, h.nonempty, h.length_le⟩

/-- What a read of `n` bytes returns when `data` is ahead. -/
def expectedRead (data : ByteString) (n : ℕ) : Status × ByteString :=
  (if n ≤ data.length then .ok else eofReached, data.take n)

/-- What reads of these sizes return when `data` is ahead: its bytes in order, and `OutOfRange` once
they do not suffice. -/
def expectedReads : ByteString → List ℕ → List (Status × ByteString)
  | _, [] => []
  | data, n :: ns => expectedRead data n :: expectedReads (data.drop n) ns

variable (hZ : Z.Inverse)
include hZ

/-- The loop of `ReadNBytes`, by induction on the blocks ahead. When it starts the cache is empty,
unless nothing is left to read. -/
theorem readLoop_spec {n : ℕ} (fuel : ℕ) (result : ByteString) (h : Holds Z c s cache bs)
    (hcache : 0 < n → cache = []) (hfuel : bs.length + 1 < fuel) (hgood : GoodWithin Z c n bs) :
    ∃ s' cache' bs',
      readLoop Z fuel n result s =
        some (((expectedRead bs.flatten n).1, result ++ bs.flatten.take n), s') ∧
      Holds Z c s' cache' bs' ∧ bs'.length ≤ bs.length ∧
      cache' ++ bs'.flatten = (cache ++ bs.flatten).drop n ∧
      ∀ m, GoodWithin Z c (n + m - cache.length) bs ↔ GoodWithin Z c (m - cache'.length) bs' := by
  induction bs generalizing s cache n fuel result with
  | nil =>
    obtain ⟨fuel, rfl⟩ : ∃ k, fuel = k + 1 := ⟨fuel - 1, by omega⟩
    rw [readLoop]
    by_cases hn : n = 0
    · subst hn
      refine ⟨s, cache, [], ?_, h, le_rfl, rfl, fun m ↦ Iff.rfl⟩
      rw [if_pos rfl, take_zero, append_nil]
      rfl
    · obtain rfl := hcache (Nat.pos_of_ne_zero hn)
      obtain ⟨s', hinflate, h'⟩ := inflate_nil (Z := Z) h.ahead
      refine ⟨s', [], [], ?_, ⟨h'.frame.intCapacity.trans h.intCapacity_eq, h.int,
        h'.output.trans h.output, h'.stream, h.intCapacity_eq ▸ h'.input_le, by simp, by simp,
        Nat.zero_le _⟩, le_rfl, drop_nil.symm, fun m ↦ Iff.rfl⟩
      have heof : eofReached ≠ .ok := Status.noConfusion
      rw [if_neg hn, hinflate, bind_some]
      dsimp only
      rw [if_pos heof, flatten_nil, take_nil, append_nil, expectedRead, length_nil,
        if_neg (by omega)]
  | cons b bs ih =>
    obtain ⟨fuel, rfl⟩ : ∃ k, fuel = k + 1 := ⟨fuel - 1, by omega⟩
    rw [length_cons] at hfuel
    rw [readLoop]
    by_cases hn : n = 0
    · subst hn
      refine ⟨s, cache, b :: bs, ?_, h, le_rfl, rfl, fun m ↦ by rw [Nat.zero_add]⟩
      rw [if_pos rfl, take_zero, append_nil, expectedRead, if_pos (Nat.zero_le _)]
    · have hpos := Nat.pos_of_ne_zero hn
      obtain rfl := hcache hpos
      obtain ⟨hopens, hrest⟩ := hgood hpos
      obtain ⟨s₁, hinflate, h₁⟩ := h.inflate hZ hopens
      obtain ⟨hbytes, h₂⟩ := h₁.readBytesFromCache n
      have hleft : n - (b.take n).length = n - b.length := by
        rw [length_take]
        omega
      obtain ⟨s', cache', bs', hloop, h', hlen, hahead, hwithin⟩ :=
        ih fuel (result ++ b.take n) h₂ (fun hmore ↦ drop_of_length_le (by omega)) (by omega) hrest
      refine ⟨s', cache', bs', ?_, h', hlen.trans (Nat.le_succ _), ?_, fun m ↦ ?_⟩
      · have hstatus : (expectedRead (b :: bs).flatten n).1 =
            (expectedRead bs.flatten (n - b.length)).1 := by
          simp only [expectedRead, flatten_cons, length_append]
          congr 1
          exact propext (by omega)
        rw [if_neg hn, hinflate, bind_some]
        dsimp only
        rw [if_neg (not_not.2 rfl), hbytes, hleft, hloop, hstatus, flatten_cons, take_append,
          append_assoc]
      · rw [hahead, nil_append, flatten_cons, drop_append, drop_append]
        by_cases hmore : n ≤ b.length
        · rw [Nat.sub_eq_zero_of_le hmore, Nat.zero_sub, drop_zero, drop_zero]
        · rw [drop_of_length_le (by omega : b.length ≤ n), drop_nil, length_nil, Nat.sub_zero]
      · rw [← hwithin m, length_drop, length_nil, Nat.sub_zero]
        have harith : n - b.length + m - (b.length - n) = n + m - b.length := by omega
        rw [harith]
        exact ⟨fun hw ↦ (hw (by omega)).2, fun hw _ ↦ ⟨hopens, hw⟩⟩

/-- A read that comes to a block that cannot be opened returns no bytes of that block. -/
theorem readLoop_fails (hcut : Z.RejectsTruncated) {n : ℕ} {fuel : ℕ} {result : ByteString}
    {r : Status × ByteString} {s' : SnappyInputBuffer} (h : Holds Z c s cache bs)
    (hbad : ¬ GoodWithin Z c n bs) (hloop : readLoop Z fuel n result s = some (r, s')) :
    r.2.length < result.length + min n bs.flatten.length := by
  induction bs generalizing s cache n fuel result with
  | nil => exact absurd trivial hbad
  | cons b bs ih =>
    cases fuel with
    | zero => nomatch hloop
    | succ fuel =>
      have hpos : 0 < n := Nat.pos_of_ne_zero fun hn ↦ hbad fun hpos ↦ absurd hn hpos.ne'
      have hb : 0 < b.length := length_pos_of_ne_nil (h.nonempty b mem_cons_self)
      rw [readLoop, if_neg hpos.ne'] at hloop
      rw [flatten_cons, length_append]
      by_cases hopens : Opens Z c b
      · obtain ⟨s₁, hinflate, h₁⟩ := h.inflate hZ hopens
        obtain ⟨hbytes, h₂⟩ := h₁.readBytesFromCache n
        have hrest : ¬ GoodWithin Z c (n - b.length) bs := fun hrest ↦ hbad fun _ ↦ ⟨hopens, hrest⟩
        -- nothing can go wrong once all bytes are read
        have hlt : b.length < n := by
          refine Nat.lt_of_not_le fun hle ↦ hrest ?_
          rw [Nat.sub_eq_zero_of_le hle]
          exact goodWithin_zero
        rw [hinflate, bind_some] at hloop
        dsimp only at hloop
        rw [if_neg (not_not.2 rfl), hbytes, take_of_length_le hlt.le] at hloop
        have hlength := ih h₂ hrest hloop
        rw [length_append] at hlength
        omega
      · have hahead := h.ahead
        rw [flatMap_cons] at hahead
        obtain ⟨⟨status, s₁⟩, hinflate, hr⟩ := bind_eq_some_iff.1 hloop
        have hstatus : status ≠ .ok := by
          rintro rfl
          exact inflate_fails hZ hcut hahead (h.intCapacity_eq.symm ▸ hopens) hinflate
        dsimp only at hr
        rw [if_pos hstatus] at hr
        cases hr
        dsimp only
        omega

/-- One read that opens only blocks whose lengths can be read. -/
theorem readNBytes_spec (h : Holds Z c s cache bs) (n : ℕ)
    (hgood : GoodWithin Z c (n - cache.length) bs) :
    ∃ s' cache' bs', readNBytes Z n s = some (expectedRead (cache ++ bs.flatten) n, s') ∧
      Holds Z c s' cache' bs' ∧ cache' ++ bs'.flatten = (cache ++ bs.flatten).drop n ∧
      ∀ m, GoodWithin Z c (n + m - cache.length) bs ↔ GoodWithin Z c (m - cache'.length) bs' := by
  obtain ⟨hbytes, h₁⟩ := h.readBytesFromCache n
  have hfuel : bs.length + 1 < s.file.length + 2 := by
    have := h.length_le
    omega
  obtain ⟨s', cache', bs', hloop, h', -, hahead, hwithin⟩ := readLoop_spec hZ _ (cache.take n) h₁
    (fun hmore ↦ drop_of_length_le (by omega)) hfuel hgood
  refine ⟨s', cache', bs', ?_, h', ?_, fun m ↦ ?_⟩
  · have hleft : n - (cache.take n).length = n - cache.length := by
      rw [length_take]
      omega
    have hstatus : expectedRead (cache ++ bs.flatten) n =
        ((expectedRead bs.flatten (n - cache.length)).1,
          cache.take n ++ bs.flatten.take (n - cache.length)) := by
      rw [expectedRead, take_append, length_append]
      refine Prod.ext ?_ rfl
      dsimp only [expectedRead]
      congr 1
      exact propext (by omega)
    rw [readNBytes]
    dsimp only
    rw [hbytes, hleft, hstatus]
    exact hloop
  · rw [hahead, drop_append]
    by_cases hmore : n ≤ cache.length
    · rw [Nat.sub_eq_zero_of_le hmore, drop_zero, drop_append, Nat.sub_eq_zero_of_le hmore,
        drop_zero, length_drop, Nat.zero_sub, drop_zero]
    · rw [drop_of_length_le (by omega : cache.length ≤ n), drop_nil, length_nil, Nat.sub_zero,
        drop_append, drop_of_length_le (by omega : cache.length ≤ n)]
  · rw [← hwithin m, length_drop]
    have harith : n - cache.length + m - (cache.length - n) = n + m - cache.length := by omega
    rw [harith]

/-- One read that comes to a block that cannot be opened does not return what was written. -/
theorem readNBytes_fails (hcut : Z.RejectsTruncated) {s' : SnappyInputBuffer}
    (h : Holds Z c s cache bs) (n : ℕ) (hbad : ¬ GoodWithin Z c (n - cache.length) bs) :
    readNBytes Z n s ≠ some (expectedRead (cache ++ bs.flatten) n, s') := by
  intro hread
  obtain ⟨hbytes, h₁⟩ := h.readBytesFromCache n
  have hleft : n - (cache.take n).length = n - cache.length := by
    rw [length_take]
    omega
  rw [readNBytes] at hread
  dsimp only at hread
  rw [hbytes, hleft] at hread
  have hlength := readLoop_fails hZ hcut h₁ hbad hread
  dsimp only [expectedRead] at hlength
  rw [length_take, length_take, length_append] at hlength
  omega

/-- The reads are right exactly when they come to no block that cannot be opened. By induction on
the reads. -/
theorem reads_eq_iff (hcut : Z.RejectsTruncated) (sizes : List ℕ) (h : Holds Z c s cache bs) :
    reads Z sizes s = some (expectedReads (cache ++ bs.flatten) sizes) ↔
      GoodWithin Z c (sizes.sum - cache.length) bs := by
  induction sizes generalizing s cache bs with
  | nil =>
    rw [sum_nil, Nat.zero_sub]
    exact iff_of_true rfl goodWithin_zero
  | cons n ns ih =>
    rw [sum_cons, reads, expectedReads]
    by_cases hgood : GoodWithin Z c (n - cache.length) bs
    · obtain ⟨s', cache', bs', hread, h', hahead, hwithin⟩ := readNBytes_spec hZ h n hgood
      rw [hwithin, ← ih h', hread, bind_some, hahead]
      rw [map_eq_some_iff]
      exact ⟨fun ⟨rs, hrs, heq⟩ ↦ (cons.inj heq).2 ▸ hrs, fun hrs ↦ ⟨_, hrs, rfl⟩⟩
    · refine iff_of_false (fun hall ↦ ?_) fun hall ↦ hgood (hall.mono (by omega))
      obtain ⟨⟨r, s'⟩, hread, hrest⟩ := bind_eq_some_iff.1 hall
      obtain ⟨rs, -, heq⟩ := map_eq_some_iff.1 hrest
      obtain rfl := (cons.inj heq).1
      exact readNBytes_fails hZ hcut h n hgood hread

end Reads

/-! ### A capacity that is a negative `int` -/

section

variable {s : SnappyInputBuffer} (hint : ¬ s.intCapacity < 2 ^ 31) (hinput : s.input = [])
  (houtput : s.output = [])
include hint hinput houtput

/-- Nothing is read with a capacity that is negative as an `int`. -/
theorem readNBytes_eq_none {n : ℕ} (hpos : 0 < n) : readNBytes Z n s = none := by
  have hread : readFromFile s = none := by rw [readFromFile, if_pos (bytesToRead_neg hint hinput)]
  have hcache : readBytesFromCache n s = ([], s) := by
    obtain ⟨file, inputBufferCapacity, outputBufferCapacity, filePos, input, output⟩ := s
    obtain rfl : output = [] := houtput
    rw [readBytesFromCache, take_nil, drop_nil]
  have hinflate : inflate Z s = none := by
    rw [inflate, readCompressedBlockLength, hinput, length_nil, if_pos rfl, hread]
  rw [readNBytes, hcache]
  dsimp only
  rw [length_nil, Nat.sub_zero, readLoop, if_neg hpos.ne', hinflate, bind_none]

theorem reads_eq_iff_of_neg (data : ByteString) (sizes : List ℕ) :
    reads Z sizes s = some (expectedReads data sizes) ↔ sizes.sum = 0 := by
  induction sizes with
  | nil => exact iff_of_true rfl rfl
  | cons n ns ih =>
    rw [reads, sum_cons]
    rcases Nat.eq_zero_or_pos n with rfl | hpos
    · have hcache : readNBytes Z 0 s = some ((.ok, []), s) := rfl
      rw [Nat.zero_add, ← ih, hcache, bind_some, expectedReads, drop_zero]
      rw [map_eq_some_iff]
      exact ⟨fun ⟨rs, hrs, heq⟩ ↦ (cons.inj heq).2 ▸ hrs, fun hrs ↦ ⟨_, hrs, rfl⟩⟩
    · rw [readNBytes_eq_none hint hinput houtput hpos, bind_none]
      exact iff_of_false nofun (by omega)

end

/-! ### The round trip -/

/-- Writing strings to a new file, and reading it from its start in reads of the given sizes. -/
def RoundTrips (Z : Snappy) (datas : List ByteString) (writer : SnappyOutputBuffer)
    (inputBufferBytes outputBufferBytes : ℕ) (sizes : List ℕ) : Prop :=
  ∃ w, writes Z datas writer = (.ok, w) ∧
    reads Z sizes (init w.file inputBufferBytes outputBufferBytes) =
      some (expectedReads datas.flatten sizes)

/-- A reader of so many bytes of a file of these blocks needs a capacity that is no negative `int`,
and to come to no block that it cannot open. -/
def CanRead (Z : Snappy) (inputBufferBytes requested : ℕ) (bs : List ByteString) : Prop :=
  0 < requested → inputBufferBytes % 2 ^ 32 < 2 ^ 31 ∧
    GoodWithin Z (inputBufferBytes % 2 ^ 32) requested bs

theorem length_le_length_flatMap_encodeBlock (bs : List ByteString) :
    bs.length ≤ (bs.flatMap (encodeBlock Z)).length := by
  induction bs with
  | nil => exact le_rfl
  | cons b bs ih =>
    have hfour : (lengthBytes (compressed Z b).length).length = 4 := rfl
    rw [flatMap_cons, length_append, encodeBlock, length_append, hfour, length_cons]
    omega

/-- A new reader of a file of blocks. -/
theorem reads_init_iff (hZ : Z.Inverse) (hcut : Z.RejectsTruncated)
    {inputBufferBytes outputBufferBytes : ℕ} (hfits : ∀ b ∈ bs, b.length ≤ outputBufferBytes)
    (hnonempty : ∀ b ∈ bs, b ≠ []) (sizes : List ℕ) :
    reads Z sizes (init (bs.flatMap (encodeBlock Z)) inputBufferBytes outputBufferBytes) =
        some (expectedReads bs.flatten sizes) ↔ CanRead Z inputBufferBytes sizes.sum bs := by
  unfold CanRead
  by_cases hint : inputBufferBytes % 2 ^ 32 < 2 ^ 31
  · have hholds : Holds Z (inputBufferBytes % 2 ^ 32)
        (init (bs.flatMap (encodeBlock Z)) inputBufferBytes outputBufferBytes) [] bs :=
      ⟨rfl, hint, rfl, nil_append _, Nat.zero_le _, hfits, hnonempty,
        length_le_length_flatMap_encodeBlock bs⟩
    have hiff := reads_eq_iff hZ hcut sizes hholds
    rw [nil_append] at hiff
    rw [hiff]
    refine ⟨fun hgood _ ↦ ⟨hint, hgood⟩, fun hgood ↦ ?_⟩
    rcases Nat.eq_zero_or_pos sizes.sum with hzero | hpos
    · rw [hzero]
      exact goodWithin_zero
    · exact (hgood hpos).2
  · have hneg : ¬ (init (bs.flatMap (encodeBlock Z)) inputBufferBytes
      outputBufferBytes).intCapacity <
        2 ^ 31 := hint
    rw [reads_eq_iff_of_neg hneg rfl rfl]
    exact ⟨fun hzero hpos ↦ absurd hzero hpos.ne',
      fun hgood ↦ Nat.eq_zero_of_not_pos fun hpos ↦ hint (hgood hpos).1⟩

theorem roundTrips_iff_reads (hZ : Z.Inverse) (datas : List ByteString) (writerInput : ℕ)
    {writerOutput : ℕ} (hpos : 0 < writerOutput) (inputBufferBytes outputBufferBytes : ℕ)
    (sizes : List ℕ) :
    RoundTrips Z datas (SnappyOutputBuffer.init writerInput writerOutput hpos) inputBufferBytes
        outputBufferBytes sizes ↔
      reads Z sizes (init ((blocks writerInput datas).flatMap (encodeBlock Z)) inputBufferBytes
        outputBufferBytes) = some (expectedReads (blocks writerInput datas).flatten sizes) := by
  obtain ⟨w, hwrites, hfile⟩ := file_of_writes hZ datas writerInput hpos
  rw [flatten_blocks, ← hfile]
  constructor
  · rintro ⟨w', hwrites', hreads⟩
    obtain rfl := (Prod.mk.inj (hwrites.symm.trans hwrites')).2
    exact hreads
  · exact fun hreads ↦ ⟨w, hwrites, hreads⟩

/-- **The round trip of a Snappy stream.** Reads that together ask for `sizes.sum` bytes return what
was written, and `OutOfRange` once that is used up, exactly when they come to no block that the
reader cannot open. -/
theorem roundTrips_iff_canRead (hZ : Z.Inverse) (hcut : Z.RejectsTruncated)
    (datas : List ByteString) (writerInput : ℕ) {writerOutput : ℕ} (hpos : 0 < writerOutput)
    (inputBufferBytes : ℕ) {outputBufferBytes : ℕ}
    (hfits : ∀ b ∈ blocks writerInput datas, b.length ≤ outputBufferBytes) (sizes : List ℕ) :
    RoundTrips Z datas (SnappyOutputBuffer.init writerInput writerOutput hpos) inputBufferBytes
        outputBufferBytes sizes ↔
      CanRead Z inputBufferBytes sizes.sum (blocks writerInput datas) := by
  rw [roundTrips_iff_reads hZ datas writerInput hpos]
  exact reads_init_iff hZ hcut hfits (fun b hb ↦ ne_nil_of_mem_blocksFrom hb) sizes

/-- Two blocks, read back with the second read going past the end. -/
theorem roundTrips_abc :
    RoundTrips Snappy.literals [ascii "ab", ascii "c"] (SnappyOutputBuffer.init 2 8 (by decide)) 8 2
      [2, 2] := by
  refine (roundTrips_iff_canRead Snappy.literals_inverse Snappy.literals_rejectsTruncated _ 2
    (by decide) 8
    (by decide) [2, 2]).2 fun _ ↦ ⟨by decide, fun _ ↦ ⟨⟨by decide, ?_, ?_⟩,
      fun _ ↦ ⟨⟨by decide, ?_, ?_⟩, trivial⟩⟩⟩ <;>
    rw [Snappy.length_compressed_literals (by decide) (by decide)] <;> decide

/-- The bytes from 0 to 124, which have 128 bytes when they are compressed, are not read back. -/
theorem not_roundTrips_upTo125 :
    ¬ RoundTrips Snappy.literals [(List.range 125).map Nat.toUInt8]
      (SnappyOutputBuffer.init 256 256 (by decide)) 256 256 [125] := by
  generalize hx : (range 125).map Nat.toUInt8 = x
  have hlength : x.length = 125 := by rw [← hx, length_map, length_range]
  have hne : x ≠ [] := ne_nil_of_length_eq_add_one hlength
  have hblocks : blocks 256 [x] = [x] := by
    rw [blocks, blocksFrom, if_pos (by rw [hlength]; decide), nil_append, blocksFrom, block,
      if_neg hne]
  have hcompressed : (compressed Snappy.literals x).length = 128 := by
    rw [Snappy.length_compressed_literals hne (by rw [hlength]; decide), hlength]
    rfl
  rw [roundTrips_iff_reads Snappy.literals_inverse, hblocks,
    reads_init_iff Snappy.literals_inverse Snappy.literals_rejectsTruncated
      (forall_mem_singleton.2 (by rw [hlength]; decide)) (forall_mem_singleton.2 hne)]
  intro hcanRead
  have hopens := ((hcanRead (by decide)).2 (by decide)).1.lengthReadable
  rw [hcompressed] at hopens
  exact absurd hopens (by decide)

end SnappyInputBuffer

end TensorFlowCore
