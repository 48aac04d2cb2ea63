import TensorFlowCore.Core.Status
import TensorFlowCore.Support.Bytes
import TensorFlowCore.Support.OrderedEncoding

/-!
# `OrderedCode`

The order-preserving encoding of `tensorflow/core/lib/strings/ordered_code.cc`. A pointer into a
string is the part of the string that it points at; a reader that is passed a `result` appends to
it.

`orderedCode_tuples` is the contract of the format: writing the fields of a tuple one after the
other gives byte strings that are ordered as the tuples are, and reading the fields back returns
them and stops right behind the last one.
-/

namespace TensorFlowCore.OrderedCode

open List

def kEscape1 : UInt8 := 0x00
def kNullCharacter : UInt8 := 0xff
def kSeparator : UInt8 := 0x01
def kEscape2 : UInt8 := 0xff
def kFFCharacter : UInt8 := 0x00

/-- `IsSpecialByte`: `(unsigned char)(c + 1) < 2`, which holds of `0x00` and `0xff`. -/
def isSpecialByte (c : UInt8) : Bool := c + 1 < 2

/-- `SkipToNextSpecialByte(start, limit)`, where `limit` is `n` bytes behind `start`: the bytes it
skips and the rest, from the returned pointer on. -/
def skipToNextSpecialByte : ℕ → ByteString → ByteString × ByteString
  | n + 1, c :: s =>
    if isSpecialByte c then ([], c :: s)
    else
      let skipped := skipToNextSpecialByte n s
      (c :: skipped.1, skipped.2)
  | _, s => ([], s)

theorem length_skipToNextSpecialByte_le (n : ℕ) (s : ByteString) :
    (skipToNextSpecialByte n s).2.length ≤ s.length := by
  fun_induction skipToNextSpecialByte n s with
  | case1 n c s h => exact le_rfl
  | case2 n c s h skipped ih => exact ih.trans (Nat.le_succ _)
  | case3 n s h => exact le_rfl

/-- `EncodeStringFragment(dest, s)`. At the head of the loop `copy_start` and `p` are the same
pointer, so one run of ordinary bytes is copied, with the escaped byte behind it, per round. -/
def encodeStringFragment (dest s : ByteString) : ByteString :=
  let skipped := skipToNextSpecialByte s.length s
  match _h : skipped.2 with
  | [] => dest ++ skipped.1
  | c :: rest =>
    if c = kEscape1 then
      encodeStringFragment (dest ++ skipped.1 ++ [kEscape1] ++ [kNullCharacter]) rest
    else
      encodeStringFragment (dest ++ skipped.1 ++ [kEscape2] ++ [kFFCharacter]) rest
termination_by s.length
decreasing_by
  all_goals
    have hle := length_skipToNextSpecialByte_le s.length s
    rw [show (skipToNextSpecialByte s.length s).2 = c :: rest from _h, List.length_cons] at hle
    exact hle

/-- `OrderedCode::WriteString`. -/
def writeString (dest s : ByteString) : ByteString :=
  encodeStringFragment dest s ++ [kEscape1, kSeparator]

/-- The loop of `WriteNumIncreasing`: the bytes of `buf` that are filled so far, from the front. -/
def writeNumLoop (val : UInt64) (buf : ByteString) : ByteString :=
  if 0 < val then writeNumLoop (val >>> 8) ((val &&& 0xff).toUInt8 :: buf) else buf
termination_by val.toNat
decreasing_by
  have hpos : 0 < val.toNat := UInt64.lt_iff_toNat_lt.1 ‹0 < val›
  rw [toNat_shiftRight_eight]
  exact Nat.div_lt_self hpos (by decide)

/-- `OrderedCode::WriteNumIncreasing`: a length byte and the number, its most significant byte
first and without leading zeros. -/
def writeNumIncreasing (dest : ByteString) (val : UInt64) : ByteString :=
  let buf := writeNumLoop val []
  dest ++ buf.length.toUInt8 :: buf

/-- `ReadStringInternal(src, result)`: `none` where the source returns `false`, and otherwise the
extended `result` and what is left of `src`. The scan stops one byte before the end, so the byte
behind an escape can always be read. -/
def readString (src result : ByteString) : Option (ByteString × ByteString) :=
  let skipped := skipToNextSpecialByte (src.length - 1) src
  match h : skipped.2 with
  | c :: next :: rest =>
    if c = kEscape1 then
      if next = kSeparator then some (result ++ skipped.1, rest)
      else if next = kNullCharacter then readString rest (result ++ skipped.1 ++ [0x00])
      else none
    else if next = kFFCharacter then readString rest (result ++ skipped.1 ++ [0xff])
    else none
  | _ => none
termination_by src.length
decreasing_by
  all_goals
    have hle := length_skipToNextSpecialByte_le (src.length - 1) src
    rw [show (skipToNextSpecialByte (src.length - 1) src).2 = c :: next :: rest from h,
      List.length_cons, List.length_cons] at hle
    omega

/-- The payload loop of `ReadNumIncreasing`. -/
def readNumLoop (payload : ByteString) : UInt64 :=
  payload.foldl (fun tmp b ↦ tmp <<< 8 ||| b.toUInt64) 0

/-- `OrderedCode::ReadNumIncreasing`. -/
def readNumIncreasing : ByteString → Option (UInt64 × ByteString)
  | [] => none
  | b :: payload =>
    let len := b.toNat
    if len + 1 > payload.length + 1 ∨ len > 8 then none
    else some (readNumLoop (payload.take len), payload.drop len)

/-! ### Strings -/

/-- The two-byte escapes of the format. -/
def escapeByte (c : UInt8) : ByteString :=
  if c = kEscape1 then [kEscape1, kNullCharacter]
  else if c = kEscape2 then [kEscape2, kFFCharacter]
  else [c]

theorem isSpecialByte_iff (c : UInt8) : isSpecialByte c = true ↔ c = kEscape1 ∨ c = kEscape2 := by
  have hc : c.toNat < 256 := c.toNat_lt
  simp only [isSpecialByte, decide_eq_true_eq, UInt8.lt_iff_toNat_lt, UInt8.toNat_add,
    ← UInt8.toNat_inj, kEscape1, kEscape2]
  show (c.toNat + 1) % 256 < 2 ↔ c.toNat = 0 ∨ c.toNat = 255
  omega

theorem skipToNextSpecialByte_special {c : UInt8} (hc : isSpecialByte c) (n : ℕ) (s : ByteString) :
    skipToNextSpecialByte n (c :: s) = ([], c :: s) := by
  rcases n with - | n
  · rfl
  · rw [skipToNextSpecialByte, if_pos hc]

theorem skipToNextSpecialByte_ordinary {c : UInt8} (hc : ¬isSpecialByte c) (n : ℕ)
    (s : ByteString) : skipToNextSpecialByte (n + 1) (c :: s) =
      (c :: (skipToNextSpecialByte n s).1, (skipToNextSpecialByte n s).2) := by
  rw [skipToNextSpecialByte, if_neg hc]

/-- One round of `EncodeStringFragment`. -/
theorem encodeStringFragment_round (dest s : ByteString) :
    encodeStringFragment dest s = match skipToNextSpecialByte s.length s with
      | (run, []) => dest ++ run
      | (run, c :: rest) =>
        if c = kEscape1 then
          encodeStringFragment (dest ++ run ++ [kEscape1] ++ [kNullCharacter]) rest
        else encodeStringFragment (dest ++ run ++ [kEscape2] ++ [kFFCharacter]) rest := by
  obtain ⟨run, rest, hskip⟩ : ∃ run rest, skipToNextSpecialByte s.length s = (run, rest) :=
    ⟨_, _, rfl⟩
  rw [hskip]
  rw [encodeStringFragment]
  split
  · rename_i hrest
    obtain rfl : rest = [] := by rw [← hrest, hskip]
    simp only [hskip]
  · rename_i c rest' hrest
    obtain rfl : rest = c :: rest' := by rw [← hrest, hskip]
    simp only [hskip]

/-- The runs of `EncodeStringFragment` can be cut anywhere: it encodes byte by byte. -/
theorem encodeStringFragment_cons (dest : ByteString) (c : UInt8) (s : ByteString) :
    encodeStringFragment dest (c :: s) = encodeStringFragment (dest ++ escapeByte c) s := by
  by_cases hc : isSpecialByte c
  · rw [encodeStringFragment_round, skipToNextSpecialByte_special hc]
    obtain rfl | rfl := (isSpecialByte_iff c).1 hc
    · simp [escapeByte]
    · simp [escapeByte, kEscape1, kEscape2]
  · obtain ⟨h₁, h₂⟩ := not_or.1 (mt (isSpecialByte_iff c).2 hc)
    rw [encodeStringFragment_round, length_cons, skipToNextSpecialByte_ordinary hc,
      encodeStringFragment_round, escapeByte, if_neg h₁, if_neg h₂]
    obtain ⟨run, - | ⟨b, rest⟩⟩ := skipToNextSpecialByte s.length s
    · simp only [append_assoc, singleton_append]
    · simp only [append_assoc, nil_append, cons_append]

theorem encodeStringFragment_eq (dest s : ByteString) :
    encodeStringFragment dest s = dest ++ s.flatMap escapeByte := by
  induction s generalizing dest with
  | nil =>
    rw [encodeStringFragment]
    simp [skipToNextSpecialByte]
  | cons c s ih =>
    rw [encodeStringFragment_cons, ih, flatMap_cons, append_assoc]

theorem writeString_eq (dest s : ByteString) :
    writeString dest s = dest ++ (s.flatMap escapeByte ++ [kEscape1, kSeparator]) := by
  rw [writeString, encodeStringFragment_eq, append_assoc]

/-- One round of `ReadStringInternal`. -/
theorem readString_round (src result : ByteString) :
    readString src result = match skipToNextSpecialByte (src.length - 1) src with
      | (run, c :: next :: rest) =>
        if c = kEscape1 then
          if next = kSeparator then some (result ++ run, rest)
          else if next = kNullCharacter then readString rest (result ++ run ++ [0x00])
          else none
        else if next = kFFCharacter then readString rest (result ++ run ++ [0xff])
        else none
      | _ => none := by
  obtain ⟨run, rest, hskip⟩ :
      ∃ run rest, skipToNextSpecialByte (src.length - 1) src = (run, rest) := ⟨_, _, rfl⟩
  rw [hskip]
  rw [readString]
  split
  · rename_i c next rest' hrest
    obtain rfl : rest = c :: next :: rest' := by rw [← hrest, hskip]
    simp only [hskip]
  · rename_i hshort
    rcases rest with - | ⟨c, - | ⟨next, rest⟩⟩
    · rfl
    · rfl
    · exact (hshort c next rest (by rw [hskip])).elim

/-- One escaped byte in front of more input is read as that byte. -/
theorem readString_escapeByte (c : UInt8) (src result : ByteString) (hsrc : src ≠ []) :
    readString (escapeByte c ++ src) result = readString src (result ++ [c]) := by
  obtain ⟨b, rest, rfl⟩ := exists_cons_of_ne_nil hsrc
  by_cases hc : isSpecialByte c
  · obtain rfl | rfl := (isSpecialByte_iff c).1 hc
    · show readString (kEscape1 :: kNullCharacter :: b :: rest) result = _
      rw [readString_round, skipToNextSpecialByte_special hc]
      simp [kEscape1, kNullCharacter, kSeparator]
    · show readString (kEscape2 :: kFFCharacter :: b :: rest) result = _
      rw [readString_round, skipToNextSpecialByte_special hc]
      simp [kEscape1, kEscape2, kFFCharacter]
  · obtain ⟨h₁, h₂⟩ := not_or.1 (mt (isSpecialByte_iff c).2 hc)
    rw [escapeByte, if_neg h₁, if_neg h₂, singleton_append, readString_round,
      readString_round (b :: rest), length_cons, length_cons, Nat.add_sub_cancel,
      skipToNextSpecialByte_ordinary hc, Nat.add_sub_cancel]
    obtain ⟨run, - | ⟨c', - | ⟨next, rest⟩⟩⟩ := skipToNextSpecialByte rest.length (b :: rest)
    · rfl
    · rfl
    · simp only [append_assoc, nil_append, cons_append]

theorem readString_separator (src result : ByteString) :
    readString ([kEscape1, kSeparator] ++ src) result = some (result, src) := by
  rw [readString]
  simp [skipToNextSpecialByte, isSpecialByte, kEscape1, kSeparator]

theorem readString_append (s suffix result : ByteString) :
    readString (s.flatMap escapeByte ++ [kEscape1, kSeparator] ++ suffix) result =
      some (result ++ s, suffix) := by
  induction s generalizing result with
  | nil => simpa using readString_separator suffix result
  | cons c s ih =>
    rw [flatMap_cons, append_assoc, append_assoc, readString_escapeByte c _ _ (by simp),
      ← append_assoc, ih, append_assoc]
    rfl

theorem orderedEncoding_escapeByte : OrderedEncoding escapeByte := by
  intro a b hab
  have hlt : a.toNat < b.toNat := UInt8.lt_iff_toNat_lt.1 hab
  have hb : b ≠ kEscape1 := by
    rintro rfl
    exact absurd hlt (Nat.not_lt_zero _)
  have ha : a ≠ kEscape2 := by
    rintro rfl
    exact absurd b.toNat_lt (Nat.not_lt.2 hlt)
  obtain ⟨u, hu⟩ : ∃ u, escapeByte a = a :: u := by
    by_cases h : a = kEscape1
    · exact ⟨_, by rw [escapeByte, if_pos h, h]⟩
    · exact ⟨[], by rw [escapeByte, if_neg h, if_neg ha]⟩
  obtain ⟨v, hv⟩ : ∃ v, escapeByte b = b :: v := by
    by_cases h : b = kEscape2
    · exact ⟨_, by rw [escapeByte, if_neg hb, if_pos h, h]⟩
    · exact ⟨[], by rw [escapeByte, if_neg hb, if_neg h]⟩
  rw [hu, hv]
  exact below_cons_of_lt hab u v

/-- The separator is below every escaped byte: below `0x00` by its second byte. -/
theorem below_separator (c : UInt8) : Below [kEscape1, kSeparator] (escapeByte c) := by
  by_cases h₁ : c = kEscape1
  · rw [escapeByte, if_pos h₁]
    exact (below_cons_of_lt (by decide) [] []).cons kEscape1
  · have hpos : kEscape1 < c := by
      refine UInt8.lt_iff_toNat_lt.2 (Nat.pos_of_ne_zero fun h ↦ h₁ ?_)
      exact UInt8.toNat_inj.1 h
    by_cases h₂ : c = kEscape2
    · rw [escapeByte, if_neg h₁, if_pos h₂, ← h₂]
      exact below_cons_of_lt hpos _ _
    · rw [escapeByte, if_neg h₁, if_neg h₂]
      exact below_cons_of_lt hpos _ _

theorem orderedEncoding_writeString : OrderedEncoding (writeString []) := by
  have h := orderedEncoding_flatMap orderedEncoding_escapeByte below_separator
  intro x y hxy
  rw [writeString_eq, writeString_eq]
  exact h hxy

/-! ### Numbers -/

theorem bigEndian_writeNumLoop (val : UInt64) (buf : ByteString) :
    bigEndian (writeNumLoop val buf) = val.toNat * 256 ^ buf.length + bigEndian buf := by
  fun_induction writeNumLoop val buf with
  | case1 val buf hpos ih =>
    have hdiv : val.toNat / 256 * 256 + val.toNat % 256 = val.toNat := Nat.div_add_mod' _ _
    rw [ih, toNat_shiftRight_eight, bigEndian, toNat_and_ff, length_cons, Nat.pow_succ]
    calc val.toNat / 256 * (256 ^ buf.length * 256) +
          (val.toNat % 256 * 256 ^ buf.length + bigEndian buf)
        = (val.toNat / 256 * 256 + val.toNat % 256) * 256 ^ buf.length + bigEndian buf := by ring
      _ = val.toNat * 256 ^ buf.length + bigEndian buf := by rw [hdiv]
  | case2 val buf hpos =>
    have hzero : val.toNat = 0 := Nat.eq_zero_of_not_pos fun h ↦ hpos (UInt64.lt_iff_toNat_lt.2 h)
    rw [hzero, Nat.zero_mul, Nat.zero_add]

/-- A number below `256 ^ k` is written in at most `k` bytes. -/
theorem length_writeNumLoop_le (val : UInt64) (buf : ByteString) {k : ℕ}
    (h : val.toNat < 256 ^ k) : (writeNumLoop val buf).length ≤ buf.length + k := by
  fun_induction writeNumLoop val buf generalizing k with
  | case1 val buf hpos ih =>
    rcases k with - | k
    · have hval : 0 < val.toNat := UInt64.lt_iff_toNat_lt.1 hpos
      rw [Nat.pow_zero] at h
      omega
    · have hlt : (val >>> 8).toNat < 256 ^ k := by
        rw [toNat_shiftRight_eight]
        exact Nat.div_lt_of_lt_mul (by rwa [Nat.pow_succ, Nat.mul_comm] at h)
      have hle := ih hlt
      rw [length_cons] at hle
      omega
  | case2 val buf hpos => exact Nat.le_add_right _ _

theorem length_writeNumLoop_le_eight (val : UInt64) : (writeNumLoop val []).length ≤ 8 := by
  simpa using length_writeNumLoop_le val [] (k := 8) val.toNat_lt

theorem bigEndian_writeNumLoop_nil (val : UInt64) :
    bigEndian (writeNumLoop val []) = val.toNat := by
  rw [bigEndian_writeNumLoop]
  simp [bigEndian]

theorem toNat_length_writeNumLoop (val : UInt64) :
    (writeNumLoop val []).length.toUInt8.toNat = (writeNumLoop val []).length := by
  have h := length_writeNumLoop_le_eight val
  exact Nat.mod_eq_of_lt (by omega)

theorem writeNumIncreasing_eq (dest : ByteString) (val : UInt64) :
    writeNumIncreasing dest val = dest ++ writeNumIncreasing [] val := rfl

/-- A smaller number has no longer payload; with payloads of one length the bytes decide. -/
theorem orderedEncoding_writeNumIncreasing : OrderedEncoding (writeNumIncreasing []) := by
  intro m n hmn
  have hlt : m.toNat < n.toNat := UInt64.lt_iff_toNat_lt.1 hmn
  have hle : (writeNumLoop m []).length ≤ (writeNumLoop n []).length := by
    have hn := bigEndian_lt (writeNumLoop n [])
    rw [bigEndian_writeNumLoop_nil] at hn
    simpa using length_writeNumLoop_le m [] (hlt.trans hn)
  obtain hlen | hlen := hle.lt_or_eq
  · refine below_cons_of_lt (UInt8.lt_iff_toNat_lt.2 ?_) _ _
    rw [toNat_length_writeNumLoop, toNat_length_writeNumLoop]
    exact hlen
  · have hbelow : Below (writeNumLoop m []) (writeNumLoop n []) := by
      refine below_of_length_eq hlen (lt_of_bigEndian_lt hlen ?_)
      rw [bigEndian_writeNumLoop_nil, bigEndian_writeNumLoop_nil]
      exact hlt
    show Below (_ :: _) (_ :: _)
    rw [hlen]
    exact hbelow.cons _

/-- The payload loop of the reader computes the number as long as it has at most eight bytes. -/
theorem toNat_readNumLoop (payload : ByteString) (h : payload.length ≤ 8) :
    (readNumLoop payload).toNat = bigEndian payload := by
  induction payload using reverseRecOn with
  | nil => rfl
  | append_singleton payload b ih =>
    rw [length_append, length_singleton] at h
    have hval := ih (by omega)
    have hbound : (readNumLoop payload).toNat < 2 ^ 56 := by
      rw [hval]
      calc bigEndian payload < 256 ^ payload.length := bigEndian_lt payload
        _ ≤ 256 ^ 7 := Nat.pow_le_pow_right (by decide) (by omega)
        _ = 2 ^ 56 := by norm_num
    rw [readNumLoop, foldl_append]
    show (readNumLoop payload <<< 8 ||| b.toUInt64).toNat = _
    rw [toNat_shiftLeft_or _ _ hbound, hval, bigEndian_append]

theorem readNumIncreasing_append (val : UInt64) (suffix : ByteString) :
    readNumIncreasing (writeNumIncreasing [] val ++ suffix) = some (val, suffix) := by
  have hlen := length_writeNumLoop_le_eight val
  simp only [writeNumIncreasing, nil_append, cons_append, readNumIncreasing,
    toNat_length_writeNumLoop]
  rw [if_neg (by rw [length_append]; omega), take_left, drop_left]
  have hval : readNumLoop (writeNumLoop val []) = val := by
    apply UInt64.toNat_inj.1
    rw [toNat_readNumLoop _ hlen, bigEndian_writeNumLoop_nil]
  rw [hval]

/-! ### Tuples -/

/-- The kinds of field that a tuple may have. -/
inductive Kind where
  | string
  | num
  deriving DecidableEq

/-- A field of a kind: any byte string, any `uint64`. -/
abbrev Field : Kind → Type
  | .string => ByteString
  | .num => UInt64

/-- A tuple with fields of the given kinds. -/
abbrev Tuple : List Kind → Type
  | [] => Unit
  | k :: ks => Field k × Tuple ks

/-- The order of the values of one kind. -/
def Field.Lt : (k : Kind) → Field k → Field k → Prop
  | .string, x, y => x < y
  | .num, m, n => m < n

/-- The lexicographic order of tuples: the first field that differs decides. -/
def Tuple.Lt : (ks : List Kind) → Tuple ks → Tuple ks → Prop
  | [], _, _ => False
  | k :: ks, (a, t), (b, u) => Field.Lt k a b ∨ a = b ∧ Tuple.Lt ks t u

/-- Appends a field with the writer of its kind. -/
def writeField (dest : ByteString) : (k : Kind) → Field k → ByteString
  | .string, s => writeString dest s
  | .num, val => writeNumIncreasing dest val

/-- Appends the fields of a tuple one after the other. -/
def writeTuple (dest : ByteString) : (ks : List Kind) → Tuple ks → ByteString
  | [], _ => dest
  | k :: ks, (a, t) => writeTuple (writeField dest k a) ks t

/-- Reads a field with the reader of its kind, into an empty result. -/
def readField (src : ByteString) : (k : Kind) → Option (Field k × ByteString)
  | .string => readString src []
  | .num => readNumIncreasing src

/-- Reads the fields of a tuple one after the other. -/
def readTuple (src : ByteString) : (ks : List Kind) → Option (Tuple ks × ByteString)
  | [] => some ((), src)
  | k :: ks => do
    let (a, rest) ← readField src k
    let (t, rest) ← readTuple rest ks
    return ((a, t), rest)

theorem writeField_eq (dest : ByteString) (k : Kind) (a : Field k) :
    writeField dest k a = dest ++ writeField [] k a := by
  cases k with
  | string =>
    show writeString dest a = dest ++ writeString [] a
    rw [writeString_eq, writeString_eq [], nil_append]
  | num => exact writeNumIncreasing_eq dest a

theorem writeTuple_eq (dest : ByteString) (ks : List Kind) (t : Tuple ks) :
    writeTuple dest ks t = dest ++ writeTuple [] ks t := by
  induction ks generalizing dest with
  | nil => exact (append_nil dest).symm
  | cons k ks ih =>
    obtain ⟨a, t⟩ := t
    show writeTuple (writeField dest k a) ks t = dest ++ writeTuple (writeField [] k a) ks t
    rw [ih (writeField dest k a), ih (writeField [] k a), writeField_eq dest, append_assoc]

theorem writeTuple_cons (k : Kind) (ks : List Kind) (a : Field k) (t : Tuple ks) :
    writeTuple [] (k :: ks) (a, t) = writeField [] k a ++ writeTuple [] ks t :=
  writeTuple_eq (writeField [] k a) ks t

theorem writeField_append_lt_iff (k : Kind) (a b : Field k) (u v : ByteString) :
    writeField [] k a ++ u < writeField [] k b ++ v ↔ Field.Lt k a b ∨ a = b ∧ u < v := by
  cases k with
  | string =>
    exact orderedEncoding_writeString.append_lt_append_iff (by grind) a b u v
  | num =>
    exact orderedEncoding_writeNumIncreasing.append_lt_append_iff (by grind) a b u v

theorem readField_append (k : Kind) (a : Field k) (suffix : ByteString) :
    readField (writeField [] k a ++ suffix) k = some (a, suffix) := by
  cases k with
  | string =>
    show readString (writeString [] a ++ suffix) [] = some (a, suffix)
    rw [writeString_eq, nil_append, readString_append, nil_append]
  | num => exact readNumIncreasing_append a suffix

theorem writeTuple_lt_iff (ks : List Kind) (t u : Tuple ks) :
    writeTuple [] ks t < writeTuple [] ks u ↔ Tuple.Lt ks t u := by
  induction ks with
  | nil => exact ⟨fun h ↦ absurd h (not_lt_nil _), False.elim⟩
  | cons k ks ih =>
    obtain ⟨a, t⟩ := t
    obtain ⟨b, u⟩ := u
    rw [writeTuple_cons, writeTuple_cons, writeField_append_lt_iff, ih]
    rfl

theorem readTuple_append (ks : List Kind) (t : Tuple ks) (suffix : ByteString) :
    readTuple (writeTuple [] ks t ++ suffix) ks = some (t, suffix) := by
  induction ks with
  | nil => rfl
  | cons k ks ih =>
    obtain ⟨a, t⟩ := t
    rw [writeTuple_cons, append_assoc, readTuple, readField_append]
    simp [ih]

/-- The encodings of two tuples are ordered as the tuples are, and the fields are read back from
the encoding, whatever follows it. -/
theorem orderedCode_tuples (ks : List Kind) :
    (∀ t u : Tuple ks, writeTuple [] ks t < writeTuple [] ks u ↔ Tuple.Lt ks t u) ∧
      ∀ (t : Tuple ks) (suffix : ByteString),
        readTuple (writeTuple [] ks t ++ suffix) ks = some (t, suffix) :=
  ⟨writeTuple_lt_iff ks, readTuple_append ks⟩

end TensorFlowCore.OrderedCode
