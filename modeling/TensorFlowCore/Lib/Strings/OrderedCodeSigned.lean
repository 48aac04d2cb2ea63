import Mathlib.Tactic.IntervalCases
import TensorFlowCore.Lib.Core.Coding
import TensorFlowCore.Lib.Strings.OrderedCode

/-!
# Signed numbers of `OrderedCode`

`OrderedCode::WriteSignedNumIncreasing` and `ReadSignedNumIncreasing`. A number of which the bits
fit is written in `n` bytes: `n` bits that are the opposite of the sign, one bit that is the sign,
and `7 * n - 1` bits of the number in two's complement.
-/

namespace TensorFlowCore.OrderedCode

open List

/-- The header bits in the first two bytes, by the length. -/
def kLengthToHeaderBits : List (UInt8 × UInt8) :=
  [(0, 0), (0x80, 0), (0xc0, 0), (0xe0, 0), (0xf0, 0), (0xf8, 0), (0xfc, 0), (0xfe, 0), (0xff, 0),
    (0xff, 0x80),
    (0xff, 0xc0)]

/-- The header bits that overlap with the payload, by the length. -/
def kLengthToMask : List UInt64 :=
  [0, 0x80, 0xc000, 0xe00000, 0xf0000000, 0xf800000000, 0xfc0000000000, 0xfe000000000000,
    0xff00000000000000,
    0x8000000000000000, 0]

/-- The length, by the number of bits. -/
def kBitsToLength : List ℕ :=
  [1, 1, 1, 1, 1, 1, 1, 2, 2, 2, 2, 2, 2, 2, 3, 3, 3, 3, 3, 3, 3, 4, 4, 4, 4, 4, 4, 4, 5, 5, 5, 5,
    5, 5, 5, 6, 6, 6, 6, 6, 6,
    6, 7, 7, 7, 7, 7, 7, 7, 8, 8, 8, 8, 8, 8, 8, 9, 9, 9, 9, 9, 9, 9, 10]

/-- `Log2Floor64`. -/
def log2Floor64 (n : UInt64) : ℤ := if n = 0 then -1 else Nat.log2 n.toNat

/-- `SignedEncodingLength`. -/
def signedEncodingLength (n : Int64) : ℕ :=
  kBitsToLength.getD (log2Floor64 (if n < 0 then ~~~n else n).toUInt64 + 1).toNat 0

/-- `StoreBigEndian64`. -/
def storeBigEndian64 (v : UInt64) : ByteString :=
  (List.range 8).map fun i ↦ ((v >>> (56 - 8 * i).toUInt64) &&& 0xff).toUInt8

/-- The loop of `LoadBigEndian64`, for the bytes that are still to come. -/
def loadBigEndian64Loop : ℕ → (result : UInt64) → ByteString → UInt64
  | i + 1, result, c :: src =>
    loadBigEndian64Loop i (result ||| (c.toUInt64 <<< (8 * i).toUInt64)) src
  | _, result, _ => result

/-- `LoadBigEndian64`. -/
def loadBigEndian64 (src : ByteString) : UInt64 := loadBigEndian64Loop 8 0 src

/-- Setting the header bits in the first two bytes, or removing them. -/
def xorHeaderBits (len : ℕ) : ByteString → ByteString
  | b₀ :: b₁ :: rest =>
    (b₀ ^^^ (kLengthToHeaderBits.getD len (0, 0)).1) ::
      (b₁ ^^^ (kLengthToHeaderBits.getD len (0, 0)).2) :: rest
  | begin => begin

/-- `OrderedCode::WriteSignedNumIncreasing`. -/
def writeSignedNumIncreasing (dest : ByteString) (val : Int64) : ByteString :=
  let x : UInt64 := (if val < 0 then ~~~val else val).toUInt64
  if x < 64 then dest ++ [(kLengthToHeaderBits.getD 1 (0, 0)).1 ^^^ val.toUInt64.toUInt8]
  else
    let signByte : UInt8 := if val < 0 then 0xff else 0
    let buf := signByte :: signByte :: storeBigEndian64 val.toUInt64
    let len := signedEncodingLength x.toInt64
    dest ++ xorHeaderBits len (buf.drop (buf.length - len))

/-- The length of an encoding with seven header bits or more in its first byte, of which at least
eight bytes are there. -/
def longEncodingLength (xorMask : UInt64) (src : ByteString) : Option ℕ :=
  let secondByte := src.getD 1 0 ^^^ (xorMask &&& 0xff).toUInt8
  if 0x80 ≤ secondByte then
    if secondByte < 0xc0 then some 9
    else
      let thirdByte := src.getD 2 0 ^^^ (xorMask &&& 0xff).toUInt8
      if secondByte = 0xc0 ∧ thirdByte < 0x80 then some 10 else none
  else some 8

/-- `OrderedCode::ReadSignedNumIncreasing`: `none` where the source returns `false`, and otherwise
the number and what is left of `src`. -/
def readSignedNumIncreasing : ByteString → Option (Int64 × ByteString)
  | [] => none
  | c :: s =>
    let src := c :: s
    let xorMask : UInt64 := if c &&& 0x80 = 0 then ~~~0 else 0
    let firstByte := c ^^^ (xorMask &&& 0xff).toUInt8
    if firstByte ≠ 0xff then
      let len := (7 - log2Floor64 (firstByte ^^^ 0xff).toUInt64).toNat
      if src.length < len then none
      else
        let x := (src.take len).foldl (fun (x : UInt64) b ↦ x <<< 8 ||| b.toUInt64) xorMask
        some ((x ^^^ kLengthToMask.getD len 0).toInt64, src.drop len)
    else if src.length < 8 then none
    else
      match longEncodingLength xorMask src with
      | none => none
      | some len =>
        if src.length < len then none
        else
          let x := loadBigEndian64 (src.drop (len - 8))
          some ((x ^^^ kLengthToMask.getD len 0).toInt64, src.drop len)

/-! ### Bits -/

/-- Below the bits of one number those of another one are set by a sum. -/
theorem two_pow_mul_xor {a m i : ℕ} (hm : m < 2 ^ i) : 2 ^ i * a ^^^ m = 2 ^ i * a + m := by
  apply Nat.eq_of_testBit_eq
  intro j
  rw [Nat.testBit_xor, Nat.testBit_two_pow_mul_add a hm, Nat.testBit_two_pow_mul]
  rcases Nat.lt_or_ge j i with hj | hj
  · rw [if_pos hj, decide_eq_false (Nat.not_le.2 hj), Bool.false_and, Bool.false_xor]
  · have hmj : m.testBit j = false :=
      Nat.testBit_lt_two_pow (hm.trans_le (Nat.pow_le_pow_right (by decide) hj))
    rw [if_neg (Nat.not_lt.2 hj), decide_eq_true hj, Bool.true_and, hmj, Bool.xor_false]

theorem toNat_xor_of_lt {h b : UInt8} {i a : ℕ} (hh : h.toNat = 2 ^ i * a) (hb : b.toNat < 2 ^ i) :
    (b ^^^ h).toNat = b.toNat + h.toNat := by
  rw [UInt8.toNat_xor, Nat.xor_comm, hh, two_pow_mul_xor hb, Nat.add_comm]

/-- The number of bits of a number that is not negative. -/
theorem bits_spec {x : UInt64} (hx : x.toNat < 2 ^ 63) :
    (log2Floor64 x + 1).toNat < 64 ∧ x.toNat < 2 ^ (log2Floor64 x + 1).toNat ∧
      ((log2Floor64 x + 1).toNat = 0 ∨ 2 ^ ((log2Floor64 x + 1).toNat - 1) ≤ x.toNat) := by
  rw [log2Floor64]
  split
  · rename_i hzero
    rw [hzero]
    decide
  · rename_i hne
    have hne' : x.toNat ≠ 0 := fun h ↦ hne (UInt64.toNat_inj.1 h)
    have hbits : ((Nat.log2 x.toNat : ℤ) + 1).toNat = Nat.log2 x.toNat + 1 := by omega
    rw [hbits, Nat.add_sub_cancel]
    refine ⟨?_, Nat.lt_log2_self, .inr (Nat.log2_self_le hne')⟩
    have := (Nat.log2_lt hne').2 hx
    omega

/-- A number is written in `n` bytes, and not in fewer. -/
structure WrittenIn (m n : ℕ) : Prop where
  pos : 1 ≤ n
  le_ten : n ≤ 10
  lt : m < 2 ^ (7 * n - 1)
  least : n = 1 ∨ 2 ^ (7 * (n - 1) - 1) ≤ m

theorem kBitsToLength_spec :
    ∀ bits < 64, 1 ≤ kBitsToLength.getD bits 0 ∧ kBitsToLength.getD bits 0 ≤ 10 ∧
    bits ≤ 7 * kBitsToLength.getD bits 0 - 1 ∧
      (kBitsToLength.getD bits 0 = 1 ∨ 7 * (kBitsToLength.getD bits 0 - 1) - 1 < bits) := by
  decide +kernel

theorem not_lt_zero_toInt64 {x : UInt64} (hx : x.toNat < 2 ^ 63) : ¬x.toInt64 < 0 := by
  rw [Int64.lt_iff_toInt_lt]
  show ¬x.toBitVec.toInt < 0
  rw [BitVec.toInt_eq_toNat_cond]
  have : x.toBitVec.toNat = x.toNat := rfl
  rw [if_pos (by omega)]
  omega

theorem writtenIn_signedEncodingLength {x : UInt64} (hx : x.toNat < 2 ^ 63) :
    WrittenIn x.toNat (signedEncodingLength x.toInt64) := by
  obtain ⟨hlt, hbits, hleast⟩ := bits_spec hx
  rw [signedEncodingLength, if_neg (not_lt_zero_toInt64 hx), UInt64.toUInt64_toInt64]
  obtain ⟨hpos, hle, hfit, hmin⟩ := kBitsToLength_spec _ hlt
  refine ⟨hpos, hle, hbits.trans_le (Nat.pow_le_pow_right (by decide) hfit),
    hmin.imp_right fun h ↦ ?_⟩
  rcases hleast with hzero | hge
  · omega
  · exact (Nat.pow_le_pow_right (by decide) (by omega)).trans hge

theorem storeBigEndian64_eq (v : UInt64) : storeBigEndian64 v =
    [((v >>> 56) &&& 0xff).toUInt8, ((v >>> 48) &&& 0xff).toUInt8, ((v >>> 40) &&& 0xff).toUInt8,
      ((v >>> 32) &&& 0xff).toUInt8, ((v >>> 24) &&& 0xff).toUInt8, ((v >>> 16) &&& 0xff).toUInt8,
      ((v >>> 8) &&& 0xff).toUInt8, ((v >>> 0) &&& 0xff).toUInt8] := rfl

theorem bigEndian_storeBigEndian64 (v : UInt64) : bigEndian (storeBigEndian64 v) = v.toNat := by
  have hv : v.toNat % 256 ^ 8 = v.toNat := Nat.mod_eq_of_lt v.toNat_lt
  simp only [Nat.mod_pow_succ] at hv
  have hbyte := toNat_byte64 v
  rw [storeBigEndian64_eq]
  simp only [bigEndian, hbyte 56 (by decide), hbyte 48 (by decide), hbyte 40 (by decide),
    hbyte 32 (by decide), hbyte 24 (by decide), hbyte 16 (by decide), hbyte 8 (by decide),
    hbyte 0 (by decide), UInt64.reduceToNat, length_cons, length_nil, Nat.reducePow, Nat.reduceAdd,
    Nat.mod_one] at hv ⊢
  linarith only [hv]

/-- The bytes of the complement are the complements of the bytes. -/
theorem storeBigEndian64_not (v : UInt64) :
    storeBigEndian64 (~~~v) = (storeBigEndian64 v).map (~~~·) := by
  have hbyte : ∀ s : UInt64, s ∈ [(56 : UInt64), 48, 40, 32, 24, 16, 8, 0] →
      ((~~~v >>> s) &&& 0xff).toUInt8 = ~~~((v >>> s) &&& 0xff).toUInt8 := by
    intro s hs
    have hlt : s.toNat < 64 := by
      simp only [mem_cons, not_mem_nil, or_false] at hs
      rcases hs with rfl | rfl | rfl | rfl | rfl | rfl | rfl | rfl <;> decide
    have hv : v.toNat < 2 ^ 64 := v.toNat_lt
    have hnot : (~~~v).toNat = 2 ^ 64 - 1 - v.toNat := UInt64.toNat_not v
    apply UInt8.toNat_inj.1
    rw [toNat_byte64 _ _ hlt, toNat_complement, toNat_byte64 _ _ hlt, hnot]
    simp only [mem_cons, not_mem_nil, or_false] at hs
    rcases hs with rfl | rfl | rfl | rfl | rfl | rfl | rfl | rfl <;>
      simp only [UInt64.reduceToNat, Nat.reducePow] <;> omega
  rw [storeBigEndian64_eq, storeBigEndian64_eq]
  simp only [map_cons, map_nil]
  simp only [forall_mem_cons] at hbyte
  simp only [hbyte]

/-! ### Writing -/

theorem kLengthToHeaderBits_spec : ∀ n < 11, 2 ≤ n →
    (kLengthToHeaderBits.getD n (0, 0)).1.toNat % 2 ^ (8 - n) = 0 ∧
      (kLengthToHeaderBits.getD n (0, 0)).2.toNat % 2 ^ min 8 (16 - n) = 0 ∧
        (kLengthToHeaderBits.getD n (0, 0)).1.toNat * 256 ^ (n - 1) +
          (kLengthToHeaderBits.getD n (0, 0)).2.toNat * 256 ^ (n - 2) + 2 ^ (7 * n) =
            2 ^ (8 * n) := by
  decide +kernel

theorem length_xorHeaderBits (n : ℕ) (x : ByteString) : (xorHeaderBits n x).length = x.length := by
  rcases x with - | ⟨b₀, - | ⟨b₁, x⟩⟩ <;> rfl

/-- The header bits are set where the bits of the number are clear. -/
theorem bigEndian_xorHeaderBits {m n : ℕ} {x : ByteString} (h : WrittenIn m n) (hn : 2 ≤ n)
    (hm : m < 2 ^ 63) (hlen : x.length = n) (hx : bigEndian x = m) :
    bigEndian (xorHeaderBits n x) + 2 ^ (7 * n) = 2 ^ (8 * n) + m := by
  obtain ⟨b₀, y, rfl⟩ := exists_cons_of_length_pos (l := x) (by omega)
  obtain ⟨b₁, rest, rfl⟩ := exists_cons_of_length_pos (l := y) (by rw [length_cons] at hlen; omega)
  rw [length_cons, length_cons] at hlen
  obtain ⟨h₀, h₁, hsum⟩ := kLengthToHeaderBits_spec n (Nat.lt_succ_of_le h.le_ten) hn
  have hb : b₀.toNat < 2 ^ (8 - n) ∧ b₁.toNat < 2 ^ min 8 (16 - n) := by
    have hlt := h.lt
    have hle := h.le_ten
    have hrest : rest.length = n - 2 := by omega
    have hb₁ : b₁.toNat < 256 := b₁.toNat_lt
    rw [← hx, bigEndian, bigEndian, length_cons, hrest] at hlt hm
    interval_cases n <;> simp only [Nat.reduceMul, Nat.reduceAdd, Nat.reduceSub, Nat.reducePow,
      Nat.reduceLeDiff, Nat.min_def, if_true, if_false] at hlt hm ⊢ <;> omega
  obtain ⟨a₀, ha₀⟩ := Nat.dvd_of_mod_eq_zero h₀
  obtain ⟨a₁, ha₁⟩ := Nat.dvd_of_mod_eq_zero h₁
  have hpow : n - 1 = rest.length + 1 ∧ n - 2 = rest.length := by omega
  rw [hpow.1, hpow.2] at hsum
  rw [xorHeaderBits, bigEndian, bigEndian, toNat_xor_of_lt ha₀ hb.1, toNat_xor_of_lt ha₁ hb.2,
    length_cons]
  rw [bigEndian, bigEndian, length_cons] at hx
  rw [Nat.add_mul, Nat.add_mul]
  omega

theorem toNat_lt_of_not_neg {val : Int64} (h : ¬val < 0) : val.toUInt64.toNat < 2 ^ 63 := by
  have hneg : ¬val.toBitVec.toInt < 0 := fun hlt ↦ h (Int64.lt_iff_toInt_lt.2 hlt)
  rw [BitVec.toInt_neg_iff] at hneg
  have : val.toBitVec.toNat = val.toUInt64.toNat := rfl
  omega

/-- What is written of a number that is not negative, read as one number. -/
theorem writeSignedNumIncreasing_of_not_neg {val : Int64} (h : ¬val < 0) :
    WrittenIn val.toUInt64.toNat (writeSignedNumIncreasing [] val).length ∧
      bigEndian (writeSignedNumIncreasing [] val) +
        2 ^ (7 * (writeSignedNumIncreasing [] val).length) =
        2 ^ (8 * (writeSignedNumIncreasing [] val).length) + val.toUInt64.toNat := by
  have hm := toNat_lt_of_not_neg h
  rw [writeSignedNumIncreasing, if_neg h, if_neg h]
  dsimp only
  split
  · rename_i hlt
    have hlt' : val.toUInt64.toNat < 2 ^ 6 := UInt64.lt_iff_toNat_lt.1 hlt
    have hbyte : val.toUInt64.toUInt8.toNat = val.toUInt64.toNat := by
      rw [UInt64.toNat_toUInt8]
      omega
    have hxor : ((kLengthToHeaderBits.getD 1 (0, 0)).1 ^^^ val.toUInt64.toUInt8).toNat =
        val.toUInt64.toNat + 128 := by
      rw [UInt8.xor_comm, toNat_xor_of_lt (i := 7) (a := 1) rfl (by omega), hbyte]
      rfl
    refine ⟨⟨le_rfl, (by decide : 1 ≤ 10), hlt', .inl rfl⟩, ?_⟩
    simp only [nil_append, bigEndian, hxor, length_singleton, length_nil]
    omega
  · rename_i hge
    have hge' : 2 ^ 6 ≤ val.toUInt64.toNat :=
      Nat.not_lt.1 fun hlt ↦ hge (UInt64.lt_iff_toNat_lt.2 hlt)
    have hwritten := writtenIn_signedEncodingLength hm
    generalize signedEncodingLength val.toUInt64.toInt64 = n at hwritten
    have hn : 2 ≤ n := by
      by_contra hlt
      have hlt' := hwritten.lt
      obtain rfl : n = 1 := by
        have := hwritten.pos
        omega
      omega
    have hle := hwritten.le_ten
    have hlen : ((0 : UInt8) :: 0 :: storeBigEndian64 val.toUInt64).length = 10 := rfl
    have hvalue : bigEndian ((0 : UInt8) :: 0 :: storeBigEndian64 val.toUInt64) =
        val.toUInt64.toNat := by
      simp [bigEndian, bigEndian_storeBigEndian64]
    have hfit : val.toUInt64.toNat < 256 ^ n := by
      rw [show (256 : ℕ) = 2 ^ 8 from rfl, ← Nat.pow_mul]
      exact hwritten.lt.trans_le (Nat.pow_le_pow_right (by decide) (by omega))
    have hdrop : (((0 : UInt8) :: 0 :: storeBigEndian64 val.toUInt64).drop (10 - n)).length =
        n := by
      rw [length_drop, hlen]
      omega
    rw [hlen, nil_append, length_xorHeaderBits, hdrop]
    refine ⟨hwritten, bigEndian_xorHeaderBits hwritten hn hm hdrop ?_⟩
    rw [bigEndian_drop, hvalue, hlen, Nat.sub_sub_self hle, Nat.mod_eq_of_lt hfit]

theorem xorHeaderBits_map_complement (n : ℕ) (x : ByteString) :
    xorHeaderBits n (x.map (~~~·)) = (xorHeaderBits n x).map (~~~·) := by
  rcases x with - | ⟨b₀, - | ⟨b₁, x⟩⟩
  · rfl
  · rfl
  · simp only [xorHeaderBits, map_cons, UInt8.not_xor]

theorem not_lt_zero_iff (val : Int64) : ~~~val < 0 ↔ ¬val < 0 := by
  have hnot : (~~~val).toBitVec.toNat = 2 ^ 64 - 1 - val.toBitVec.toNat := BitVec.toNat_not
  have hlt := val.toBitVec.isLt
  rw [Int64.lt_iff_toInt_lt, Int64.lt_iff_toInt_lt]
  show (~~~val).toBitVec.toInt < 0 ↔ ¬val.toBitVec.toInt < 0
  rw [BitVec.toInt_neg_iff, BitVec.toInt_neg_iff, hnot]
  omega

/-- The complement of a number is written with the complements of the bytes. -/
theorem writeSignedNumIncreasing_not (val : Int64) :
    writeSignedNumIncreasing [] (~~~val) = (writeSignedNumIncreasing [] val).map (~~~·) := by
  have hx : (if ~~~val < 0 then ~~~(~~~val) else ~~~val) = if val < 0 then ~~~val else val := by
    by_cases h : val < 0
    · rw [if_pos h, if_neg (fun h' ↦ (not_lt_zero_iff val).1 h' h)]
    · rw [if_neg h, if_pos ((not_lt_zero_iff val).2 h), Int64.not_not]
  have hsign : (if ~~~val < 0 then 0xff else 0 : UInt8) = ~~~(if val < 0 then 0xff else 0) := by
    by_cases h : val < 0
    · rw [if_pos h, if_neg (fun h' ↦ (not_lt_zero_iff val).1 h' h)]
      rfl
    · rw [if_neg h, if_pos ((not_lt_zero_iff val).2 h)]
      rfl
  have hstore : storeBigEndian64 (~~~val).toUInt64 = (storeBigEndian64 val.toUInt64).map (~~~·) :=
    storeBigEndian64_not val.toUInt64
  have hbyte : (~~~val).toUInt64.toUInt8 = ~~~val.toUInt64.toUInt8 :=
    UInt64.toUInt8_not val.toUInt64
  rw [writeSignedNumIncreasing, writeSignedNumIncreasing, hx]
  generalize (if val < 0 then ~~~val else val).toUInt64 = x
  dsimp only
  split
  · rw [hbyte, UInt8.xor_not]
    rfl
  · rw [hsign, hstore, ← map_cons, ← map_cons, nil_append, nil_append, length_map, ← map_drop,
      xorHeaderBits_map_complement]

theorem writeSignedNumIncreasing_eq (dest : ByteString) (val : Int64) :
    writeSignedNumIncreasing dest val = dest ++ writeSignedNumIncreasing [] val := by
  rw [writeSignedNumIncreasing, writeSignedNumIncreasing]
  generalize (if val < 0 then ~~~val else val).toUInt64 = x
  split <;> rfl

end TensorFlowCore.OrderedCode
