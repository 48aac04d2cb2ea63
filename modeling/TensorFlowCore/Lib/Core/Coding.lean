import TensorFlowCore.Core.Status
import TensorFlowCore.Support.Bytes

/-!
# Fixed-width integers and varints

`tensorflow/core/lib/core/coding.cc` and `raw_coding.h`. A `Put…` function appends the bytes that
the `Encode…` function of the same kind stores; a decoder is given the bytes from its pointer up to
the limit, and returns what is left of them.
-/

namespace TensorFlowCore

open List

/-- `core::EncodeFixed32`, the same bytes on either kind of host. -/
def encodeFixed32 (value : UInt32) : ByteString :=
  [(value &&& 0xff).toUInt8, ((value >>> 8) &&& 0xff).toUInt8, ((value >>> 16) &&& 0xff).toUInt8,
    ((value >>> 24) &&& 0xff).toUInt8]

/-- `core::EncodeFixed64`. -/
def encodeFixed64 (value : UInt64) : ByteString :=
  [(value &&& 0xff).toUInt8, ((value >>> 8) &&& 0xff).toUInt8, ((value >>> 16) &&& 0xff).toUInt8,
    ((value >>> 24) &&& 0xff).toUInt8, ((value >>> 32) &&& 0xff).toUInt8,
    ((value >>> 40) &&& 0xff).toUInt8, ((value >>> 48) &&& 0xff).toUInt8,
    ((value >>> 56) &&& 0xff).toUInt8]

/-- `core::DecodeFixed32`: the four low bytes, least significant first. -/
def decodeFixed32 (data : ByteString) : UInt32 :=
  (data.take 4).foldr (fun b acc ↦ acc <<< 8 ||| b.toUInt32) 0

/-- `core::EncodeVarint32`. -/
def encodeVarint32 (v : UInt32) : ByteString :=
  if v.toNat < 1 <<< 7 then [v.toUInt8]
  else if v.toNat < 1 <<< 14 then [(v ||| 128).toUInt8, (v >>> 7).toUInt8]
  else if v.toNat < 1 <<< 21 then [(v ||| 128).toUInt8, (v >>> 7 ||| 128).toUInt8,
  (v >>> 14).toUInt8]
  else if v.toNat < 1 <<< 28 then
    [(v ||| 128).toUInt8, (v >>> 7 ||| 128).toUInt8, (v >>> 14 ||| 128).toUInt8, (v >>> 21).toUInt8]
  else
    [(v ||| 128).toUInt8, (v >>> 7 ||| 128).toUInt8, (v >>> 14 ||| 128).toUInt8,
      (v >>> 21 ||| 128).toUInt8, (v >>> 28).toUInt8]

theorem toNat_shiftRight_seven (v : UInt64) : (v >>> 7).toNat = v.toNat / 128 := by
  rw [UInt64.toNat_shiftRight]
  exact Nat.shiftRight_eq_div_pow v.toNat 7

/-- `core::EncodeVarint64`. -/
def encodeVarint64 (v : UInt64) : ByteString :=
  if v ≥ 128 then ((v &&& (128 - 1)) ||| 128).toUInt8 :: encodeVarint64 (v >>> 7) else [v.toUInt8]
termination_by v.toNat
decreasing_by
  have hge : 128 ≤ v.toNat := UInt64.le_iff_toNat_le.1 ‹v ≥ 128›
  rw [toNat_shiftRight_seven]
  omega

/-- The loop shared by `GetVarint32PtrFallback` and `GetVarint64Ptr`: groups of seven bits are set
in a word of `w` bits until a byte without its high bit, the limit or `maxShift`. -/
def getVarintLoop (w maxShift : ℕ) : ℕ → BitVec w → ByteString → Option (BitVec w × ByteString)
  | _, _, [] => none
  | shift, result, byte :: p =>
    if shift ≤ maxShift then
      if byte &&& 128 ≠ 0 then
        getVarintLoop w maxShift (shift + 7)
          (result ||| ((byte &&& 127).toBitVec.setWidth w <<< shift)) p
      else some (result ||| (byte.toBitVec.setWidth w <<< shift), p)
    else none

/-- `core::GetVarint32PtrFallback`. -/
def getVarint32PtrFallback (p : ByteString) : Option (UInt32 × ByteString) :=
  (getVarintLoop 32 28 0 0 p).map fun x ↦ (⟨x.1⟩, x.2)

/-- `core::GetVarint32Ptr`, with its fast path for one byte. -/
def getVarint32Ptr : ByteString → Option (UInt32 × ByteString)
  | byte :: p =>
    if byte &&& 128 = 0 then some (byte.toUInt32, p) else getVarint32PtrFallback (byte :: p)
  | [] => getVarint32PtrFallback []

/-- `core::GetVarint64Ptr`, and `core::GetVarint64`, which moves its input to the returned
pointer. -/
def getVarint64 (p : ByteString) : Option (UInt64 × ByteString) :=
  (getVarintLoop 64 63 0 0 p).map fun x ↦ (⟨x.1⟩, x.2)

/-! ### Fixed width -/

theorem length_encodeFixed32 (v : UInt32) : (encodeFixed32 v).length = 4 := rfl

theorem length_encodeFixed64 (v : UInt64) : (encodeFixed64 v).length = 8 := rfl

theorem toNat_foldr_fixed32 (x : ByteString) (h : x.length ≤ 4) :
    (x.foldr (fun b (acc : UInt32) ↦ acc <<< 8 ||| b.toUInt32) 0).toNat = littleEndian x := by
  induction x with
  | nil => rfl
  | cons b x ih =>
    rw [length_cons] at h
    have hlt : littleEndian x < 2 ^ 24 :=
      calc littleEndian x < 256 ^ x.length := littleEndian_lt x
        _ ≤ 256 ^ 3 := Nat.pow_le_pow_right (by decide) (by omega)
        _ = 2 ^ 24 := by norm_num
    have hb : b.toNat < 2 ^ 8 := b.toNat_lt
    rw [foldr_cons, UInt32.toNat_or, UInt32.toNat_shiftLeft, UInt8.toNat_toUInt32, ih (by omega),
      littleEndian]
    show littleEndian x <<< 8 % 2 ^ 32 ||| b.toNat = _
    rw [Nat.or_comm, Nat.mod_eq_of_lt (by rw [Nat.shiftLeft_eq]; omega), or_shiftLeft_eq_add hb]
    omega

theorem toNat_foldr_fixed64 (x : ByteString) (h : x.length ≤ 8) :
    (x.foldr (fun b (acc : UInt64) ↦ acc <<< 8 ||| b.toUInt64) 0).toNat = littleEndian x := by
  induction x with
  | nil => rfl
  | cons b x ih =>
    rw [length_cons] at h
    have hlt : littleEndian x < 2 ^ 56 :=
      calc littleEndian x < 256 ^ x.length := littleEndian_lt x
        _ ≤ 256 ^ 7 := Nat.pow_le_pow_right (by decide) (by omega)
        _ = 2 ^ 56 := by norm_num
    have hacc := ih (by omega)
    rw [foldr_cons, toNat_shiftLeft_or _ _ (hacc.trans_lt hlt), hacc, littleEndian]

theorem toNat_byte32 (v s : UInt32) (hs : s.toNat < 32) :
    ((v >>> s) &&& 0xff).toUInt8.toNat = v.toNat / 2 ^ s.toNat % 256 := by
  have hmask : (0xff : UInt32).toNat = 2 ^ 8 - 1 := rfl
  rw [UInt32.toNat_toUInt8, UInt32.toNat_and, hmask, Nat.and_two_pow_sub_one_eq_mod,
    UInt32.toNat_shiftRight, Nat.mod_eq_of_lt hs, Nat.shiftRight_eq_div_pow]
  exact Nat.mod_mod _ _

theorem toNat_byte64 (v s : UInt64) (hs : s.toNat < 64) :
    ((v >>> s) &&& 0xff).toUInt8.toNat = v.toNat / 2 ^ s.toNat % 256 := by
  rw [toNat_and_ff, UInt64.toNat_shiftRight, Nat.mod_eq_of_lt hs, Nat.shiftRight_eq_div_pow]

theorem littleEndian_encodeFixed32 (v : UInt32) : littleEndian (encodeFixed32 v) = v.toNat := by
  have hv : v.toNat < 2 ^ 32 := v.toNat_lt
  have h₀ : (v &&& 0xff).toUInt8.toNat = v.toNat % 256 := by
    simpa using toNat_byte32 v 0 (by decide)
  have h₁ := toNat_byte32 v 8 (by decide)
  have h₂ := toNat_byte32 v 16 (by decide)
  have h₃ := toNat_byte32 v 24 (by decide)
  simp only [encodeFixed32, littleEndian, h₀, h₁, h₂, h₃, UInt32.reduceToNat, Nat.reducePow]
  omega

theorem littleEndian_encodeFixed64 (v : UInt64) : littleEndian (encodeFixed64 v) = v.toNat := by
  have hbyte := toNat_byte64 v
  have hv : v.toNat % 256 ^ 8 = v.toNat := Nat.mod_eq_of_lt v.toNat_lt
  simp only [Nat.mod_pow_succ] at hv
  simp only [encodeFixed64, littleEndian, toNat_and_ff v, hbyte 8 (by decide), hbyte 16 (by decide),
    hbyte 24 (by decide), hbyte 32 (by decide), hbyte 40 (by decide), hbyte 48 (by decide),
    hbyte 56 (by decide), UInt64.reduceToNat, Nat.reducePow, Nat.mod_one, Nat.div_one] at hv ⊢
  linarith only [hv]

/-- `DecodeFixed32` reads back what `EncodeFixed32` stored, whatever follows. -/
theorem decodeFixed32_append (v : UInt32) (rest : ByteString) :
    decodeFixed32 (encodeFixed32 v ++ rest) = v := by
  apply UInt32.toNat_inj.1
  rw [decodeFixed32, take_left' (length_encodeFixed32 v), toNat_foldr_fixed32 _ le_rfl,
    littleEndian_encodeFixed32]

/-- `DecodeFixed64` reads back what `EncodeFixed64` stored, whatever follows. -/
theorem decodeFixed64_append (v : UInt64) (rest : ByteString) :
    decodeFixed64 (encodeFixed64 v ++ rest) = v := by
  apply UInt64.toNat_inj.1
  rw [decodeFixed64, take_left' (length_encodeFixed64 v), toNat_foldr_fixed64 _ le_rfl,
    littleEndian_encodeFixed64]

/-! ### Varints -/

theorem encodeVarint64_eq (v : UInt64) : encodeVarint64 v = base128 v.toNat := by
  fun_induction encodeVarint64 v with
  | case1 v hge ih =>
    rw [base128_of_le (UInt64.le_iff_toNat_le.1 hge), ih, toNat_shiftRight_seven]
    congr 1
    apply UInt8.toNat_inj.1
    have hmask : (v &&& (128 - 1)).toNat = v.toNat % 128 := by
      rw [UInt64.toNat_and]
      exact Nat.and_two_pow_sub_one_eq_mod v.toNat 7
    rw [UInt64.toNat_toUInt8, UInt64.toNat_or, hmask]
    show (v.toNat % 128 ||| 128) % 256 = (v.toNat % 128 + 128) % 256
    rw [or_128_mod]
    omega
  | case2 v hlt =>
    have hlt' : v.toNat < 128 := Nat.not_le.1 fun h ↦ hlt (UInt64.le_iff_toNat_le.2 h)
    rw [base128_of_lt hlt']
    rfl

theorem toUInt8_shiftRight (v s : UInt32) (hs : s.toNat < 32) :
    (v >>> s).toUInt8 = (v.toNat / 2 ^ s.toNat).toUInt8 := by
  apply UInt8.toNat_inj.1
  rw [UInt32.toNat_toUInt8, UInt32.toNat_shiftRight, Nat.mod_eq_of_lt hs, Nat.shiftRight_eq_div_pow]
  rfl

theorem toUInt8_shiftRight_or (v s : UInt32) (hs : s.toNat < 32) :
    (v >>> s ||| 128).toUInt8 = (v.toNat / 2 ^ s.toNat % 128 + 128).toUInt8 := by
  apply UInt8.toNat_inj.1
  rw [UInt32.toNat_toUInt8, UInt32.toNat_or, UInt32.toNat_shiftRight, Nat.mod_eq_of_lt hs,
    Nat.shiftRight_eq_div_pow]
  show (v.toNat / 2 ^ s.toNat ||| 128) % 256 = (v.toNat / 2 ^ s.toNat % 128 + 128) % 256
  rw [or_128_mod]
  omega

/-- The five branches of `EncodeVarint32` are the digits in base `128`. -/
theorem encodeVarint32_eq (v : UInt32) : encodeVarint32 v = base128 v.toNat := by
  have hv : v.toNat < 2 ^ 32 := v.toNat_lt
  have h₀ : v.toUInt8 = v.toNat.toUInt8 := rfl
  have h₀' : (v ||| 128).toUInt8 = (v.toNat % 128 + 128).toUInt8 := by
    simpa using toUInt8_shiftRight_or v 0 (by decide)
  have h₁ := toUInt8_shiftRight v 7 (by decide)
  have h₁' := toUInt8_shiftRight_or v 7 (by decide)
  have h₂ := toUInt8_shiftRight v 14 (by decide)
  have h₂' := toUInt8_shiftRight_or v 14 (by decide)
  have h₃ := toUInt8_shiftRight v 21 (by decide)
  have h₃' := toUInt8_shiftRight_or v 21 (by decide)
  have h₄ := toUInt8_shiftRight v 28 (by decide)
  simp only [UInt32.reduceToNat, Nat.reducePow] at h₁ h₁' h₂ h₂' h₃ h₃' h₄
  rw [encodeVarint32, h₀, h₀', h₁, h₁', h₂, h₂', h₃, h₃', h₄]
  simp only [Nat.shiftLeft_eq, Nat.one_mul, Nat.reducePow]
  split
  · rw [base128_of_lt (by omega)]
  · rw [base128_of_le (by omega)]
    split
    · rw [base128_of_lt (by omega)]
    · rw [base128_of_le (by omega), Nat.div_div_eq_div_mul]
      split
      · rw [base128_of_lt (by omega)]
      · rw [base128_of_le (by omega), Nat.div_div_eq_div_mul]
        split
        · rw [base128_of_lt (by omega)]
        · rw [base128_of_le (by omega), Nat.div_div_eq_div_mul, base128_of_lt (by omega)]

/-- Setting a group of bits above those already read adds it at its place. -/
theorem toNat_or_setWidth {w shift : ℕ} {result : BitVec w} (h : result.toNat < 2 ^ shift)
    (d : BitVec 8) (hd : d.toNat * 2 ^ shift < 2 ^ w) :
    (result ||| (d.setWidth w <<< shift)).toNat = result.toNat + d.toNat * 2 ^ shift := by
  have hdw : d.toNat < 2 ^ w := (Nat.le_mul_of_pos_right _ (Nat.two_pow_pos shift)).trans_lt hd
  have hfit : d.toNat <<< shift < 2 ^ w := by rwa [Nat.shiftLeft_eq]
  rw [BitVec.toNat_or, BitVec.toNat_shiftLeft, BitVec.toNat_setWidth, Nat.mod_eq_of_lt hdw,
    Nat.mod_eq_of_lt hfit, or_shiftLeft_eq_add h]

/-- The decoding loop on the digits of a number that fits the word above the bits already read. -/
theorem getVarintLoop_base128 {w maxShift : ℕ} (hmax : ∀ k, 7 * k < w → 7 * k ≤ maxShift)
    (n k : ℕ) (hk : 7 * k < w) (result : BitVec w) (rest : ByteString)
    (hresult : result.toNat < 2 ^ (7 * k)) (hfit : result.toNat + n * 2 ^ (7 * k) < 2 ^ w) :
    getVarintLoop w maxShift (7 * k) result (base128 n ++ rest) =
      some (BitVec.ofNat w (result.toNat + n * 2 ^ (7 * k)), rest) := by
  induction n using Nat.strong_induction_on generalizing k result with
  | h n ih =>
    by_cases hn : n < 128
    · have hbyte : n.toUInt8.toNat = n := Nat.mod_eq_of_lt (by omega)
      have hz : n.toUInt8 &&& 128 = 0 := (and_128_eq_zero_iff _).2 (by rw [hbyte]; exact hn)
      have hd : n.toUInt8.toBitVec.toNat = n := hbyte
      have hset := toNat_or_setWidth hresult n.toUInt8.toBitVec (by rw [hd]; omega)
      rw [base128_of_lt hn, singleton_append, getVarintLoop, if_pos (hmax k hk),
        if_neg (not_not.2 hz)]
      congr 2
      apply BitVec.eq_of_toNat_eq
      rw [hset, hd, BitVec.toNat_ofNat, Nat.mod_eq_of_lt hfit]
    · have hge : 128 ≤ n := Nat.not_lt.1 hn
      have hbyte : (n % 128 + 128).toUInt8.toNat = n % 128 + 128 := Nat.mod_eq_of_lt (by omega)
      have hnz : (n % 128 + 128).toUInt8 &&& 128 ≠ 0 := by
        rw [Ne, and_128_eq_zero_iff, hbyte]
        omega
      have hd : ((n % 128 + 128).toUInt8 &&& 127).toBitVec.toNat = n % 128 := by
        have h := toNat_and_127 (n % 128 + 128).toUInt8
        rw [hbyte] at h
        exact h.trans (by omega)
      have hexp : 2 ^ (7 * (k + 1)) = 128 * 2 ^ (7 * k) := by
        rw [Nat.mul_succ, Nat.pow_add, Nat.mul_comm]
      have hle : 128 * 2 ^ (7 * k) ≤ n * 2 ^ (7 * k) := Nat.mul_le_mul_right _ hge
      have hmod : n % 128 * 2 ^ (7 * k) ≤ 127 * 2 ^ (7 * k) :=
        Nat.mul_le_mul_right _ (by omega)
      have hset := toNat_or_setWidth hresult ((n % 128 + 128).toUInt8 &&& 127).toBitVec
        (by rw [hd]; omega)
      rw [hd] at hset
      have hsum : result.toNat + n % 128 * 2 ^ (7 * k) + n / 128 * 2 ^ (7 * (k + 1)) =
          result.toNat + n * 2 ^ (7 * k) := by
        have hn' : n = n / 128 * 128 + n % 128 := (Nat.div_add_mod' n 128).symm
        rw [hexp]
        conv_rhs => rw [hn']
        ring
      have hk' : 7 * (k + 1) < w := by
        refine (Nat.pow_lt_pow_iff_right (by decide : 1 < 2)).1 ?_
        rw [hexp]
        omega
      have hrest := ih (n / 128) (by omega) (k + 1) hk' _ (by rw [hset, hexp]; omega)
        (by rw [hset, hsum]; exact hfit)
      rw [hset, hsum] at hrest
      rw [base128_of_le hge, cons_append, getVarintLoop, if_pos (hmax k hk), if_pos hnz]
      exact hrest

theorem length_encodeVarint64_le (v : UInt64) : (encodeVarint64 v).length ≤ 10 := by
  rw [encodeVarint64_eq]
  exact length_base128_le (k := 9) (v.toNat_lt.trans_le (by decide))

/-- `GetVarint64` reads back what `PutVarint64` appended, whatever follows. -/
theorem getVarint64_append (v : UInt64) (rest : ByteString) :
    getVarint64 (encodeVarint64 v ++ rest) = some (v, rest) := by
  have hloop := getVarintLoop_base128 (w := 64) (fun k hk ↦ (by omega : 7 * k ≤ 63)) v.toNat 0
    (by decide) 0 rest (by decide) (by simpa using v.toNat_lt)
  rw [getVarint64, encodeVarint64_eq, hloop, Option.map_some]
  congr 2
  apply UInt64.toNat_inj.1
  simp

/-- `GetVarint32Ptr` reads back what `PutVarint32` appended, whatever follows. -/
theorem getVarint32Ptr_append (v : UInt32) (rest : ByteString) :
    getVarint32Ptr (encodeVarint32 v ++ rest) = some (v, rest) := by
  have hloop := getVarintLoop_base128 (w := 32) (fun k hk ↦ (by omega : 7 * k ≤ 28)) v.toNat 0
    (by decide) 0 rest (by decide) (by simpa using v.toNat_lt)
  have hslow : getVarint32PtrFallback (base128 v.toNat ++ rest) = some (v, rest) := by
    rw [getVarint32PtrFallback, hloop, Option.map_some]
    congr 2
    apply UInt32.toNat_inj.1
    simp
  rw [encodeVarint32_eq]
  by_cases hv : v.toNat < 128
  · have hbyte : v.toNat.toUInt8.toNat = v.toNat := Nat.mod_eq_of_lt (by omega)
    have hz : v.toNat.toUInt8 &&& 128 = 0 := (and_128_eq_zero_iff _).2 (by rw [hbyte]; exact hv)
    rw [base128_of_lt hv, singleton_append, getVarint32Ptr, if_pos hz]
    congr 2
    apply UInt32.toNat_inj.1
    rw [UInt8.toNat_toUInt32, hbyte]
  · rw [base128_of_le (Nat.not_lt.1 hv), cons_append] at hslow ⊢
    have hnz : (v.toNat % 128 + 128).toUInt8 &&& 128 ≠ 0 := by
      rw [Ne, and_128_eq_zero_iff]
      show ¬(v.toNat % 128 + 128) % 256 < 128
      omega
    rw [getVarint32Ptr, if_neg hnz, hslow]

end TensorFlowCore
