import TensorFlowCore.Core.Status
import TensorFlowCore.Support.Bytes

/-!
# Base64

`Base64Encode` and `Base64Decode` of `tensorflow/core/lib/strings/base64.cc`, with the alphabet that
is safe in URLs. Both write into a buffer of a size computed from the size of their input, at a
pointer that only moves forward: `put` appends to what has been written, and has no outcome where
the buffer ends. A pointer to a string is none where it is null.
-/

namespace TensorFlowCore.Base64

open List

/-- `kBase64Bytes`. -/
def kBase64Bytes : List Int8 :=
  [-1,   -1,   -1,   -1,   -1,   -1,   -1,   -1,   -1,   -1,   -1,   -1,
   -1,   -1,   -1,   -1,   -1,   -1,   -1,   -1,   -1,   -1,   -1,   -1,
   -1,   -1,   -1,   -1,   -1,   -1,   -1,   -1,   -1,   -1,   -1,   -1,
   -1,   -1,   -1,   -1,   -1,   -1,   -1,   -1,   -1,  0x3E,  -1,   -1,
   0x34, 0x35, 0x36, 0x37, 0x38, 0x39, 0x3A, 0x3B, 0x3C, 0x3D,  -1,   -1,
   -1,   -1,   -1,   -1,   -1,  0x00, 0x01, 0x02, 0x03, 0x04, 0x05, 0x06,
   0x07, 0x08, 0x09, 0x0A, 0x0B, 0x0C, 0x0D, 0x0E, 0x0F, 0x10, 0x11, 0x12,
   0x13, 0x14, 0x15, 0x16, 0x17, 0x18, 0x19,  -1,   -1,   -1,   -1,  0x3F,
   -1,  0x1A, 0x1B, 0x1C, 0x1D, 0x1E, 0x1F, 0x20, 0x21, 0x22, 0x23, 0x24,
   0x25, 0x26, 0x27, 0x28, 0x29, 0x2A, 0x2B, 0x2C, 0x2D, 0x2E, 0x2F, 0x30,
   0x31, 0x32, 0x33,  -1,   -1,   -1,   -1,   -1]

/-- `kBase64UrlSafeChars`. -/
def kBase64UrlSafeChars : ByteString :=
  ascii "ABCDEFGHIJKLMNOPQRSTUVWXYZabcdefghijklmnopqrstuvwxyz0123456789-_"

/-- `kPadChar`. -/
def kPadChar : UInt8 := 61

/-- `Convert`: the value of a character, sign-extended from the table. -/
def convert (x : UInt8) : UInt32 :=
  let y : Int8 := kBase64Bytes.getD (x &&& 0x7F).toNat 0 ||| (x &&& 0x80).toInt8
  y.toInt32.toUInt32

/-- `DecodeThreeChars`, with the characters that it writes. -/
def decodeThreeChars (c₀ c₁ c₂ c₃ : UInt8) : Except Status ByteString :=
  let packed := convert c₀ <<< 18 ||| convert c₁ <<< 12 ||| convert c₂ <<< 6 ||| convert c₃
  if packed &&& 0xFF000000 ≠ 0 then
    .error (invalidArgument [ascii "Invalid character found in base64."])
  else .ok [(packed >>> 16).toUInt8, (packed >>> 8).toUInt8, packed.toUInt8]

/-- Characters written behind those that are in a buffer of the given size. -/
def put (size : ℕ) (out chars : ByteString) : Option ByteString :=
  if out.length + chars.length ≤ size then some (out ++ chars) else none

/-- The last group of the input up to `end`, which moves in front of the padding. -/
def unpad : ByteString → ByteString
  | [c₀, c₁, c₂, c₃] =>
    if c₂ = kPadChar ∧ c₃ = kPadChar then [c₀, c₁]
    else if c₂ ≠ kPadChar ∧ c₃ = kPadChar then [c₀, c₁, c₂]
    else [c₀, c₁, c₂, c₃]
  | b64 => b64

/-- The end of `Base64Decode`, behind its loop. -/
def decodeTail (size : ℕ) (b64 out : ByteString) : Option (Except Status ByteString) :=
  let codes := unpad b64
  if codes.length = 1 then
    some (.error (invalidArgument [ascii "Base64 string length cannot be 1 modulo 4."]))
  else
    let tail := codes ++ List.replicate (4 - codes.length) (kBase64UrlSafeChars.getD 0 0)
    match decodeThreeChars (tail.getD 0 0) (tail.getD 1 0) (tail.getD 2 0) (tail.getD 3 0) with
    | .error e => some (.error e)
    -- all three characters are written, and the string gets as many as there were codes, less one
    | .ok chars => (put size out chars).map fun _ ↦ .ok (out ++ chars.take (codes.length - 1))

/-- The loop of `Base64Decode`, which leaves one to four characters for the tail. -/
def decodeLoop (size : ℕ) : (b64 out : ByteString) → Option (Except Status ByteString)
  | c₀ :: c₁ :: c₂ :: c₃ :: c₄ :: b64, out =>
    match decodeThreeChars c₀ c₁ c₂ c₃ with
    | .error e => some (.error e)
    | .ok chars => (put size out chars).bind fun out ↦ decodeLoop size (c₄ :: b64) out
  | b64, out => decodeTail size b64 out

/-- `Base64Decode`. -/
def base64Decode (data : ByteString) (decoded : Option ByteString) :
    Option (Except Status ByteString) :=
  match decoded with
  | none => some (.error (internalError [ascii "'decoded' cannot be nullptr."]))
  | some _ => if data = [] then some (.ok []) else decodeLoop (3 * (data.length / 4) + 3) data []

/-- A character of the alphabet by its index. -/
def base64Char (i : UInt8) : UInt8 := kBase64UrlSafeChars.getD i.toNat 0

/-- The loop of `Base64Encode` and its tail. -/
def encodeLoop (size : ℕ) (withPadding : Bool) : (data out : ByteString) → Option ByteString
  | a :: b :: c :: data, out =>
    (put size out
      [base64Char ((a >>> 2) &&& 0x3F), base64Char (((a &&& 0x03) <<< 4) ||| ((b >>> 4) &&& 0x0F)),
        base64Char (((b &&& 0x0F) <<< 2) ||| ((c >>> 6) &&& 0x03)), base64Char (c &&& 0x3F)]).bind
      fun out ↦ encodeLoop size withPadding data out
  | [a, b], out =>
    put size out
      ([base64Char ((a >>> 2) &&& 0x3F), base64Char (((a &&& 0x03) <<< 4) ||| ((b >>> 4) &&& 0x0F)),
        base64Char ((b &&& 0x0F) <<< 2)] ++ if withPadding then [kPadChar] else [])
  | [a], out =>
    put size out
      ([base64Char ((a >>> 2) &&& 0x3F), base64Char ((a &&& 0x03) <<< 4)] ++
        if withPadding then [kPadChar, kPadChar] else [])
  | [], out => some out

/-- `Base64Encode`. -/
def base64Encode (source : ByteString) (withPadding : Bool) (encoded : Option ByteString) :
    Option (Except Status ByteString) :=
  match encoded with
  | none => some (.error (internalError [ascii "'encoded' cannot be nullptr."]))
  | some _ => (encodeLoop (4 * (source.length / 3) + 4) withPadding source []).map .ok

/-- What `Base64Decode` is meant to accept: characters of the alphabet, followed by nothing or by
the padding that completes a group of four. -/
def WellFormed (data : ByteString) : Prop :=
  ∃ body padding, data = body ++ padding ∧ (∀ c ∈ body, c ∈ kBase64UrlSafeChars) ∧
    body.length % 4 ≠ 1 ∧
    (padding = [] ∨
      body.length % 4 ≠ 0 ∧ padding = List.replicate (4 - body.length % 4) kPadChar)

/-! ### Characters -/

theorem length_kBase64UrlSafeChars : kBase64UrlSafeChars.length = 64 := by decide +kernel

theorem getD_mem {n : ℕ} (hn : n < 64) : kBase64UrlSafeChars.getD n 0 ∈ kBase64UrlSafeChars := by
  rw [← length_kBase64UrlSafeChars] at hn
  rw [getD_eq_getElem _ _ hn]
  exact getElem_mem hn

theorem convert_getD : ∀ n < 64, (convert (kBase64UrlSafeChars.getD n 0)).toNat = n := by
  decide +kernel

theorem convert_cases : ∀ n < 256, ((convert n.toUInt8).toNat < 64 ∧
    kBase64UrlSafeChars.getD (convert n.toUInt8).toNat 0 = n.toUInt8) ∨
      2 ^ 32 - 2 ^ 7 ≤ (convert n.toUInt8).toNat := by
  decide +kernel

/-- A character outside of the alphabet sets the upper bits. -/
theorem le_convert {c : UInt8} (h : c ∉ kBase64UrlSafeChars) :
    2 ^ 32 - 2 ^ 7 ≤ (convert c).toNat := by
  have hc := convert_cases c.toNat c.toNat_lt
  rw [show c.toNat.toUInt8 = c from UInt8.ofNat_toNat] at hc
  obtain ⟨hlt, hget⟩ | hle := hc
  · exact absurd (hget ▸ getD_mem hlt) h
  · exact hle

theorem convert_lt {c : UInt8} (h : c ∈ kBase64UrlSafeChars) : (convert c).toNat < 64 := by
  obtain ⟨n, hn, rfl⟩ := getElem_of_mem h
  have hconv := convert_getD n (length_kBase64UrlSafeChars ▸ hn)
  rw [getD_eq_getElem _ _ hn] at hconv
  rwa [hconv, ← length_kBase64UrlSafeChars]

theorem kPadChar_notMem : kPadChar ∉ kBase64UrlSafeChars := by decide +kernel

theorem ne_kPadChar {c : UInt8} (h : c ∈ kBase64UrlSafeChars) : c ≠ kPadChar := fun heq ↦
  kPadChar_notMem (heq ▸ h)

/-- The upper byte of a word. -/
theorem and_ff000000 {n : ℕ} (hn : n < 2 ^ 32) : n &&& 0xFF000000 = n / 2 ^ 24 * 2 ^ 24 := by
  have hmask : 0xFF000000 = (2 ^ 8 - 1) <<< 24 := rfl
  rw [hmask, ← Nat.shiftRight_eq_div_pow, ← Nat.shiftLeft_eq]
  refine Nat.eq_of_testBit_eq fun i ↦ ?_
  rw [Nat.testBit_and, Nat.testBit_shiftLeft, Nat.testBit_shiftLeft, Nat.testBit_two_pow_sub_one,
    Nat.testBit_shiftRight]
  by_cases hi : 24 ≤ i
  · rw [Nat.add_sub_cancel' hi]
    by_cases hlt : i < 32
    · simp [hi, show i - 24 < 8 by omega]
    · have hzero : n.testBit i = false :=
        Nat.testBit_eq_false_of_lt
          (hn.trans_le (Nat.pow_le_pow_right (by decide) (Nat.not_lt.1 hlt)))
      simp [hzero]
  · simp [hi]

theorem and_ff000000_ne_zero_iff (packed : UInt32) :
    packed &&& 0xFF000000 ≠ 0 ↔ 2 ^ 24 ≤ packed.toNat := by
  have hand : (packed &&& 0xFF000000).toNat = packed.toNat / 2 ^ 24 * 2 ^ 24 := by
    rw [UInt32.toNat_and]
    exact and_ff000000 packed.toNat_lt
  rw [Ne, ← UInt32.toNat_inj, hand, UInt32.toNat_zero]
  omega

/-! ### Groups -/

/-- The number packed from four values. -/
theorem toNat_packed {x₀ x₁ x₂ x₃ : UInt32} (h₀ : x₀.toNat < 64) (h₁ : x₁.toNat < 64)
    (h₂ : x₂.toNat < 64) (h₃ : x₃.toNat < 64) :
    (x₀ <<< 18 ||| x₁ <<< 12 ||| x₂ <<< 6 ||| x₃).toNat =
      x₀.toNat * 2 ^ 18 + x₁.toNat * 2 ^ 12 + x₂.toNat * 2 ^ 6 + x₃.toNat := by
  have hshift : ∀ (x s : UInt32), x.toNat < 64 → s.toNat ≤ 18 →
      (x <<< s).toNat = x.toNat <<< s.toNat := fun x s hx hs ↦ by
    have hpow : 2 ^ s.toNat ≤ 2 ^ 18 := Nat.pow_le_pow_right (by decide) hs
    have hfit : x.toNat * 2 ^ s.toNat ≤ 64 * 2 ^ 18 := Nat.mul_le_mul hx.le hpow
    rw [UInt32.toNat_shiftLeft, Nat.mod_eq_of_lt (a := s.toNat) (by omega), Nat.shiftLeft_eq,
      Nat.mod_eq_of_lt (by omega)]
  rw [UInt32.toNat_or, UInt32.toNat_or, UInt32.toNat_or, hshift x₀ 18 h₀ (by decide),
    hshift x₁ 12 h₁ (by decide), hshift x₂ 6 h₂ (by decide)]
  have hfirst : x₀.toNat <<< 18 ||| x₁.toNat <<< 12 = (x₀.toNat * 64 + x₁.toNat) <<< 12 := by
    rw [Nat.shiftLeft_eq x₁.toNat, Nat.or_comm, or_shiftLeft_eq_add (by omega), Nat.shiftLeft_eq]
    omega
  have hsecond : (x₀.toNat * 64 + x₁.toNat) <<< 12 ||| x₂.toNat <<< 6 =
      (x₀.toNat * 64 * 64 + x₁.toNat * 64 + x₂.toNat) <<< 6 := by
    rw [Nat.shiftLeft_eq x₂.toNat, Nat.or_comm, or_shiftLeft_eq_add (by omega), Nat.shiftLeft_eq]
    omega
  show x₀.toNat <<< 18 ||| x₁.toNat <<< 12 ||| x₂.toNat <<< 6 ||| x₃.toNat = _
  rw [hfirst, hsecond, Nat.or_comm, or_shiftLeft_eq_add (by omega)]
  omega

/-- An invalid character leaves the upper byte of the number set, wherever it stands. -/
theorem le_packed {x₀ x₁ x₂ x₃ : UInt32}
    (h : 2 ^ 32 - 2 ^ 7 ≤ x₀.toNat ∨ 2 ^ 32 - 2 ^ 7 ≤ x₁.toNat ∨
    2 ^ 32 - 2 ^ 7 ≤ x₂.toNat ∨ 2 ^ 32 - 2 ^ 7 ≤ x₃.toNat) :
    2 ^ 24 ≤ (x₀ <<< 18 ||| x₁ <<< 12 ||| x₂ <<< 6 ||| x₃).toNat := by
  have hlt₀ := x₀.toNat_lt
  have hlt₁ := x₁.toNat_lt
  have hlt₂ := x₂.toNat_lt
  have h₀ : (x₀ <<< 18).toNat = x₀.toNat * 2 ^ 18 % 2 ^ 32 := by
    rw [UInt32.toNat_shiftLeft, Nat.shiftLeft_eq]
    rfl
  have h₁ : (x₁ <<< 12).toNat = x₁.toNat * 2 ^ 12 % 2 ^ 32 := by
    rw [UInt32.toNat_shiftLeft, Nat.shiftLeft_eq]
    rfl
  have h₂ : (x₂ <<< 6).toNat = x₂.toNat * 2 ^ 6 % 2 ^ 32 := by
    rw [UInt32.toNat_shiftLeft, Nat.shiftLeft_eq]
    rfl
  rw [UInt32.toNat_or, UInt32.toNat_or, UInt32.toNat_or]
  obtain h | h | h | h := h
  · exact (show 2 ^ 24 ≤ (x₀ <<< 18).toNat by omega).trans
      (Nat.left_le_or.trans (Nat.left_le_or.trans Nat.left_le_or))
  · exact (show 2 ^ 24 ≤ (x₁ <<< 12).toNat by omega).trans
      (Nat.right_le_or.trans (Nat.left_le_or.trans Nat.left_le_or))
  · exact (show 2 ^ 24 ≤ (x₂ <<< 6).toNat by omega).trans (Nat.right_le_or.trans Nat.left_le_or)
  · exact (show 2 ^ 24 ≤ x₃.toNat by omega).trans Nat.right_le_or

variable {c₀ c₁ c₂ c₃ : UInt8}

/-- Four characters of the alphabet are three bytes. -/
theorem decodeThreeChars_of_mem (h₀ : c₀ ∈ kBase64UrlSafeChars) (h₁ : c₁ ∈ kBase64UrlSafeChars)
    (h₂ : c₂ ∈ kBase64UrlSafeChars) (h₃ : c₃ ∈ kBase64UrlSafeChars) :
    decodeThreeChars c₀ c₁ c₂ c₃ = .ok
      [((convert c₀).toNat * 4 + (convert c₁).toNat / 16).toUInt8,
        ((convert c₁).toNat % 16 * 16 + (convert c₂).toNat / 4).toUInt8,
        ((convert c₂).toNat % 4 * 64 + (convert c₃).toNat).toUInt8] := by
  have hlt₀ := convert_lt h₀
  have hlt₁ := convert_lt h₁
  have hlt₂ := convert_lt h₂
  have hlt₃ := convert_lt h₃
  have hpacked := toNat_packed hlt₀ hlt₁ hlt₂ hlt₃
  have hsmall : ¬(convert c₀ <<< 18 ||| convert c₁ <<< 12 ||| convert c₂ <<< 6 ||| convert c₃) &&&
      0xFF000000 ≠ 0 := by
    rw [and_ff000000_ne_zero_iff, hpacked]
    omega
  rw [decodeThreeChars, if_neg hsmall]
  generalize convert c₀ <<< 18 ||| convert c₁ <<< 12 ||| convert c₂ <<< 6 ||| convert c₃ = packed
    at hpacked
  have hsixteen : (packed >>> 16).toNat = packed.toNat / 2 ^ 16 := by
    rw [UInt32.toNat_shiftRight]
    exact Nat.shiftRight_eq_div_pow _ 16
  have height : (packed >>> 8).toNat = packed.toNat / 2 ^ 8 := by
    rw [UInt32.toNat_shiftRight]
    exact Nat.shiftRight_eq_div_pow _ 8
  congr 2
  · apply UInt8.toNat_inj.1
    rw [UInt32.toNat_toUInt8, hsixteen, hpacked, UInt8.toNat_ofNat']
    omega
  congr 1
  · apply UInt8.toNat_inj.1
    rw [UInt32.toNat_toUInt8, height, hpacked, UInt8.toNat_ofNat']
    omega
  congr 1
  · apply UInt8.toNat_inj.1
    rw [UInt32.toNat_toUInt8, hpacked, UInt8.toNat_ofNat']
    omega

/-- A character outside of the alphabet is found. -/
theorem decodeThreeChars_of_notMem (h : ¬(c₀ ∈ kBase64UrlSafeChars ∧ c₁ ∈ kBase64UrlSafeChars ∧
    c₂ ∈ kBase64UrlSafeChars ∧ c₃ ∈ kBase64UrlSafeChars)) :
    decodeThreeChars c₀ c₁ c₂ c₃ =
      .error (invalidArgument [ascii "Invalid character found in base64."]) := by
  have hset : 2 ^ 32 - 2 ^ 7 ≤ (convert c₀).toNat ∨ 2 ^ 32 - 2 ^ 7 ≤ (convert c₁).toNat ∨
      2 ^ 32 - 2 ^ 7 ≤ (convert c₂).toNat ∨ 2 ^ 32 - 2 ^ 7 ≤ (convert c₃).toNat := by
    rw [not_and_or, not_and_or, not_and_or] at h
    exact h.imp le_convert fun h ↦ h.imp le_convert fun h ↦ h.imp le_convert le_convert
  exact if_pos ((and_ff000000_ne_zero_iff _).2 (le_packed hset))

theorem length_of_decodeThreeChars {chars : ByteString}
    (h : decodeThreeChars c₀ c₁ c₂ c₃ = .ok chars) : chars.length = 3 := by
  rw [decodeThreeChars] at h
  split at h
  · cases h
  · rw [← Except.ok.inj h]
    rfl

/-! ### What is accepted -/

theorem put_of_le {size : ℕ} {out chars : ByteString} (h : out.length + chars.length ≤ size) :
    put size out chars = some (out ++ chars) := if_pos h

theorem getD_zero_mem : kBase64UrlSafeChars.getD 0 0 ∈ kBase64UrlSafeChars := getD_mem (by decide)

/-- A full group in front of other characters. -/
theorem wellFormed_cons_iff {c₄ : UInt8} {b64 : ByteString} :
    WellFormed (c₀ :: c₁ :: c₂ :: c₃ :: c₄ :: b64) ↔
      (c₀ ∈ kBase64UrlSafeChars ∧ c₁ ∈ kBase64UrlSafeChars ∧ c₂ ∈ kBase64UrlSafeChars ∧
        c₃ ∈ kBase64UrlSafeChars) ∧ WellFormed (c₄ :: b64) := by
  constructor
  · rintro ⟨body, padding, heq, hbody, hone, hpadding⟩
    have hlen : b64.length + 5 = body.length + padding.length := by
      simpa using congrArg length heq
    have hfour : 4 ≤ body.length := by
      obtain rfl | ⟨hzero, rfl⟩ := hpadding
      · rw [length_nil] at hlen
        omega
      · rw [length_replicate] at hlen
        omega
    match body, hfour with
    | _ :: _ :: _ :: _ :: body, _ =>
      simp only [cons_append, cons.injEq] at heq
      obtain ⟨rfl, rfl, rfl, rfl, heq⟩ := heq
      simp only [forall_mem_cons] at hbody
      have hmod : (c₀ :: c₁ :: c₂ :: c₃ :: body).length % 4 = body.length % 4 := by
        simp only [length_cons]
        omega
      rw [hmod] at hone hpadding
      exact ⟨⟨hbody.1, hbody.2.1, hbody.2.2.1, hbody.2.2.2.1⟩,
        body, padding, heq, hbody.2.2.2.2, hone, hpadding⟩
  · rintro ⟨⟨h₀, h₁, h₂, h₃⟩, body, padding, heq, hbody, hone, hpadding⟩
    have hmod : (c₀ :: c₁ :: c₂ :: c₃ :: body).length % 4 = body.length % 4 := by
      simp only [length_cons]
      omega
    refine ⟨c₀ :: c₁ :: c₂ :: c₃ :: body,
      padding, by rw [heq]; rfl, ?_, hmod ▸ hone, hmod ▸ hpadding⟩
    simp only [forall_mem_cons]
    exact ⟨h₀, h₁, h₂, h₃, hbody⟩

theorem unpad_two : unpad [c₀, c₁, kPadChar, kPadChar] = [c₀, c₁] := by
  rw [unpad, if_pos ⟨rfl, rfl⟩]

theorem unpad_three (h : c₂ ≠ kPadChar) : unpad [c₀, c₁, c₂, kPadChar] = [c₀, c₁, c₂] := by
  rw [unpad, if_neg fun hpad ↦ h hpad.1, if_pos ⟨h, rfl⟩]

theorem unpad_four (h : c₃ ≠ kPadChar) : unpad [c₀, c₁, c₂, c₃] = [c₀, c₁, c₂, c₃] := by
  rw [unpad, if_neg fun hpad ↦ h hpad.2, if_neg fun hpad ↦ h hpad.2]

/-- The last group, with its padding taken off. -/
theorem wellFormed_iff_unpad {b64 : ByteString} (hpos : b64 ≠ []) (hle : b64.length ≤ 4) :
    WellFormed b64 ↔ (∀ c ∈ unpad b64, c ∈ kBase64UrlSafeChars) ∧ (unpad b64).length ≠ 1 := by
  constructor
  · rintro ⟨body, padding, rfl, hbody, hone, hpadding⟩
    rw [length_append] at hle
    suffices hunpad : unpad (body ++ padding) = body by
      rw [hunpad]
      exact ⟨hbody, fun h ↦ hone (by rw [h])⟩
    match body with
    | [] =>
      obtain rfl | ⟨hzero, -⟩ := hpadding
      · rfl
      · exact absurd rfl hzero
    | [x] => exact absurd rfl hone
    | [x, y] =>
      obtain rfl | ⟨-, rfl⟩ := hpadding
      · rfl
      · exact unpad_two
    | [x, y, z] =>
      obtain rfl | ⟨-, rfl⟩ := hpadding
      · rfl
      · exact unpad_three (ne_kPadChar (hbody z (by simp)))
    | [x, y, z, w] =>
      obtain rfl | ⟨hzero, -⟩ := hpadding
      · exact unpad_four (ne_kPadChar (hbody w (by simp)))
      · exact absurd (by simp) hzero
    | _ :: _ :: _ :: _ :: _ :: body =>
      simp only [length_cons] at hle
      omega
  · rintro ⟨hsafe, hone⟩
    match b64 with
    | [x] => exact absurd rfl hone
    | [x, y] => exact ⟨[x, y], [], rfl, hsafe, by simp, .inl rfl⟩
    | [x, y, z] => exact ⟨[x, y, z], [], rfl, hsafe, by simp, .inl rfl⟩
    | [x, y, z, w] =>
      rw [unpad] at hsafe
      split_ifs at hsafe with htwo hthree
      · exact ⟨[x, y], [kPadChar, kPadChar], by rw [htwo.1, htwo.2]; rfl, hsafe, by simp,
          .inr ⟨by simp, rfl⟩⟩
      · exact ⟨[x, y, z], [kPadChar], by rw [hthree.2]; rfl, hsafe, by simp, .inr ⟨by simp, rfl⟩⟩
      · exact ⟨[x, y, z, w], [], rfl, hsafe, by simp, .inl rfl⟩
    | _ :: _ :: _ :: _ :: _ :: b64 =>
      simp only [length_cons] at hle
      omega

theorem length_unpad {b64 : ByteString} (hpos : b64 ≠ []) (hle : b64.length ≤ 4) :
    1 ≤ (unpad b64).length ∧ (unpad b64).length ≤ 4 := by
  rw [unpad.eq_def]
  split
  · split_ifs <;> simp
  · exact ⟨length_pos_iff.2 hpos, hle⟩

/-- The outcome of a call is no fault, and OK exactly if the condition holds. -/
def SucceedsIff (P : Prop) (r : Option (Except Status ByteString)) : Prop :=
  (P ∧ ∃ s, r = some (.ok s)) ∨ ¬P ∧ ∃ e, r = some (.error e)

variable {size : ℕ} {b64 out : ByteString}

/-- The last group may be short, or end in padding. -/
theorem decodeTail_succeedsIff (hpos : b64 ≠ []) (hle : b64.length ≤ 4)
    (hsize : out.length + 3 ≤ size) : SucceedsIff (WellFormed b64) (decodeTail size b64 out) := by
  rw [wellFormed_iff_unpad hpos hle, decodeTail]
  obtain ⟨hlo, hhi⟩ := length_unpad hpos hle
  generalize unpad b64 = codes at hlo hhi ⊢
  dsimp only
  by_cases hone : codes.length = 1
  · rw [if_pos hone]
    exact .inr ⟨fun h ↦ h.2 hone, _, rfl⟩
  rw [if_neg hone]
  -- the characters that fill up the group are of the alphabet
  have hmem : (∀ c ∈ codes, c ∈ kBase64UrlSafeChars) ↔
      (codes ++ replicate (4 - codes.length) (kBase64UrlSafeChars.getD 0 0)).getD 0 0 ∈
          kBase64UrlSafeChars ∧
        (codes ++ replicate (4 - codes.length) (kBase64UrlSafeChars.getD 0 0)).getD 1 0 ∈
          kBase64UrlSafeChars ∧
        (codes ++ replicate (4 - codes.length) (kBase64UrlSafeChars.getD 0 0)).getD 2 0 ∈
          kBase64UrlSafeChars ∧
        (codes ++ replicate (4 - codes.length) (kBase64UrlSafeChars.getD 0 0)).getD 3 0 ∈
          kBase64UrlSafeChars := by
    match codes, hlo, hhi, hone with
    | [x, y], _, _, _ =>
      exact ⟨fun h ↦ ⟨h x (by simp), h y (by simp), getD_zero_mem, getD_zero_mem⟩,
        fun h ↦ forall_mem_cons.2 ⟨h.1, forall_mem_singleton.2 h.2.1⟩⟩
    | [x, y, z], _, _, _ =>
      exact ⟨fun h ↦ ⟨h x (by simp), h y (by simp), h z (by simp), getD_zero_mem⟩, fun h ↦
        forall_mem_cons.2 ⟨h.1, forall_mem_cons.2 ⟨h.2.1, forall_mem_singleton.2 h.2.2.1⟩⟩⟩
    | [x, y, z, w], _, _, _ =>
      exact ⟨fun h ↦ ⟨h x (by simp), h y (by simp), h z (by simp), h w (by simp)⟩, fun h ↦
        forall_mem_cons.2 ⟨h.1, forall_mem_cons.2 ⟨h.2.1,
          forall_mem_cons.2 ⟨h.2.2.1, forall_mem_singleton.2 h.2.2.2⟩⟩⟩⟩
    | [x], _, _, hone => exact absurd rfl hone
  by_cases hsafe : ∀ c ∈ codes, c ∈ kBase64UrlSafeChars
  · obtain ⟨h₀, h₁, h₂, h₃⟩ := hmem.1 hsafe
    rw [decodeThreeChars_of_mem h₀ h₁ h₂ h₃]
    refine .inl ⟨⟨hsafe, hone⟩, ?_⟩
    dsimp only
    rw [put_of_le hsize]
    exact ⟨_, rfl⟩
  · rw [decodeThreeChars_of_notMem fun h ↦ hsafe (hmem.2 h)]
    exact .inr ⟨fun h ↦ hsafe h.1, _, rfl⟩

theorem decodeLoop_of_length_le (hle : b64.length ≤ 4) :
    decodeLoop size b64 out = decodeTail size b64 out := by
  match b64, hle with
  | [], _ | [_], _ | [_, _], _ | [_, _, _], _ | [_, _, _, _], _ => rfl
  | _ :: _ :: _ :: _ :: _ :: _, hle =>
    simp only [length_cons] at hle
    omega

/-- The loop writes three characters for every group, a group cut short included. -/
theorem decodeLoop_succeedsIff (hpos : b64 ≠ [])
    (hsize : out.length + 3 * ((b64.length + 3) / 4) ≤ size) :
    SucceedsIff (WellFormed b64) (decodeLoop size b64 out) := by
  fun_induction decodeLoop size b64 out with
  | case1 c₀ c₁ c₂ c₃ c₄ b64 out e he =>
    refine .inr ⟨fun h ↦ ?_, _, rfl⟩
    obtain ⟨h₀, h₁, h₂, h₃⟩ := (wellFormed_cons_iff.1 h).1
    rw [decodeThreeChars_of_mem h₀ h₁ h₂ h₃] at he
    cases he
  | case2 c₀ c₁ c₂ c₃ c₄ b64 out chars hchars ih =>
    have hlen := length_of_decodeThreeChars hchars
    simp only [length_cons] at hsize ih
    rw [put_of_le (by omega), Option.bind_some]
    have hsafe : c₀ ∈ kBase64UrlSafeChars ∧ c₁ ∈ kBase64UrlSafeChars ∧ c₂ ∈ kBase64UrlSafeChars ∧
        c₃ ∈ kBase64UrlSafeChars := by
      by_contra hnot
      rw [decodeThreeChars_of_notMem hnot] at hchars
      cases hchars
    have hrest := ih (out ++ chars) (cons_ne_nil _ _) (by rw [length_append]; omega)
    rwa [SucceedsIff, wellFormed_cons_iff, and_iff_right hsafe]
  | case3 b64 out hshort =>
    have hle : b64.length ≤ 4 := by
      match b64, hshort with
      | [], _ | [_], _ | [_, _], _ | [_, _, _], _ | [_, _, _, _], _ => simp
      | _ :: _ :: _ :: _ :: _ :: _, hshort => exact absurd rfl (hshort _ _ _ _ _ _)
    have hlt := length_pos_iff.2 hpos
    exact decodeTail_succeedsIff hpos hle (by omega)

theorem base64Decode_succeedsIff (data decoded : ByteString) :
    SucceedsIff (WellFormed data) (base64Decode data (some decoded)) := by
  rw [base64Decode]
  by_cases hdata : data = []
  · rw [if_pos hdata, hdata]
    exact .inl ⟨⟨[], [], rfl, by simp, by decide, .inl rfl⟩, _, rfl⟩
  · rw [if_neg hdata]
    exact decodeLoop_succeedsIff hdata (by rw [length_nil]; omega)

/-! ### Round trip -/

theorem toNat_shiftRight_two (a : UInt8) : ((a >>> 2) &&& 0x3F).toNat = a.toNat / 4 := by
  have ha := a.toNat_lt
  rw [UInt8.toNat_and, UInt8.toNat_shiftRight]
  show a.toNat >>> 2 &&& 2 ^ 6 - 1 = _
  rw [Nat.and_two_pow_sub_one_eq_mod, Nat.shiftRight_eq_div_pow]
  omega

theorem toNat_and_3 (a : UInt8) : ((a &&& 0x03) <<< 4).toNat = a.toNat % 4 * 16 := by
  rw [UInt8.toNat_shiftLeft, UInt8.toNat_and]
  show (a.toNat &&& 2 ^ 2 - 1) <<< 4 % 2 ^ 8 = _
  rw [Nat.and_two_pow_sub_one_eq_mod, Nat.shiftLeft_eq]
  omega

theorem toNat_and_f (b : UInt8) : ((b &&& 0x0F) <<< 2).toNat = b.toNat % 16 * 4 := by
  rw [UInt8.toNat_shiftLeft, UInt8.toNat_and]
  show (b.toNat &&& 2 ^ 4 - 1) <<< 2 % 2 ^ 8 = _
  rw [Nat.and_two_pow_sub_one_eq_mod, Nat.shiftLeft_eq]
  omega

theorem toNat_and_3f (c : UInt8) : (c &&& 0x3F).toNat = c.toNat % 64 := by
  rw [UInt8.toNat_and]
  exact Nat.and_two_pow_sub_one_eq_mod c.toNat 6

theorem toNat_second (a b : UInt8) :
    (((a &&& 0x03) <<< 4) ||| ((b >>> 4) &&& 0x0F)).toNat = a.toNat % 4 * 16 + b.toNat / 16 := by
  have hb := b.toNat_lt
  have hhigh : ((b >>> 4) &&& 0x0F).toNat = b.toNat / 16 := by
    rw [UInt8.toNat_and, UInt8.toNat_shiftRight]
    show b.toNat >>> 4 &&& 2 ^ 4 - 1 = _
    rw [Nat.and_two_pow_sub_one_eq_mod, Nat.shiftRight_eq_div_pow]
    omega
  rw [UInt8.toNat_or, toNat_and_3, hhigh, Nat.or_comm, ← Nat.shiftLeft_eq _ 4,
    or_shiftLeft_eq_add (by omega)]
  omega

theorem toNat_third (b c : UInt8) :
    (((b &&& 0x0F) <<< 2) ||| ((c >>> 6) &&& 0x03)).toNat = b.toNat % 16 * 4 + c.toNat / 64 := by
  have hc := c.toNat_lt
  have hhigh : ((c >>> 6) &&& 0x03).toNat = c.toNat / 64 := by
    rw [UInt8.toNat_and, UInt8.toNat_shiftRight]
    show c.toNat >>> 6 &&& 2 ^ 2 - 1 = _
    rw [Nat.and_two_pow_sub_one_eq_mod, Nat.shiftRight_eq_div_pow]
    omega
  rw [UInt8.toNat_or, toNat_and_f, hhigh, Nat.or_comm, ← Nat.shiftLeft_eq _ 2,
    or_shiftLeft_eq_add (by omega)]
  omega

theorem base64Char_of_lt {i : UInt8} (hi : i.toNat < 64) : base64Char i ∈ kBase64UrlSafeChars ∧
    base64Char i ≠ kPadChar ∧ (convert (base64Char i)).toNat = i.toNat := by
  rw [base64Char]
  exact ⟨getD_mem hi, ne_kPadChar (getD_mem hi), convert_getD _ hi⟩

/-- Four indices of the alphabet are decoded as three bytes. -/
theorem decodeThreeChars_base64Char {i₀ i₁ i₂ i₃ a b c : UInt8}
    (h₀ : i₀.toNat = a.toNat / 4) (h₁ : i₁.toNat = a.toNat % 4 * 16 + b.toNat / 16)
    (h₂ : i₂.toNat = b.toNat % 16 * 4 + c.toNat / 64) (h₃ : i₃.toNat = c.toNat % 64) :
    decodeThreeChars (base64Char i₀) (base64Char i₁) (base64Char i₂) (base64Char i₃) =
      .ok [a, b, c] := by
  have ha := a.toNat_lt
  have hb := b.toNat_lt
  have hc := c.toNat_lt
  obtain ⟨m₀, -, v₀⟩ := base64Char_of_lt (i := i₀) (by omega)
  obtain ⟨m₁, -, v₁⟩ := base64Char_of_lt (i := i₁) (by omega)
  obtain ⟨m₂, -, v₂⟩ := base64Char_of_lt (i := i₂) (by omega)
  obtain ⟨m₃, -, v₃⟩ := base64Char_of_lt (i := i₃) (by omega)
  have ha' : i₀.toNat * 4 + i₁.toNat / 16 = a.toNat := by omega
  have hb' : i₁.toNat % 16 * 16 + i₂.toNat / 4 = b.toNat := by omega
  have hc' : i₂.toNat % 4 * 64 + i₃.toNat = c.toNat := by omega
  have hback : ∀ x : UInt8, x.toNat.toUInt8 = x := fun x ↦ UInt8.ofNat_toNat
  rw [decodeThreeChars_of_mem m₀ m₁ m₂ m₃, v₀, v₁, v₂, v₃, ha', hb', hc', hback, hback, hback]

/-- What `Base64Encode` writes. -/
def encoded (withPadding : Bool) : ByteString → ByteString
  | a :: b :: c :: data =>
    base64Char ((a >>> 2) &&& 0x3F) :: base64Char (((a &&& 0x03) <<< 4) ||| ((b >>> 4) &&& 0x0F)) ::
      base64Char (((b &&& 0x0F) <<< 2) ||| ((c >>> 6) &&& 0x03)) :: base64Char (c &&& 0x3F) ::
        encoded withPadding data
  | [a, b] =>
    [base64Char ((a >>> 2) &&& 0x3F), base64Char (((a &&& 0x03) <<< 4) ||| ((b >>> 4) &&& 0x0F)),
      base64Char ((b &&& 0x0F) <<< 2)] ++ if withPadding then [kPadChar] else []
  | [a] =>
    [base64Char ((a >>> 2) &&& 0x3F), base64Char ((a &&& 0x03) <<< 4)] ++
      if withPadding then [kPadChar, kPadChar] else []
  | [] => []

variable {withPadding : Bool}

/-- The buffer holds what is written. -/
theorem encodeLoop_eq (data : ByteString) (h : out.length + 4 * (data.length / 3) + 4 ≤ size) :
    encodeLoop size withPadding data out = some (out ++ encoded withPadding data) := by
  fun_induction encodeLoop size withPadding data out with
  | case1 a b c data out ih =>
    simp only [length_cons] at h
    rw [put_of_le (by simp only [length_cons, length_nil]; omega), Option.bind_some,
      ih _ (by simp only [length_append, length_cons, length_nil]; omega), encoded, append_assoc]
    rfl
  | case2 out a b =>
    rw [put_of_le (by cases withPadding <;> simp at h ⊢ <;> omega)]
    rfl
  | case3 out a =>
    rw [put_of_le (by cases withPadding <;> simp at h ⊢ <;> omega)]
    rfl
  | case4 out => rw [encoded, append_nil]

theorem exists_encoded_cons (withPadding : Bool) {data : ByteString} (h : data ≠ []) :
    ∃ c rest, encoded withPadding data = c :: rest := by
  match data with
  | [_] | [_, _] | _ :: _ :: _ :: _ => exact ⟨_, _, rfl⟩

/-- The last group is decoded with zeros for what is missing of it. -/
theorem decodeLoop_last {codes chars : ByteString} (hle : b64.length ≤ 4)
    (hunpad : unpad b64 = codes) (hone : codes.length ≠ 1) (hsize : out.length + 3 ≤ size)
    (hfill : codes ++ List.replicate (4 - codes.length) (base64Char 0) = [c₀, c₁, c₂, c₃])
    (hchars : decodeThreeChars c₀ c₁ c₂ c₃ = .ok chars) :
    decodeLoop size b64 out = some (.ok (out ++ chars.take (codes.length - 1))) := by
  have hlen := length_of_decodeThreeChars hchars
  have hzero : kBase64UrlSafeChars.getD 0 0 = base64Char 0 := rfl
  rw [decodeLoop_of_length_le hle, decodeTail, hunpad, hzero, hfill]
  have hchars' : decodeThreeChars ([c₀, c₁, c₂, c₃].getD 0 0) ([c₀, c₁, c₂, c₃].getD 1 0)
      ([c₀, c₁, c₂, c₃].getD 2 0) ([c₀, c₁, c₂, c₃].getD 3 0) = .ok chars := hchars
  dsimp only
  rw [if_neg hone, hchars']
  dsimp only
  rw [put_of_le (by omega), Option.map_some]

/-- The groups are decoded one after the other, and the bytes of a group cut short are its first
ones. -/
theorem decodeLoop_encoded (data : ByteString) (hdata : data ≠ [])
    (h : out.length + 3 * ((data.length + 2) / 3) ≤ size) :
    decodeLoop size (encoded withPadding data) out = some (.ok (out ++ data)) := by
  fun_induction encoded withPadding data generalizing out with
  | case1 a b c data ih =>
    have hchars := decodeThreeChars_base64Char (toNat_shiftRight_two a) (toNat_second a b)
      (toNat_third b c) (toNat_and_3f c)
    obtain ⟨-, hne, -⟩ := base64Char_of_lt (i := c &&& 0x3F) (by rw [toNat_and_3f]; omega)
    simp only [length_cons] at h
    by_cases hrest : data = []
    · rw [hrest, encoded, decodeLoop_last (by simp) (unpad_four hne) (by simp) (by omega)
        rfl hchars]
      rfl
    · obtain ⟨x, rest, heq⟩ := exists_encoded_cons withPadding hrest
      have hout : (out ++ [a, b, c]).length = out.length + 3 := by simp
      have ih := @ih (out ++ [a, b, c]) hrest (by omega)
      rw [heq] at ih ⊢
      rw [decodeLoop, hchars]
      dsimp only
      rw [put_of_le (by simp only [length_cons, length_nil]; omega), Option.bind_some, ih,
        append_assoc]
      rfl
  | case2 a b =>
    simp only [length_cons, length_nil] at h
    have hzero : (0 : UInt8).toNat = (0 : UInt8).toNat % 64 := rfl
    have hchars :=
      decodeThreeChars_base64Char (toNat_shiftRight_two a) (toNat_second a b) (toNat_and_f b) hzero
    have hlt : (((b &&& 0x0F) <<< 2)).toNat < 64 := by
      rw [toNat_and_f]
      omega
    obtain ⟨-, hne, -⟩ := base64Char_of_lt hlt
    cases withPadding
    · have hunpad : unpad [base64Char ((a >>> 2) &&& 0x3F),
          base64Char (((a &&& 0x03) <<< 4) ||| ((b >>> 4) &&& 0x0F)),
          base64Char ((b &&& 0x0F) <<< 2)] =
          [_, _, _] := rfl
      exact decodeLoop_last (by simp) hunpad (by simp) (by omega) rfl hchars
    · exact decodeLoop_last (by simp) (unpad_three hne) (by simp) (by omega) rfl hchars
  | case3 a =>
    simp only [length_cons, length_nil] at h
    have hzero : (0 : UInt8).toNat = (0 : UInt8).toNat % 64 := rfl
    have hthird : (0 : UInt8).toNat = (0 : UInt8).toNat % 16 * 4 + (0 : UInt8).toNat / 64 := rfl
    have hchars := decodeThreeChars_base64Char (toNat_shiftRight_two a) (toNat_and_3 a) hthird hzero
    cases withPadding
    · have hunpad : unpad [base64Char ((a >>> 2) &&& 0x3F), base64Char ((a &&& 0x03) <<< 4)] =
          [_, _] := rfl
      exact decodeLoop_last (by simp) hunpad (by simp) (by omega) rfl hchars
    · exact decodeLoop_last (by simp) unpad_two (by simp) (by omega) rfl hchars
  | case4 => exact absurd rfl hdata

theorem length_encoded (data : ByteString) :
    3 * ((data.length + 2) / 3) ≤ 3 * ((encoded withPadding data).length / 4) + 3 := by
  fun_induction encoded withPadding data with
  | case1 a b c data ih =>
    simp only [length_cons]
    omega
  | case2 a b =>
    simp only [length_cons, length_nil]
    omega
  | case3 a =>
    simp only [length_cons, length_nil]
    omega
  | case4 => exact Nat.zero_le _

/-- **The decoder undoes the encoder** and accepts exactly the well-formed strings, and neither of
them writes outside of its buffer. -/
theorem base64_codec (encoded decoded : ByteString) :
    (∀ source withPadding, ∃ data, base64Encode source withPadding (some encoded) =
      some (.ok data) ∧
      base64Decode data (some decoded) = some (.ok source)) ∧
    (∀ data, (∃ s, base64Decode data (some decoded) = some (.ok s)) ↔ WellFormed data) ∧
    (∀ source withPadding, base64Encode source withPadding (some encoded) ≠ none) ∧
    ∀ data, base64Decode data (some decoded) ≠ none := by
  have hencode : ∀ source withPadding,
      base64Encode source withPadding (some encoded) =
      some (.ok (Base64.encoded withPadding source)) :=
    fun source withPadding ↦ by
      rw [base64Encode, encodeLoop_eq source (by rw [length_nil]; omega), nil_append,
        Option.map_some]
  refine ⟨fun source withPadding ↦ ⟨_, hencode source withPadding, ?_⟩, fun data ↦ ?_,
    fun source withPadding ↦ ?_, fun data ↦ ?_⟩
  · by_cases hsource : source = []
    · rw [hsource]
      rfl
    · obtain ⟨c, rest, heq⟩ := exists_encoded_cons withPadding hsource
      have hlen : 3 * ((source.length + 2) / 3) ≤ 3 *
          ((Base64.encoded withPadding source).length / 4) + 3 :=
        length_encoded source
      rw [base64Decode, if_neg (by rw [heq]; exact cons_ne_nil _ _),
        decodeLoop_encoded source hsource (by rw [length_nil]; omega), nil_append]
  · obtain ⟨hwf, s, hs⟩ | ⟨hwf, e, he⟩ := base64Decode_succeedsIff data decoded
    · exact ⟨fun _ ↦ hwf, fun _ ↦ ⟨s, hs⟩⟩
    · exact ⟨fun ⟨s, hs⟩ ↦ absurd (hs.symm.trans he) (by simp), fun h ↦ absurd h hwf⟩
  · rw [hencode]
    exact Option.some_ne_none _
  · obtain ⟨-, s, hs⟩ | ⟨-, e, he⟩ := base64Decode_succeedsIff data decoded
    · rw [hs]
      exact Option.some_ne_none _
    · rw [he]
      exact Option.some_ne_none _

end TensorFlowCore.Base64
