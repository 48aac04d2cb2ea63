import TensorFlowCore.Lib.Strings.OrderedCodeSigned

/-!
# Reading signed numbers

`ReadSignedNumIncreasing` reads back what has been written of a number that is not negative; for the
other ones it does the same to the complements of the bytes (`readSignedNumIncreasing_append`).
-/

namespace TensorFlowCore.OrderedCode

open List

/-! ### Words of bytes -/

theorem toNat_shiftLeft_or_byte (x : UInt64) (b : UInt8) :
    (x <<< 8 ||| b.toUInt64).toNat = (x.toNat * 256 + b.toNat) % 2 ^ 64 := by
  have hb : b.toNat < 2 ^ 8 := b.toNat_lt
  have hx := x.toNat_lt
  rw [UInt64.toNat_or, UInt64.toNat_shiftLeft, UInt8.toNat_toUInt64]
  show x.toNat <<< 8 % 2 ^ 64 ||| b.toNat = _
  have hmod : x.toNat * 2 ^ 8 % 2 ^ 64 = 2 ^ 8 * (x.toNat % 2 ^ 56) := by omega
  rw [Nat.shiftLeft_eq, hmod, ← Nat.two_pow_add_eq_or_of_lt hb]
  omega

/-- Bytes that are shifted in. -/
theorem toNat_foldl_bytes (x : UInt64) (bytes : ByteString) :
    (bytes.foldl (fun (x : UInt64) b ↦ x <<< 8 ||| b.toUInt64) x).toNat =
      (x.toNat * 256 ^ bytes.length + bigEndian bytes) % 2 ^ 64 := by
  induction bytes generalizing x with
  | nil =>
    have hx := x.toNat_lt
    simp [bigEndian, Nat.mod_eq_of_lt hx]
  | cons b bytes ih =>
    rw [foldl_cons, ih, toNat_shiftLeft_or_byte, bigEndian, length_cons, Nat.pow_succ]
    rw [Nat.add_mod, Nat.mod_mul_mod, ← Nat.add_mod]
    congr 1
    ring

theorem toNat_loadBigEndian64Loop {i : ℕ} (hi : i ≤ 8) {result : UInt64}
    (hresult : result.toNat % 256 ^ i = 0) (hsrc : i ≤ src.length) :
    (loadBigEndian64Loop i result src).toNat = result.toNat + bigEndian (src.take i) := by
  induction i generalizing result src with
  | zero => simp [loadBigEndian64Loop, bigEndian]
  | succ i ih =>
    obtain ⟨c, src, rfl⟩ := exists_cons_of_length_pos (l := src) (by omega)
    rw [length_cons] at hsrc
    have hc : c.toNat < 2 ^ 8 := c.toNat_lt
    have hfit : c.toNat * 2 ^ (8 * i) < 2 ^ (8 * (i + 1)) := by
      rw [Nat.mul_succ, Nat.pow_add, Nat.mul_comm]
      exact Nat.mul_lt_mul_of_pos_left hc (Nat.two_pow_pos _)
    have hshift : (c.toUInt64 <<< (8 * i).toUInt64).toNat = c.toNat * 2 ^ (8 * i) := by
      have hs : (8 * i).toUInt64.toNat = 8 * i := Nat.mod_eq_of_lt (by omega)
      have hpow : 2 ^ (8 * (i + 1)) ≤ 2 ^ 64 := Nat.pow_le_pow_right (by decide) (by omega)
      rw [UInt64.toNat_shiftLeft, UInt8.toNat_toUInt64, hs,
        Nat.mod_eq_of_lt (by omega : 8 * i < 64), Nat.shiftLeft_eq,
        Nat.mod_eq_of_lt (hfit.trans_le hpow)]
    obtain ⟨k, hk⟩ := Nat.dvd_of_mod_eq_zero hresult
    have h256 : (256 : ℕ) ^ (i + 1) = 2 ^ (8 * (i + 1)) := by
      rw [Nat.pow_mul]
    have hor : (result ||| (c.toUInt64 <<< (8 * i).toUInt64)).toNat = result.toNat + c.toNat *
        2 ^ (8 * i) := by
      rw [UInt64.toNat_or, hshift, hk, h256, ← Nat.two_pow_add_eq_or_of_lt hfit]
    have h256' : (256 : ℕ) ^ i = 2 ^ (8 * i) := by
      rw [Nat.pow_mul]
    rw [loadBigEndian64Loop, ih (by omega) ?_ (by omega), hor, take_succ_cons, bigEndian,
      length_take, Nat.min_eq_left (by omega), h256', Nat.add_assoc]
    rw [hor, hk, h256', Nat.pow_succ, h256', Nat.mul_assoc, Nat.add_mod, Nat.mul_mod_right,
      Nat.mul_mod_left, Nat.zero_add, Nat.zero_mod]

theorem toNat_loadBigEndian64 (h : 8 ≤ src.length) :
    (loadBigEndian64 src).toNat = bigEndian (src.take 8) := by
  rw [loadBigEndian64, toNat_loadBigEndian64Loop le_rfl rfl h]
  exact Nat.zero_add _

theorem kLengthToMask_spec : ∀ n < 11, 1 ≤ n →
    (kLengthToMask.getD n 0).toNat = 2 ^ (7 * n) * (2 ^ n - 1) % 2 ^ 64 := by
  decide +kernel

/-- The header bits are removed from the bits of a number. -/
theorem toNat_xor_mask {m n : ℕ} (h : WrittenIn m n) (hm : m < 2 ^ 63) {x : UInt64}
    (hx : x.toNat = (2 ^ (7 * n) * (2 ^ n - 1) + m) % 2 ^ 64) :
    (x ^^^ kLengthToMask.getD n 0).toNat = m := by
  rw [UInt64.toNat_xor, hx, kLengthToMask_spec n (Nat.lt_succ_of_le h.le_ten) h.pos]
  have hlt := h.lt
  have hpos := h.pos
  rcases Nat.lt_or_ge n 10 with hn | hn
  · have hsplit : (2 : ℕ) ^ 64 = 2 ^ (7 * n) * 2 ^ (64 - 7 * n) := by
      rw [← Nat.pow_add]
      congr 1
      omega
    have hm' : m < 2 ^ (7 * n) := hlt.trans_le (Nat.pow_le_pow_right (by decide) (by omega))
    have hmod : (2 ^ (7 * n) * (2 ^ n - 1) + m) % 2 ^ 64 =
        2 ^ (7 * n) * ((2 ^ n - 1) % 2 ^ (64 - 7 * n)) + m := by
      rw [hsplit, Nat.mod_mul, Nat.mul_add_mod, Nat.mod_eq_of_lt hm',
        Nat.mul_add_div (Nat.two_pow_pos _), Nat.div_eq_of_lt hm', Nat.add_zero, Nat.add_comm]
    have hmask : 2 ^ (7 * n) * (2 ^ n - 1) % 2 ^ 64 = 2 ^ (7 * n) *
        ((2 ^ n - 1) % 2 ^ (64 - 7 * n)) := by
      rw [hsplit, Nat.mul_mod_mul_left]
    rw [hmod, hmask, ← two_pow_mul_xor hm', Nat.xor_comm, ← Nat.xor_assoc, Nat.xor_self,
      Nat.zero_xor]
  · obtain rfl : n = 10 := by
      have := h.le_ten
      omega
    have hzero : 2 ^ (7 * 10) * (2 ^ 10 - 1) % 2 ^ 64 = 0 := by decide
    rw [hzero, Nat.xor_zero]
    omega

theorem firstByte_spec : ∀ n < 8, ∀ c < 256, 1 ≤ n ∧ 256 - 2 ^ (8 - n) ≤ c ∧ c < 256 - 2 ^ (7 - n) →
    c.toUInt8 &&& 0x80 ≠ 0 ∧ c.toUInt8 ^^^ 0 ≠ 0xff ∧
      (7 - log2Floor64 (c.toUInt8 ^^^ 0 ^^^ 0xff).toUInt64).toNat = n := by
  decide +kernel

section

variable {m n : ℕ} (h : WrittenIn m n)
include h

/-- The first bytes of an encoding of `n` bytes. -/
theorem firstByte_bounds {c : UInt8} {e : ByteString} (hlen : e.length + 1 = n)
    (he : bigEndian (c :: e) + 2 ^ (7 * n) = 2 ^ (8 * n) + m) :
    256 - 2 ^ (8 - n) ≤ c.toNat ∧ c.toNat < 256 - 2 ^ (7 - n) ∨ 8 ≤ n ∧ c.toNat = 255 := by
  have hlt := h.lt
  have hle := h.le_ten
  have hpos := h.pos
  have hc : c.toNat < 256 := c.toNat_lt
  have htail := bigEndian_lt e
  have hlen' : e.length = n - 1 := by omega
  rw [bigEndian, hlen'] at he
  rw [hlen'] at htail
  interval_cases n <;> simp only [Nat.reduceMul, Nat.reduceSub, Nat.reducePow] at he htail hlt ⊢
    <;> omega

/-- The second and the third byte of an encoding with a header that is longer than a byte. -/
theorem longEncodingLength_of_written (hm : m < 2 ^ 63) (hn : 8 ≤ n) {c : UInt8} {e : ByteString}
    (hlen : e.length + 1 = n) (hc : c.toNat = 255)
    (he : bigEndian (c :: e) + 2 ^ (7 * n) = 2 ^ (8 * n) + m) (suffix : ByteString) :
    longEncodingLength 0 (c :: (e ++ suffix)) = some n := by
  obtain ⟨c₁, e₁, rfl⟩ := exists_cons_of_length_pos (l := e) (by omega)
  rw [length_cons] at hlen
  obtain ⟨c₂, rest, rfl⟩ := exists_cons_of_length_pos (l := e₁) (by omega)
  rw [length_cons] at hlen
  have hbounds : n = 8 ∧ c₁.toNat < 128 ∨ n = 9 ∧ 128 ≤ c₁.toNat ∧ c₁.toNat < 192 ∨
      n = 10 ∧ c₁.toNat = 192 ∧ c₂.toNat < 128 := by
    have hlt := h.lt
    have hle := h.le_ten
    have hc₁ : c₁.toNat < 256 := c₁.toNat_lt
    have hc₂ : c₂.toNat < 256 := c₂.toNat_lt
    have htail := bigEndian_lt rest
    have hlen' : rest.length = n - 3 := by omega
    rw [bigEndian, bigEndian, bigEndian, length_cons, length_cons, hlen', hc] at he
    rw [hlen'] at htail
    interval_cases n <;> simp only [Nat.reduceMul, Nat.reduceSub, Nat.reduceAdd,
      Nat.reducePow] at he htail hlt <;>
      omega
  have hsecond : (c :: (c₁ :: c₂ :: rest ++ suffix)).getD 1 0 ^^^
      ((0 : UInt64) &&& 0xff).toUInt8 = c₁ :=
    UInt8.xor_zero
  have hthird : (c :: (c₁ :: c₂ :: rest ++ suffix)).getD 2 0 ^^^
      ((0 : UInt64) &&& 0xff).toUInt8 = c₂ :=
    UInt8.xor_zero
  have hle : ∀ a b : UInt8, a ≤ b ↔ a.toNat ≤ b.toNat := fun a b ↦ UInt8.le_iff_toNat_le
  have hlt : ∀ a b : UInt8, a < b ↔ a.toNat < b.toNat := fun a b ↦ UInt8.lt_iff_toNat_lt
  rw [longEncodingLength]
  simp only [hsecond, hthird, hle, hlt, ← UInt8.toNat_inj]
  show (if 128 ≤ c₁.toNat then if c₁.toNat < 192 then some 9 else if c₁.toNat = 192 ∧
    c₂.toNat < 128 then some 10
    else none else some 8) = some n
  rcases hbounds with ⟨rfl, hlt₁⟩ | ⟨rfl, hge₁, hlt₁⟩ | ⟨rfl, heq₁, hlt₂⟩
  · rw [if_neg (by omega)]
  · rw [if_pos hge₁, if_pos hlt₁]
  · rw [if_pos (by omega), if_neg (by omega), if_pos ⟨heq₁, hlt₂⟩]

/-- The encoding of a number that is not negative is read back, whatever follows it. -/
theorem readSignedNumIncreasing_append_of_written (hm : m < 2 ^ 63) {e : ByteString}
    (hlen : e.length = n) (he : bigEndian e + 2 ^ (7 * n) = 2 ^ (8 * n) + m) (suffix : ByteString) :
    ∃ x : UInt64, x.toNat = m ∧
    readSignedNumIncreasing (e ++ suffix) = some (x.toInt64, suffix) := by
  obtain ⟨c, e, rfl⟩ := exists_cons_of_length_pos (l := e) (by rw [hlen]; exact h.pos)
  have hsum : bigEndian (c :: e) = 2 ^ (7 * n) * (2 ^ n - 1) + m := by
    have hheader : 2 ^ (7 * n) * (2 ^ n - 1) + 2 ^ (7 * n) = 2 ^ (8 * n) := by
      rw [← Nat.mul_succ, Nat.succ_eq_add_one, Nat.sub_add_cancel Nat.one_le_two_pow, ← Nat.pow_add]
      congr 1
      omega
    omega
  have hmask : ((0 : UInt64) &&& 0xff).toUInt8 = 0 := rfl
  have htake : (c :: (e ++ suffix)).take n = c :: e := take_left' hlen
  have hdrop : (c :: (e ++ suffix)).drop n = suffix := drop_left' hlen
  have hsrc : ¬(c :: (e ++ suffix)).length < n := by
    rw [← cons_append, length_append]
    omega
  rw [cons_append, readSignedNumIncreasing]
  rcases firstByte_bounds h hlen he with ⟨hge, hlt⟩ | ⟨hn, hc⟩
  · have hn : n < 8 := by
      by_contra hn
      rw [Nat.sub_eq_zero_of_le (Nat.not_lt.1 hn)] at hge
      rw [Nat.sub_eq_zero_of_le (by omega : 7 ≤ n)] at hlt
      omega
    have hbyte := firstByte_spec n hn c.toNat c.toNat_lt ⟨h.pos, hge, hlt⟩
    rw [Nat.toUInt8, UInt8.ofNat_toNat] at hbyte
    obtain ⟨hbit, hshort, hlength⟩ := hbyte
    simp only [if_neg hbit, hmask, if_pos hshort, hlength, if_neg hsrc, htake, hdrop]
    refine ⟨_, toNat_xor_mask h hm ?_, rfl⟩
    rw [toNat_foldl_bytes, hsum, UInt64.toNat_zero, Nat.zero_mul, Nat.zero_add]
  · have hc' : c = 255 := UInt8.toNat_inj.1 hc
    have hbit : ¬c &&& 0x80 = 0 := by
      rw [hc']
      decide
    have hlong : ¬c ^^^ 0 ≠ 0xff := by
      rw [hc']
      decide
    have height : ¬(c :: (e ++ suffix)).length < 8 := by omega
    have hlength := longEncodingLength_of_written h hm hn hlen hc he suffix
    simp only [if_neg hbit, hmask, if_neg hlong, if_neg height, hlength, if_neg hsrc, hdrop]
    refine ⟨_, toNat_xor_mask h hm ?_, rfl⟩
    have hlast : ((c :: (e ++ suffix)).drop (n - 8)).take 8 = (c :: e).drop (n - 8) := by
      rw [← cons_append, drop_append_of_le_length (by omega), take_left']
      rw [length_drop, hlen]
      omega
    rw [toNat_loadBigEndian64, hlast, bigEndian_drop, hsum, hlen, Nat.sub_sub_self hn]
    · rfl
    · rw [length_drop, ← cons_append, length_append, hlen]
      omega

end

/-! ### Complements -/

theorem toUInt8_not_mask {M : UInt64} (h : M = 0 ∨ M = ~~~0) :
    (~~~M &&& 0xff).toUInt8 = ~~~(M &&& 0xff).toUInt8 := by
  rcases h with rfl | rfl <;> decide

theorem complement_xor_complement (a b : UInt8) : ~~~a ^^^ ~~~b = a ^^^ b := by
  rw [UInt8.not_xor, UInt8.xor_not, UInt8.not_not]

theorem getD_map_complement {x : ByteString} {i : ℕ} (h : i < x.length) :
    (x.map (~~~·)).getD i 0 = ~~~x.getD i 0 := by
  rw [getD_eq_getElem?_getD, getD_eq_getElem?_getD, getElem?_map, getElem?_eq_getElem h]
  rfl

theorem longEncodingLength_map_complement {M : UInt64} (hM : M = 0 ∨ M = ~~~0)
    (h : ¬src.length < 8) :
    longEncodingLength (~~~M) (src.map (~~~·)) = longEncodingLength M src := by
  rw [longEncodingLength, longEncodingLength, getD_map_complement (by omega),
    getD_map_complement (by omega), toUInt8_not_mask hM, complement_xor_complement,
    complement_xor_complement]

theorem eq_not_of_toNat_add {x y : UInt64} {a b k : ℕ} (hx : x.toNat = a % 2 ^ 64)
    (hy : y.toNat = b % 2 ^ 64) (hsum : a + b + 1 = 2 ^ 64 * k) : x = ~~~y := by
  apply UInt64.toNat_inj.1
  rw [UInt64.toNat_not, hx, hy]
  show a % 2 ^ 64 = 2 ^ 64 - 1 - b % 2 ^ 64
  omega

theorem foldl_bytes_map_complement (M : UInt64) (bytes : ByteString) :
    (bytes.map (~~~·)).foldl (fun (x : UInt64) b ↦ x <<< 8 ||| b.toUInt64) (~~~M) =
      ~~~bytes.foldl (fun (x : UInt64) b ↦ x <<< 8 ||| b.toUInt64) M := by
  refine eq_not_of_toNat_add (k := 256 ^ bytes.length) (toNat_foldl_bytes _ _)
    (toNat_foldl_bytes _ _) ?_
  have hbytes := bigEndian_map_complement bytes
  have hM : (~~~M).toNat = 2 ^ 64 - 1 - M.toNat := UInt64.toNat_not M
  have hlt := M.toNat_lt
  have hsum : (~~~M).toNat * 256 ^ bytes.length + M.toNat * 256 ^ bytes.length =
      (2 ^ 64 - 1) * 256 ^ bytes.length := by
    rw [← Nat.add_mul, hM, Nat.sub_add_cancel (by omega)]
  rw [length_map]
  omega

theorem loadBigEndian64_map_complement (h : 8 ≤ src.length) :
    loadBigEndian64 (src.map (~~~·)) = ~~~loadBigEndian64 src := by
  have hlt := bigEndian_lt (src.take 8)
  have hsum := bigEndian_map_complement (src.take 8)
  rw [length_take, Nat.min_eq_left h] at hlt hsum
  have hx : (loadBigEndian64 (src.map (~~~·))).toNat = bigEndian ((src.map (~~~·)).take 8) :=
    toNat_loadBigEndian64 (by rwa [length_map])
  rw [← map_take] at hx
  refine eq_not_of_toNat_add (k := 1) (hx.trans (Nat.mod_eq_of_lt ?_).symm)
    ((toNat_loadBigEndian64 h).trans (Nat.mod_eq_of_lt ?_).symm) ?_
  all_goals omega

/-- Complementing the bytes complements the number that is read. -/
theorem readSignedNumIncreasing_map_complement (src : ByteString) :
    readSignedNumIncreasing (src.map (~~~·)) =
      (readSignedNumIncreasing src).map fun r ↦ (~~~r.1, r.2.map (~~~·)) := by
  cases src with
  | nil => rfl
  | cons c s =>
    obtain ⟨M, hM⟩ : ∃ M : UInt64, M = if c &&& 0x80 = 0 then ~~~0 else 0 := ⟨_, rfl⟩
    have hM' : (if ~~~c &&& 0x80 = 0 then ~~~0 else 0 : UInt64) = ~~~M := by
      have hbit : ∀ c < 256, (~~~c.toUInt8 &&& 0x80 = 0 ↔ ¬c.toUInt8 &&& 0x80 = 0) := by
        decide +kernel
      have hc := hbit c.toNat c.toNat_lt
      rw [Nat.toUInt8, UInt8.ofNat_toNat] at hc
      rw [hM]
      by_cases h : c &&& 0x80 = 0
      · rw [if_pos h, if_neg (fun h' ↦ hc.1 h' h)]
        rfl
      · rw [if_neg h, if_pos (hc.2 h)]
    have hcases : M = 0 ∨ M = ~~~0 := by
      rw [hM]
      split
      · exact .inr rfl
      · exact .inl rfl
    rw [map_cons, readSignedNumIncreasing, readSignedNumIncreasing, hM', ← hM,
      toUInt8_not_mask hcases, complement_xor_complement, ← map_cons]
    dsimp only
    generalize c :: s = src
    rw [length_map]
    have hmask : ∀ (x : UInt64) (len : ℕ), (~~~x ^^^ kLengthToMask.getD len 0).toInt64 =
        ~~~(x ^^^ kLengthToMask.getD len 0).toInt64 := fun x len ↦ by
      rw [UInt64.not_xor]
      rfl
    split
    · split
      · rfl
      · rw [← map_take, ← map_drop, foldl_bytes_map_complement, hmask]
        rfl
    · split
      · rfl
      · rename_i hlen
        rw [longEncodingLength_map_complement hcases hlen]
        cases longEncodingLength M src with
        | none => rfl
        | some len =>
          dsimp only
          split
          · rfl
          · rename_i hlen'
            rw [← map_drop, ← map_drop, loadBigEndian64_map_complement ?_, hmask]
            · rfl
            · rw [length_drop]
              omega

/-- What has been written is read back, whatever follows it. -/
theorem readSignedNumIncreasing_append (val : Int64) (suffix : ByteString) :
    readSignedNumIncreasing (writeSignedNumIncreasing [] val ++ suffix) = some (val, suffix) := by
  -- a number that is not negative first: the others are their complements
  have hpos : ∀ (v : Int64) (rest : ByteString), ¬v < 0 →
      readSignedNumIncreasing (writeSignedNumIncreasing [] v ++ rest) = some (v, rest) :=
      fun v rest hv ↦ by
    obtain ⟨hwritten, hsum⟩ := writeSignedNumIncreasing_of_not_neg hv
    obtain ⟨x, hx, hread⟩ :=
      readSignedNumIncreasing_append_of_written hwritten (toNat_lt_of_not_neg hv) rfl hsum rest
    rw [hread, UInt64.toNat_inj.1 hx, Int64.toInt64_toUInt64]
  by_cases h : val < 0
  · have hnot : ¬~~~val < 0 := fun h' ↦ (not_lt_zero_iff val).1 h' h
    have hread := readSignedNumIncreasing_map_complement
      (writeSignedNumIncreasing [] (~~~val) ++ suffix.map (~~~·))
    rw [hpos _ _ hnot, map_append, ← writeSignedNumIncreasing_not, Int64.not_not,
      map_complement_complement] at hread
    rw [hread, Option.map_some, Int64.not_not, map_complement_complement]
  · exact hpos val suffix h

/-- A reader that does not fail takes between one and ten bytes that are there. -/
theorem readSignedNumIncreasing_consumes {src rest : ByteString} {val : Int64}
    (h : readSignedNumIncreasing src = some (val, rest)) :
    ∃ n, 1 ≤ n ∧ n ≤ 10 ∧ n ≤ src.length ∧ rest = src.drop n := by
  have hshort : ∀ c <
    256, c.toUInt8 ^^^ ((if c.toUInt8 &&& 0x80 = 0 then ~~~0 else 0 : UInt64) &&& 0xff).toUInt8 ≠
    0xff →
      1 ≤ (7 - log2Floor64
      (c.toUInt8 ^^^ ((if c.toUInt8 &&& 0x80 = 0 then ~~~0 else 0 : UInt64) &&& 0xff).toUInt8 ^^^
        0xff).toUInt64).toNat ∧
      (7 - log2Floor64
        (c.toUInt8 ^^^ ((if c.toUInt8 &&& 0x80 = 0 then ~~~0 else 0 : UInt64) &&& 0xff).toUInt8 ^^^
        0xff).toUInt64).toNat ≤ 10 := by decide +kernel
  cases src with
  | nil => cases h
  | cons c s =>
    have hc := hshort c.toNat c.toNat_lt
    rw [Nat.toUInt8, UInt8.ofNat_toNat] at hc
    rw [readSignedNumIncreasing] at h
    generalize (if c &&& 0x80 = 0 then ~~~0 else 0 : UInt64) = M at h hc
    dsimp only at h
    split at h
    · rename_i hfirst
      split at h
      · cases h
      · rename_i hlen
        cases h
        exact ⟨_, (hc hfirst).1, (hc hfirst).2, Nat.not_lt.1 hlen, rfl⟩
    · split at h
      · cases h
      · have hlong : ∀ len, longEncodingLength M (c :: s) = some len → 8 ≤ len ∧ len ≤ 10 :=
          fun len hlen ↦ by
          rw [longEncodingLength] at hlen
          dsimp only at hlen
          split at hlen
          · split at hlen
            · cases hlen
              decide
            · split at hlen
              · cases hlen
                decide
              · cases hlen
          · cases hlen
            decide
        cases hlength : longEncodingLength M (c :: s) with
        | none =>
          rw [hlength] at h
          cases h
        | some len =>
          obtain ⟨hge, hle⟩ := hlong len hlength
          rw [hlength] at h
          dsimp only at h
          split at h
          · cases h
          · rename_i hlen
            cases h
            exact ⟨len, by omega, hle, Nat.not_lt.1 hlen, rfl⟩

/-!
## The order of signed numbers

The encodings of signed numbers are compared as fractions: that of a number is between those that
its header bits allow, and numbers with the same header bits are compared as they are. With what
`ReadSignedNumIncreasing` does, this is the contract of the format (`orderedCode_signedNum`).
-/

/-- The number that is written of a number, without its sign. -/
def magnitude (v : ℤ) : ℕ := (if v < 0 then -1 - v else v).toNat

/-- What is written of a number: in how many bytes, and read as one number. -/
theorem writeSignedNumIncreasing_spec (val : Int64) :
    WrittenIn (magnitude val.toInt) (writeSignedNumIncreasing [] val).length ∧
      (bigEndian (writeSignedNumIncreasing [] val) : ℤ) =
        if val.toInt < 0 then 2 ^ (7 * (writeSignedNumIncreasing [] val).length) + val.toInt
        else 2 ^ (8 * (writeSignedNumIncreasing [] val).length) -
          2 ^ (7 * (writeSignedNumIncreasing [] val).length) + val.toInt := by
  have hneg : val < 0 ↔ val.toInt < 0 := Int64.lt_iff_toInt_lt
  have hint : val.toInt = if val.toUInt64.toNat < 2 ^ 63 then (val.toUInt64.toNat : ℤ)
      else val.toUInt64.toNat - 2 ^ 64 := by
    show val.toBitVec.toInt = _
    rw [BitVec.toInt_eq_toNat_cond]
    have : val.toBitVec.toNat = val.toUInt64.toNat := rfl
    rw [this]
    split <;> split <;> omega
  have hlt := val.toUInt64.toNat_lt
  by_cases h : val < 0
  · have hnot : ¬~~~val < 0 := fun h' ↦ (not_lt_zero_iff val).1 h' h
    obtain ⟨hwritten, hsum⟩ := writeSignedNumIncreasing_of_not_neg hnot
    have hnat : (~~~val).toUInt64.toNat = 2 ^ 64 - 1 - val.toUInt64.toNat := UInt64.toNat_not _
    have hcomplement := bigEndian_map_complement (writeSignedNumIncreasing [] val)
    rw [writeSignedNumIncreasing_not, length_map] at hwritten hsum
    have hm : magnitude val.toInt = (~~~val).toUInt64.toNat := by
      rw [magnitude, if_pos (hneg.1 h)]
      have := hneg.1 h
      omega
    have h256 : 256 ^ (writeSignedNumIncreasing [] val).length =
        2 ^ (8 * (writeSignedNumIncreasing [] val).length) := by
      rw [Nat.pow_mul]
    rw [if_pos (hneg.1 h), hm]
    refine ⟨hwritten, ?_⟩
    have hB : bigEndian (writeSignedNumIncreasing [] val) + 1 + (~~~val).toUInt64.toNat =
        2 ^ (7 * (writeSignedNumIncreasing [] val).length) := by omega
    have hB' : (bigEndian (writeSignedNumIncreasing [] val) : ℤ) + 1 + (~~~val).toUInt64.toNat =
        2 ^ (7 * (writeSignedNumIncreasing [] val).length) := by exact_mod_cast hB
    have := hneg.1 h
    rw [← hB']
    omega
  · obtain ⟨hwritten, hsum⟩ := writeSignedNumIncreasing_of_not_neg h
    have hm : magnitude val.toInt = val.toUInt64.toNat := by
      rw [magnitude, if_neg (fun h' ↦ h (hneg.2 h'))]
      have := toNat_lt_of_not_neg h
      omega
    rw [if_neg (fun h' ↦ h (hneg.2 h')), hm]
    refine ⟨hwritten, ?_⟩
    have := toNat_lt_of_not_neg h
    rw [if_pos this] at hint
    have hsum' : (bigEndian (writeSignedNumIncreasing [] val) : ℤ) +
        2 ^ (7 * (writeSignedNumIncreasing [] val).length) =
          2 ^ (8 * (writeSignedNumIncreasing [] val).length) + val.toUInt64.toNat := by
            exact_mod_cast hsum
    rw [hint]
    linarith

theorem WrittenIn.le_of_lt {m n n' : ℕ} (h : WrittenIn m n) (hn' : 1 ≤ n')
    (hlt : m < 2 ^ (7 * n' - 1)) : n ≤ n' := by
  by_contra hgt
  rcases h.least with hone | hge
  · omega
  · have hpow : 2 ^ (7 * n' - 1) ≤ 2 ^ (7 * (n - 1) - 1) :=
      Nat.pow_le_pow_right (by decide) (by omega)
    omega

theorem WrittenIn.le {m m' n n' : ℕ} (h : WrittenIn m n) (h' : WrittenIn m' n') (hle : m ≤ m') :
    n ≤ n' :=
  h.le_of_lt h'.pos (hle.trans_lt h'.lt)

theorem magnitude_lt_iff {v : ℤ} {k : ℕ} : magnitude v < 2 ^ k ↔ -2 ^ k ≤ v ∧ v < 2 ^ k := by
  have hcast : ((2 ^ k : ℕ) : ℤ) = 2 ^ k := by push_cast; rfl
  have hpos : 0 < 2 ^ k := Nat.two_pow_pos k
  rw [magnitude, ← hcast]
  split <;> omega

/-- The fraction of what is written of a number, and the number as a part of it. -/
theorem fraction_writeSignedNumIncreasing (val : Int64) :
    fraction (writeSignedNumIncreasing [] val) =
      (if val.toInt < 0 then 1 / 2 ^ (writeSignedNumIncreasing [] val).length
        else 1 - 1 / 2 ^ (writeSignedNumIncreasing [] val).length) +
      val.toInt / (2 ^ (writeSignedNumIncreasing [] val).length *
        2 ^ (7 * (writeSignedNumIncreasing [] val).length) : ℚ) := by
  obtain ⟨-, hvalue⟩ := writeSignedNumIncreasing_spec val
  have h256 : (256 : ℚ) ^ (writeSignedNumIncreasing [] val).length =
      2 ^ (writeSignedNumIncreasing [] val).length *
      2 ^ (7 * (writeSignedNumIncreasing [] val).length) := by
    rw [← pow_add, show (256 : ℚ) = 2 ^ 8 by norm_num, ← pow_mul]
    congr 1
    omega
  rw [fraction, h256]
  generalize (writeSignedNumIncreasing [] val).length = n at hvalue
  have height : (2 : ℤ) ^ (8 * n) = 2 ^ n * 2 ^ (7 * n) := by
    rw [← pow_add]
    congr 1
    omega
  rw [height] at hvalue
  have hvalue' : (bigEndian (writeSignedNumIncreasing [] val) : ℚ) =
      if val.toInt < 0 then (2 : ℚ) ^ (7 * n) + val.toInt else 2 ^ n * 2 ^ (7 * n) - 2 ^ (7 * n) +
        val.toInt := by
    have hcast : ((bigEndian (writeSignedNumIncreasing [] val) : ℤ) : ℚ) = _ := congrArg _ hvalue
    rw [Int.cast_natCast] at hcast
    rw [hcast]
    split <;> push_cast <;> rfl
  rw [hvalue']
  split <;> field_simp

/-- The number is less than half of what the last one of the header bits stands for. -/
theorem part_bounds {v : ℤ} {n : ℕ} (h : WrittenIn (magnitude v) n) :
    -(1 / 2 ^ (n + 1)) ≤ (v / (2 ^ n * 2 ^ (7 * n)) : ℚ) ∧
    (v / (2 ^ n * 2 ^ (7 * n)) : ℚ) < 1 / 2 ^ (n + 1) := by
  obtain ⟨hlo, hhi⟩ := magnitude_lt_iff.1 h.lt
  have hpos := h.pos
  have hlo' : -(2 : ℚ) ^ (7 * n - 1) ≤ v := by exact_mod_cast hlo
  have hhi' : (v : ℚ) < 2 ^ (7 * n - 1) := by exact_mod_cast hhi
  have hhalf : (1 : ℚ) / 2 ^ (n + 1) = 2 ^ (7 * n - 1) / (2 ^ n * 2 ^ (7 * n)) := by
    have hpow : (2 : ℚ) ^ (7 * n) = 2 ^ (7 * n - 1) * 2 := by
      rw [← pow_succ]
      congr 1
      omega
    rw [hpow, pow_succ]
    field_simp
  rw [hhalf, ← neg_div]
  exact ⟨div_le_div_of_nonneg_right hlo' (by positivity),
    div_lt_div_of_pos_right hhi' (by positivity)⟩

theorem half_half (n : ℕ) : (1 : ℚ) / 2 ^ n = 1 / 2 ^ (n + 1) + 1 / 2 ^ (n + 1) := by
  rw [pow_succ]
  field_simp
  norm_num

/-- The fraction of what is written of a number that is not negative begins with as many ones as
there are bytes, and a zero. -/
theorem fraction_of_nonneg {val : Int64} (h : ¬val.toInt < 0) :
    1 - 1 / 2 ^ (writeSignedNumIncreasing [] val).length ≤
      fraction (writeSignedNumIncreasing [] val) ∧
      fraction (writeSignedNumIncreasing [] val) < 1 -
        1 / 2 ^ ((writeSignedNumIncreasing [] val).length + 1) := by
  obtain ⟨-, hhi⟩ := part_bounds (writeSignedNumIncreasing_spec val).1
  have hhalf := half_half (writeSignedNumIncreasing [] val).length
  have hnonneg : (0 : ℚ) ≤ val.toInt / (2 ^ (writeSignedNumIncreasing [] val).length *
      2 ^ (7 * (writeSignedNumIncreasing [] val).length)) := by
    have : (0 : ℚ) ≤ val.toInt := by exact_mod_cast not_lt.1 h
    positivity
  rw [fraction_writeSignedNumIncreasing, if_neg h]
  constructor <;> linarith

/-- The fraction of what is written of a negative number begins with as many zeros as there are
bytes, and a one. -/
theorem fraction_of_neg {val : Int64} (h : val.toInt < 0) :
    1 / 2 ^ ((writeSignedNumIncreasing [] val).length + 1) ≤
      fraction (writeSignedNumIncreasing [] val) ∧
      fraction (writeSignedNumIncreasing [] val) <
        1 / 2 ^ (writeSignedNumIncreasing [] val).length := by
  obtain ⟨hlo, -⟩ := part_bounds (writeSignedNumIncreasing_spec val).1
  have hhalf := half_half (writeSignedNumIncreasing [] val).length
  have hneg : (val.toInt / (2 ^ (writeSignedNumIncreasing [] val).length *
      2 ^ (7 * (writeSignedNumIncreasing [] val).length)) : ℚ) < 0 := by
    refine div_neg_of_neg_of_pos ?_ (by positivity)
    exact_mod_cast h
  rw [fraction_writeSignedNumIncreasing, if_pos h]
  constructor <;> linarith

theorem one_div_two_pow_le {n n' : ℕ} (h : n ≤ n') : (1 : ℚ) / 2 ^ n' ≤ 1 / 2 ^ n :=
  one_div_le_one_div_of_le (by positivity) (pow_le_pow_right₀ (by norm_num) h)

/-- Numbers with as many bytes are compared as what is written of them. -/
theorem writeSignedNumIncreasing_lt_of_length_eq {v w : Int64} (hlt : v.toInt < w.toInt)
    (hsign : v.toInt < 0 ↔ w.toInt < 0)
    (hlen : (writeSignedNumIncreasing [] v).length = (writeSignedNumIncreasing [] w).length) :
    writeSignedNumIncreasing [] v < writeSignedNumIncreasing [] w := by
  refine lt_of_bigEndian_lt hlen ?_
  have hv := (writeSignedNumIncreasing_spec v).2
  have hw := (writeSignedNumIncreasing_spec w).2
  rw [hlen] at hv
  have hcast : (bigEndian (writeSignedNumIncreasing [] v) : ℤ) <
      bigEndian (writeSignedNumIncreasing [] w) := by
    rw [hv, hw]
    by_cases h : v.toInt < 0
    · rw [if_pos h, if_pos (hsign.1 h)]
      linarith
    · rw [if_neg h, if_neg (fun h' ↦ h (hsign.2 h'))]
      linarith
  exact_mod_cast hcast

/-- A smaller number is written as a word that comes first. By cases of the signs, and of the
lengths where these agree: a longer encoding is one of a number further from zero. -/
theorem writeSignedNumIncreasing_lt {v w : Int64} (h : v < w) :
    writeSignedNumIncreasing [] v < writeSignedNumIncreasing [] w := by
  have hlt : v.toInt < w.toInt := Int64.lt_iff_toInt_lt.1 h
  have hwv := (writeSignedNumIncreasing_spec v).1
  have hww := (writeSignedNumIncreasing_spec w).1
  by_cases hv : v.toInt < 0
  · by_cases hw : w.toInt < 0
    · have hle := hww.le hwv (by rw [magnitude, magnitude, if_pos hv, if_pos hw]; omega)
      rcases Nat.eq_or_lt_of_le hle with heq | hgt
      · exact writeSignedNumIncreasing_lt_of_length_eq hlt (iff_of_true hv hw) heq.symm
      · exact lt_of_fraction_lt ((fraction_of_neg hv).2.trans_le
          ((one_div_two_pow_le hgt).trans (fraction_of_neg hw).1))
    · have hhalf : (1 : ℚ) / 2 ^ 1 = 1 - 1 / 2 ^ 1 := by norm_num
      have hw' := (fraction_of_nonneg hw).1
      have hbelow := one_div_two_pow_le hww.pos
      refine lt_of_fraction_lt
        ((fraction_of_neg hv).2.trans_le ((one_div_two_pow_le hwv.pos).trans ?_))
      linarith
  · have hw : ¬w.toInt < 0 := by omega
    have hle := hwv.le hww (by rw [magnitude, magnitude, if_neg hv, if_neg hw]; omega)
    rcases Nat.eq_or_lt_of_le hle with heq | hgt
    · exact writeSignedNumIncreasing_lt_of_length_eq hlt (iff_of_false hv hw) heq
    · have hbelow := one_div_two_pow_le (n := (writeSignedNumIncreasing [] v).length + 1) hgt
      have hw' := (fraction_of_nonneg hw).1
      refine lt_of_fraction_lt ((fraction_of_nonneg hv).2.trans_le ?_)
      linarith

/-- The format of signed numbers: a number is read back and what follows it is left, the encodings
are ordered as the numbers are, each is as short as the format allows, and a reader that does not
fail takes between one and ten bytes that are there. -/
theorem orderedCode_signedNum :
    (∀ (x : Int64) (suffix : ByteString),
      readSignedNumIncreasing (writeSignedNumIncreasing [] x ++ suffix) = some (x, suffix)) ∧
    (∀ x y : Int64, x < y → writeSignedNumIncreasing [] x < writeSignedNumIncreasing [] y) ∧
    (∀ x : Int64, IsLeast {n | 1 ≤ n ∧ -2 ^ (7 * n - 1) ≤ x.toInt ∧ x.toInt < 2 ^ (7 * n - 1)}
      (writeSignedNumIncreasing [] x).length) ∧
    ∀ (src rest : ByteString) (x : Int64), readSignedNumIncreasing src = some (x, rest) →
      ∃ n, 1 ≤ n ∧ n ≤ 10 ∧ n ≤ src.length ∧ rest = src.drop n := by
  refine ⟨readSignedNumIncreasing_append, fun x y ↦ writeSignedNumIncreasing_lt, fun x ↦ ?_,
    fun src rest x ↦ readSignedNumIncreasing_consumes⟩
  have hwritten := (writeSignedNumIncreasing_spec x).1
  refine ⟨⟨hwritten.pos, magnitude_lt_iff.1 hwritten.lt⟩, fun n hn ↦ ?_⟩
  exact hwritten.le_of_lt hn.1 (magnitude_lt_iff.2 hn.2)

end TensorFlowCore.OrderedCode
