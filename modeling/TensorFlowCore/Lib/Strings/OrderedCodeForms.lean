import TensorFlowCore.Lib.Strings.OrderedCodeSigned.Reading
import TensorFlowCore.Support.PrefixReading

/-!
# What the readers of `OrderedCode` accept

The readers of `tensorflow/core/lib/strings/ordered_code.cc`, on any input. A string has one form,
the one that is written (`readString_eq_some_iff`). A number has several: `ReadNumIncreasing` takes
leading zeros, which only a debug build objects to, and `ReadSignedNumIncreasing` takes longer forms
than the shortest one.
-/

namespace TensorFlowCore

open List

namespace OrderedCode

/-! ### Strings -/

theorem append_skipToNextSpecialByte (n : ℕ) (s : ByteString) :
    (skipToNextSpecialByte n s).1 ++ (skipToNextSpecialByte n s).2 = s := by
  fun_induction skipToNextSpecialByte n s with
  | case1 n c s h => rfl
  | case2 n c s h skipped ih => exact congrArg (c :: ·) ih
  | case3 n s h => rfl

/-- Ordinary bytes are their own encoding. -/
theorem flatMap_escapeByte_skipped (n : ℕ) (s : ByteString) :
    (skipToNextSpecialByte n s).1.flatMap escapeByte = (skipToNextSpecialByte n s).1 := by
  fun_induction skipToNextSpecialByte n s with
  | case1 n c s h => rfl
  | case2 n c s h skipped ih =>
    obtain ⟨h₁, h₂⟩ := not_or.1 (mt (isSpecialByte_iff c).2 h)
    rw [flatMap_cons, ih, escapeByte, if_neg h₁, if_neg h₂]
    rfl
  | case3 n s h => rfl

/-- A scan that ends before its limit has found a special byte. -/
theorem special_of_skipToNextSpecialByte {n : ℕ} {s run rest : ByteString} {c : UInt8}
    (h : skipToNextSpecialByte n s = (run, c :: rest)) (hrun : run.length < n) :
    isSpecialByte c := by
  induction n generalizing s run with
  | zero => cases hrun
  | succ n ih =>
    cases s with
    | nil => cases h
    | cons b s =>
      by_cases hb : isSpecialByte b
      · rw [skipToNextSpecialByte, if_pos hb] at h
        obtain ⟨-, hcons⟩ := Prod.mk.inj h
        obtain ⟨rfl, -⟩ := cons.inj hcons
        exact hb
      · rw [skipToNextSpecialByte_ordinary hb] at h
        obtain ⟨rfl, hrest⟩ := Prod.mk.inj h
        exact ih (Prod.ext rfl hrest) (Nat.lt_of_succ_lt_succ hrun)

/-- By induction on the input: a round reads a run of ordinary bytes and what stopped it. -/
theorem eq_append_of_readString {src result r rest : ByteString}
    (h : readString src result = some (r, rest)) :
    ∃ s, r = result ++ s ∧ src = s.flatMap escapeByte ++ [kEscape1, kSeparator] ++ rest := by
  induction hlen : src.length using Nat.strongRecOn generalizing src result with
  | ind n ih =>
    subst hlen
    have happend := append_skipToNextSpecialByte (src.length - 1) src
    have hrun := flatMap_escapeByte_skipped (src.length - 1) src
    rw [readString_round] at h
    cases hskip : skipToNextSpecialByte (src.length - 1) src with
    | mk run tail =>
      rw [hskip] at h happend hrun
      split at h
      · rename_i c next rest' heq
        cases heq
        have hlength : src.length = run.length + (rest'.length + 1 + 1) := by
          rw [← happend, length_append, length_cons, length_cons]
        have hspecial : isSpecialByte c := special_of_skipToNextSpecialByte hskip (by omega)
        -- an escaped byte in the middle: the rest is read in the rounds that follow
        have hstep : ∀ b, escapeByte b = [c, next] → readString rest' (result ++ run ++ [b]) =
          some (r, rest) →
            ∃ s, r = result ++ s ∧ src = s.flatMap escapeByte ++ [kEscape1, kSeparator] ++
            rest := by
          intro b hb hread
          obtain ⟨s, rfl, hs⟩ := ih rest'.length (by omega) hread rfl
          refine ⟨run ++ b :: s, by simp, ?_⟩
          rw [flatMap_append, hrun, flatMap_cons, hb, ← happend, hs]
          simp
        split at h
        · rename_i hc
          split at h
          · rename_i hnext
            cases h
            exact ⟨run, rfl, by rw [hrun, ← happend, hc, hnext]; simp⟩
          · split at h
            · rename_i hnext
              exact hstep 0x00 (by rw [hc, hnext]; rfl) h
            · cases h
        · rename_i hc
          obtain rfl : c = kEscape2 := ((isSpecialByte_iff c).1 hspecial).resolve_left hc
          split at h
          · rename_i hnext
            exact hstep 0xff (by rw [hnext]; rfl) h
          · cases h
      · cases h

/-- **A string has one form.** -/
theorem readString_eq_some_iff {src s rest : ByteString} :
    readString src [] = some (s, rest) ↔ src = writeString [] s ++ rest := by
  rw [writeString_eq, nil_append]
  constructor
  · intro h
    obtain ⟨s', rfl, hs⟩ := eq_append_of_readString h
    exact hs
  · rintro rfl
    exact readString_append s rest []

/-! ### Numbers -/

/-- A number has as its forms its bytes with up to eight of them in all, the length before. -/
theorem readNumIncreasing_eq_some_iff {src rest : ByteString} {v : UInt64} :
    readNumIncreasing src = some (v, rest) ↔ ∃ payload : ByteString, payload.length ≤ 8 ∧
      bigEndian payload = v.toNat ∧ src = payload.length.toUInt8 :: (payload ++ rest) := by
  have hbyte : ∀ n ≤ 8, n.toUInt8.toNat = n := by decide
  constructor
  · intro h
    cases src with
    | nil => cases h
    | cons b src =>
      rw [readNumIncreasing] at h
      split at h
      · cases h
      · rename_i hlen
        obtain ⟨hle, h8⟩ := not_or.1 hlen
        cases h
        have htake : (src.take b.toNat).length = b.toNat := length_take_of_le (by omega)
        refine ⟨src.take b.toNat, by omega, (toNat_readNumLoop _ (by omega)).symm, ?_⟩
        rw [htake, take_append_drop, Nat.toUInt8, UInt8.ofNat_toNat]
  · rintro ⟨payload, h8, hv, rfl⟩
    rw [readNumIncreasing]
    rw [hbyte _ h8, if_neg (by rw [length_append]; omega), take_left, drop_left]
    have hval : readNumLoop payload = v := by
      apply UInt64.toNat_inj.1
      rw [toNat_readNumLoop _ h8, hv]
    rw [hval]

theorem readsAs_writeNumIncreasing (v : UInt64) :
    ReadsAs readNumIncreasing (writeNumIncreasing [] v) v :=
  readNumIncreasing_append v

theorem localReader_readNumIncreasing : LocalReader readNumIncreasing := by
  intro src v rest h
  obtain ⟨payload, h8, hv, rfl⟩ := readNumIncreasing_eq_some_iff.1 h
  exact ⟨payload.length.toUInt8 :: payload, rfl, fun rest' ↦
    readNumIncreasing_eq_some_iff.2 ⟨payload, h8, hv, rfl⟩⟩

/-! ### Signed numbers -/

theorem readsAs_writeSignedNumIncreasing (v : Int64) :
    ReadsAs readSignedNumIncreasing (writeSignedNumIncreasing [] v) v :=
  readSignedNumIncreasing_append v

theorem longEncodingLength_append {M : UInt64} {piece : ByteString} (h : 8 ≤ piece.length)
    (s : ByteString) : longEncodingLength M (piece ++ s) = longEncodingLength M piece := by
  rw [longEncodingLength, longEncodingLength, getD_append _ _ _ _ (by omega),
    getD_append _ _ _ _ (by omega)]

theorem loadBigEndian64_append {src : ByteString} (h : 8 ≤ src.length) (s : ByteString) :
    loadBigEndian64 (src ++ s) = loadBigEndian64 src := by
  apply UInt64.toNat_inj.1
  rw [toNat_loadBigEndian64 h, toNat_loadBigEndian64 (by rw [length_append]; omega),
    take_append_of_le_length h]

theorem longEncodingLength_bounds {M : UInt64} {src : ByteString} {len : ℕ}
    (h : longEncodingLength M src = some len) : 8 ≤ len ∧ len ≤ 10 := by
  rw [longEncodingLength] at h
  dsimp only at h
  split at h
  · split at h
    · cases h
      decide
    · split at h
      · cases h
        decide
      · cases h
  · cases h
    decide

/-- The mask by which the reader of a number with this first byte complements what it reads. -/
def signMask (c : UInt8) : UInt64 := if c &&& 0x80 = 0 then ~~~0 else 0

/-- The length that a first byte announces, if it is not all ones. -/
def shortEncodingLength (c : UInt8) : ℕ :=
  (7 - log2Floor64 (c ^^^ (signMask c &&& 0xff).toUInt8 ^^^ 0xff).toUInt64).toNat

section Signed

variable {c : UInt8}

theorem readSignedNumIncreasing_of_short (h : c ^^^ (signMask c &&& 0xff).toUInt8 ≠ 0xff)
    (s : ByteString) :
    readSignedNumIncreasing (c :: s) = if (c :: s).length < shortEncodingLength c then none
      else some ((((c :: s).take (shortEncodingLength c)).foldl
        (fun (x : UInt64) b ↦ x <<< 8 ||| b.toUInt64) (signMask c) ^^^
          kLengthToMask.getD (shortEncodingLength c) 0).toInt64,
          (c :: s).drop (shortEncodingLength c)) :=
  if_pos h

theorem readSignedNumIncreasing_of_long (h : ¬c ^^^ (signMask c &&& 0xff).toUInt8 ≠ 0xff)
    {s : ByteString} (h8 : ¬(c :: s).length < 8) {len : ℕ}
    (hlen : longEncodingLength (signMask c) (c :: s) = some len) :
    readSignedNumIncreasing (c :: s) = if (c :: s).length < len then none
      else some ((loadBigEndian64 ((c :: s).drop (len - 8)) ^^^ kLengthToMask.getD len 0).toInt64,
        (c :: s).drop len) := by
  rw [signMask] at h hlen
  rw [readSignedNumIncreasing]
  rw [if_neg h, if_neg h8, hlen]

/-- What the reader has checked before it reads a long number. -/
theorem exists_longEncodingLength (h : ¬c ^^^ (signMask c &&& 0xff).toUInt8 ≠ 0xff)
    {s rest : ByteString} {v : Int64} (hread : readSignedNumIncreasing (c :: s) = some (v, rest)) :
    ¬(c :: s).length < 8 ∧ ∃ len, longEncodingLength (signMask c) (c :: s) = some len := by
  rw [signMask] at h ⊢
  rw [readSignedNumIncreasing] at hread
  rw [if_neg h] at hread
  split at hread
  · cases hread
  · rename_i h8
    refine ⟨h8, ?_⟩
    cases hlen : longEncodingLength (if c &&& 0x80 = 0 then ~~~0 else 0) (c :: s) with
    | none =>
      rw [hlen] at hread
      cases hread
    | some len => exact ⟨len, rfl⟩

/-- A piece of the input that is as long as what was taken off begins with the first byte. -/
theorem take_append_eq_cons {n : ℕ} (h : 1 ≤ n) (s rest : ByteString) :
    (c :: s).take n ++ rest = c :: (s.take (n - 1) ++ rest) := by
  obtain ⟨n, rfl⟩ := Nat.exists_eq_add_of_le' h
  rfl

theorem localReader_readSignedNumIncreasing : LocalReader readSignedNumIncreasing := by
  intro src v rest h
  obtain ⟨n, h1, -, hle, hrest⟩ := readSignedNumIncreasing_consumes h
  refine ⟨src.take n, by rw [hrest, take_append_drop], fun rest' ↦ ?_⟩
  have htake : (src.take n).length = n := length_take_of_le hle
  cases src with
  | nil => cases h
  | cons c s =>
    -- the same number of bytes was taken off
    have hsame : ∀ k ≤ (c :: s).length, (c :: s).drop k = rest → k = n := by
      intro k hk hdrop
      have hlength := congrArg length (hdrop.trans hrest)
      rw [length_drop, length_drop] at hlength
      omega
    rw [take_append_eq_cons h1]
    by_cases hfirst : c ^^^ (signMask c &&& 0xff).toUInt8 ≠ 0xff
    · rw [readSignedNumIncreasing_of_short hfirst] at h ⊢
      split at h
      · cases h
      · rename_i hlen
        obtain ⟨hv, hdrop⟩ := Prod.mk.inj (Option.some.inj h)
        rw [hsame _ (Nat.not_lt.1 hlen) hdrop] at hv ⊢
        rw [← take_append_eq_cons h1, if_neg (by rw [length_append]; omega), take_left' htake,
          drop_left' htake, hv]
    · obtain ⟨h8, len, hlength⟩ := exists_longEncodingLength hfirst h
      obtain ⟨hlen8, -⟩ := longEncodingLength_bounds hlength
      rw [readSignedNumIncreasing_of_long hfirst h8 hlength] at h
      split at h
      · cases h
      · rename_i hlen
        obtain ⟨hv, hdrop⟩ := Prod.mk.inj (Option.some.inj h)
        obtain rfl := hsame len (Nat.not_lt.1 hlen) hdrop
        have hlength' : ∀ t, longEncodingLength (signMask c) ((c :: s).take len ++ t) = some len :=
          fun t ↦ by
          rw [longEncodingLength_append (by omega), ← hlength,
            ← longEncodingLength_append (by omega), take_append_drop]
        have hload : ∀ t, loadBigEndian64 (((c :: s).take len ++ t).drop (len - 8)) =
            loadBigEndian64 (((c :: s).take len).drop (len - 8)) := fun t ↦ by
          rw [drop_append_of_le_length (by omega),
            loadBigEndian64_append (by rw [length_drop]; omega)]
        have hlong := hlength' rest'
        have hvalue := hload rest'
        rw [take_append_eq_cons h1] at hlong hvalue
        rw [readSignedNumIncreasing_of_long hfirst
          (by rw [← take_append_eq_cons h1, length_append]; omega)
          hlong, hvalue, ← hload ((c :: s).drop len), take_append_drop, ← take_append_eq_cons h1,
          if_neg (by rw [length_append]; omega), drop_left' htake, hv]

end Signed

end OrderedCode

end TensorFlowCore
