import TensorFlowCore.Core.Status

/-!
# Hexadecimal numbers

`Uint64ToHexString` and `HexStringToUint64` of `tensorflow/core/lib/strings/numbers.cc`. The writer
always writes 16 digits; the reader takes any number of them and keeps what fits a `uint64`.
-/

namespace TensorFlowCore

/-- `hexdigits`. -/
def hexdigits : ByteString := ascii "0123456789abcdef"

/-- The loop of `Uint64ToHexString`: so many digits of `v`, the last one first, in front of those
that have been written. -/
def uint64ToHexStringLoop : ℕ → (v : UInt64) → ByteString → ByteString
  | 0, _, buf => buf
  | i + 1, v, buf => uint64ToHexStringLoop i (v >>> 4) (hexdigits.getD (v &&& 0xf).toNat 0 :: buf)

/-- `Uint64ToHexString`. -/
def uint64ToHexString (v : UInt64) : ByteString := uint64ToHexStringLoop 16 v []

/-- What a digit adds, if it is one. -/
def hexDigitValue (c : UInt8) : Option UInt64 :=
  if 48 ≤ c ∧ c ≤ 57 then some (c - 48).toUInt64
  else if 97 ≤ c ∧ c ≤ 102 then some (10 + (c - 97).toUInt64)
  else if 65 ≤ c ∧ c ≤ 70 then some (10 + (c - 65).toUInt64)
  else none

/-- The loop of `HexStringToUint64`. -/
def hexStringToUint64Loop : (v : UInt64) → ByteString → Option UInt64
  | v, [] => some v
  | v, c :: s =>
    match hexDigitValue c with
    | none => none
    | some d => hexStringToUint64Loop ((v <<< 4) + d) s

/-- `HexStringToUint64`. -/
def hexStringToUint64 (s : ByteString) : Option UInt64 :=
  if s = [] then none else hexStringToUint64Loop 0 s

theorem hexDigitValue_hexdigits :
    ∀ d < 16, hexDigitValue (hexdigits.getD d 0) = some (UInt64.ofNat d) := by
  decide +kernel

theorem toNat_and_0xf (v : UInt64) : (v &&& 0xf).toNat = v.toNat % 16 := by
  rw [UInt64.toNat_and]
  exact Nat.and_two_pow_sub_one_eq_mod v.toNat 4

/-- Digits that the writer has written are read back, from the first one on. The induction is on
their number: the last one is read last. -/
theorem exists_hexStringToUint64Loop (n : ℕ) (start v : UInt64) (buf : ByteString) :
    ∃ w : UInt64, w.toNat = (start.toNat * 16 ^ n + v.toNat % 16 ^ n) % 2 ^ 64 ∧
      hexStringToUint64Loop start (uint64ToHexStringLoop n v buf) =
        hexStringToUint64Loop w buf := by
  induction n generalizing v buf with
  | zero =>
    refine ⟨start, ?_, rfl⟩
    rw [pow_zero, Nat.mod_one, Nat.mul_one, Nat.add_zero, Nat.mod_eq_of_lt start.toNat_lt]
  | succ n ih =>
    obtain ⟨w, hw, hread⟩ := ih (v >>> 4) (hexdigits.getD (v &&& 0xf).toNat 0 :: buf)
    have hshift : (v >>> 4).toNat = v.toNat / 16 := by
      rw [UInt64.toNat_shiftRight]
      exact Nat.shiftRight_eq_div_pow v.toNat 4
    have hdigit : hexDigitValue (hexdigits.getD (v &&& 0xf).toNat 0) = some (v &&& 0xf) := by
      rw [hexDigitValue_hexdigits _ (by rw [toNat_and_0xf]; omega), UInt64.ofNat_toNat]
    refine ⟨(w <<< 4) + (v &&& 0xf), ?_, ?_⟩
    · have hmod : v.toNat % 16 ^ (n + 1) = v.toNat % 16 + 16 * (v.toNat / 16 % 16 ^ n) := by
        rw [pow_succ', Nat.mod_mul]
      have hshl : (w <<< 4).toNat = w.toNat * 16 % 2 ^ 64 := by
        rw [UInt64.toNat_shiftLeft]
        exact congrArg (· % 2 ^ 64) (Nat.shiftLeft_eq w.toNat 4)
      have hring : start.toNat * 16 ^ (n + 1) + (v.toNat % 16 + 16 * (v.toNat / 16 % 16 ^ n)) =
          (start.toNat * 16 ^ n + v.toNat / 16 % 16 ^ n) * 16 + v.toNat % 16 := by ring
      rw [UInt64.toNat_add, hshl, toNat_and_0xf, hw, hshift, hmod, hring]
      omega
    · rw [uint64ToHexStringLoop, hread, hexStringToUint64Loop, hdigit]

theorem uint64ToHexStringLoop_ne_nil {n : ℕ} {v : UInt64} {buf : ByteString} (h : buf ≠ []) :
    uint64ToHexStringLoop n v buf ≠ [] := by
  induction n generalizing v buf with
  | zero => exact h
  | succ n ih => exact ih (List.cons_ne_nil _ _)

/-- A number is read back. -/
theorem hexStringToUint64_uint64ToHexString (v : UInt64) :
    hexStringToUint64 (uint64ToHexString v) = some v := by
  obtain ⟨w, hw, hread⟩ := exists_hexStringToUint64Loop 16 0 v []
  have hv : w = v := by
    apply UInt64.toNat_inj.1
    have hlt := v.toNat_lt
    have hzero : (0 : UInt64).toNat = 0 := rfl
    rw [hw, hzero]
    omega
  have hne : uint64ToHexStringLoop 16 v [] ≠ [] :=
    uint64ToHexStringLoop_ne_nil (n := 15) (v := v >>> 4) (List.cons_ne_nil _ _)
  rw [hexStringToUint64, uint64ToHexString, if_neg hne, hread, hv]
  rfl

/-- Only digits are written. -/
theorem mem_uint64ToHexStringLoop {n : ℕ} {v : UInt64} {buf : ByteString} {c : UInt8}
    (h : c ∈ uint64ToHexStringLoop n v buf) : c ∈ hexdigits ∨ c ∈ buf := by
  induction n generalizing v buf with
  | zero => exact .inr h
  | succ n ih =>
    rcases ih h with hc | hc
    · exact .inl hc
    · rcases List.mem_cons.1 hc with rfl | hc
      · have hlt : (v &&& 0xf).toNat < hexdigits.length := by
          rw [toNat_and_0xf]
          exact Nat.mod_lt _ (by decide)
        rw [List.getD_eq_getElem?_getD, List.getElem?_eq_getElem hlt]
        exact .inl (List.getElem_mem hlt)
      · exact .inr hc

theorem mem_uint64ToHexString {v : UInt64} {c : UInt8} (h : c ∈ uint64ToHexString v) :
    c ∈ hexdigits :=
  (mem_uint64ToHexStringLoop h).resolve_right List.not_mem_nil

end TensorFlowCore
