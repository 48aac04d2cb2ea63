import Mathlib.Data.Nat.Digits.Lemmas
import TensorFlowCore.Core.Status

/-!
# Integers of 32 and 64 bits

What `int` and `int64` arithmetic gives, as integers: an operation that overflows wraps around.
-/

namespace TensorFlowCore

open List

/-- The value of an `int` after an operation. -/
def int32 (n : ℤ) : ℤ := n.bmod (2 ^ 32)

/-- The value of an `int64` after an operation. -/
def int64 (n : ℤ) : ℤ := n.bmod (2 ^ 64)

theorem int32_eq {n : ℤ} (hlo : -2 ^ 31 ≤ n) (hhi : n < 2 ^ 31) : int32 n = n :=
  Int.bmod_eq_of_le_mul_two (by omega) (by omega)

theorem int64_eq {n : ℤ} (hlo : -2 ^ 63 ≤ n) (hhi : n < 2 ^ 63) : int64 n = n :=
  Int.bmod_eq_of_le_mul_two (by omega) (by omega)

theorem int32_of_lt {n : ℤ} (h₀ : 0 ≤ n) (h : n < 2 ^ 31) : int32 n = n := int32_eq (by omega) h

theorem int64_of_lt {n : ℤ} (h₀ : 0 ≤ n) (h : n < 2 ^ 63) : int64 n = n := int64_eq (by omega) h

theorem toInt_max (x y : Int64) : (max x y).toInt = max x.toInt y.toInt := by
  have h : max x y = if x ≤ y then y else x := rfl
  rw [h]
  split
  · next hle => rw [Int.max_eq_right (Int64.le_iff_toInt_le.1 hle)]
  · next hle =>
    rw [Int.max_eq_left (Int.not_lt.1 fun hlt ↦ hle (Int64.le_iff_toInt_le.2 hlt.le))]

theorem toInt_min (x y : Int64) : (min x y).toInt = min x.toInt y.toInt := by
  have h : min x y = if x ≤ y then x else y := rfl
  rw [h]
  split
  · next hle => rw [Int.min_eq_left (Int64.le_iff_toInt_le.1 hle)]
  · next hle =>
    rw [Int.min_eq_right (Int.not_lt.1 fun hlt ↦ hle (Int64.le_iff_toInt_le.2 hlt.le))]

/-!
## Reading decimal numbers back

The numbers that `strings::StrCat` writes consist of digits, after a sign for the negative ones, and
determine the number they were written for (`decimalInt_injective`).
-/

theorem toNat_digit {d : ℕ} (hd : d < 10) : (48 + d.toUInt8 : UInt8).toNat = 48 + d := by
  show (48 + d % 256) % 256 = 48 + d
  rw [Nat.mod_eq_of_lt (a := d) (by omega), Nat.mod_eq_of_lt (by omega)]

theorem mem_decimal {n : ℕ} {b : UInt8} (h : b ∈ decimal n) : 48 ≤ b.toNat ∧ b.toNat ≤ 57 := by
  unfold decimal at h
  split at h
  · rw [mem_singleton.1 h]
    decide
  · obtain ⟨d, hd, rfl⟩ := mem_map.1 h
    have hlt : d < 10 := Nat.digits_lt_base (by decide) (mem_reverse.1 hd)
    rw [toNat_digit hlt]
    omega

theorem decimal_ne_nil (n : ℕ) : decimal n ≠ [] := by
  unfold decimal
  split
  · exact cons_ne_nil _ _
  · next hn => simpa using Nat.digits_ne_nil_iff_ne_zero.2 hn

/-- The number that digits write. -/
def ofDecimal (x : ByteString) : ℕ := Nat.ofDigits 10 (x.reverse.map fun b ↦ b.toNat - 48)

theorem ofDecimal_nil : ofDecimal [] = 0 := rfl

theorem ofDecimal_cons (c : UInt8) (digits : ByteString) :
    ofDecimal (c :: digits) = (c.toNat - 48) * 10 ^ digits.length + ofDecimal digits := by
  rw [ofDecimal, reverse_cons, map_append, Nat.ofDigits_append, length_map, length_reverse,
    map_singleton, Nat.ofDigits_singleton, ofDecimal]
  ring

theorem ofDecimal_decimal (n : ℕ) : ofDecimal (decimal n) = n := by
  unfold decimal
  split
  · next hn => rw [hn]; rfl
  · have hdigits : (Nat.digits 10 n).map ((fun b : UInt8 ↦ b.toNat - 48) ∘ fun d ↦ 48 + d.toUInt8) =
        Nat.digits 10 n := by
      refine (map_congr_left fun d hd ↦ ?_).trans (map_id _)
      have hlt : d < 10 := Nat.digits_lt_base (by decide) hd
      show (48 + d.toUInt8).toNat - 48 = d
      rw [toNat_digit hlt]
      omega
    rw [ofDecimal, ← map_reverse, reverse_reverse, map_map, hdigits, Nat.ofDigits_digits]

theorem decimal_injective : Function.Injective decimal :=
  Function.LeftInverse.injective ofDecimal_decimal

theorem mem_decimalInt {n : ℤ} {b : UInt8} (h : b ∈ decimalInt n) :
    b = 45 ∨ 48 ≤ b.toNat ∧ b.toNat ≤ 57 := by
  unfold decimalInt at h
  split at h
  · exact (mem_cons.1 h).imp_right mem_decimal
  · exact .inr (mem_decimal h)

theorem decimalInt_injective : Function.Injective decimalInt := by
  have hsign : ∀ (x : ByteString) (n : ℕ), 45 :: x ≠ decimal n := fun x n h ↦ by
    have hmem : (45 : UInt8) ∈ decimal n := h ▸ mem_cons_self
    exact absurd (mem_decimal hmem).1 (by decide)
  intro m n h
  unfold decimalInt at h
  split at h <;> split at h
  · have := decimal_injective (cons.inj h).2
    omega
  · exact absurd h (hsign _ _)
  · exact absurd h.symm (hsign _ _)
  · have := decimal_injective h
    omega

end TensorFlowCore
