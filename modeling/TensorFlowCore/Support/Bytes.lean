import Mathlib.Data.Nat.Bitwise
import Mathlib.Tactic.FieldSimp
import Mathlib.Tactic.Linarith
import Mathlib.Tactic.Positivity
import Mathlib.Tactic.Ring

/-!
# Numbers as bytes

The value of a word of bytes read with its most significant byte first, and how it meets the
machine arithmetic that computes it: a shift by a byte and a disjunction append one digit. Words of
one length are ordered as their values are (`lt_of_bigEndian_lt`). `littleEndian` is the value with
the least significant byte first, and `base128` writes a number in groups of seven bits, with the
high bit set on every byte but the last.
-/

namespace TensorFlowCore

open List

/-- The number written by a word of bytes, the most significant one first. -/
def bigEndian : List UInt8 → ℕ
  | [] => 0
  | b :: x => b.toNat * 256 ^ x.length + bigEndian x

theorem bigEndian_lt (x : List UInt8) : bigEndian x < 256 ^ x.length := by
  induction x with
  | nil => exact Nat.one_pos
  | cons b x ih =>
    have hb : b.toNat + 1 ≤ 256 := b.toNat_lt
    calc bigEndian (b :: x) < b.toNat * 256 ^ x.length + 256 ^ x.length := by
          exact Nat.add_lt_add_left ih _
      _ = (b.toNat + 1) * 256 ^ x.length := (Nat.succ_mul _ _).symm
      _ ≤ 256 * 256 ^ x.length := Nat.mul_le_mul_right _ hb
      _ = 256 ^ (b :: x).length := by rw [length_cons, Nat.pow_succ, Nat.mul_comm]

theorem bigEndian_append (x : List UInt8) (b : UInt8) :
    bigEndian (x ++ [b]) = bigEndian x * 256 + b.toNat := by
  induction x with
  | nil => simp [bigEndian]
  | cons a x ih =>
    simp only [cons_append, bigEndian, ih, length_append, length_singleton, Nat.pow_succ]
    ring

theorem bigEndian_cons_lt {a b : UInt8} {x y : List UInt8} (hlen : x.length = y.length)
    (h : a < b) : bigEndian (a :: x) < bigEndian (b :: y) := by
  have hab : a.toNat + 1 ≤ b.toNat := UInt8.lt_iff_toNat_lt.1 h
  calc bigEndian (a :: x) < a.toNat * 256 ^ x.length + 256 ^ x.length :=
        Nat.add_lt_add_left (bigEndian_lt x) _
    _ = (a.toNat + 1) * 256 ^ y.length := by rw [Nat.succ_mul, hlen]
    _ ≤ b.toNat * 256 ^ y.length := Nat.mul_le_mul_right _ hab
    _ ≤ bigEndian (b :: y) := Nat.le_add_right _ _

/-- Words of one length are ordered as the numbers they write. -/
theorem lt_of_bigEndian_lt {x y : List UInt8} (hlen : x.length = y.length)
    (h : bigEndian x < bigEndian y) : x < y := by
  induction x generalizing y with
  | nil =>
    obtain rfl : y = [] := length_eq_zero_iff.1 hlen.symm
    exact absurd h (Nat.lt_irrefl _)
  | cons a x ih =>
    obtain ⟨b, y, rfl⟩ := exists_cons_of_length_eq_add_one hlen.symm
    have hlen' : x.length = y.length := Nat.succ.inj hlen
    obtain hab | rfl | hba : a < b ∨ a = b ∨ b < a := by grind
    · exact cons_lt_cons_iff.2 (.inl hab)
    · refine cons_lt_cons_iff.2 (.inr ⟨rfl, ih hlen' ?_⟩)
      simp only [bigEndian, hlen'] at h
      exact Nat.lt_of_add_lt_add_left h
    · exact absurd h (Nat.lt_asymm (bigEndian_cons_lt hlen'.symm hba))

/-- Shifting by a byte and setting the low byte appends a digit, as long as nothing is shifted
out. -/
theorem toNat_shiftLeft_or (acc : UInt64) (b : UInt8) (h : acc.toNat < 2 ^ 56) :
    (acc <<< 8 ||| b.toUInt64).toNat = acc.toNat * 256 + b.toNat := by
  have hb : b.toNat < 2 ^ 8 := b.toNat_lt
  have hfit : acc.toNat * 2 ^ 8 < 2 ^ 64 := by omega
  rw [UInt64.toNat_or, UInt64.toNat_shiftLeft, UInt8.toNat_toUInt64]
  show acc.toNat <<< 8 % 2 ^ 64 ||| b.toNat = _
  rw [Nat.shiftLeft_eq, Nat.mod_eq_of_lt hfit, Nat.mul_comm, ← Nat.two_pow_add_eq_or_of_lt hb]
  omega

theorem toNat_shiftRight_eight (val : UInt64) : (val >>> 8).toNat = val.toNat / 256 := by
  rw [UInt64.toNat_shiftRight]
  exact Nat.shiftRight_eq_div_pow val.toNat 8

theorem toNat_and_ff (val : UInt64) : (val &&& 0xff).toUInt8.toNat = val.toNat % 256 := by
  have hmask : (0xff : UInt64).toNat = 2 ^ 8 - 1 := rfl
  rw [UInt64.toNat_toUInt8, UInt64.toNat_and, hmask, Nat.and_two_pow_sub_one_eq_mod]
  exact Nat.mod_mod _ _

/-- The number written by a word of bytes, the least significant one first. -/
def littleEndian : List UInt8 → ℕ
  | [] => 0
  | b :: x => littleEndian x * 256 + b.toNat

theorem littleEndian_lt (x : List UInt8) : littleEndian x < 256 ^ x.length := by
  induction x with
  | nil => exact Nat.one_pos
  | cons b x ih =>
    have hb : b.toNat < 256 := b.toNat_lt
    rw [littleEndian, length_cons, Nat.pow_succ]
    omega

/-- The digits of a number in base `128`, the least significant one first; every byte but the last
one has its high bit set. -/
def base128 (n : ℕ) : List UInt8 :=
  if n < 128 then [n.toUInt8] else (n % 128 + 128).toUInt8 :: base128 (n / 128)
termination_by n
decreasing_by omega

theorem base128_of_lt {n : ℕ} (h : n < 128) : base128 n = [n.toUInt8] := by
  rw [base128, if_pos h]

theorem base128_of_le {n : ℕ} (h : 128 ≤ n) :
    base128 n = (n % 128 + 128).toUInt8 :: base128 (n / 128) := by
  rw [base128, if_neg (Nat.not_lt.2 h)]

theorem base128_ne_nil (n : ℕ) : base128 n ≠ [] := by
  rw [base128]
  split <;> exact cons_ne_nil _ _

/-- A number below `128 ^ k` has at most `k` digits, unless it is zero. -/
theorem length_base128_le {n k : ℕ} (h : n < 128 ^ (k + 1)) : (base128 n).length ≤ k + 1 := by
  induction k generalizing n with
  | zero => rw [base128_of_lt (by simpa using h), length_singleton]
  | succ k ih =>
    by_cases hn : n < 128
    · rw [base128_of_lt hn, length_singleton]
      omega
    · rw [base128_of_le (Nat.not_lt.1 hn), length_cons]
      refine Nat.succ_le_succ (ih (Nat.div_lt_of_lt_mul ?_))
      rwa [Nat.pow_succ, Nat.mul_comm] at h

/-- Setting bits above those of a number adds them. -/
theorem or_shiftLeft_eq_add {m : ℕ} {shift : ℕ} (h : m < 2 ^ shift) (n : ℕ) :
    m ||| n <<< shift = m + n * 2 ^ shift := by
  rw [Nat.or_comm, Nat.shiftLeft_eq, Nat.mul_comm, ← Nat.two_pow_add_eq_or_of_lt h]
  exact Nat.add_comm _ _

theorem or_128_mod (v : ℕ) : (v ||| 128) % 256 = v % 128 + 128 := by
  have hmod : (v ||| 128) % 2 ^ 8 = v % 2 ^ 8 ||| 128 := Nat.or_mod_two_pow
  have hsplit : v % 128 ||| 128 = v % 128 + 128 :=
    or_shiftLeft_eq_add (Nat.mod_lt v (by decide : 0 < 2 ^ 7)) 1
  rw [show (v ||| 128) % 256 = v % 256 ||| 128 from hmod]
  obtain h | h : v % 256 = v % 128 ∨ v % 256 = v % 128 + 128 := by omega
  · rw [h, hsplit]
  · rw [h, ← hsplit, Nat.or_assoc, Nat.or_self]

theorem and_128_eq_zero_iff (b : UInt8) : b &&& 128 = 0 ↔ b.toNat < 128 := by
  have hb : b.toNat < 256 := b.toNat_lt
  have hand : (b &&& 128).toNat = (b.toNat.testBit 7).toNat * 2 ^ 7 := by
    rw [UInt8.toNat_and]
    exact Nat.and_two_pow b.toNat 7
  rw [← UInt8.toNat_inj, hand, Nat.testBit_eq_decide_div_mod_eq]
  show (decide (b.toNat / 128 % 2 = 1)).toNat * 128 = 0 ↔ _
  by_cases h : b.toNat < 128
  · simp [h, Nat.div_eq_of_lt h]
  · have hbit : b.toNat / 128 % 2 = 1 := by omega
    simp [h, hbit]

theorem toNat_and_127 (b : UInt8) : (b &&& 127).toNat = b.toNat % 128 := by
  rw [UInt8.toNat_and]
  exact Nat.and_two_pow_sub_one_eq_mod b.toNat 7

/-!
## Words of bytes as fractions

A word of bytes, its most significant one first, is also read as the digits of a fraction behind the
point. Of two words, whatever their lengths, the one with the smaller fraction comes first in the
lexicographic order (`lt_of_fraction_lt`). Complementing the bytes of a word subtracts it from the
largest one of its length (`bigEndian_map_complement`).
-/

/-! ### Parts of a word -/

theorem bigEndian_append_append (x y : List UInt8) :
    bigEndian (x ++ y) = bigEndian x * 256 ^ y.length + bigEndian y := by
  induction x with
  | nil => simp [bigEndian]
  | cons a x ih =>
    rw [cons_append, bigEndian, bigEndian, ih, length_append, Nat.pow_add]
    ring

/-- The last bytes of a word. -/
theorem bigEndian_drop (x : List UInt8) (k : ℕ) :
    bigEndian (x.drop k) = bigEndian x % 256 ^ (x.length - k) := by
  have hsplit := bigEndian_append_append (x.take k) (x.drop k)
  have hlt := bigEndian_lt (x.drop k)
  rw [length_drop] at hsplit hlt
  rw [take_append_drop] at hsplit
  rw [hsplit, Nat.mul_add_mod', Nat.mod_eq_of_lt hlt]

theorem toNat_complement (b : UInt8) : (~~~b).toNat = 255 - b.toNat := by
  rw [UInt8.toNat_not]
  rfl

theorem bigEndian_map_complement (x : List UInt8) :
    bigEndian (x.map (~~~·)) + bigEndian x + 1 = 256 ^ x.length := by
  induction x with
  | nil => rfl
  | cons b x ih =>
    have hb : b.toNat < 256 := b.toNat_lt
    have hsum : (~~~b).toNat * 256 ^ x.length + b.toNat * 256 ^ x.length = 255 *
        256 ^ x.length := by
      rw [← Nat.add_mul, toNat_complement, Nat.sub_add_cancel (by omega)]
    rw [map_cons, bigEndian, bigEndian, length_map, length_cons, Nat.pow_succ]
    omega

theorem map_complement_complement (x : List UInt8) : (x.map (~~~·)).map (~~~·) = x := by
  rw [map_map]
  exact (map_congr_left fun b _ ↦ UInt8.not_not).trans (map_id x)

/-! ### Fractions -/

/-- The fraction with the bytes of the word as its digits. -/
def fraction (x : List UInt8) : ℚ := bigEndian x / 256 ^ x.length

theorem fraction_cons (a : UInt8) (x : List UInt8) :
    fraction (a :: x) = (a.toNat + fraction x) / 256 := by
  rw [fraction, fraction, bigEndian, length_cons, pow_succ]
  push_cast
  field_simp

theorem fraction_nonneg (x : List UInt8) : 0 ≤ fraction x := by
  unfold fraction
  positivity

theorem fraction_lt_one (x : List UInt8) : fraction x < 1 := by
  rw [fraction, div_lt_one (by positivity)]
  exact_mod_cast bigEndian_lt x

/-- By induction on the words: the first byte decides, or the fractions of what follows it do. -/
theorem lt_of_fraction_lt {x y : List UInt8} (h : fraction x < fraction y) : x < y := by
  induction x generalizing y with
  | nil =>
    cases y with
    | nil => exact absurd h (lt_irrefl _)
    | cons b y => exact nil_lt_cons b y
  | cons a x ih =>
    cases y with
    | nil =>
      have hzero : fraction [] = 0 := by simp [fraction, bigEndian]
      exact absurd h (not_lt.2 (hzero ▸ fraction_nonneg _))
    | cons b y =>
      rw [fraction_cons, fraction_cons, div_lt_div_iff_of_pos_right (by norm_num)] at h
      rcases lt_trichotomy a.toNat b.toNat with hlt | heq | hgt
      · exact cons_lt_cons_iff.2 (.inl (UInt8.lt_iff_toNat_lt.2 hlt))
      · obtain rfl := UInt8.toNat_inj.1 heq
        exact cons_lt_cons_iff.2 (.inr ⟨rfl, ih (by linarith)⟩)
      · have hstep : (b.toNat : ℚ) + 1 ≤ a.toNat := by exact_mod_cast hgt
        have hx := fraction_nonneg x
        have hy := fraction_lt_one y
        linarith

end TensorFlowCore
