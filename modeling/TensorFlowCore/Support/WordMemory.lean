import Mathlib.Data.Nat.Bitwise
import Mathlib.Order.Disjoint

/-!
# Words in a memory of bytes

A memory gives the byte at each address. `readWord` and `writeWord` are for the words of eight
bytes, the least significant byte first. What is read is what was written, and depends on the eight
bytes only.

`alignDown` clears the low bits of an address.
-/

namespace WordMemory

/-- The bytes by their addresses. -/
abbrev Memory := ℕ → ℕ

/-- The word at an address. -/
def readWord (mem : Memory) (a : ℕ) : ℕ :=
  mem a + 256 * (mem (a + 1) + 256 * (mem (a + 2) + 256 * (mem (a + 3) + 256 * (mem (a + 4) +
    256 * (mem (a + 5) + 256 * (mem (a + 6) + 256 * mem (a + 7)))))))

/-- The memory with a word at an address. -/
def writeWord (mem : Memory) (a v : ℕ) : Memory := fun x ↦
  if a ≤ x ∧ x < a + 8 then v / 256 ^ (x - a) % 256 else mem x

/-- The memories have the same bytes at `n` addresses. -/
def AgreeOn (mem mem' : Memory) (a n : ℕ) : Prop := ∀ x, a ≤ x → x < a + n → mem' x = mem x

variable {mem mem' : Memory} {a b n v : ℕ}

theorem readWord_congr (h : AgreeOn mem mem' a 8) : readWord mem' a = readWord mem a := by
  have hbyte : ∀ i < 8, mem' (a + i) = mem (a + i) :=
    fun i hi ↦ h _ (Nat.le_add_right _ _) (Nat.add_lt_add_left hi _)
  have hfirst : mem' a = mem a := hbyte 0 (by decide)
  rw [readWord, readWord, hfirst, hbyte 1 (by decide), hbyte 2 (by decide), hbyte 3 (by decide),
    hbyte 4 (by decide), hbyte 5 (by decide), hbyte 6 (by decide), hbyte 7 (by decide)]

theorem writeWord_byte {i : ℕ} (hi : i < 8) : writeWord mem a v (a + i) = v / 256 ^ i % 256 := by
  rw [writeWord, if_pos ⟨Nat.le_add_right _ _, Nat.add_lt_add_left hi _⟩, Nat.add_sub_cancel_left]

theorem readWord_writeWord (hv : v < 2 ^ 64) : readWord (writeWord mem a v) a = v := by
  have hbyte : ∀ i < 8, writeWord mem a v (a + i) = v / 256 ^ i % 256 :=
    fun i hi ↦ writeWord_byte hi
  have hfirst : writeWord mem a v a = v / 256 ^ 0 % 256 := hbyte 0 (by decide)
  rw [readWord, hfirst, hbyte 1 (by decide), hbyte 2 (by decide), hbyte 3 (by decide),
    hbyte 4 (by decide), hbyte 5 (by decide), hbyte 6 (by decide), hbyte 7 (by decide)]
  omega

/-- Other bytes are as they were. -/
theorem agreeOn_writeWord (h : b + n ≤ a ∨ a + 8 ≤ b) : AgreeOn mem (writeWord mem a v) b n := by
  intro x hlo hhi
  rw [writeWord, if_neg (by omega)]

theorem AgreeOn.trans {mem'' : Memory} (h : AgreeOn mem mem' a n) (h' : AgreeOn mem' mem'' a n) :
    AgreeOn mem mem'' a n := fun x hlo hhi ↦ (h' x hlo hhi).trans (h x hlo hhi)

theorem readWord_writeWord_of_ne (h : b + 8 ≤ a ∨ a + 8 ≤ b) :
    readWord (writeWord mem a v) b = readWord mem b :=
  readWord_congr (agreeOn_writeWord h)

/-- `a & ~(alignment - 1)` for addresses of 64 bits. -/
def alignDown (a alignment : ℕ) : ℕ := a &&& (2 ^ 64 - 1 - (alignment - 1))

theorem alignDown_two_pow {k : ℕ} (ha : a < 2 ^ 64) (hk : k ≤ 64) :
    alignDown a (2 ^ k) = a / 2 ^ k * 2 ^ k := by
  have hpow : 2 ^ k ≤ 2 ^ 64 := Nat.pow_le_pow_right (by decide) hk
  have hpos : 0 < 2 ^ k := Nat.two_pow_pos k
  have hmask : 2 ^ 64 - 1 - (2 ^ k - 1) = 2 ^ 64 - ((2 ^ k - 1) + 1) := by omega
  rw [alignDown, hmask, ← Nat.shiftRight_eq_div_pow, ← Nat.shiftLeft_eq]
  refine Nat.eq_of_testBit_eq fun i ↦ ?_
  rw [Nat.testBit_and, Nat.testBit_two_pow_sub_succ (by omega), Nat.testBit_two_pow_sub_one,
    Nat.testBit_shiftLeft, Nat.testBit_shiftRight]
  by_cases hi : k ≤ i
  · by_cases hbit : a.testBit i
    · have hlt : i < 64 := by
        by_contra hge
        have hzero : a.testBit i = false :=
          Nat.testBit_eq_false_of_lt
            (ha.trans_le (Nat.pow_le_pow_right (by decide) (Nat.le_of_not_lt hge)))
        exact Bool.false_ne_true (hzero.symm.trans hbit)
      simp [hi, hlt, hbit, Nat.not_lt.2 hi, Nat.add_sub_cancel' hi]
    · simp [hi, hbit, Nat.add_sub_cancel' hi]
  · simp [hi, Nat.lt_of_not_le hi]

/-- It is the next multiple below. -/
theorem alignDown_spec {k : ℕ} (ha : a < 2 ^ 64) (hk : k ≤ 64) :
    2 ^ k ∣ alignDown a (2 ^ k) ∧ alignDown a (2 ^ k) ≤ a ∧ a < alignDown a (2 ^ k) + 2 ^ k := by
  rw [alignDown_two_pow ha hk]
  refine ⟨Nat.dvd_mul_left _ _, Nat.div_mul_le_self _ _, ?_⟩
  exact Nat.lt_div_mul_add (Nat.two_pow_pos k)

end WordMemory
