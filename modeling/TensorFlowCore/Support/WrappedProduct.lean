import Mathlib

/-!
# Products of machine words

Signed 64-bit arithmetic is arithmetic modulo `2 ^ 64`, read back in `[-2 ^ 63, 2 ^ 63)`
(`Int.bmod`). A word obtained by multiplying factors in one at a time stands for the residue of the
exact product (`toInt_foldl_mul`), so it is the exact product precisely when that one fits
(`bmod_eq_self_iff`). The partial products of a list are the products of its prefixes, and
`forall_prefix_cons` is the rule for a loop that looks at each of them.
-/

namespace WrappedProduct

open List

/-- The product of the integers the words stand for. -/
def exactProduct (l : List Int64) : ℤ := (l.map Int64.toInt).prod

@[simp] theorem exactProduct_nil : exactProduct [] = 1 := rfl

@[simp] theorem exactProduct_cons (a : Int64) (l : List Int64) :
    exactProduct (a :: l) = a.toInt * exactProduct l := rfl

@[simp] theorem exactProduct_append (l l' : List Int64) :
    exactProduct (l ++ l') = exactProduct l * exactProduct l' := by
  rw [exactProduct, map_append, prod_append]
  rfl

theorem exactProduct_nonneg {l : List Int64} (h : ∀ a ∈ l, 0 ≤ a.toInt) : 0 ≤ exactProduct l := by
  refine prod_nonneg fun x hx ↦ ?_
  obtain ⟨a, ha, rfl⟩ := mem_map.1 hx
  exact h a ha

/-- An integer is its own residue exactly when it fits in 64 signed bits. -/
theorem bmod_eq_self_iff {x : ℤ} : x.bmod (2 ^ 64) = x ↔ -2 ^ 63 ≤ x ∧ x < 2 ^ 63 := by
  refine ⟨fun h ↦ ?_, fun ⟨hlo, hhi⟩ ↦ Int.bmod_eq_of_le hlo hhi⟩
  have hle : -(((2 ^ 64 : ℕ) : ℤ) / 2) ≤ x.bmod (2 ^ 64) := Int.le_bmod (by decide)
  have hlt : x.bmod (2 ^ 64) < (((2 ^ 64 : ℕ) : ℤ) + 1) / 2 := Int.bmod_lt (by decide)
  rw [h] at hle hlt
  exact ⟨by omega, by omega⟩

theorem bmod_of_fits {x : ℤ} (h0 : 0 ≤ x) (h : x < 2 ^ 63) : x.bmod (2 ^ 64) = x :=
  bmod_eq_self_iff.2 ⟨by omega, h⟩

/-- The residue of an integer that is not negative is negative exactly when the upper half of its
range is hit. -/
theorem bmod_nonneg_iff {x : ℤ} : 0 ≤ x.bmod (2 ^ 64) ↔ x % 2 ^ 64 < 2 ^ 63 := by
  rw [Int.bmod_def]
  split <;> omega

theorem toInt_mul (a b : Int64) : (a * b).toInt = (a.toInt * b.toInt).bmod (2 ^ 64) :=
  Int64.toInt_mul a b

/-- A word that stands for a residue still does after one more factor. -/
theorem toInt_mul_of_residue {a : Int64} {x : ℤ} (h : a.toInt = x.bmod (2 ^ 64)) (b : Int64) :
    (a * b).toInt = (x * b.toInt).bmod (2 ^ 64) := by
  rw [toInt_mul, h, Int.bmod_mul_bmod]

theorem toInt_foldl_mul {a : Int64} {x : ℤ} (h : a.toInt = x.bmod (2 ^ 64)) (l : List Int64) :
    (l.foldl (· * ·) a).toInt = (x * exactProduct l).bmod (2 ^ 64) := by
  induction l generalizing a x with
  | nil => rwa [foldl_nil, exactProduct_nil, mul_one]
  | cons b l ih =>
    rw [foldl_cons, ih (toInt_mul_of_residue h b), exactProduct_cons, mul_assoc]

/-- What holds of every prefix holds of the empty one, and, after the first entry, of every prefix
of the rest. -/
theorem forall_prefix_cons {α : Type*} {P : List α → Prop} {a : α} {l : List α} :
    (∀ p, p <+: a :: l → P p) ↔ P [] ∧ ∀ p, p <+: l → P (a :: p) := by
  refine ⟨fun h ↦ ⟨h [] nil_prefix, fun p hp ↦ h _ ((prefix_cons_inj a).2 hp)⟩,
    fun ⟨hnil, hcons⟩ p hp ↦ ?_⟩
  obtain rfl | ⟨p', rfl, hp'⟩ := prefix_cons_iff.1 hp
  · exact hnil
  · exact hcons p' hp'

theorem forall_prefix_nil {α : Type*} {P : List α → Prop} : (∀ p, p <+: [] → P p) ↔ P [] := by
  simp [prefix_nil]

end WrappedProduct
