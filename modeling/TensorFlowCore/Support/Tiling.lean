import Mathlib.Data.Int.ConditionallyCompleteOrder
import Mathlib.Data.List.Nodup
import Mathlib.Data.List.Pairwise
import Mathlib.Data.Rat.Floor

/-!
# Blocks that tile an interval

`Tiles g ptr size p l q` says that the blocks of `l`, laid one after the other, fill the interval
`[p, q)` exactly: the first starts at `p`, each next one starts where the one before it ends, the
last ends at `q`, and every size is a positive multiple of the grain `g`. The start and the size of
a block are functions of its name, so a block can be resized in place.
-/

namespace Tiling

open List

variable {α : Type*} {g : ℕ} {ptr size ptr' size' : α → ℕ}

/-- The blocks of `l` fill `[p, q)`. -/
def Tiles (g : ℕ) (ptr size : α → ℕ) : ℕ → List α → ℕ → Prop
  | p, [], q => p = q
  | p, a :: l, q => ptr a = p ∧ 0 < size a ∧ g ∣ size a ∧ Tiles g ptr size (p + size a) l q

theorem tiles_append {l₁ l₂ : List α} {p q : ℕ} :
    Tiles g ptr size p (l₁ ++ l₂) q ↔
      ∃ m, Tiles g ptr size p l₁ m ∧ Tiles g ptr size m l₂ q := by
  induction l₁ generalizing p with
  | nil => simp [Tiles]
  | cons a l₁ ih =>
    simp only [cons_append, Tiles, ih]
    constructor
    · rintro ⟨hp, hpos, hg, m, h₁, h₂⟩
      exact ⟨m, ⟨hp, hpos, hg, h₁⟩, h₂⟩
    · rintro ⟨m, ⟨hp, hpos, hg, h₁⟩, h₂⟩
      exact ⟨hp, hpos, hg, m, h₁, h₂⟩

section

variable {l : List α} {p q : ℕ} (h : Tiles g ptr size p l q)
include h

theorem Tiles.congr (hptr : ∀ a ∈ l, ptr' a = ptr a) (hsize : ∀ a ∈ l, size' a = size a) :
    Tiles g ptr' size' p l q := by
  induction l generalizing p with
  | nil => exact h
  | cons a l ih =>
    obtain ⟨hp, hpos, hg, hl⟩ := h
    have ha : a ∈ a :: l := mem_cons_self
    rw [← hsize a ha] at hpos hg hl
    exact ⟨(hptr a ha).trans hp, hpos, hg, ih hl (fun b hb ↦ hptr b (mem_cons_of_mem _ hb))
      fun b hb ↦ hsize b (mem_cons_of_mem _ hb)⟩

theorem Tiles.le : p ≤ q := by
  induction l generalizing p with
  | nil => exact Nat.le_of_eq h
  | cons a l ih => exact (Nat.le_add_right _ _).trans (ih h.2.2.2)

/-- Where a block of the tiling lies. -/
theorem Tiles.bounds {a : α} (ha : a ∈ l) :
    p ≤ ptr a ∧ ptr a + size a ≤ q ∧ g ∣ ptr a - p ∧ 0 < size a ∧ g ∣ size a := by
  induction l generalizing p with
  | nil => simp at ha
  | cons b l ih =>
    obtain ⟨rfl, hpos, hg, hl⟩ := h
    rcases mem_cons.1 ha with rfl | ha
    · exact ⟨le_rfl, hl.le, by simp, hpos, hg⟩
    · obtain ⟨h₁, h₂, h₃, h₄, h₅⟩ := ih hl ha
      refine ⟨by omega, h₂, ?_, h₄, h₅⟩
      have : ptr a - ptr b = (ptr a - (ptr b + size b)) + size b := by omega
      rw [this]
      exact dvd_add h₃ hg

theorem Tiles.pairwise : l.Pairwise fun a b ↦ ptr a + size a ≤ ptr b := by
  induction l generalizing p with
  | nil => exact Pairwise.nil
  | cons a l ih =>
    obtain ⟨rfl, -, -, hl⟩ := h
    exact pairwise_cons.2 ⟨fun b hb ↦ (hl.bounds hb).1, ih hl⟩

/-- Two blocks of a tiling are the same or do not overlap. -/
theorem Tiles.disjoint {a b : α} (ha : a ∈ l) (hb : b ∈ l) (hab : a ≠ b) :
    ptr a + size a ≤ ptr b ∨ ptr b + size b ≤ ptr a := by
  have hsymm : Std.Symm fun a b : α ↦ ptr a + size a ≤ ptr b ∨ ptr b + size b ≤ ptr a :=
    ⟨fun _ _ ↦ Or.symm⟩
  have hpair : l.Pairwise fun a b ↦ ptr a + size a ≤ ptr b ∨ ptr b + size b ≤ ptr a :=
    h.pairwise.imp Or.inl
  exact hpair.forall ha hb hab

theorem Tiles.dvd_sub : g ∣ q - p := by
  induction l generalizing p with
  | nil => simp [show p = q from h]
  | cons a l ih =>
    obtain ⟨-, -, hg, hl⟩ := h
    have hle := hl.le
    have : q - p = (q - (p + size a)) + size a := by omega
    rw [this]
    exact dvd_add (ih hl) hg

/-- Every block takes at least one grain. -/
theorem Tiles.length_le : g * l.length + p ≤ q := by
  induction l generalizing p with
  | nil => simp [show p = q from h]
  | cons a l ih =>
    obtain ⟨-, hpos, hg, hl⟩ := h
    have := ih hl
    have := Nat.le_of_dvd hpos hg
    rw [length_cons, Nat.mul_succ]
    omega

/-- A block of at least two grains leaves room for one more. -/
theorem Tiles.length_lt {a : α} (ha : a ∈ l) (hsize : 2 * g ≤ size a) :
    g * (l.length + 1) + p ≤ q := by
  induction l generalizing p with
  | nil => simp at ha
  | cons b l ih =>
    obtain ⟨-, hpos, hg, hl⟩ := h
    have hlen := hl.length_le
    rw [length_cons, Nat.mul_succ, Nat.mul_succ]
    rcases mem_cons.1 ha with rfl | ha
    · omega
    · have hb := ih hl ha
      have := Nat.le_of_dvd hpos hg
      rw [Nat.mul_succ] at hb
      omega

end

section Edit

variable {l₁ l₂ : List α} {a b : α} {p q n : ℕ} [DecidableEq α]

omit [DecidableEq α] in
theorem ne_of_mem_of_nodup {c : α} (hnodup : (l₁ ++ a :: l₂).Nodup) (hc : c ∈ l₁ ++ l₂) :
    c ≠ a := by
  rintro rfl
  exact (nodup_cons.1 (nodup_middle.1 hnodup)).1 hc

/-- Cut the block `a` after `n`, `b` being the rest. -/
theorem Tiles.split (h : Tiles g ptr size p (l₁ ++ a :: l₂) q) (hnodup : (l₁ ++ a :: l₂).Nodup)
    (hptr : ∀ c ∈ l₁ ++ a :: l₂, ptr' c = ptr c)
    (hsize : ∀ c ∈ l₁ ++ a :: l₂, size' c = if c = a then n else size c)
    (hb : ptr' b = ptr a + n) (hsum : n + size' b = size a) (hn : 0 < n) (hb' : 0 < size' b)
    (hg : g ∣ n) : Tiles g ptr' size' p (l₁ ++ a :: b :: l₂) q := by
  obtain ⟨m, h₁, hm, -, hga, h₂⟩ := tiles_append.1 h
  have hgb : g ∣ size' b := (Nat.dvd_add_right hg).1 (hsum ▸ hga)
  have ha : size' a = n := by rw [hsize a (by simp), if_pos rfl]
  have hother : ∀ c ∈ l₁ ++ l₂, ptr' c = ptr c ∧ size' c = size c := by
    intro c hc
    have hc' : c ∈ l₁ ++ a :: l₂ := by
      rcases mem_append.1 hc with hc | hc <;> simp [hc]
    exact ⟨hptr c hc', by rw [hsize c hc', if_neg (ne_of_mem_of_nodup hnodup hc)]⟩
  refine tiles_append.2 ⟨m, h₁.congr (fun c hc ↦ (hother c (by simp [hc])).1) fun c hc ↦
    (hother c (by simp [hc])).2, ?_⟩
  refine ⟨(hptr a (by simp)).trans hm, ha ▸ hn, ha ▸ hg, by rw [hb, hm, ha], hb', hgb, ?_⟩
  rw [ha, Nat.add_assoc, hsum]
  exact h₂.congr (fun c hc ↦ (hother c (by simp [hc])).1) fun c hc ↦ (hother c (by simp [hc])).2

/-- Join the block `b` to the block `a` before it. -/
theorem Tiles.join (h : Tiles g ptr size p (l₁ ++ a :: b :: l₂) q)
    (hnodup : (l₁ ++ a :: b :: l₂).Nodup) (hptr : ∀ c ∈ l₁ ++ a :: l₂, ptr' c = ptr c)
    (hsize : ∀ c ∈ l₁ ++ a :: l₂, size' c = if c = a then size a + size b else size c) :
    Tiles g ptr' size' p (l₁ ++ a :: l₂) q := by
  obtain ⟨m, h₁, hm, hpos, hga, -, -, hgb, h₂⟩ := tiles_append.1 h
  have ha : size' a = size a + size b := by rw [hsize a (by simp), if_pos rfl]
  have hother : ∀ c ∈ l₁ ++ l₂, ptr' c = ptr c ∧ size' c = size c := by
    intro c hc
    have hc' : c ∈ l₁ ++ a :: l₂ := by
      rcases mem_append.1 hc with hc | hc <;> simp [hc]
    have hca : c ≠ a := ne_of_mem_of_nodup hnodup (by
      rcases mem_append.1 hc with hc | hc <;> simp [hc])
    exact ⟨hptr c hc', by rw [hsize c hc', if_neg hca]⟩
  refine tiles_append.2 ⟨m, h₁.congr (fun c hc ↦ (hother c (by simp [hc])).1) fun c hc ↦
    (hother c (by simp [hc])).2, (hptr a (by simp)).trans hm, by omega, ha ▸ dvd_add hga hgb, ?_⟩
  rw [ha, ← Nat.add_assoc]
  exact h₂.congr (fun c hc ↦ (hother c (by simp [hc])).1) fun c hc ↦ (hother c (by simp [hc])).2

end Edit

end Tiling

/-!
## Windows at a stride

Windows of one size over the integers, each a stride after the one before it. How many of them fit
into an interval is a quotient (`isGreatest_fit`), and so is how many it takes to start one at every
stride of an interval (`ceil_div_eq`).
-/

namespace Windows

open List

/-- The `k`-th window, of those that begin at `start`. -/
def window (start stride size k : ℤ) : Set ℤ :=
  Set.Ico (start + k * stride) (start + k * stride + size)

/-- The first `n` windows lie in an interval. -/
def Fit (start stride size lo hi n : ℤ) : Prop :=
  ∀ k ∈ Set.Ico 0 n, window start stride size k ⊆ Set.Ico lo hi

variable {start stride size lo hi n : ℤ}

theorem window_subset_iff {k : ℤ} (hsize : 0 < size) :
    window start stride size k ⊆ Set.Ico lo hi ↔ lo ≤ start + k * stride ∧
    start + k * stride + size ≤ hi :=
  Set.Ico_subset_Ico_iff (by omega)

/-- Of windows that begin with the interval only the last one has to be looked at. -/
theorem fit_iff (hstride : 0 < stride) (hsize : 0 < size) :
    Fit start stride size start hi n ↔ n ≤ 0 ∨ start + (n - 1) * stride + size ≤ hi := by
  constructor
  · intro h
    obtain hn | hn := Int.lt_or_le 0 n
    · have hlast : n - 1 ∈ Set.Ico 0 n := ⟨by omega, by omega⟩
      exact .inr ((window_subset_iff hsize).1 (h _ hlast)).2
    · exact .inl hn
  · rintro h k ⟨hk0, hkn⟩
    refine (window_subset_iff hsize).2 ⟨?_, ?_⟩
    · have hk : 0 ≤ k * stride := Int.mul_nonneg hk0 hstride.le
      omega
    · obtain hn | hlast := h
      · omega
      · have hk : k * stride ≤ (n - 1) * stride :=
          Int.mul_le_mul_of_nonneg_right (by omega) hstride.le
        omega

/-- How many windows fit, where the first is at most a stride too long. -/
theorem isGreatest_fit (hstride : 0 < stride) (hsize : 0 < size)
    (hlong : size ≤ hi - start + stride) :
    IsGreatest {n | Fit start stride size start hi n} ((hi - start - size + stride) / stride) := by
  have hfit : ∀ n, Fit start stride size start hi n ↔
      n ≤ (hi - start - size + stride) / stride := by
    intro n
    have hq : 0 ≤ (hi - start - size + stride) / stride := Int.ediv_nonneg (by omega) hstride.le
    rw [fit_iff hstride hsize, Int.le_ediv_iff_mul_le hstride, Int.sub_mul, Int.one_mul]
    constructor
    · rintro (hn | hlast)
      · have hn' : n * stride ≤ 0 := Int.mul_nonpos_of_nonpos_of_nonneg hn hstride.le
        omega
      · omega
    · intro hlast
      exact .inr (by omega)
  exact ⟨(hfit _).2 le_rfl, fun n hn ↦ (hfit n).1 hn⟩

/-- Rounding up, in integers. -/
theorem ceil_div_eq (length : ℤ) (hstride : 0 < stride) :
    ⌈(length : ℚ) / stride⌉ = (length + stride - 1) / stride := by
  have hpos : (0 : ℚ) < stride := Int.cast_pos.2 hstride
  have hmod := Int.mul_ediv_add_emod (length + stride - 1) stride
  have hmod0 := Int.emod_nonneg (length + stride - 1) hstride.ne'
  have hmodlt := Int.emod_lt_of_pos (length + stride - 1) hstride
  rw [Int.mul_comm] at hmod
  refine Int.ceil_eq_iff.2 ⟨?_, ?_⟩
  · rw [lt_div_iff₀ hpos]
    have hlt : ((length + stride - 1) / stride - 1) * stride < length := by
      rw [Int.sub_mul, Int.one_mul]
      omega
    exact_mod_cast hlt
  · rw [div_le_iff₀ hpos]
    have hle : length ≤ (length + stride - 1) / stride * stride := by omega
    exact_mod_cast hle

end Windows
