import Mathlib.Algebra.Group.Nat.Even
import Mathlib.Data.List.Duplicate
import Mathlib.Data.List.Induction
import Mathlib.Data.List.Perm.Subperm

/-!
# A register that conflicting values clear

A register keeps the value it is given, and forgets it when another value comes. The next value is
then kept again, so that what is left depends on the order of the values: the order does not matter
only when there is just one value, or an even number of values of which no two are the same
(`cancelAll_perm_iff`).
-/

namespace TensorFlowCore

open List

variable {α β : Type} [DecidableEq α]

/-- The register after one more value. -/
def cancel : Option α → α → Option α
  | none, x => some x
  | some y, x => if y = x then some x else none

/-- The register after all of the values. -/
def cancelAll (l : List α) : Option α := l.foldl cancel none

/-- All the values are the same. -/
def Uniform (l : List β) : Prop := ∀ x ∈ l, ∀ y ∈ l, x = y

/-- The values clear one another in pairs, in every order. -/
def Cancels (l : List β) : Prop := l.Nodup ∧ Even l.length

theorem cancelAll_append_singleton (l : List α) (x : α) :
    cancelAll (l ++ [x]) = cancel (cancelAll l) x := by
  rw [cancelAll, foldl_append]
  rfl

theorem cancel_eq_some {kept : Option α} {x y : α} (h : cancel kept x = some y) : y = x := by
  cases kept with
  | none => exact (Option.some.inj h).symm
  | some z =>
    rw [cancel] at h
    split at h
    · exact (Option.some.inj h).symm
    · cases h

/-- A value that comes twice in succession stays. -/
theorem cancel_cancel_self (kept : Option α) (x : α) : cancel (cancel kept x) x = some x := by
  cases kept with
  | none => exact if_pos rfl
  | some y =>
    rw [cancel]
    split
    · exact if_pos rfl
    · rfl

theorem mem_of_cancelAll {l : List α} {x : α} (h : cancelAll l = some x) : x ∈ l := by
  induction l using reverseRecOn with
  | nil => cases h
  | append_singleton l y ih =>
    rw [cancelAll_append_singleton] at h
    rw [cancel_eq_some h]
    exact mem_append_right _ (mem_singleton_self y)

/-- Of values that are all different the last one stays, if their number is odd. -/
theorem cancelAll_of_nodup {l : List α} (h : l.Nodup) :
    cancelAll l = if Even l.length then none else l.getLast? := by
  induction l using reverseRecOn with
  | nil => rfl
  | append_singleton l x ih =>
    obtain ⟨hl, -, hx⟩ := nodup_append.1 h
    have hlen : (l ++ [x]).length = l.length + 1 := by rw [length_append]; rfl
    rw [cancelAll_append_singleton, ih hl, hlen, getLast?_concat]
    split
    · next heven => rw [if_neg (by rw [Nat.even_add_one]; exact not_not.2 heven)]; rfl
    · next hodd =>
      rw [if_pos (Nat.even_add_one.2 hodd)]
      cases hlast : l.getLast? with
      | none =>
        rw [getLast?_eq_none_iff.1 hlast] at hodd
        exact absurd Even.zero hodd
      | some y =>
        exact if_neg (hx y (mem_of_getLast? hlast) x (mem_singleton_self x))

/-- Some order ends in a given value. -/
theorem exists_perm_append_singleton {l : List α} {x : α} (h : x ∈ l) : (l.erase x ++ [x]).Perm l :=
  (perm_append_singleton x _).trans (perm_cons_erase h).symm

/-- The order does not matter if and only if there is one value only, or no value comes twice and
their number is even. -/
theorem cancelAll_perm_iff (l : List α) :
    (∀ l', l'.Perm l → cancelAll l' = cancelAll l) ↔
      Uniform l ∨ Cancels l := by
  constructor
  · intro h
    by_cases hall : Uniform l
    · exact .inl hall
    obtain ⟨x, hx, y, hy, hne⟩ : ∃ x ∈ l, ∃ y ∈ l, x ≠ y := by
      rw [Uniform] at hall
      push Not at hall
      exact hall
    have hlast : ∀ {z v}, z ∈ l → cancelAll l = some v → v = z := fun {z v} hz hv ↦ by
      have hperm := h _ (exists_perm_append_singleton hz)
      rw [cancelAll_append_singleton, hv] at hperm
      exact cancel_eq_some hperm
    have hnone : cancelAll l = none := by
      by_contra hsome
      obtain ⟨v, hv⟩ := Option.ne_none_iff_exists'.1 hsome
      exact hne ((hlast hx hv).symm.trans (hlast hy hv))
    have hnodup : l.Nodup := by
      by_contra hdup
      obtain ⟨z, hz⟩ := exists_duplicate_iff_not_nodup.2 hdup
      obtain ⟨rest, hrest⟩ := (duplicate_iff_sublist.1 hz).exists_perm_append
      have hswap : (rest ++ [z] ++ [z]).Perm ([z, z] ++ rest) := by
        rw [append_assoc]
        exact perm_append_comm
      have hperm := h _ (hswap.trans hrest.symm)
      rw [cancelAll_append_singleton, cancelAll_append_singleton, cancel_cancel_self,
        hnone] at hperm
      cases hperm
    refine .inr ⟨hnodup, ?_⟩
    by_contra hodd
    rw [cancelAll_of_nodup hnodup, if_neg hodd] at hnone
    rw [getLast?_eq_none_iff.1 hnone] at hx
    cases hx
  · rintro (hall | ⟨hnodup, heven⟩) l' hperm
    · refine hperm.foldl_eq' (fun x hx y hy kept ↦ ?_) none
      rw [hall x (hperm.mem_iff.1 hx) y (hperm.mem_iff.1 hy)]
    · rw [cancelAll_of_nodup hnodup, cancelAll_of_nodup (hperm.nodup_iff.2 hnodup), if_pos heven,
        if_pos (hperm.length_eq ▸ heven)]

omit [DecidableEq α] in
/-- The values that a function gives can be put in any order along with its arguments. -/
theorem exists_perm_filterMap_eq {f : β → Option α} {l : List β} {values : List α}
    (h : values.Perm (l.filterMap f)) : ∃ l' : List β, l'.Perm l ∧ l'.filterMap f = values := by
  induction l generalizing values with
  | nil => exact ⟨[], Perm.nil, (perm_nil.1 h).symm⟩
  | cons b l ih =>
    cases hb : f b with
    | none =>
      rw [filterMap_cons_none hb] at h
      obtain ⟨l', hperm, heq⟩ := ih h
      exact ⟨b :: l', hperm.cons b, by rw [filterMap_cons_none hb, heq]⟩
    | some x =>
      rw [filterMap_cons_some hb] at h
      obtain ⟨left, right, rfl⟩ := append_of_mem (h.mem_iff.2 mem_cons_self)
      obtain ⟨l', hperm, heq⟩ := ih (perm_middle.symm.trans h).cons_inv
      obtain ⟨l₁, l₂, rfl, rfl, rfl⟩ := filterMap_eq_append_iff.1 heq
      refine ⟨l₁ ++ b :: l₂, perm_middle.trans (hperm.cons b), ?_⟩
      rw [filterMap_append, filterMap_cons_some hb]

/-- The same when each value comes with other data. -/
theorem cancelAll_filterMap_perm_iff (f : β → Option α) (l : List β) :
    (∀ l' : List β, l'.Perm l → cancelAll (l'.filterMap f) = cancelAll (l.filterMap f)) ↔
      Uniform (l.filterMap f) ∨ Cancels (l.filterMap f) := by
  rw [← cancelAll_perm_iff]
  constructor
  · intro h values hperm
    obtain ⟨l', hl', rfl⟩ := exists_perm_filterMap_eq hperm
    exact h l' hl'
  · exact fun h l' hperm ↦ h _ (hperm.filterMap f)

end TensorFlowCore
