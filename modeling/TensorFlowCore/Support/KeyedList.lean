import Mathlib.Data.List.Basic

/-!
# Maps as lists of entries

A finite map whose order does not matter, as the list of its keys with their values.
-/

namespace KeyedList

variable {K V : Type} [DecidableEq K]

/-- The value of a key. -/
def get? (key : K) : List (K × V) → Option V
  | [] => none
  | e :: l => if e.1 = key then some e.2 else get? key l

/-- The entries of the other keys. -/
def erase (key : K) (l : List (K × V)) : List (K × V) := l.filter fun e ↦ e.1 ≠ key

/-- Give a key its value. -/
def set (key : K) (value : V) (l : List (K × V)) : List (K × V) := (key, value) :: erase key l

variable {key key' : K} {value : V} {l : List (K × V)}

@[simp] theorem get?_erase_self : get? key (erase key l) = none := by
  induction l with
  | nil => rfl
  | cons e l ih =>
    unfold erase
    by_cases he : e.1 = key
    · rwa [List.filter_cons_of_neg (by simpa using he)]
    · rw [List.filter_cons_of_pos (by simpa using he), get?, if_neg he]
      exact ih

theorem get?_erase_of_ne (h : key' ≠ key) : get? key' (erase key l) = get? key' l := by
  induction l with
  | nil => rfl
  | cons e l ih =>
    unfold erase
    by_cases he : e.1 = key
    · rw [List.filter_cons_of_neg (by simpa using he), get?,
        if_neg (fun heq ↦ h (heq.symm.trans he))]
      exact ih
    · rw [List.filter_cons_of_pos (by simpa using he), get?, get?]
      exact if_congr Iff.rfl rfl ih

@[simp] theorem get?_set_self : get? key (set key value l) = some value := if_pos rfl

theorem get?_set_of_ne (h : key' ≠ key) : get? key' (set key value l) = get? key' l :=
  (if_neg fun heq ↦ h heq.symm).trans (get?_erase_of_ne h)

theorem get?_erase (k : K) : get? k (erase key l) = if k = key then none else get? k l := by
  by_cases hk : k = key
  · rw [if_pos hk, hk, get?_erase_self]
  · rw [if_neg hk, get?_erase_of_ne hk]

theorem get?_set (k : K) : get? k (set key value l) = if k = key then some value else get? k l := by
  by_cases hk : k = key
  · rw [if_pos hk, hk, get?_set_self]
  · rw [if_neg hk, get?_set_of_ne hk]

/-- A map without entries. -/
theorem eq_nil_iff : l = [] ↔ ∀ key, get? key l = none := by
  refine ⟨fun h key ↦ by rw [h]; rfl, fun h ↦ ?_⟩
  cases l with
  | nil => rfl
  | cons e l =>
    have he := h e.1
    rw [get?, if_pos rfl] at he
    cases he

end KeyedList
