import Mathlib.Data.List.Forall2
import Mathlib.Data.List.TakeWhile

/-!
# Readers of a prefix

A reader takes a piece off the front of its input and returns the value with what is left. The piece
is a form of the value when it is read as that value whatever is behind it, and a reader is local
when it has looked at nothing but the piece that it took off. Then the inputs that it accepts are
the forms with anything behind them (`Local.eq_some_iff`), and a concatenation of forms can be taken
apart in one way only (`ReadsAs.unique`).

The simplest reader takes items as long as they have a property (`takeWhile_append_of_stop`).
-/

namespace TensorFlowCore

variable {α β : Type*}

/-- The piece is read as the value, whatever is behind it. -/
def ReadsAs (read : List α → Option (β × List α)) (piece : List α) (v : β) : Prop :=
  ∀ rest, read (piece ++ rest) = some (v, rest)

/-- The reader looks at nothing but what it takes off. -/
def LocalReader (read : List α → Option (β × List α)) : Prop :=
  ∀ src v rest, read src = some (v, rest) → ∃ piece, src = piece ++ rest ∧ ReadsAs read piece v

variable {read : List α → Option (β × List α)} {p q s t src rest : List α} {v w : β}

theorem LocalReader.eq_some_iff (h : LocalReader read) :
    read src = some (v, rest) ↔ ∃ piece, ReadsAs read piece v ∧ src = piece ++ rest := by
  constructor
  · intro hread
    obtain ⟨piece, hsrc, hpiece⟩ := h src v rest hread
    exact ⟨piece, hpiece, hsrc⟩
  · rintro ⟨piece, hpiece, rfl⟩
    exact hpiece rest

/-- **A form determines its value and where it ends.** -/
theorem ReadsAs.unique (hp : ReadsAs read p v) (hq : ReadsAs read q w) (h : p ++ s = q ++ t) :
    v = w ∧ s = t := by
  have hread := hp s
  rw [h, hq t] at hread
  cases hread
  exact ⟨rfl, rfl⟩

/-- Items with a property in front of one without it. -/
theorem takeWhile_append_of_stop {P : α → Bool} (hs : ∀ c ∈ s, P c = true)
    (ht : ∀ c ∈ t.head?, P c = false) : (s ++ t).takeWhile P = s ∧ (s ++ t).dropWhile P = t := by
  rw [List.takeWhile_append_of_pos hs, List.dropWhile_append_of_pos hs]
  cases t with
  | nil => exact ⟨List.append_nil s, rfl⟩
  | cons c t =>
    have hc := ht c rfl
    rw [List.takeWhile_cons_of_neg (by simp [hc]), List.dropWhile_cons_of_neg (by simp [hc])]
    exact ⟨List.append_nil s, rfl⟩

/-- As many items with a property as there are at the front, up to a number of them. -/
theorem exists_prefix_of_length_le (P : α → Bool) (n : ℕ) (l : List α) :
    ∃ s t, l = s ++ t ∧ (∀ c ∈ s, P c = true) ∧ s.length ≤ n ∧
      (s.length < n → ∀ c ∈ t.head?, P c = false) := by
  induction n generalizing l with
  | zero => exact ⟨[], l, rfl, by simp, le_rfl, fun h ↦ absurd h (Nat.lt_irrefl 0)⟩
  | succ n ih =>
    cases l with
    | nil => exact ⟨[], [], rfl, by simp, Nat.zero_le _, fun _ ↦ by simp⟩
    | cons c l =>
      by_cases hc : P c = true
      · obtain ⟨s, t, rfl, hs, hle, hstop⟩ := ih l
        exact ⟨c :: s, t, rfl, List.forall_mem_cons.2 ⟨hc, hs⟩, Nat.succ_le_succ hle,
          fun h ↦ hstop (Nat.lt_of_succ_lt_succ h)⟩
      · refine ⟨[], c :: l, rfl, by simp, Nat.zero_le _, fun _ d hd ↦ ?_⟩
        rw [← Option.some.inj hd]
        exact Bool.eq_false_iff.2 hc

/-- All items with a property at the front. -/
theorem exists_prefix (P : α → Bool) (l : List α) :
    ∃ s t, l = s ++ t ∧ (∀ c ∈ s, P c = true) ∧ ∀ c ∈ t.head?, P c = false := by
  obtain ⟨s, t, rfl, hs, -, hstop⟩ := exists_prefix_of_length_le P (l.length + 1) l
  refine ⟨s, t, rfl, hs, hstop ?_⟩
  rw [List.length_append]
  omega

end TensorFlowCore
