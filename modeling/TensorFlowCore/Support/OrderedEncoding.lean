import Mathlib.Data.List.Basic
import Mathlib.Order.Basic

/-!
# Order-preserving encodings into words

Words over an ordered alphabet are compared lexicographically. `Below x y` says that `x` is smaller
than `y` whatever is appended to either, which is what makes the order of a concatenation of
encodings the lexicographic order of the encoded tuple. An `OrderedEncoding` sends a smaller value
to a word below; escaping the letters of a word and closing it with a terminator is one
(`orderedEncoding_flatMap`), and so is writing the length of a word before it (`below_cons_of_lt`,
`below_of_length_eq`).
-/

namespace TensorFlowCore

open List

variable {α β : Type*} [LT β]

/-- `x` is smaller than `y` whatever is appended to either of them. -/
def Below (x y : List β) : Prop :=
  ∀ u v, x ++ u < y ++ v

namespace Below

variable {x y : List β}

theorem append (h : Below x y) (u v : List β) : Below (x ++ u) (y ++ v) := fun s t ↦ by
  simpa only [append_assoc] using h (u ++ s) (v ++ t)

theorem append_left (p : List β) (h : Below x y) : Below (p ++ x) (p ++ y) := fun u v ↦ by
  simpa only [append_assoc] using append_left_lt (h u v)

end Below

theorem below_cons_of_lt {a b : β} (h : a < b) (x y : List β) : Below (a :: x) (b :: y) :=
  fun _ _ ↦ cons_lt_cons_iff.2 (.inl h)

theorem Below.cons {x y : List β} (a : β) (h : Below x y) : Below (a :: x) (a :: y) :=
  fun u v ↦ cons_lt_cons_iff.2 (.inr ⟨rfl, h u v⟩)

/-- Words of one length never are a proper beginning of one another. -/
theorem below_of_length_eq {x y : List β} (hlen : x.length = y.length) (h : x < y) : Below x y := by
  induction x generalizing y with
  | nil =>
    obtain rfl : y = [] := length_eq_zero_iff.1 hlen.symm
    exact absurd h (not_lt_nil _)
  | cons a x ih =>
    obtain ⟨b, y, rfl⟩ := exists_cons_of_length_eq_add_one hlen.symm
    obtain hab | ⟨rfl, hxy⟩ := cons_lt_cons_iff.1 h
    · exact below_cons_of_lt hab x y
    · exact (ih (Nat.succ.inj hlen) hxy).cons a

theorem lt_of_append_left_lt [Std.Irrefl (fun a b : β ↦ a < b)] {p u v : List β}
    (h : p ++ u < p ++ v) : u < v := by
  induction p with
  | nil => exact h
  | cons a p ih =>
    obtain haa | ⟨-, htl⟩ := cons_lt_cons_iff.1 h
    · exact absurd haa (Std.Irrefl.irrefl (r := fun a b : β ↦ a < b) a)
    · exact ih htl

/-- A smaller value is sent to a word below. -/
def OrderedEncoding [LT α] (f : α → List β) : Prop :=
  ∀ ⦃a b⦄, a < b → Below (f a) (f b)

/-- The order of two encodings followed by more is decided by the values first. -/
theorem OrderedEncoding.append_lt_append_iff [LT α] {f : α → List β}
    [Std.Asymm (fun a b : β ↦ a < b)] [Std.Asymm (fun a b : α ↦ a < b)]
    (htri : ∀ a b : α, a < b ∨ a = b ∨ b < a) (hf : OrderedEncoding f) (a b : α)
    (u v : List β) : f a ++ u < f b ++ v ↔ a < b ∨ a = b ∧ u < v := by
  constructor
  · intro h
    obtain hab | rfl | hba := htri a b
    · exact .inl hab
    · exact .inr ⟨rfl, lt_of_append_left_lt h⟩
    · exact absurd h (List.lt_asymm (hf hba v u))
  · rintro (hab | ⟨rfl, huv⟩)
    · exact hf hab u v
    · exact append_left_lt huv

/-- Escaping every letter by an ordered encoding, and closing the word with a terminator below every
escaped letter, is an ordered encoding of words. -/
theorem orderedEncoding_flatMap [LT α] {f : α → List β} {sep : List β} (hf : OrderedEncoding f)
    (hsep : ∀ a, Below sep (f a)) : OrderedEncoding fun x : List α ↦ x.flatMap f ++ sep := by
  intro x y h
  induction x generalizing y with
  | nil =>
    obtain ⟨b, y, rfl⟩ : ∃ b z, y = b :: z := by
      rcases y with - | ⟨b, z⟩
      · exact absurd h (not_lt_nil _)
      · exact ⟨b, z, rfl⟩
    simpa only [flatMap_cons, append_assoc, append_nil, flatMap_nil,
      nil_append] using (hsep b).append [] (y.flatMap f ++ sep)
  | cons a x ih =>
    obtain ⟨b, y, rfl⟩ : ∃ b z, y = b :: z := by
      rcases y with - | ⟨b, z⟩
      · exact absurd h (not_lt_nil _)
      · exact ⟨b, z, rfl⟩
    simp only [flatMap_cons, append_assoc]
    obtain hab | ⟨rfl, hxy⟩ := cons_lt_cons_iff.1 h
    · exact (hf hab).append _ _
    · exact (ih hxy).append_left (f a)

end TensorFlowCore
