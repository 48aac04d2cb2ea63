import Mathlib.Data.Nat.ModEq

/-!
# A window in a circular buffer

Items are numbered, and item `i` is kept in slot `i % size` of a buffer. `Window key size buf lo hi`
says that the buffer holds exactly the items of the window `[lo, hi)`, each in its own slot; `key`
is the number of an item. The window moves by `push` at its end and `pop` at its start, and as long
as it is no longer than the buffer no item is overwritten.

`Queue size buf head tail items` is the same for a buffer that is known by two slots, of the first
item and behind the last one. At least one slot stays free, so that `head = tail` says that there
are no items.
-/

namespace RingBuffer

open Function List

variable {α : Type*} {key : α → ℕ} {size lo hi i : ℕ} {buf : ℕ → Option α} {x : α}

/-- The buffer holds exactly the items numbered `lo` to `hi - 1`. -/
structure Window (key : α → ℕ) (size : ℕ) (buf : ℕ → Option α) (lo hi : ℕ) : Prop where
  le : lo ≤ hi
  length_le : hi ≤ lo + size
  get : ∀ i, lo ≤ i → i < hi → ∃ x, buf (i % size) = some x ∧ key x = i
  own : ∀ k x, buf k = some x → lo ≤ key x ∧ key x < hi ∧ key x % size = k

/-- Numbers less than `size` apart that share a slot are the same. -/
theorem eq_of_mod_eq {j : ℕ} (hij : i ≤ j) (hlt : j < i + size) (h : i % size = j % size) :
    i = j := by
  have hdvd := (Nat.modEq_iff_dvd' hij).1 h
  have := Nat.eq_zero_of_dvd_of_lt hdvd (by omega)
  omega

namespace Window

section

variable (h : Window key size buf lo hi)
include h

/-- The item in the slot of `i` is the item `i`. -/
theorem key_eq (hlo : lo ≤ i) (hhi : i < hi) (hx : buf (i % size) = some x) : key x = i := by
  obtain ⟨y, hy, rfl⟩ := h.get i hlo hhi
  rw [hx] at hy
  rw [Option.some.inj hy]

theorem mem_iff : (∃ k x, buf k = some x ∧ key x = i) ↔ lo ≤ i ∧ i < hi := by
  constructor
  · rintro ⟨k, x, hx, rfl⟩
    exact ⟨(h.own k x hx).1, (h.own k x hx).2.1⟩
  · rintro ⟨hlo, hhi⟩
    obtain ⟨x, hx, hkey⟩ := h.get i hlo hhi
    exact ⟨_, x, hx, hkey⟩

/-- The slot of a number outside the window, but less than a buffer away from all of it, is free. -/
theorem eq_none (hi' : ∀ j, lo ≤ j → j < hi → i < j ∧ j < i + size ∨ j < i ∧ i < j + size) :
    buf (i % size) = none := by
  cases hx : buf (i % size) with
  | none => rfl
  | some x =>
    obtain ⟨hlo, hhi, hmod⟩ := h.own _ x hx
    rcases hi' _ hlo hhi with ⟨hlt, hlt'⟩ | ⟨hlt, hlt'⟩
    · exact absurd (eq_of_mod_eq hlt.le hlt' hmod.symm) hlt.ne
    · exact absurd (eq_of_mod_eq hlt.le hlt' hmod) hlt.ne

/-- The slot of the next item is free. -/
theorem next_eq_none (hlt : hi < lo + size) : buf (hi % size) = none :=
  h.eq_none fun j hlo hhi ↦ Or.inr ⟨hhi, by omega⟩

end

/-- The slot of the item before the window is free, if the window does not fill the buffer. -/
theorem prev_eq_none (h : Window key size buf (lo + 1) hi) (hlt : hi ≤ lo + size) :
    buf (lo % size) = none :=
  h.eq_none fun j hlo hhi ↦ Or.inl ⟨by omega, by omega⟩

variable (h : Window key size buf lo hi)
include h

theorem push (hlt : hi < lo + size) (hx : key x = hi) :
    Window key size (Function.update buf (hi % size) (some x)) lo (hi + 1) := by
  have hfree := h.next_eq_none hlt
  refine ⟨Nat.le_succ_of_le h.le, hlt, fun i hlo hhi ↦ ?_, fun k y hy ↦ ?_⟩
  · by_cases hlast : i = hi
    · exact ⟨x, by rw [hlast, update_self], hx.trans hlast.symm⟩
    · obtain ⟨y, hy, hkey⟩ := h.get i hlo (by omega)
      have hne : i % size ≠ hi % size := fun heq ↦ by
        rw [heq, hfree] at hy
        cases hy
      exact ⟨y, by rwa [update_of_ne hne], hkey⟩
  · by_cases hk : k = hi % size
    · rw [hk, update_self] at hy
      cases hy
      exact ⟨hx ▸ h.le, hx ▸ Nat.lt_succ_self _, by rw [hx, hk]⟩
    · rw [update_of_ne hk] at hy
      obtain ⟨hlo, hhi, hmod⟩ := h.own k y hy
      exact ⟨hlo, Nat.lt_succ_of_lt hhi, hmod⟩

theorem pop (hlt : lo < hi) :
    Window key size (Function.update buf (lo % size) none) (lo + 1) hi := by
  have hlen := h.length_le
  refine ⟨hlt, by omega, fun i hlo hhi ↦ ?_, fun k y hy ↦ ?_⟩
  · obtain ⟨y, hy, hkey⟩ := h.get i (by omega) hhi
    have hne : i % size ≠ lo % size := fun heq ↦ by
      have := eq_of_mod_eq (by omega) (by omega) heq.symm
      omega
    exact ⟨y, by rwa [update_of_ne hne], hkey⟩
  · by_cases hk : k = lo % size
    · rw [hk, update_self] at hy
      cases hy
    · rw [update_of_ne hk] at hy
      obtain ⟨hlo, hhi, hmod⟩ := h.own k y hy
      have hne : key y ≠ lo := fun heq ↦ hk (by rw [← hmod, heq])
      exact ⟨by omega, hhi, hmod⟩

theorem modify (hlo : lo ≤ i) (hhi : i < hi) (hx : key x = i) :
    Window key size (Function.update buf (i % size) (some x)) lo hi := by
  refine ⟨h.le, h.length_le, fun j hlo' hhi' ↦ ?_, fun k y hy ↦ ?_⟩
  · by_cases hj : j % size = i % size
    · obtain rfl : j = i := by
        obtain ⟨y, hy, hkey⟩ := h.get j hlo' hhi'
        rw [← hkey, h.key_eq hlo hhi (hj ▸ hy)]
      exact ⟨x, update_self .., hx⟩
    · rw [update_of_ne hj]
      exact h.get j hlo' hhi'
  · by_cases hk : k = i % size
    · rw [hk, update_self] at hy
      cases hy
      exact ⟨hx ▸ hlo, hx ▸ hhi, by rw [hx, hk]⟩
    · rw [update_of_ne hk] at hy
      exact h.own k y hy

end Window

/-- The items stand in the slots from `head` to `tail`. -/
structure Queue {β : Type*} (size : ℕ) (buf : ℕ → β) (head tail : ℕ) (items : List β) : Prop where
  length_lt : items.length < size
  head_lt : head < size
  tail_eq : tail = (head + items.length) % size
  get : ∀ i, (h : i < items.length) → buf ((head + i) % size) = items[i]

namespace Queue

variable {β : Type*} {slots : ℕ → β} {head tail : ℕ} {items : List β} {x : β}

theorem nil (hsize : 0 < size) (slots : ℕ → β) : Queue size slots 0 0 [] where
  length_lt := hsize
  head_lt := hsize
  tail_eq := by simp
  get _ h := absurd h (Nat.not_lt_zero _)

section

variable (h : Queue size slots head tail items)
include h

theorem head_eq_tail_iff : head = tail ↔ items = [] := by
  constructor
  · intro heq
    by_contra hne
    have hpos := length_pos_iff.2 hne
    have hmod : head % size = (head + items.length) % size := by
      rw [Nat.mod_eq_of_lt h.head_lt, ← h.tail_eq, heq]
    have := eq_of_mod_eq (Nat.le_add_right _ _) (Nat.add_lt_add_left h.length_lt head) hmod
    omega
  · rintro rfl
    rw [h.tail_eq, length_nil, Nat.add_zero, Nat.mod_eq_of_lt h.head_lt]

/-- The slot behind the last one is the first one only if one slot is free. -/
theorem tail_succ_eq_head_iff : (tail + 1) % size = head ↔ items.length + 1 = size := by
  have hlength := h.length_lt
  have hmod : (tail + 1) % size = (head + (items.length + 1)) % size := by
    rw [h.tail_eq, Nat.mod_add_mod, Nat.add_assoc]
  rw [hmod]
  constructor
  · intro heq
    by_contra hne
    have hself : head % size = (head + (items.length + 1)) % size := by
      rw [heq, Nat.mod_eq_of_lt h.head_lt]
    have := eq_of_mod_eq (Nat.le_add_right _ _) (by omega) hself
    omega
  · intro heq
    rw [heq, Nat.add_mod_right, Nat.mod_eq_of_lt h.head_lt]

theorem push (hroom : items.length + 1 < size) (x : β) :
    Queue size (Function.update slots tail x) head ((tail + 1) % size) (items ++ [x]) where
  length_lt := by rwa [length_append, length_singleton]
  head_lt := h.head_lt
  tail_eq := by rw [h.tail_eq, Nat.mod_add_mod, length_append, length_singleton, Nat.add_assoc]
  get i hi := by
    rw [length_append, length_singleton] at hi
    rw [getElem_append]
    split
    · next hlt =>
      have hne : (head + i) % size ≠ tail := by
        rw [h.tail_eq]
        intro heq
        have := eq_of_mod_eq (by omega) (by omega) heq
        omega
      rw [update_of_ne hne, h.get i hlt]
    · next hge =>
      obtain rfl : i = items.length := by omega
      rw [← h.tail_eq, update_self, getElem_singleton]

end

theorem pop (h : Queue size slots head tail (x :: items)) :
    slots head = x ∧ Queue size slots ((head + 1) % size) tail items := by
  have hlength := h.length_lt
  rw [length_cons] at hlength
  constructor
  · have hget := h.get 0 (Nat.succ_pos _)
    rwa [Nat.add_zero, Nat.mod_eq_of_lt h.head_lt] at hget
  · refine ⟨by omega, Nat.mod_lt _ (by omega), ?_, fun i hi ↦ ?_⟩
    · rw [h.tail_eq, length_cons, Nat.mod_add_mod, Nat.add_right_comm, Nat.add_assoc]
    · have hget := h.get (i + 1) (Nat.succ_lt_succ hi)
      rwa [Nat.mod_add_mod, Nat.add_right_comm, Nat.add_assoc]

end Queue

end RingBuffer
