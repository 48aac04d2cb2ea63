import TensorFlowCore.Support.Rounds
import Mathlib.Data.Finset.Card

/-!
# A permutation applied by swaps

Arrays are to be permuted in place. The permutation stands in an array as well: as long as it has at
`i` another number than `i`, what is at `i` changes places with what is where it belongs, in all
arrays. Each swap puts one item in its place for good (`misplaced_swap`), so this ends with all of
them there (`applyCycles_ends`).

Nothing here names a program. The state has an array `perm` with the permutation, and `swap` swaps
two items in all of its arrays.
-/

namespace CycleSwaps

/-- The numbers below `n` are permuted. -/
structure Permutes (n : ℕ) (p : ℕ → ℕ) : Prop where
  lt : ∀ i < n, p i < n
  injOn : ∀ i < n, ∀ j < n, p i = p j → i = j

variable {n i : ℕ} {p : ℕ → ℕ}

theorem swap_lt {r j : ℕ} (hi : i < n) (hr : r < n) (hj : j < n) : Equiv.swap i r j < n := by
  rw [Equiv.swap_apply_def]
  split
  · exact hr
  split
  · exact hi
  · exact hj

theorem Permutes.comp_swap (h : Permutes n p) (hi : i < n) {r : ℕ} (hr : r < n) :
    Permutes n (p ∘ Equiv.swap i r) where
  lt _ hj := h.lt _ (swap_lt hi hr hj)
  injOn _ hj _ hk heq :=
    (Equiv.swap i r).injective (h.injOn _ (swap_lt hi hr hj) _ (swap_lt hi hr hk) heq)

/-- What is in its place stays there. -/
theorem Permutes.fixed (h : Permutes n p) (hi : i < n) (hne : p i ≠ i) {j : ℕ} (hj : j < n)
    (hfixed : p j = j) : (p ∘ Equiv.swap i (p i)) j = j := by
  have hji : j ≠ i := fun heq ↦ hne (heq ▸ hfixed)
  have hjp : j ≠ p i := fun heq ↦ hji (h.injOn j hj i hi (hfixed.trans heq))
  rw [Function.comp_apply, Equiv.swap_apply_of_ne_of_ne hji hjp, hfixed]

/-- How many items are not in their places. -/
def misplaced (n : ℕ) (p : ℕ → ℕ) : ℕ := ((Finset.range n).filter fun i ↦ p i ≠ i).card

theorem misplaced_le (n : ℕ) (p : ℕ → ℕ) : misplaced n p ≤ n :=
  (Finset.card_filter_le _ _).trans (Finset.card_range n).le

/-- A swap puts the item at `i` in its place. -/
theorem misplaced_swap (h : Permutes n p) (hi : i < n) (hne : p i ≠ i) :
    misplaced n (p ∘ Equiv.swap i (p i)) < misplaced n p := by
  refine Finset.card_lt_card (Finset.ssubset_iff_subset_ne.2 ⟨fun j hj ↦ ?_, fun heq ↦ ?_⟩)
  · obtain ⟨hj, hmisplaced⟩ := Finset.mem_filter.1 hj
    exact Finset.mem_filter.2
      ⟨hj, fun hfixed ↦ hmisplaced (h.fixed hi hne (Finset.mem_range.1 hj) hfixed)⟩
  · have hwas : p i ∈ (Finset.range n).filter fun i ↦ p i ≠ i :=
      Finset.mem_filter.2 ⟨Finset.mem_range.2 (h.lt i hi),
        fun hfixed ↦ hne (h.injOn _ (h.lt i hi) i hi hfixed)⟩
    rw [← heq] at hwas
    refine (Finset.mem_filter.1 hwas).2 ?_
    rw [Function.comp_apply, Equiv.swap_apply_right]

/-! ### The loops -/

variable {σ : Type*} {perm : σ → ℕ → ℕ} {swap : ℕ → ℕ → σ → σ}

/-- One round of the inner loop. -/
def cycleRound (perm : σ → ℕ → ℕ) (swap : ℕ → ℕ → σ → σ) (i : ℕ) (s : σ) : σ ⊕ σ :=
  if i ≠ perm s i then .inl (swap i (perm s i) s) else .inr s

/-- The inner loop. There are `n` items to be put in their places. -/
def followCycle (perm : σ → ℕ → ℕ) (swap : ℕ → ℕ → σ → σ) (n i : ℕ) (s : σ) : Option σ :=
  Rounds.loop (cycleRound perm swap i) (n + 1) s

/-- The outer loop. The last item needs no round. -/
def applyCycles (perm : σ → ℕ → ℕ) (swap : ℕ → ℕ → σ → σ) (n : ℕ) (s : σ) : Option σ :=
  (List.range (n - 1)).foldlM (fun s i ↦ followCycle perm swap n i s) s

/-- What holds of the state, with the items below `i` in their places. -/
structure Inv (perm : σ → ℕ → ℕ) (I : σ → Prop) (n i : ℕ) (s : σ) : Prop where
  permutes : Permutes n (perm s)
  fixed : ∀ j < i, perm s j = j
  inv : I s

variable {I : σ → Prop} {s : σ}

section

variable (hswap : ∀ i r s, perm (swap i r s) = perm s ∘ Equiv.swap i r)
  (hI : ∀ s, ∀ i < n, ∀ r < n, I s → I (swap i r s))
include hswap hI

/-- Each swap puts one more entry in its place, so a cycle ends. -/
theorem followCycle_ends (hi : i < n) (h : Inv perm I n i s) :
    ∃ s', followCycle perm swap n i s = some s' ∧ Inv perm I n (i + 1) s' := by
  refine Rounds.exists_loop_of_measure (I := fun j s ↦ Inv perm I n i s ∧ misplaced n (perm s) = j)
    (j := misplaced n (perm s))
    (fun j s ⟨hinv, hj⟩ ↦ ?_) ⟨h, rfl⟩ (Nat.lt_succ_of_le (misplaced_le n _))
  rw [cycleRound]
  split
  · next hne =>
    refine .inr ⟨_, _, rfl, ⟨⟨?_, fun k hk ↦ ?_, hI s i hi _ (hinv.permutes.lt i hi) hinv.inv⟩,
      rfl⟩, ?_⟩
    · rw [hswap]
      exact hinv.permutes.comp_swap hi (hinv.permutes.lt i hi)
    · rw [hswap]
      exact hinv.permutes.fixed hi hne.symm (hk.trans hi) (hinv.fixed k hk)
    · rw [hswap, ← hj]
      exact misplaced_swap hinv.permutes hi hne.symm
  · next heq =>
    rw [ne_eq, not_not] at heq
    refine .inl ⟨s, rfl, hinv.permutes, fun k hk ↦ ?_, hinv.inv⟩
    obtain hlt | rfl := Nat.lt_succ_iff_lt_or_eq.1 hk
    · exact hinv.fixed k hlt
    · exact heq.symm

/-- By induction on the items that have been put in their places. -/
theorem foldlM_followCycle (h : Inv perm I n 0 s) {k : ℕ} (hk : k ≤ n) :
    ∃ s', (List.range k).foldlM (fun s i ↦ followCycle perm swap n i s) s = some s' ∧
    Inv perm I n k s' := by
  induction k with
  | zero => exact ⟨s, rfl, h⟩
  | succ k ih =>
    obtain ⟨s', hs', hinv⟩ := ih (Nat.le_of_succ_le hk)
    obtain ⟨s'', hs'', hinv'⟩ := followCycle_ends hswap hI hk hinv
    refine ⟨s'', ?_, hinv'⟩
    rw [List.range_succ, List.foldlM_append, hs']
    show (followCycle perm swap n k s' >>= pure) = some s''
    rw [hs'']
    rfl

end

/-- **The loops end** with all items in their places. What the swaps keep holds of the end. -/
theorem applyCycles_ends (perm : σ → ℕ → ℕ) (swap : ℕ → ℕ → σ → σ)
    (hswap : ∀ i r s, perm (swap i r s) = perm s ∘ Equiv.swap i r)
    (hI : ∀ s, ∀ i < n, ∀ r < n, I s → I (swap i r s)) (hs : I s)
    (hpermutes : Permutes n (perm s)) :
    ∃ s', applyCycles perm swap n s = some s' ∧ I s' ∧ ∀ i < n, perm s' i = i := by
  obtain ⟨s', hs', hinv⟩ := foldlM_followCycle hswap hI ⟨hpermutes, nofun, hs⟩ (Nat.sub_le n 1)
  refine ⟨s', hs', hinv.inv, fun i hi ↦ ?_⟩
  by_cases hlast : i < n - 1
  · exact hinv.fixed i hlast
  · -- no other place is left for the last item
    have hlt := hinv.permutes.lt i hi
    by_contra hne
    have hfixed := hinv.fixed (perm s' i) (by omega)
    exact hne (hinv.permutes.injOn _ hlt i hi hfixed)

end CycleSwaps
