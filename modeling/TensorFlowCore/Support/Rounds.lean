import Mathlib.Order.Basic

/-!
# Loops that may go on for ever

A loop is the function `round : σ → σ ⊕ ρ` of one round: on to the next one, or out of the loop with
a result. `loop` runs it for so many rounds, and `Returns` says that it comes to an end after some
number.

Nothing here names a program. The rules are those of an argument about whether a loop ends:

* `returns_of_measure`: it does if every round that goes on leaves less to be done;
* `not_returns_of_closed`: it does not if it has come to where every round goes on and stays there.
-/

namespace Rounds

variable {σ ρ : Type*} {round : σ → σ ⊕ ρ} {s s' : σ} {r r' : ρ}

/-- The result within so many rounds. -/
def loop (round : σ → σ ⊕ ρ) : ℕ → σ → Option ρ
  | 0, _ => none
  | n + 1, s =>
    match round s with
    | .inl s => loop round n s
    | .inr r => some r

/-- The loop ends, with this result. -/
def Returns (round : σ → σ ⊕ ρ) (s : σ) (r : ρ) : Prop := ∃ n, loop round n s = some r

theorem loop_succ_of_inl (h : round s = .inl s') (n : ℕ) :
    loop round (n + 1) s = loop round n s' := by
  rw [loop, h]

theorem loop_succ_of_inr (h : round s = .inr r) (n : ℕ) : loop round (n + 1) s = some r := by
  rw [loop, h]

/-- A round that goes on does not change what is returned. -/
theorem returns_of_inl (h : round s = .inl s') : Returns round s r ↔ Returns round s' r := by
  refine ⟨fun ⟨n, hn⟩ ↦ ?_, fun ⟨n, hn⟩ ↦ ⟨n + 1, (loop_succ_of_inl h n).trans hn⟩⟩
  cases n with
  | zero => cases hn
  | succ n => exact ⟨n, (loop_succ_of_inl h n).symm.trans hn⟩

theorem returns_of_inr (h : round s = .inr r) : Returns round s r' ↔ r' = r := by
  refine ⟨fun ⟨n, hn⟩ ↦ ?_, fun heq ↦ ⟨1, heq ▸ loop_succ_of_inr h 0⟩⟩
  cases n with
  | zero => cases hn
  | succ n => exact Option.some.inj (hn.symm.trans (loop_succ_of_inr h n))

theorem Returns.unique (h : Returns round s r) (h' : Returns round s r') : r = r' := by
  obtain ⟨n, hn⟩ := h
  induction n generalizing s with
  | zero => cases hn
  | succ n ih =>
    cases hround : round s with
    | inl t => exact ih ((returns_of_inl hround).1 h') ((loop_succ_of_inl hround n).symm.trans hn)
    | inr t =>
      rw [(returns_of_inr hround).1 h', (returns_of_inr hround).1 ⟨n + 1, hn⟩]

/-- **The measure rule**, in states of an invariant: the loop ends within as many rounds as there is
to be done. -/
theorem exists_loop_of_measure {I : ℕ → σ → Prop} {P : ρ → Prop} (hround : ∀ j s, I j s →
      (∃ r, round s = .inr r ∧ P r) ∨ ∃ s' j', round s = .inl s' ∧ I j' s' ∧ j' < j) {j n : ℕ}
    (hs : I j s) (hn : j < n) : ∃ r, loop round n s = some r ∧ P r := by
  induction n generalizing j s with
  | zero => exact absurd hn (Nat.not_lt_zero _)
  | succ n ih =>
    rcases hround j s hs with ⟨r, hr, hP⟩ | ⟨s', j', hs', hI, hlt⟩
    · exact ⟨r, loop_succ_of_inr hr n, hP⟩
    · rw [loop_succ_of_inl hs' n]
      exact ih hI (by omega)

theorem returns_of_measure {I : σ → Prop} {P : ρ → Prop} (μ : σ → ℕ) (hround : ∀ s, I s →
      (∃ r, round s = .inr r ∧ P r) ∨ ∃ s', round s = .inl s' ∧ I s' ∧ μ s' < μ s) (hs : I s) :
    ∃ r, Returns round s r ∧ P r := by
  obtain ⟨r, hr, hP⟩ := exists_loop_of_measure (I := fun j s ↦ I s ∧ μ s = j) (P := P)
    (fun j s hI ↦ (hround s hI.1).imp id fun ⟨s', hs', hI', hlt⟩ ↦ ⟨s', μ s', hs', ⟨hI', rfl⟩,
    hI.2 ▸ hlt⟩)
    ⟨hs, rfl⟩ (Nat.lt_succ_self (μ s))
  exact ⟨r, ⟨_, hr⟩, hP⟩

/-- A loop that cannot leave a set of states does not end there. -/
theorem not_returns_of_closed {I : σ → Prop}
    (hround : ∀ s, I s → ∃ s', round s = .inl s' ∧ I s') (hs : I s) : ¬Returns round s r := by
  rintro ⟨n, hn⟩
  induction n generalizing s with
  | zero => cases hn
  | succ n ih =>
    obtain ⟨s', hs', hI⟩ := hround s hs
    exact ih hI ((loop_succ_of_inl hs' n).symm.trans hn)

end Rounds
