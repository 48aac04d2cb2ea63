import Mathlib.Data.List.Basic

/-!
# Comparing two machines call by call

Two machines take the same calls and answer each. If a relation between their states is kept by
every call, and the answers to a call agree exactly if it is not one of a kind, then two runs give
the same answers exactly if no call of that kind is made (`outcomes_eq_iff`).
-/

namespace TensorFlowCore.CallByCall

variable {σ τ α ω : Type*}

/-- The answers to calls, one after the other. -/
def outcomes (step : σ → α → ω × σ) (s : σ) : List α → List ω
  | [] => []
  | a :: calls => (step s a).1 :: outcomes step (step s a).2 calls

/-- None of the calls is made in a state in which it is of the kind. -/
def Never (step : σ → α → ω × σ) (Kind : σ → α → Prop) (s : σ) : List α → Prop
  | [] => True
  | a :: calls => ¬Kind s a ∧ Never step Kind (step s a).2 calls

variable {step₁ : σ → α → ω × σ} {step₂ : τ → α → ω × τ} {R : σ → τ → Prop} {Kind : τ → α → Prop}

/-- By induction on the calls. -/
theorem outcomes_eq_iff (hstep : ∀ {s t} a, R s t → R (step₁ s a).2 (step₂ t a).2 ∧
      ((step₁ s a).1 = (step₂ t a).1 ↔ ¬Kind t a)) {s : σ} {t : τ} (h : R s t) (calls : List α) :
    outcomes step₁ s calls = outcomes step₂ t calls ↔ Never step₂ Kind t calls := by
  induction calls generalizing s t with
  | nil => exact iff_of_true rfl trivial
  | cons a calls ih =>
    obtain ⟨hnext, hanswer⟩ := hstep a h
    rw [outcomes, outcomes, List.cons.injEq, hanswer, ih hnext]
    rfl

end TensorFlowCore.CallByCall
