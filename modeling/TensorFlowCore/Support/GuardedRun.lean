import Mathlib.Data.List.Basic

/-!
# Runs of a guarded step function

A system is a step function `step : σ → α → Option σ`: `step s a = some s'` when action `a` is
enabled at `s` and leads to `s'`, and `none` when it is not. The action carries every choice that
is open at that point (which thread moves, what the environment answers), so the step is a function
and a run is determined by its start and its list of actions.

Nothing here names a program. The consumers supply the state, the actions and the step, and take
from this module the rules that arguments about runs use:

* `run_invariant` — what holds at the start and is kept by each step holds at the end of a run;
* `run_invariant_of_along` — the same when the steps of the run also meet a side condition, which
  `Along` states about the state *before* each step;
* `run_invariant_of_trace` — the same for what relates the state to the actions taken so far;
* `length_le_of_along` — a run of which every step makes a measure smaller is no longer than that.
-/

namespace GuardedRun

variable {σ α : Type*} (step : σ → α → Option σ)

/-- The state a list of actions leads to, or `none` when one of them is not enabled. -/
def run : σ → List α → Option σ
  | s, [] => some s
  | s, a :: as => (step s a).bind fun s' ↦ run s' as

/-- Every step of the run from `s` meets `P`, a condition on the state before the step and on the
action taken. -/
def Along (P : σ → α → Prop) : σ → List α → Prop
  | _, [] => True
  | s, a :: as => P s a ∧ ∀ s', step s a = some s' → Along P s' as

instance Along.decidable {P : σ → α → Prop} [∀ s a, Decidable (P s a)] :
    ∀ (s : σ) (as : List α), Decidable (Along step P s as)
  | _, [] => .isTrue trivial
  | s, a :: as =>
    have : Decidable (∀ s', step s a = some s' → Along step P s' as) :=
      match step s a with
      | none => .isTrue nofun
      | some s' => have :=
          Along.decidable (P := P) s' as; decidable_of_iff (Along step P s' as) (by simp)
    inferInstanceAs (Decidable (P s a ∧ _))

variable {step}

theorem run_cons (s : σ) (a : α) (as : List α) :
    run step s (a :: as) = (step s a).bind fun s' ↦ run step s' as := rfl

theorem run_cons_eq_some {s t : σ} {a : α} {as : List α} :
    run step s (a :: as) = some t ↔ ∃ s', step s a = some s' ∧ run step s' as = some t := by
  rw [run_cons, Option.bind_eq_some_iff]

theorem run_append (s : σ) (as bs : List α) :
    run step s (as ++ bs) = (run step s as).bind fun t ↦ run step t bs := by
  induction as generalizing s with
  | nil => rfl
  | cons a as ih =>
    rw [List.cons_append, run_cons, run_cons, Option.bind_assoc]
    exact congrArg _ (funext fun s' ↦ ih s')

theorem run_append_eq_some {s t : σ} {as bs : List α} :
    run step s (as ++ bs) = some t ↔ ∃ u, run step s as = some u ∧ run step u bs = some t := by
  rw [run_append, Option.bind_eq_some_iff]

@[simp] theorem along_nil {P : σ → α → Prop} (s : σ) : Along step P s [] := trivial

theorem along_cons {P : σ → α → Prop} {s : σ} {a : α} {as : List α} :
    Along step P s (a :: as) ↔ P s a ∧ ∀ s', step s a = some s' → Along step P s' as := Iff.rfl

theorem along_cons_of_step {P : σ → α → Prop} {s s' : σ} {a : α} {as : List α}
    (h : step s a = some s') : Along step P s (a :: as) ↔ P s a ∧ Along step P s' as := by
  rw [along_cons]
  refine and_congr_right fun _ ↦ ⟨fun hall ↦ hall s' h, fun hs' t ht ↦ ?_⟩
  obtain rfl : s' = t := Option.some.inj (h.symm.trans ht)
  exact hs'

/-- A side condition on a run splits at any point the run goes through. -/
theorem along_append_of_run {P : σ → α → Prop} {s u : σ} {as bs : List α}
    (hrun : run step s as = some u) :
    Along step P s (as ++ bs) ↔ Along step P s as ∧ Along step P u bs := by
  induction as generalizing s with
  | nil =>
    obtain rfl : s = u := Option.some.inj hrun
    simp
  | cons a as ih =>
    obtain ⟨s', hs', hrun'⟩ := run_cons_eq_some.1 hrun
    rw [List.cons_append, along_cons_of_step hs', along_cons_of_step hs', ih hrun', and_assoc]

/-- **The invariant rule, with a side condition on the steps.** The step may also use that its
action is one of the run's. -/
theorem run_invariant_of_along {P : σ → α → Prop} {I : σ → Prop} {s t : σ} {as : List α}
    (hstep : ∀ {s s' : σ} {a : α}, a ∈ as → I s → P s a → step s a = some s' → I s')
    (hs : I s) (halong : Along step P s as) (hrun : run step s as = some t) : I t := by
  induction as generalizing s with
  | nil =>
    obtain rfl : s = t := Option.some.inj hrun
    exact hs
  | cons a as ih =>
    obtain ⟨s', hs', hrun'⟩ := run_cons_eq_some.1 hrun
    exact ih (fun ha ↦ hstep (List.mem_cons_of_mem _ ha))
      (hstep List.mem_cons_self hs halong.1 hs') (halong.2 s' hs') hrun'

theorem along_of_forall {P : σ → α → Prop} (h : ∀ s a, P s a) (s : σ) (as : List α) :
    Along step P s as := by
  induction as generalizing s with
  | nil => trivial
  | cons a as ih => exact ⟨h s a, fun s' _ ↦ ih s'⟩

/-- **The invariant rule.** -/
theorem run_invariant {I : σ → Prop} {s t : σ} {as : List α}
    (hstep : ∀ {s s' : σ} {a : α}, a ∈ as → I s → step s a = some s' → I s')
    (hs : I s) (hrun : run step s as = some t) : I t :=
  run_invariant_of_along (P := fun _ _ ↦ True) (fun ha hI _ ↦ hstep ha hI) hs
    (along_of_forall (fun _ _ ↦ trivial) s as) hrun

/-- **The invariant rule, with the actions taken so far.** -/
theorem run_invariant_of_trace {I : List α → σ → Prop} {s t : σ} (before : List α) {as : List α}
    (hstep : ∀ {before : List α} {s s' : σ} {a : α}, I before s → step s a = some s' →
      I (before ++ [a]) s')
    (hs : I before s) (hrun : run step s as = some t) : I (before ++ as) t := by
  induction as generalizing s before with
  | nil =>
    obtain rfl : s = t := Option.some.inj hrun
    rwa [List.append_nil]
  | cons a as ih =>
    obtain ⟨s', hs', hrun'⟩ := run_cons_eq_some.1 hrun
    have hrest := ih (before ++ [a]) (hstep hs hs') hrun'
    rwa [List.append_assoc] at hrest

/-- A side condition on the steps gives another one where an invariant holds. -/
theorem Along.imp_of_invariant {P Q : σ → α → Prop} {I : σ → Prop} {s : σ} {as : List α}
    (halong : Along step P s as)
    (hstep : ∀ {s s' : σ} {a : α}, I s → P s a → step s a = some s' → I s')
    (himp : ∀ {s : σ} {a : α}, I s → P s a → Q s a) (hs : I s) : Along step Q s as := by
  induction as generalizing s with
  | nil => trivial
  | cons a as ih =>
    exact ⟨himp hs halong.1, fun s' hs' ↦ ih (halong.2 s' hs') (hstep hs halong.1 hs')⟩

/-- **The measure rule.** A run of which every step makes a measure smaller has no more steps than
that. -/
theorem length_le_of_along {P : σ → α → Prop} {I : σ → Prop} {μ : σ → ℕ} {s t : σ} {as : List α}
    (hstep : ∀ {s s' : σ} {a : α}, a ∈ as → I s → P s a → step s a = some s' → I s' ∧ μ s' < μ s)
    (hs : I s) (halong : Along step P s as) (hrun : run step s as = some t) : as.length ≤ μ s := by
  induction as generalizing s with
  | nil => exact Nat.zero_le _
  | cons a as ih =>
    obtain ⟨s', hs', hrun'⟩ := run_cons_eq_some.1 hrun
    obtain ⟨hinv, hlt⟩ := hstep List.mem_cons_self hs halong.1 hs'
    exact Nat.lt_of_le_of_lt (ih (fun ha ↦ hstep (List.mem_cons_of_mem _ ha)) hinv (halong.2 s' hs')
      hrun') hlt

end GuardedRun
