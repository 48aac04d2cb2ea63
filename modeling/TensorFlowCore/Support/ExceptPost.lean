import Mathlib.Tactic.Common

/-!
# Postconditions of computations that can fail

`Post x Q E` says of a computation in `Except ε`: if it returns, its result satisfies `Q`, and if it
fails, its error satisfies `E`. The rules follow the shape of a `do` block, so a proof about one
reads from top to bottom.
-/

namespace ExceptPost

open List

universe u

variable {ε α β : Type*} {E : ε → Prop} {Q : α → Prop} {R : β → Prop}

/-- The results of `x` satisfy `Q` and its errors satisfy `E`. -/
structure Post (x : Except ε α) (Q : α → Prop) (E : ε → Prop) : Prop where
  of_ok : ∀ {a}, x = .ok a → Q a
  of_error : ∀ {e}, x = .error e → E e

@[simp] theorem post_ok {a : α} : Post (.ok a) Q E ↔ Q a :=
  ⟨fun h ↦ h.of_ok rfl, fun h ↦ ⟨fun heq ↦ Except.ok.inj heq ▸ h, nofun⟩⟩

@[simp] theorem post_error {e : ε} : Post (.error e) Q E ↔ E e :=
  ⟨fun h ↦ h.of_error rfl, fun h ↦ ⟨nofun, fun heq ↦ Except.error.inj heq ▸ h⟩⟩

theorem ok_bind {α β : Type u} {a : α} {f : α → Except ε β} : (Except.ok a >>= f) = f a := rfl

/-- A computation in two parts returns when both do. -/
theorem bind_eq_ok_iff {α β : Type u} {x : Except ε α} {f : α → Except ε β} {b : β} :
    (x >>= f) = .ok b ↔ ∃ a, x = .ok a ∧ f a = .ok b := by
  cases x with
  | error e => exact iff_of_false nofun nofun
  | ok a => exact ⟨fun h ↦ ⟨a, rfl, h⟩, fun ⟨_, ha, h⟩ ↦ Except.ok.inj ha ▸ h⟩

theorem check_eq_ok_iff {β : Type u} {x : Except ε PUnit} {f : PUnit → Except ε β} {b : β} :
    (x >>= f) = .ok b ↔ x = .ok ⟨⟩ ∧ f ⟨⟩ = .ok b := by
  rw [bind_eq_ok_iff]
  exact ⟨fun ⟨_, h⟩ ↦ h, fun h ↦ ⟨_, h⟩⟩

theorem Post.bind {α β : Type u} {Q : α → Prop} {R : β → Prop} {x : Except ε α} {f : α → Except ε β}
    (hx : Post x Q E) (hf : ∀ a, Q a → Post (f a) R E) : Post (x >>= f) R E := by
  cases x with
  | ok a => exact hf a (post_ok.1 hx)
  | error e => exact post_error.2 (post_error.1 hx)

theorem Post.map {x : Except ε α} {f : α → β} (hx : Post x Q E) (hf : ∀ a, Q a → R (f a)) :
    Post (x.map f) R E := by
  cases x with
  | ok a => exact post_ok.2 (hf a (post_ok.1 hx))
  | error e => exact post_error.2 (post_error.1 hx)

theorem Post.mono {Q' : α → Prop} {E' : ε → Prop} {x : Except ε α} (hx : Post x Q E)
    (hQ : ∀ a, Q a → Q' a) (hE : ∀ e, E e → E' e) : Post x Q' E' :=
  ⟨fun h ↦ hQ _ (hx.of_ok h), fun h ↦ hE _ (hx.of_error h)⟩

/-! ## Loops -/

/-- A loop whose rounds commute with `g` commutes with it. -/
theorem foldlM_map {α β γ : Type u} {f : β → α → Except ε β} {f' : γ → α → Except ε γ} {g : β → γ}
    {l : List α} (h : ∀ b, ∀ a ∈ l, f' (g b) a = (f b a).map g) (b : β) :
    l.foldlM f' (g b) = (l.foldlM f b).map g := by
  induction l generalizing b with
  | nil => rfl
  | cons a l ih =>
    rw [foldlM_cons, foldlM_cons, h b a mem_cons_self]
    cases f b a with
    | error e => rfl
    | ok b' => exact ih (fun b a ha ↦ h b a (mem_cons_of_mem _ ha)) b'

theorem foldlM_eq_self {α β : Type u} {f : β → α → Except ε β} {l : List α} {b : β}
    (h : ∀ a ∈ l, f b a = .ok b) : l.foldlM f b = .ok b := by
  induction l with
  | nil => rfl
  | cons a l ih =>
    obtain ⟨ha, hl⟩ := forall_mem_cons.1 h
    rw [foldlM_cons, ha, ok_bind, ih hl]

theorem exists_foldlM_eq_ok {α β : Type u} {f : β → α → Except ε β} {l : List α}
    (h : ∀ b, ∀ a ∈ l, ∃ b', f b a = .ok b') (b : β) : ∃ b', l.foldlM f b = .ok b' := by
  induction l generalizing b with
  | nil => exact ⟨b, rfl⟩
  | cons a l ih =>
    obtain ⟨b', hb'⟩ := h b a mem_cons_self
    rw [foldlM_cons, hb', ok_bind]
    exact ih (fun b a ha ↦ h b a (mem_cons_of_mem _ ha)) b'

theorem foldlM_ne_ok {α β : Type u} {f : β → α → Except ε β} {l : List α} {a : α} (ha : a ∈ l)
    (h : ∀ b b', f b a ≠ .ok b') (b b' : β) : l.foldlM f b ≠ .ok b' := by
  induction l generalizing b with
  | nil => cases ha
  | cons c l ih =>
    intro hok
    rw [foldlM_cons] at hok
    obtain ⟨b₁, hc, hok⟩ := bind_eq_ok_iff.1 hok
    obtain rfl | ha := mem_cons.1 ha
    · exact h b b₁ hc
    · exact ih ha b₁ hok

/-- What every round keeps, the loop keeps. -/
theorem foldlM_inv {α β : Type u} {f : β → α → Except ε β} {P : β → Prop} {l : List α} {b b' : β}
    (hstep : ∀ b b' a, P b → f b a = .ok b' → P b') (h : P b) (hok : l.foldlM f b = .ok b') :
    P b' := by
  induction l generalizing b with
  | nil =>
    cases hok
    exact h
  | cons a l ih =>
    rw [foldlM_cons] at hok
    obtain ⟨b₁, h₁, hok⟩ := bind_eq_ok_iff.1 hok
    exact ih (hstep b b₁ a h h₁) hok

/-- The same, with the number of the rounds. -/
theorem foldlM_zipIdx_inv {α β : Type} {f : β → α × ℕ → Except ε β} {P : ℕ → β → Prop} {l : List α}
    {i : ℕ} {b b' : β}
    (hstep : ∀ j a b b', l[j]? = some a → P (i + j) b → f b (a, i + j) = .ok b' → P (i + j + 1) b')
    (h : P i b) (hok : (l.zipIdx i).foldlM f b = .ok b') : P (i + l.length) b' := by
  induction l generalizing i b with
  | nil =>
    cases hok
    exact h
  | cons a l ih =>
    rw [zipIdx_cons, foldlM_cons] at hok
    obtain ⟨b₁, h₁, hok⟩ := bind_eq_ok_iff.1 hok
    rw [length_cons, ← Nat.add_assoc, Nat.add_right_comm]
    refine ih (fun j a' b b' hj hP hf ↦ ?_) (hstep 0 a b b₁ rfl h h₁) hok
    rw [Nat.add_right_comm i 1 j] at hP hf ⊢
    exact hstep (j + 1) a' b b' hj hP hf

theorem mapM_eq_ok {α β : Type u} {f : α → Except ε β} {g : α → β} {l : List α}
    (h : ∀ a ∈ l, f a = .ok (g a)) : l.mapM f = .ok (l.map g) := by
  induction l with
  | nil => rfl
  | cons a l ih =>
    obtain ⟨ha, hl⟩ := forall_mem_cons.1 h
    rw [mapM_cons, ha, ok_bind, ih hl]
    rfl

theorem mapM_congr {α β : Type u} {f g : α → Except ε β} {l : List α} (h : ∀ a ∈ l, f a = g a) :
    l.mapM f = l.mapM g := by
  induction l with
  | nil => rfl
  | cons a l ih =>
    obtain ⟨ha, hl⟩ := forall_mem_cons.1 h
    rw [mapM_cons, mapM_cons, ha, ih hl]

end ExceptPost
