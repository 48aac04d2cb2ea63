import Mathlib.Data.List.Basic

/-!
# Reading through a buffer

A reader hands out the bytes of a buffer and fills it from below when it is used up. `Lawful` says
what a reader has to do for that: the bytes left in the buffer come next, and a fill brings the
bytes that come after them. Loops over such a reader then give what can be read from there, wherever
the buffer ends (`readLoop_spec`, `lineLoop_spec`).
-/

namespace TensorFlowCore.BufferedReader

open List

/-- Access to a buffer of which the first `pos` entries have been read, in a state that can fill
it. -/
structure Access (σ ε β : Type) where
  buf : σ → List β
  pos : σ → ℕ
  moveTo : σ → ℕ → σ
  fill : σ → ε × σ

variable {σ ε β : Type} (A : Access σ ε β)

/-- Fill the buffer if everything in it has been read. -/
def refill (s : σ) (status : ε) : ε × σ :=
  if A.pos s = (A.buf s).length then A.fill s else (status, s)

/-- Read `n` entries, for as many rounds: the last status, what was read before and now, and the
state. -/
def readLoop : ℕ → σ → ε → List β → ℕ → ε × List β × σ
  | 0, s, status, result, _ => (status, result, s)
  | rounds + 1, s, status, result, n =>
    if result.length < n then
      let (status, s) := refill A s status
      if A.buf s = [] then (status, result, s)
      else
        let k := min ((A.buf s).length - A.pos s) (n - result.length)
        readLoop rounds (A.moveTo s (A.pos s + k)) status
        (result ++ ((A.buf s).drop (A.pos s)).take k) n
    else (status, result, s)

/-- The same without the entries. -/
def skipLoop : ℕ → σ → ε → ℕ → ℕ → ε × ℕ × σ
  | 0, s, status, skipped, _ => (status, skipped, s)
  | rounds + 1, s, status, skipped, n =>
    if skipped < n then
      let (status, s) := refill A s status
      if A.buf s = [] then (status, skipped, s)
      else
        let k := min ((A.buf s).length - A.pos s) (n - skipped)
        skipLoop rounds (A.moveTo s (A.pos s + k)) status (skipped + k) n
    else (status, skipped, s)

/-- Read up to the end of a line, for the given number of rounds: the last status, or none if the
end was found, what was kept before and now, and the state. -/
def lineLoop (isEnd keep : β → Bool) : ℕ → σ → ε → List β → Option ε × List β × σ
  | 0, s, status, result => (some status, result, s)
  | rounds + 1, s, status, result =>
    let (status, s) := refill A s status
    if A.buf s = [] then (some status, result, s)
    else
      match (A.buf s)[A.pos s]? with
      | none => (some status, result, s)
      | some c =>
        let s := A.moveTo s (A.pos s + 1)
        if isEnd c then (none, result, s)
        else lineLoop isEnd keep rounds s status (if keep c then result ++ [c] else result)

/-- What holds of a reader in the states of `Inv`. `rest` is what can be read, `tell` the
position. -/
structure Lawful (Inv : σ → Prop) (rest : σ → List β) (tell : σ → ℕ) (ok : ε) (AtEnd : ε → Prop) :
    Prop where
  pos_le : ∀ {s}, Inv s → A.pos s ≤ (A.buf s).length
  rest_eq : ∀ {s}, Inv s → ∃ later, rest s = (A.buf s).drop (A.pos s) ++ later
  moveTo : ∀ {s k}, Inv s → A.pos s + k ≤ (A.buf s).length → Inv (A.moveTo s (A.pos s + k)) ∧
    rest (A.moveTo s (A.pos s + k)) = (rest s).drop k ∧ tell (A.moveTo s (A.pos s + k)) = tell s + k
  fill : ∀ {s}, Inv s → A.pos s = (A.buf s).length → Inv (A.fill s).2 ∧ rest (A.fill s).2 = rest s ∧
    tell (A.fill s).2 = tell s ∧ A.pos (A.fill s).2 = 0 ∧ (A.buf (A.fill s).2 = [] ↔ rest s = []) ∧
      ((A.fill s).1 = ok ∨ AtEnd (A.fill s).1) ∧ (rest s = [] → AtEnd (A.fill s).1)

variable {A} {Inv : σ → Prop} {rest : σ → List β} {tell : σ → ℕ} {ok : ε} {AtEnd : ε → Prop} {s : σ}
  {status : ε} {result : List β} {rounds n : ℕ}

namespace Lawful

/-- A refill changes neither what can be read nor the position, and ends with nothing in the buffer
only if there is nothing left. -/
theorem refill (hA : Lawful A Inv rest tell ok AtEnd) (h : Inv s)
    (hstatus : status = ok ∨ AtEnd status) :
    ∃ status' s', refill A s status = (status', s') ∧ Inv s' ∧ rest s' = rest s ∧ tell s' = tell s ∧
      (A.buf s' = [] ∧ rest s = [] ∧ AtEnd status' ∨ A.pos s' < (A.buf s').length) ∧
        (status' = ok ∨ AtEnd status') := by
  rw [BufferedReader.refill]
  split
  · rename_i hpos
    obtain ⟨hinv, hrest, htell, hzero, hempty, hok, hend⟩ := hA.fill h hpos
    refine ⟨_, _, rfl, hinv, hrest, htell, ?_, hok⟩
    by_cases hbuf : A.buf (A.fill s).2 = []
    · exact .inl ⟨hbuf, hempty.1 hbuf, hend (hempty.1 hbuf)⟩
    · rw [hzero]
      exact .inr (length_pos_of_ne_nil hbuf)
  · rename_i hpos
    exact ⟨_, _, rfl, h, rfl, rfl, .inr (Nat.lt_of_le_of_ne (hA.pos_le h) hpos), hstatus⟩

/-- By induction on the rounds: each reads at least one entry, or there is nothing left. -/
theorem readLoop (hA : Lawful A Inv rest tell ok AtEnd) (result : List β) (h : Inv s)
    (hstatus : status = ok ∨ AtEnd status) (hrounds : n ≤ rounds) :
    ∃ status' s', readLoop A rounds s status result (result.length + n) =
        (status', result ++ (rest s).take n, s') ∧ Inv s' ∧ rest s' = (rest s).drop n ∧
      tell s' = tell s + min n (rest s).length ∧ (status' = ok ∨ AtEnd status') ∧
        ((rest s).length < n → AtEnd status') := by
  induction rounds generalizing s status result n with
  | zero =>
    obtain rfl := Nat.le_zero.1 hrounds
    exact ⟨status, s, by simp [BufferedReader.readLoop], h, rfl, by simp, hstatus,
      fun hlt ↦ absurd hlt (Nat.not_lt_zero _)⟩
  | succ rounds ih =>
    rcases Nat.eq_zero_or_pos n with rfl | hn
    · rw [BufferedReader.readLoop, if_neg (by omega)]
      exact ⟨status, s, by simp, h, rfl, by simp, hstatus, fun hlt ↦ absurd hlt (Nat.not_lt_zero _)⟩
    obtain ⟨status₁, s₁, hrefill, h₁, hrest₁, htell₁, hcase, hstatus₁⟩ := hA.refill h hstatus
    rw [BufferedReader.readLoop, if_pos (by omega), hrefill]
    dsimp only
    rcases hcase with ⟨hbuf, hnil, hend⟩ | hlt
    · rw [if_pos hbuf]
      refine ⟨status₁, s₁, by rw [hnil, take_nil, append_nil], h₁, ?_, ?_, hstatus₁, fun _ ↦ hend⟩
      · rw [hrest₁, hnil, drop_nil]
      · rw [htell₁, hnil, length_nil, Nat.min_zero, Nat.add_zero]
    · have hne : A.buf s₁ ≠ [] := ne_nil_of_length_pos (by omega)
      rw [if_neg hne, Nat.add_sub_cancel_left]
      obtain ⟨k, hk⟩ : ∃ k, k = min ((A.buf s₁).length - A.pos s₁) n := ⟨_, rfl⟩
      obtain ⟨later, hlater⟩ := hA.rest_eq h₁
      obtain ⟨h₂, hrest₂, htell₂⟩ := hA.moveTo h₁ (k := k) (by omega)
      have hcopied : ((A.buf s₁).drop (A.pos s₁)).take k = (rest s).take k := by
        rw [← hrest₁, hlater, take_append_of_le_length (by rw [length_drop]; omega)]
      have hlen : k ≤ (rest s).length := by
        rw [← hrest₁, hlater, length_append, length_drop]
        omega
      obtain ⟨status', s', hloop, h', hrest', htell', hstatus', hend'⟩ :=
        ih (s := A.moveTo s₁ (A.pos s₁ + k))
        (n := n - k) (result ++ (rest s).take k) h₂ hstatus₁ (by omega)
      have hlength : (result ++ (rest s).take k).length + (n - k) = result.length + n := by
        rw [length_append, length_take]
        omega
      rw [hlength, hrest₂, hrest₁] at hloop
      rw [hrest₂, hrest₁] at hrest' htell' hend'
      rw [← hk, hcopied, hloop]
      refine ⟨status', s', ?_, h', ?_, ?_, hstatus', fun hlt' ↦ hend' ?_⟩
      · rw [append_assoc, ← take_add, Nat.add_sub_cancel' (by omega)]
      · rw [hrest', drop_drop, Nat.add_sub_cancel' (by omega)]
      · rw [htell', htell₂, htell₁, length_drop]
        omega
      · rw [length_drop]
        omega

end Lawful

/-- Skipping is reading without the entries. -/
theorem skipLoop_eq (rounds : ℕ) (s : σ) (status : ε) (result : List β) (n : ℕ) :
    skipLoop A rounds s status result.length n =
      ((readLoop A rounds s status result n).1, (readLoop A rounds s status result n).2.1.length,
        (readLoop A rounds s status result n).2.2) := by
  induction rounds generalizing s status result with
  | zero => rfl
  | succ rounds ih =>
    rw [skipLoop, readLoop]
    split
    · obtain ⟨status₁, s₁⟩ : ε × σ := refill A s status
      dsimp only
      split
      · rfl
      · rw [← ih, length_append, length_take, length_drop, Nat.min_eq_left (Nat.min_le_left _ _)]
    · rfl

namespace Lawful

theorem skipLoop (hA : Lawful A Inv rest tell ok AtEnd) (h : Inv s)
    (hstatus : status = ok ∨ AtEnd status) (hrounds : n ≤ rounds) :
    ∃ status' s', BufferedReader.skipLoop A rounds s status 0 n =
        (status', min n (rest s).length, s') ∧ Inv s' ∧ rest s' = (rest s).drop n ∧
      tell s' = tell s + min n (rest s).length ∧ (status' = ok ∨ AtEnd status') ∧
        ((rest s).length < n → AtEnd status') := by
  obtain ⟨status', s', hloop, h'⟩ := hA.readLoop [] h hstatus hrounds
  rw [length_nil, Nat.zero_add, nil_append] at hloop
  refine ⟨status', s', ?_, h'⟩
  have heq := skipLoop_eq (A := A) rounds s status [] n
  rwa [hloop, length_take] at heq

/-- By induction on the rounds: each takes an entry, and the last one finds the end of the line or
that there is nothing left. -/
theorem lineLoop (hA : Lawful A Inv rest tell ok AtEnd) (isEnd keep : β → Bool) (result : List β)
    (h : Inv s) (hstatus : status = ok ∨ AtEnd status) (hrounds : (rest s).length < rounds) :
    ∃ status' s', BufferedReader.lineLoop A isEnd keep rounds s status result =
        (status', result ++ ((rest s).takeWhile (!isEnd ·)).filter keep, s') ∧ Inv s' ∧
      rest s' = (rest s).drop (((rest s).takeWhile (!isEnd ·)).length + 1) ∧
      tell s' = tell s + min (((rest s).takeWhile (!isEnd ·)).length + 1) (rest s).length ∧
      if (rest s).any isEnd then status' = none else ∃ e, status' = some e ∧ AtEnd e := by
  induction rounds generalizing s status result with
  | zero => exact absurd hrounds (Nat.not_lt_zero _)
  | succ rounds ih =>
    obtain ⟨status₁, s₁, hrefill, h₁, hrest₁, htell₁, hcase, hstatus₁⟩ := hA.refill h hstatus
    rw [BufferedReader.lineLoop, hrefill]
    dsimp only
    rcases hcase with ⟨hbuf, hnil, hend⟩ | hlt
    · rw [if_pos hbuf, hnil]
      exact ⟨_, s₁, by simp, h₁, by rw [hrest₁, hnil]; rfl, by simp [htell₁], status₁, rfl, hend⟩
    · have hne : A.buf s₁ ≠ [] := ne_nil_of_length_pos (by omega)
      obtain ⟨c, hc⟩ : ∃ c, (A.buf s₁)[A.pos s₁]? = some c := ⟨_, getElem?_eq_getElem hlt⟩
      obtain ⟨later, hlater⟩ := hA.rest_eq h₁
      obtain ⟨h₂, hrest₂, htell₂⟩ := hA.moveTo h₁ (k := 1) (by omega)
      obtain ⟨x, hx⟩ : ∃ x, rest s = c :: x := by
        obtain ⟨_, hget⟩ := List.getElem?_eq_some_iff.1 hc
        refine ⟨(A.buf s₁).drop (A.pos s₁ + 1) ++ later, ?_⟩
        rw [← hrest₁, hlater, drop_eq_getElem_cons hlt, hget, cons_append]
      rw [hrest₁, hx, drop_one, tail_cons] at hrest₂
      rw [htell₁] at htell₂
      rw [if_neg hne, hc, hx]
      dsimp only
      split
      · rename_i hend
        refine ⟨none, _, by simp [hend], h₂, ?_, ?_, ?_⟩
        · rw [hrest₂, takeWhile_cons_of_neg (by simp [hend])]
          rfl
        · rw [htell₂, takeWhile_cons_of_neg (by simp [hend]), length_nil, length_cons]
          omega
        · rw [if_pos (by simp [hend])]
      · rename_i hend
        rw [hx, length_cons] at hrounds
        obtain ⟨status', s', hloop, h', hrest', htell', hfound⟩ :=
          ih (s := A.moveTo s₁ (A.pos s₁ + 1))
          (if keep c then result ++ [c] else result) h₂ hstatus₁ (by rw [hrest₂]; omega)
        rw [hrest₂] at hloop hrest' htell' hfound
        have hwhile : (c :: x).takeWhile (!isEnd ·) = c :: x.takeWhile (!isEnd ·) :=
          takeWhile_cons_of_pos (by simp [hend])
        rw [hwhile]
        refine ⟨status', s', ?_, h', ?_, ?_, ?_⟩
        · rw [hloop, filter_cons]
          split <;> simp
        · rw [hrest', length_cons, drop_succ_cons]
        · rw [htell', htell₂, length_cons, length_cons]
          omega
        · rwa [any_cons, Bool.eq_false_iff.2 hend, Bool.false_or]

end Lawful

end TensorFlowCore.BufferedReader
