import Mathlib.Data.List.Count
import Mathlib.Data.List.Nodup
import Mathlib.Data.List.Perm.Subperm
import Mathlib.Data.List.Range

/-!
# A worklist driven by counters

Items `0, …, N - 1` with predecessors are worked off one after another. Every item has a counter; an
item that is taken counts down each item it is a predecessor of, as often as it is one, and an item
whose counter reaches zero becomes ready. An item that needs nothing is ready from the start.

Nothing here names a program: the predecessors, the successors and the initial counters are
parameters. `Tracks` relates the list of items taken so far to the counters and to the ready items,
and `Tracks.take` says that taking a ready item keeps that relation.
-/

namespace Worklist

open Function List

/-- The items that can be taken, the last one first, and the counters. -/
structure State where
  ready : List ℕ
  pending : ℕ → ℤ

/-- Count one item down, and make it ready when its counter reaches zero. -/
def countDown (s : State) (n : ℕ) : State where
  ready := if s.pending n - 1 = 0 then n :: s.ready else s.ready
  pending := Function.update s.pending n (s.pending n - 1)

/-- Count down the successors of an item. -/
def release (successors : List ℕ) (s : State) : State := successors.foldl countDown s

theorem release_cons (n : ℕ) (successors : List ℕ) (s : State) :
    release (n :: successors) s = release successors (countDown s n) := rfl

theorem pending_release (successors : List ℕ) (s : State) (n : ℕ) :
    (release successors s).pending n = s.pending n - successors.count n := by
  induction successors generalizing s with
  | nil => simp [release]
  | cons m successors ih =>
    rw [release_cons, ih, count_cons]
    by_cases hmn : m = n
    · subst hmn
      simp only [countDown, update_self, beq_self_eq_true, if_true]
      omega
    · have hpending : (countDown s m).pending n = s.pending n :=
        update_of_ne (Ne.symm hmn) _ _
      simp [hpending, hmn]

/-- The items that become ready are those whose counter reaches zero on the way. -/
theorem mem_ready_release (successors : List ℕ) (s : State) (n : ℕ) :
    n ∈ (release successors s).ready ↔
      n ∈ s.ready ∨ 0 < s.pending n ∧ s.pending n ≤ successors.count n := by
  induction successors generalizing s with
  | nil =>
    refine (or_iff_left ?_).symm
    rw [count_nil]
    omega
  | cons m successors ih =>
    rw [release_cons, ih, count_cons]
    by_cases hmn : m = n
    · subst hmn
      have hready : m ∈ (countDown s m).ready ↔ m ∈ s.ready ∨ s.pending m - 1 = 0 := by
        rw [countDown]
        split
        · rename_i hzero
          simp [hzero]
        · rename_i hzero
          simp [hzero]
      have hpending : (countDown s m).pending m = s.pending m - 1 := update_self _ _ _
      rw [hready, hpending, or_assoc]
      refine or_congr_right ?_
      simp only [beq_self_eq_true, if_true]
      omega
    · have hpending : (countDown s m).pending n = s.pending n :=
        update_of_ne (Ne.symm hmn) _ _
      have hready : n ∈ (countDown s m).ready ↔ n ∈ s.ready := by
        rw [countDown]
        split
        · rw [mem_cons, or_iff_right (Ne.symm hmn)]
        · rfl
      rw [hready, hpending]
      simp [hmn]

/-- Nothing becomes ready twice, as its count reaches zero once. -/
theorem nodup_ready_release {successors : List ℕ} {s : State} (hs : s.ready.Nodup)
    (hready : ∀ n ∈ s.ready, n ∈ successors → s.pending n ≤ 0) :
    (release successors s).ready.Nodup := by
  induction successors generalizing s with
  | nil => exact hs
  | cons m successors ih =>
    rw [release_cons]
    refine ih ?_ fun n hn hmem ↦ ?_
    · rw [countDown]
      split
      · rename_i hzero
        refine nodup_cons.2 ⟨fun hm ↦ ?_, hs⟩
        have := hready m hm mem_cons_self
        omega
      · exact hs
    · by_cases hmn : m = n
      · subst hmn
        have hpending : (countDown s m).pending m = s.pending m - 1 := update_self _ _ _
        rw [hpending]
        rw [countDown] at hn
        split at hn
        · omega
        · have := hready m hn mem_cons_self
          omega
      · have hpending : (countDown s m).pending n = s.pending n :=
          update_of_ne (Ne.symm hmn) _ _
        rw [hpending]
        refine hready n ?_ (mem_cons_of_mem _ hmem)
        rw [countDown] at hn
        split at hn
        · exact (mem_cons.1 hn).resolve_left (Ne.symm hmn)
        · exact hn

section

variable (preds successors : ℕ → List ℕ) (need : ℕ → ℤ) (N : ℕ)

/-- What an item waits for: enough of its predecessors, unless it has none. -/
def Enabled (done : List ℕ) (n : ℕ) : Prop :=
  preds n = [] ∨ need n ≤ (preds n).countP (· ∈ done)

/-- The counters and the ready items when these items have been taken, in this order. -/
structure Tracks (done : List ℕ) (s : State) : Prop where
  nodup : done.Nodup
  lt : ∀ n ∈ done, n < N
  enabled : ∀ {before n after}, done = before ++ n :: after → Enabled preds need before n
  pending_eq : ∀ n, s.pending n = need n - (preds n).countP (· ∈ done)
  ready_nodup : s.ready.Nodup
  mem_ready : ∀ n, n ∈ s.ready ↔ n < N ∧ n ∉ done ∧ Enabled preds need done n

/-- The successors are those of the predecessors, and an item with predecessors waits for one. -/
structure Adjacent : Prop where
  count_eq : ∀ o < N, ∀ n, (successors o).count n = (preds n).count o
  lt : ∀ o < N, ∀ n ∈ successors o, n < N
  need_pos : ∀ n, preds n ≠ [] → 0 < need n

variable {preds successors need N}

theorem countP_mem_append_singleton {l done : List ℕ} {o : ℕ} (ho : o ∉ done) :
    l.countP (· ∈ done ++ [o]) = l.countP (· ∈ done) + l.count o := by
  induction l with
  | nil => rfl
  | cons a l ih =>
    rw [countP_cons, countP_cons, count_cons, ih]
    by_cases hao : a = o
    · subst hao
      simp [ho]
      omega
    · have hmem : a ∈ done ++ [o] ↔ a ∈ done := by simp [hao]
      simp [hao, hmem]
      omega

theorem Enabled.mono {done done' : List ℕ} (hsub : done ⊆ done') {n : ℕ}
    (h : Enabled preds need done n) : Enabled preds need done' n := by
  have hle : (preds n).countP (· ∈ done) ≤ (preds n).countP (· ∈ done') :=
    countP_mono_left fun m _ hm ↦ by simpa using hsub (by simpa using hm)
  refine h.imp_right fun hneed ↦ ?_
  omega

section

variable {done : List ℕ} {s : State} (h : Tracks preds need N done s)
include h

theorem Tracks.enabled_of_mem {n : ℕ} (hn : n ∈ done) : Enabled preds need done n := by
  obtain ⟨before, after, hsplit⟩ := append_of_mem hn
  refine (h.enabled hsplit).mono fun m hm ↦ ?_
  rw [hsplit]
  exact mem_append_left _ hm

theorem Tracks.length_le : done.length ≤ N := by
  have hsub : done ⊆ range N := fun n hn ↦ mem_range.2 (h.lt n hn)
  have hle := (subperm_of_subset h.nodup hsub).length_le
  rwa [length_range] at hle

/-- When as many items have been taken as there are, none is left. -/
theorem Tracks.mem_of_length_eq (hlen : done.length = N) {n : ℕ} (hn : n < N) : n ∈ done := by
  have hsub : done ⊆ range N := fun n hn ↦ mem_range.2 (h.lt n hn)
  have hperm := (subperm_of_subset h.nodup hsub).perm_of_length_le
    (by rw [length_range, hlen])
  exact hperm.mem_iff.2 (mem_range.2 hn)

end

/-- At the start the items without predecessors are ready. -/
theorem tracks_nil (hadj : Adjacent preds successors need N) {ready : List ℕ} (hnodup : ready.Nodup)
    (hmem : ∀ n, n ∈ ready ↔ n < N ∧ preds n = []) : Tracks preds need N [] ⟨ready, need⟩ := by
  refine ⟨nodup_nil, nofun, fun h ↦ ?_, fun n ↦ by simp, hnodup, fun n ↦ ?_⟩
  · simp at h
  · rw [hmem n]
    refine and_congr_right fun _ ↦ ?_
    constructor
    · exact fun hnil ↦ ⟨not_mem_nil, .inl hnil⟩
    · rintro ⟨-, hnil | hle⟩
      · exact hnil
      · by_contra hne
        have := hadj.need_pos n hne
        simp at hle
        omega

/-- Taking the ready item that came last. -/
theorem Tracks.take (hadj : Adjacent preds successors need N) {done rest : List ℕ} {o : ℕ}
    {pending : ℕ → ℤ} (h : Tracks preds need N done ⟨o :: rest, pending⟩) :
    Tracks preds need N (done ++ [o]) (release (successors o) ⟨rest, pending⟩) := by
  obtain ⟨hoN, ho, henabled⟩ := (h.mem_ready o).1 mem_cons_self
  have hrest := nodup_cons.1 h.ready_nodup
  have hpending : ∀ n, pending n = need n - (preds n).countP (· ∈ done) := h.pending_eq
  have hcount := hadj.count_eq o hoN
  have hcountP : ∀ n, (preds n).countP (· ∈ done ++ [o]) =
      (preds n).countP (· ∈ done) + (preds n).count o := fun n ↦ countP_mem_append_singleton ho
  refine ⟨?_, fun n hn ↦ ?_, fun {before n after} hsplit ↦ ?_, fun n ↦ ?_, ?_, fun n ↦ ?_⟩
  · exact nodup_append.2 ⟨h.nodup, nodup_singleton o,
      fun a ha b hb hab ↦ ho (mem_singleton.1 hb ▸ hab ▸ ha)⟩
  · obtain hn | hn := mem_append.1 hn
    · exact h.lt n hn
    · exact mem_singleton.1 hn ▸ hoN
  · rcases eq_nil_or_concat after with rfl | ⟨after, m, rfl⟩
    · obtain ⟨rfl, hno⟩ := append_inj' hsplit rfl
      obtain rfl : o = n := by simpa using hno
      exact henabled
    · rw [concat_eq_append, ← cons_append, ← append_assoc] at hsplit
      exact h.enabled (append_inj' hsplit rfl).1
  · rw [pending_release, hcount n, hcountP n]
    show pending n - _ = _
    rw [hpending n]
    push_cast
    omega
  · refine nodup_ready_release hrest.2 fun n hn hmem ↦ ?_
    obtain ⟨-, -, hnil | hle⟩ := (h.mem_ready n).1 (mem_cons_of_mem o hn)
    · have hpos := count_pos_iff.2 hmem
      rw [hcount n, hnil] at hpos
      exact absurd hpos (Nat.lt_irrefl 0)
    · show pending n ≤ 0
      rw [hpending n]
      omega
  · rw [mem_ready_release]
    show n ∈ rest ∨ 0 < pending n ∧ pending n ≤ _ ↔ _
    have hold : n ∈ rest ↔ n ≠ o ∧ (n < N ∧ n ∉ done ∧ Enabled preds need done n) := by
      rw [← h.mem_ready n]
      show n ∈ rest ↔ n ≠ o ∧ n ∈ o :: rest
      rw [mem_cons]
      constructor
      · exact fun hn ↦ ⟨fun hno ↦ hrest.1 (hno ▸ hn), .inr hn⟩
      · exact fun ⟨hne, hn⟩ ↦ hn.resolve_left hne
    rw [hold, mem_append, mem_singleton, hcount n, hpending n, Enabled, Enabled, hcountP n]
    by_cases hnil : preds n = []
    · simp only [hnil, countP_nil, count_nil, true_or, and_true]
      constructor
      · rintro (⟨hne, hlt, hnd⟩ | ⟨h₁, h₂⟩)
        · exact ⟨hlt, fun hor ↦ hor.elim hnd hne⟩
        · omega
      · exact fun ⟨hlt, hor⟩ ↦ .inl ⟨fun hno ↦ hor (.inr hno), hlt, fun hd ↦ hor (.inl hd)⟩
    · simp only [hnil, false_or]
      push_cast
      constructor
      · rintro (⟨hne, hlt, hnd, hle⟩ | ⟨h₁, h₂⟩)
        · exact ⟨hlt, fun hor ↦ hor.elim hnd hne, by omega⟩
        · -- the counter reaches zero now, so `n` was not taken before
          have hmem : n ∈ successors o := by
            refine count_pos_iff.1 ?_
            rw [hcount n]
            omega
          have hnot : ∀ {done' : List ℕ}, Enabled preds need done' n → ¬done' ⊆ done := by
            intro done' hen hsub
            obtain hnil' | hle := hen.mono hsub
            · exact hnil hnil'
            · omega
          refine ⟨hadj.lt o hoN n hmem, ?_, by omega⟩
          rintro (hd | rfl)
          · exact hnot (h.enabled_of_mem hd) fun _ hm ↦ hm
          · exact hnot henabled fun _ hm ↦ hm
      · rintro ⟨hlt, hor, hle⟩
        by_cases hle' : need n ≤ ((preds n).countP (· ∈ done) : ℤ)
        · exact .inl ⟨fun hno ↦ hor (.inr hno), hlt, fun hd ↦ hor (.inl hd), hle'⟩
        · exact .inr ⟨by omega, by omega⟩

end

end Worklist
