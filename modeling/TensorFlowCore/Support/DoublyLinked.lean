import Mathlib.Data.List.Nodup

/-!
# Doubly linked lists

Nodes of a type `α` carry `next` and `prev` pointers. `Linked next prev l` says that the nodes of
`l`, in this order, form one doubly linked list with null at both ends: at every node the two
pointers are the neighbours that `l` shows. `Follows next o l` says that following `next` from `o`
visits exactly `l` and then ends, which is how a client of the pointers sees the list.

`Linked.insertAfter` and `Linked.removeAfter` are the two edits, each for arbitrary pointers that
have changed in the right places only.
-/

namespace DoublyLinked

open List

variable {α : Type*} {next prev next' prev' : α → Option α}

/-- The nodes of `l`, in order, are one doubly linked list. -/
def Linked (next prev : α → Option α) (l : List α) : Prop :=
  ∀ l₁ a l₂, l = l₁ ++ a :: l₂ → next a = l₂.head? ∧ prev a = l₁.getLast?

/-- Following `next` from `o` visits exactly `l`. -/
inductive Follows (next : α → Option α) : Option α → List α → Prop
  | nil : Follows next none []
  | cons {a : α} {l : List α} : Follows next (next a) l → Follows next (some a) (a :: l)

theorem Follows.congr {o : Option α} {l : List α} (h : Follows next o l)
    (heq : ∀ a ∈ l, next' a = next a) : Follows next' o l := by
  induction h with
  | nil => exact .nil
  | @cons a l h ih =>
    have ih := ih fun b hb ↦ heq b (mem_cons_of_mem _ hb)
    rw [← heq a mem_cons_self] at ih
    exact .cons ih

/-- What is visited is determined by where one starts. -/
theorem Follows.unique {o : Option α} {l l' : List α} (h : Follows next o l)
    (h' : Follows next o l') : l = l' := by
  induction h generalizing l' with
  | nil =>
    cases h'
    rfl
  | @cons a l h ih =>
    cases h' with
    | cons h' => rw [ih h']

theorem Linked.congr {l : List α} (h : Linked next prev l) (hnext : ∀ a ∈ l, next' a = next a)
    (hprev : ∀ a ∈ l, prev' a = prev a) : Linked next' prev' l := by
  rintro l₁ a l₂ rfl
  have ha : a ∈ l₁ ++ a :: l₂ := by simp
  rw [hnext a ha, hprev a ha]
  exact h l₁ a l₂ rfl

theorem Linked.singleton {a : α} (hnext : next a = none) (hprev : prev a = none) :
    Linked next prev [a] := by
  rintro l₁ b l₂ h
  rcases append_eq_cons_iff.1 h.symm with ⟨rfl, h⟩ | ⟨l', -, h⟩
  · obtain ⟨rfl, rfl⟩ := cons.inj h
    exact ⟨hnext, hprev⟩
  · simp at h

/-- The `next` pointers of a suffix lead through it. -/
theorem Linked.follows_suffix {l : List α} (h : Linked next prev l) :
    ∀ l₂, l₂ <:+ l → Follows next l₂.head? l₂
  | [], _ => .nil
  | a :: l₂, ⟨l₁, hl⟩ => by
    have ih := h.follows_suffix l₂ ⟨l₁ ++ [a], by rw [← hl]; simp⟩
    refine .cons ?_
    rwa [(h l₁ a l₂ hl.symm).1]

theorem Linked.follows {l : List α} (h : Linked next prev l) : Follows next l.head? l :=
  h.follows_suffix l suffix_rfl

section Edit

variable {l₁ l₂ : List α} {a b : α}

/-- Where the node `c` stands in a list that has `a` in the middle. -/
theorem append_cons_eq_append_cons {m₁ m₂ : List α} {c : α} (h : l₁ ++ a :: l₂ = m₁ ++ c :: m₂) :
    (∃ k, l₁ = m₁ ++ c :: k ∧ m₂ = k ++ a :: l₂) ∨ (l₁ = m₁ ∧ a = c ∧ l₂ = m₂) ∨
      ∃ k, l₂ = k ++ c :: m₂ ∧ m₁ = l₁ ++ a :: k := by
  rcases append_eq_append_iff.1 h with ⟨k, rfl, hk⟩ | ⟨k, rfl, hk⟩
  · rcases cons_eq_append_iff.1 hk with ⟨rfl, hc⟩ | ⟨k', rfl, hc⟩
    · obtain ⟨rfl, rfl⟩ := cons.inj hc
      simp
    · exact Or.inr (Or.inr ⟨k', hc, rfl⟩)
  · rcases cons_eq_append_iff.1 hk with ⟨rfl, hc⟩ | ⟨k', rfl, hc⟩
    · obtain ⟨rfl, rfl⟩ := cons.inj hc
      simp
    · exact Or.inl ⟨k', rfl, hc⟩

/-- In a list without repetitions, what stands before `a` is neither `a` nor what follows it. -/
theorem ne_of_mem_before {c : α} (hnodup : (l₁ ++ a :: l₂).Nodup) (hc : c ∈ l₁) :
    c ≠ a ∧ l₂.head? ≠ some c := by
  have hdisj := disjoint_of_nodup_append hnodup
  refine ⟨?_, fun hhead ↦ ?_⟩
  · rintro rfl
    exact hdisj hc mem_cons_self
  · exact hdisj hc (mem_cons_of_mem _ (mem_of_head? hhead))

theorem ne_of_mem_after {c : α} (hnodup : (l₁ ++ a :: l₂).Nodup) (hc : c ∈ l₂) : c ≠ a := by
  rintro rfl
  exact (nodup_cons.1 (nodup_append.1 hnodup).2.1).1 hc

/-- Only the first of what follows `a` is its successor. -/
theorem head?_ne_of_after {c : α} {k m : List α} (hnodup : (l₁ ++ a :: l₂).Nodup)
    (hl₂ : l₂ = k ++ c :: m) (hk : k ≠ []) : l₂.head? ≠ some c := by
  subst hl₂
  obtain ⟨d, k, rfl⟩ := exists_cons_of_ne_nil hk
  rintro heq
  cases heq
  have := (nodup_cons.1 (nodup_append.1 hnodup).2.1).2
  simp at this

variable [DecidableEq α]

/-- Insert `b` after `a`. -/
theorem Linked.insertAfter (h : Linked next prev (l₁ ++ a :: l₂)) (hnodup : (l₁ ++ a :: l₂).Nodup)
    (hnext : ∀ c ∈ l₁ ++ a :: l₂, next' c = if c = a then some b else next c)
    (hprev : ∀ c ∈ l₁ ++ a :: l₂, prev' c = if next a = some c then some b else prev c)
    (hnb : next' b = next a) (hpb : prev' b = some a) :
    Linked next' prev' (l₁ ++ a :: b :: l₂) := by
  have ha := h l₁ a l₂ rfl
  have ha' : next a ≠ some a := fun heq ↦
    ne_of_mem_after hnodup (mem_of_head? (ha.1 ▸ heq)) rfl
  intro m₁ c m₂ hm
  rcases append_cons_eq_append_cons hm with ⟨k, rfl, rfl⟩ | ⟨rfl, rfl, rfl⟩ | ⟨k, hk, rfl⟩
  · -- before `a`
    have hc := h m₁ c (k ++ a :: l₂) (by simp)
    obtain ⟨hca, hhead⟩ := ne_of_mem_before hnodup (show c ∈ m₁ ++ c :: k by simp)
    rw [hnext c (by simp), if_neg hca, hprev c (by simp), if_neg (ha.1 ▸ hhead), hc.1, hc.2]
    refine ⟨?_, rfl⟩
    cases k <;> rfl
  · -- at `a`
    rw [hnext a (by simp), if_pos rfl, hprev a (by simp), if_neg ha', ha.2]
    exact ⟨rfl, rfl⟩
  · rcases cons_eq_append_iff.1 hk with ⟨rfl, hk⟩ | ⟨k', rfl, hl₂⟩
    · -- at `b`
      obtain ⟨rfl, rfl⟩ := cons.inj hk
      rw [hnb, hpb, ha.1]
      exact ⟨rfl, by simp⟩
    · -- after `b`
      have hc := h (l₁ ++ a :: k') c m₂ (by simp [hl₂])
      have hmem : c ∈ l₁ ++ a :: l₂ := by simp [hl₂]
      have hca : c ≠ a := ne_of_mem_after hnodup (by simp [hl₂])
      rw [hnext c hmem, if_neg hca, hc.1]
      refine ⟨rfl, ?_⟩
      rw [hprev c hmem, ha.1]
      by_cases hk' : k' = []
      · subst hk' hl₂
        simp
      · rw [if_neg (head?_ne_of_after hnodup hl₂ hk'), hc.2]
        obtain ⟨d, k, rfl⟩ := exists_cons_of_ne_nil hk'
        simp [getLast?_append]

/-- Remove `b`, which follows `a`. -/
theorem Linked.removeAfter (h : Linked next prev (l₁ ++ a :: b :: l₂))
    (hnodup : (l₁ ++ a :: b :: l₂).Nodup)
    (hnext : ∀ c ∈ l₁ ++ a :: l₂, next' c = if c = a then next b else next c)
    (hprev : ∀ c ∈ l₁ ++ a :: l₂, prev' c = if next b = some c then some a else prev c) :
    Linked next' prev' (l₁ ++ a :: l₂) := by
  have ha := h l₁ a (b :: l₂) rfl
  have hb := h (l₁ ++ [a]) b l₂ (by simp)
  have hnodup' : ((l₁ ++ [a]) ++ b :: l₂).Nodup := by simpa using hnodup
  have hbefore : ∀ c ∈ l₁ ++ [a], next b ≠ some c := fun c hc ↦
    hb.1 ▸ (ne_of_mem_before hnodup' hc).2
  intro m₁ c m₂ hm
  rcases append_cons_eq_append_cons hm with ⟨k, rfl, rfl⟩ | ⟨rfl, rfl, rfl⟩ | ⟨k, hl₂, rfl⟩
  · have hc := h m₁ c (k ++ a :: b :: l₂) (by simp)
    have hca := (ne_of_mem_before hnodup (show c ∈ m₁ ++ c :: k by simp)).1
    rw [hnext c (by simp), if_neg hca, hprev c (by simp), if_neg (hbefore c (by simp)), hc.1, hc.2]
    refine ⟨?_, rfl⟩
    cases k <;> rfl
  · rw [hnext a (by simp), if_pos rfl, hprev a (by simp), if_neg (hbefore a (by simp)), ha.2]
    exact ⟨hb.1, rfl⟩
  · have hc := h (l₁ ++ a :: b :: k) c m₂ (by simp [hl₂])
    have hmem : c ∈ l₁ ++ a :: l₂ := by simp [hl₂]
    have hca : c ≠ a := ne_of_mem_after hnodup (by simp [hl₂])
    rw [hnext c hmem, if_neg hca, hc.1]
    refine ⟨rfl, ?_⟩
    rw [hprev c hmem, hb.1]
    by_cases hk : k = []
    · subst hk hl₂
      simp
    · rw [if_neg (head?_ne_of_after hnodup' hl₂ hk), hc.2]
      obtain ⟨d, k, rfl⟩ := exists_cons_of_ne_nil hk
      simp [getLast?_append]

omit [DecidableEq α] in
/-- Only the first node is the head. -/
theorem head?_ne_of_nodup {c : α} {k m : List α} (hnodup : (k ++ c :: m).Nodup) (hk : k ≠ []) :
    (k ++ c :: m).head? ≠ some c := by
  obtain ⟨d, k, rfl⟩ := exists_cons_of_ne_nil hk
  intro heq
  cases heq
  exact (nodup_cons.1 hnodup).1 (mem_append_right _ mem_cons_self)

/-- Put `b` in front. -/
theorem Linked.consHead {l : List α} (h : Linked next prev l) (hnodup : l.Nodup)
    (hnext : ∀ c ∈ l, next' c = next c)
    (hprev : ∀ c ∈ l, prev' c = if l.head? = some c then some b else prev c)
    (hnb : next' b = l.head?) (hpb : prev' b = none) : Linked next' prev' (b :: l) := by
  intro m₁ c m₂ hm
  rcases cons_eq_append_iff.1 hm with ⟨rfl, hc⟩ | ⟨k, rfl, rfl⟩
  · obtain ⟨rfl, rfl⟩ := cons.inj hc
    exact ⟨hnb, hpb⟩
  · have hc := h k c m₂ rfl
    have hmem : c ∈ k ++ c :: m₂ := mem_append_right _ mem_cons_self
    rw [hnext c hmem, hprev c hmem]
    refine ⟨hc.1, ?_⟩
    by_cases hk : k = []
    · subst hk
      exact if_pos rfl
    · rw [if_neg (head?_ne_of_nodup hnodup hk), hc.2]
      obtain ⟨d, k, rfl⟩ := exists_cons_of_ne_nil hk
      rfl

/-- Remove `b` from the front. -/
theorem Linked.removeHead (h : Linked next prev (b :: l₂)) (hnodup : (b :: l₂).Nodup)
    (hnext : ∀ c ∈ l₂, next' c = next c)
    (hprev : ∀ c ∈ l₂, prev' c = if next b = some c then none else prev c) :
    Linked next' prev' l₂ := by
  have hb := h [] b l₂ rfl
  rintro m₁ c m₂ rfl
  have hc := h (b :: m₁) c m₂ rfl
  have hmem : c ∈ m₁ ++ c :: m₂ := mem_append_right _ mem_cons_self
  rw [hnext c hmem, hprev c hmem, hb.1]
  refine ⟨hc.1, ?_⟩
  by_cases hk : m₁ = []
  · subst hk
    exact if_pos rfl
  · rw [if_neg (head?_ne_of_nodup (nodup_cons.1 hnodup).2 hk), hc.2]
    obtain ⟨d, k, rfl⟩ := exists_cons_of_ne_nil hk
    rfl

/-- Remove `b` from where it is. -/
theorem Linked.remove (h : Linked next prev (l₁ ++ b :: l₂)) (hnodup : (l₁ ++ b :: l₂).Nodup)
    (hnext : ∀ c ∈ l₁ ++ l₂, next' c = if prev b = some c then next b else next c)
    (hprev : ∀ c ∈ l₁ ++ l₂, prev' c = if next b = some c then prev b else prev c) :
    Linked next' prev' (l₁ ++ l₂) := by
  have hb := h l₁ b l₂ rfl
  rcases eq_nil_or_concat l₁ with rfl | ⟨k, a, rfl⟩
  · refine h.removeHead hnodup (fun c hc ↦ ?_) fun c hc ↦ ?_
    · rw [hnext c hc, hb.2, if_neg (by rintro ⟨⟩)]
    · rw [hprev c hc, hb.2]
      rfl
  · have hprevb : prev b = some a := by
      rw [hb.2, concat_eq_append, getLast?_append_cons, getLast?_singleton]
    rw [concat_eq_append, append_assoc, singleton_append] at h hnodup hnext hprev ⊢
    refine h.removeAfter hnodup (fun c hc ↦ ?_) fun c hc ↦ ?_
    · rw [hnext c hc, hprevb]
      simp only [Option.some.injEq, eq_comm]
    · rw [hprev c hc, hprevb]

end Edit

end DoublyLinked
