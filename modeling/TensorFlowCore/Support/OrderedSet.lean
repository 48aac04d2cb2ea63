import Mathlib.Data.List.Pairwise
import Mathlib.Tactic.Common

/-!
# Ordered sets as sorted lists

A container such as `std::set` keeps its elements sorted by a comparator `lt` and takes two elements
for the same key when neither is less than the other. `insert` and `erase` below look at elements
only through `lt`, as the container does: an element whose key is present is not inserted again, and
`erase` reports that it found nothing by `none`.

All facts are about lists that are sorted *now*. A comparator that reads mutable data may change
under the list, so sortedness is a hypothesis of every lemma, and `sorted_congr` says when it
survives such a change.
-/

namespace OrderedSet

open List

variable {α : Type*} (lt : α → α → Prop) [DecidableRel lt]

/-- Insert `a` unless an element with its key is there. -/
def insert (a : α) : List α → List α
  | [] => [a]
  | b :: l => if lt a b then a :: b :: l else if lt b a then b :: insert a l else b :: l

/-- Remove the element with the key of `a`; `none` when there is none. -/
def erase (a : α) : List α → Option (List α)
  | [] => none
  | b :: l =>
    if lt b a then (erase a l).map (b :: ·) else if lt a b then none else some l

variable {lt} {a : α} {l : List α}

theorem mem_insert (hfresh : ∀ b ∈ l, lt a b ∨ lt b a) {c : α} :
    c ∈ insert lt a l ↔ c = a ∨ c ∈ l := by
  induction l with
  | nil => simp [insert]
  | cons b l ih =>
    have ih := ih fun c hc ↦ hfresh c (mem_cons_of_mem _ hc)
    by_cases hab : lt a b
    · simp [insert, hab]
    · have hba := (hfresh b mem_cons_self).resolve_left hab
      simp only [insert, hab, hba, if_true, if_false, mem_cons, ih]
      exact or_left_comm

theorem sorted_insert [IsTrans α lt] (hs : l.Pairwise lt) (hfresh : ∀ b ∈ l, lt a b ∨ lt b a) :
    (insert lt a l).Pairwise lt := by
  induction l with
  | nil => exact pairwise_singleton _ _
  | cons b l ih =>
    have hl : ∀ c ∈ l, lt a c ∨ lt c a := fun c hc ↦ hfresh c (mem_cons_of_mem _ hc)
    obtain ⟨hb, hs'⟩ := pairwise_cons.1 hs
    by_cases hab : lt a b
    · simp only [insert, hab, if_true]
      refine pairwise_cons.2 ⟨fun c hc ↦ ?_, hs⟩
      rcases mem_cons.1 hc with rfl | hc
      · exact hab
      · exact IsTrans.trans _ _ _ hab (hb c hc)
    · have hba := (hfresh b mem_cons_self).resolve_left hab
      simp only [insert, hab, hba, if_true, if_false]
      refine pairwise_cons.2 ⟨fun c hc ↦ ?_, ih hs' hl⟩
      rcases (mem_insert hl).1 hc with rfl | hc
      · exact hba
      · exact hb c hc

/-- In a sorted list `erase` finds its element and removes exactly it. -/
theorem exists_erase_eq_some [IsStrictOrder α lt] (hs : l.Pairwise lt) (ha : a ∈ l) :
    ∃ l', erase lt a l = some l' ∧ l'.Pairwise lt ∧ ∀ c, c ∈ l' ↔ c ∈ l ∧ c ≠ a := by
  induction l with
  | nil => simp at ha
  | cons b l ih =>
    obtain ⟨hb, hs'⟩ := pairwise_cons.1 hs
    have hirr : ∀ c, ¬ lt c c := Std.Irrefl.irrefl
    rcases mem_cons.1 ha with rfl | ha
    · refine ⟨l, by simp [erase, hirr], hs', fun c ↦ ⟨fun hc ↦ ?_, fun hc ↦ ?_⟩⟩
      · refine ⟨mem_cons_of_mem _ hc, ?_⟩
        rintro rfl
        exact hirr c (hb c hc)
      · exact (mem_cons.1 hc.1).resolve_left hc.2
    · obtain ⟨l', hl', hsl', hmem⟩ := ih hs' ha
      have hba := hb a ha
      refine ⟨b :: l', by simp [erase, hba, hl'], ?_, fun c ↦ ?_⟩
      · exact pairwise_cons.2 ⟨fun c hc ↦ hb c ((hmem c).1 hc).1, hsl'⟩
      · have hne : b ≠ a := by
          rintro rfl
          exact hirr b hba
        simp only [mem_cons, hmem]
        constructor
        · rintro (rfl | ⟨hc, hca⟩)
          · exact ⟨Or.inl rfl, hne⟩
          · exact ⟨Or.inr hc, hca⟩
        · rintro ⟨rfl | hc, hca⟩
          · exact Or.inl rfl
          · exact Or.inr ⟨hc, hca⟩

omit [DecidableRel lt] in
/-- A list stays sorted under a comparator that agrees on its elements. -/
theorem sorted_congr {lt' : α → α → Prop} (h : ∀ b ∈ l, ∀ c ∈ l, lt b c → lt' b c)
    (hs : l.Pairwise lt) : l.Pairwise lt' :=
  hs.imp_of_mem fun {b c} hb hc ↦ h b hb c hc

end OrderedSet
