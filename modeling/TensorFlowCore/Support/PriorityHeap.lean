import Mathlib.Data.List.Basic
import Mathlib.Order.Lattice

/-!
# Priority queues that compare priorities alone

A heap of pairs of a priority and a payload, as a vector and what `push` and `pop` make of it. Since
only priorities are compared, the moves are the same whatever the payloads are: both operations
commute with maps of the payloads. So several heaps with the same history of priorities stay
aligned, as the maps of one heap of all of their payloads (`push_aligned`, `pop_aligned`).
-/

/-- A heap whose moves depend on the priorities alone. `Ordered` is what its operations keep. -/
structure PriorityHeap (P : Type) [LinearOrder P] where
  push {β : Type} : P × β → List (P × β) → List (P × β)
  pop {β : Type} : List (P × β) → Option ((P × β) × List (P × β))
  Ordered {β : Type} : List (P × β) → Prop
  map_push {β γ : Type} (f : β → γ) (x : P × β) (v : List (P × β)) :
    push (Prod.map id f x) (v.map (Prod.map id f)) = (push x v).map (Prod.map id f)
  map_pop {β γ : Type} (f : β → γ) (v : List (P × β)) :
    pop (v.map (Prod.map id f)) = (pop v).map fun r ↦ (Prod.map id f r.1, r.2.map (Prod.map id f))
  push_perm {β : Type} (x : P × β) (v : List (P × β)) : (push x v).Perm (x :: v)
  pop_nil {β : Type} : pop ([] : List (P × β)) = none
  pop_perm {β : Type} {v v' : List (P × β)} {x : P × β} : pop v = some (x, v') → v.Perm (x :: v')
  pop_isSome {β : Type} {v : List (P × β)} : v ≠ [] → (pop v).isSome
  ordered_nil {β : Type} : Ordered ([] : List (P × β))
  ordered_push {β : Type} {v : List (P × β)} (x : P × β) : Ordered v → Ordered (push x v)
  ordered_pop {β : Type} {v v' : List (P × β)} {x : P × β} :
    Ordered v → pop v = some (x, v') → Ordered v' ∧ ∀ y ∈ v', x.1 ≤ y.1

namespace PriorityHeap

variable {P : Type} [LinearOrder P] (H : PriorityHeap P) {ι : Type} {β : ι → Type} {γ : Type}

/-- Heaps of the components of the payloads of one heap. -/
def Aligned (project : (i : ι) → γ → β i) (heaps : (i : ι) → List (P × β i)) (v : List (P × γ)) :
    Prop :=
  ∀ i, heaps i = v.map (Prod.map id (project i))

variable {H} {project : (i : ι) → γ → β i} {heaps : (i : ι) → List (P × β i)} {v : List (P × γ)}

theorem Aligned.push (h : Aligned project heaps v) (p : P) (x : γ) :
    Aligned project (fun i ↦ H.push (p, project i x) (heaps i)) (H.push (p, x) v) := by
  intro i
  dsimp only
  rw [h i, ← H.map_push]
  rfl

/-- The heaps pop the components of one payload. -/
theorem Aligned.pop (h : Aligned project heaps v) {x : P × γ} {v' : List (P × γ)}
    (hpop : H.pop v = some (x, v')) (i : ι) :
    H.pop (heaps i) = some ((x.1, project i x.2), v'.map (Prod.map id (project i))) := by
  rw [h i, H.map_pop, hpop]
  rfl

end PriorityHeap

/-! ### A vector in order -/

section SortedVector

variable {P : Type} [LinearOrder P] {β γ : Type}

/-- Insert behind the elements that are not after it. -/
def insertByPriority (x : P × β) : List (P × β) → List (P × β)
  | [] => [x]
  | y :: v => if x.1 < y.1 then x :: y :: v else y :: insertByPriority x v

theorem insertByPriority_perm (x : P × β) (v : List (P × β)) :
    (insertByPriority x v).Perm (x :: v) := by
  induction v with
  | nil => exact .refl _
  | cons y v ih =>
    unfold insertByPriority
    split
    · exact .refl _
    · exact (ih.cons y).trans (.swap x y v)

theorem map_insertByPriority (f : β → γ) (x : P × β) (v : List (P × β)) :
    insertByPriority (Prod.map id f x) (v.map (Prod.map id f)) =
      (insertByPriority x v).map (Prod.map id f) := by
  induction v with
  | nil => rfl
  | cons y v ih =>
    rw [List.map_cons, insertByPriority, insertByPriority, ih]
    show (if x.1 < y.1 then _ else _) = _
    split <;> rfl

theorem pairwise_insertByPriority {v : List (P × β)} (x : P × β)
    (h : v.Pairwise fun y z ↦ y.1 ≤ z.1) : (insertByPriority x v).Pairwise fun y z ↦ y.1 ≤ z.1 := by
  induction v with
  | nil => exact List.pairwise_singleton _ _
  | cons y v ih =>
    obtain ⟨hy, hv⟩ := List.pairwise_cons.1 h
    unfold insertByPriority
    split
    next hlt =>
      refine List.pairwise_cons.2 ⟨List.forall_mem_cons.2 ⟨le_of_lt hlt, fun z hz ↦ ?_⟩, h⟩
      exact le_trans (le_of_lt hlt) (hy z hz)
    next hle =>
      refine List.pairwise_cons.2 ⟨fun z hz ↦ ?_, ih hv⟩
      obtain rfl | hz := List.mem_cons.1 ((insertByPriority_perm x v).mem_iff.1 hz)
      · exact not_lt.1 hle
      · exact hy z hz

/-- The first element and the others. -/
def popFront : List (P × β) → Option ((P × β) × List (P × β))
  | [] => none
  | x :: v => some (x, v)

/-- A vector that is kept in order. -/
def sortedVector (P : Type) [LinearOrder P] : PriorityHeap P where
  push := insertByPriority
  pop := popFront
  Ordered v := v.Pairwise fun x y ↦ x.1 ≤ y.1
  map_push := map_insertByPriority
  map_pop _ v := by cases v <;> rfl
  push_perm := insertByPriority_perm
  pop_nil := rfl
  pop_perm {_ v v' x} h := by
    cases v with
    | nil => cases h
    | cons y v =>
      cases h
      exact .refl _
  pop_isSome {_ v} h := by
    cases v with
    | nil => exact absurd rfl h
    | cons y v => rfl
  ordered_nil := List.Pairwise.nil
  ordered_push x h := pairwise_insertByPriority x h
  ordered_pop {_ v v' x} h hpop := by
    cases v with
    | nil => cases hpop
    | cons y v =>
      cases hpop
      exact ⟨(List.pairwise_cons.1 h).2, (List.pairwise_cons.1 h).1⟩

end SortedVector
