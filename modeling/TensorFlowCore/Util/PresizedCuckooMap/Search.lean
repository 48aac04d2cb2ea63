import TensorFlowCore.Util.PresizedCuckooMap.Model
import TensorFlowCore.Support.RingBuffer
import Mathlib.Algebra.BigOperators.Group.List.Basic

/-!
# The path search of `CuckooInsert`

The search visits full buckets only, and reaches each bucket from a key of another one (`Reached`).
It never goes back to where it has just come from.

An entry of depth `d` is the root of a tree of at most `nodes (6 - d)` entries, of which `nodes (5 -
d)` are visited. With the two roots this bounds what is put in the queue and in the visited array,
so that neither is overrun and the search ends (`search_ends`).
-/

namespace TensorFlowCore

open List

namespace PresizedCuckooMap

variable {α : Type} {m : PresizedCuckooMap α} {b1 b2 : ℕ} {k : UInt64}

/-- All slots of the bucket are in use. -/
def Full (m : PresizedCuckooMap α) (b : ℕ) : Prop := ∀ slot, m.keys (b, slot) ≠ kUnusedSlot

theorem full_of_spaceAvailable_eq_none {b : ℕ} (h : m.spaceAvailable b = none) : Full m b := by
  intro slot
  have hnot := find?_eq_none.1 h slot (mem_finRange slot)
  rwa [decide_eq_true_iff] at hnot

theorem unused_of_spaceAvailable {b : ℕ} {slot : Fin 4} (h : m.spaceAvailable b = some slot) :
    m.keys (b, slot) = kUnusedSlot := by
  have hsome := find?_some h
  exact of_decide_eq_true hsome

/-! ### The entries -/

/-- The entry is a root, or has been reached from one of the first `n` visited entries, from which
it does not go back. -/
structure Reached (m : PresizedCuckooMap α) (b1 b2 : ℕ) (visited : ℕ → CuckooPathEntry) (n : ℕ)
    (e : CuckooPathEntry) : Prop where
  depth_pos : 1 ≤ e.depth
  depth_le : e.depth ≤ kMaxBFSPathLen
  root : e.depth = 1 → e.bucket = b1 ∨ e.bucket = b2
  parent : 1 < e.depth → e.parent < n ∧ (visited e.parent).depth + 1 = e.depth ∧
    e.bucket = m.altBucket (m.keys ((visited e.parent).bucket, e.parentSlot))
    (visited e.parent).bucket
  noReturn : 2 < e.depth → (visited e.parent).parent < n ∧
    e.bucket ≠ (visited (visited e.parent).parent).bucket

variable {visited visited' : ℕ → CuckooPathEntry} {n n' : ℕ} {e c : CuckooPathEntry}

/-- An entry does not see what is visited later. -/
theorem Reached.mono (h : Reached m b1 b2 visited n e) (hn : n ≤ n')
    (hvisited : ∀ i < n, visited' i = visited i) :
    Reached m b1 b2 visited' n' e where
  depth_pos := h.depth_pos
  depth_le := h.depth_le
  root := h.root
  parent hdepth := by
    obtain ⟨hlt, hparent, hbucket⟩ := h.parent hdepth
    rw [hvisited _ hlt]
    exact ⟨hlt.trans_le hn, hparent, hbucket⟩
  noReturn hdepth := by
    obtain ⟨hlt, hne⟩ := h.noReturn hdepth
    obtain ⟨hparent, -, -⟩ := h.parent (by omega)
    rw [hvisited _ hparent, hvisited _ hlt]
    exact ⟨hlt.trans_le hn, hne⟩

theorem reached_root {b : ℕ} (h : b = b1 ∨ b = b2) : Reached m b1 b2 visited n ⟨b, 1, 0, 0⟩ where
  depth_pos := Nat.le_refl 1
  depth_le := (by decide : 1 ≤ kMaxBFSPathLen)
  root _ := h
  parent hdepth := absurd hdepth (Nat.lt_irrefl 1)
  noReturn hdepth := absurd hdepth (by decide : ¬2 < 1)

/-! ### The bound -/

/-- The nodes of a tree of so many levels, where each node has four children. -/
def nodes : ℕ → ℕ
  | 0 => 0
  | n + 1 => 1 + 4 * nodes n

/-- The entries that come from the items, with the items themselves. -/
def toPush (items : List CuckooPathEntry) : ℕ := (items.map fun e ↦ nodes (6 - e.depth)).sum

/-- Those of them that are going to be visited. -/
def toVisit (items : List CuckooPathEntry) : ℕ := (items.map fun e ↦ nodes (5 - e.depth)).sum

theorem toPush_append (items : List CuckooPathEntry) (e : CuckooPathEntry) :
    toPush (items ++ [e]) = toPush items + nodes (6 - e.depth) := by simp [toPush]

theorem toVisit_append (items : List CuckooPathEntry) (e : CuckooPathEntry) :
    toVisit (items ++ [e]) = toVisit items + nodes (5 - e.depth) := by simp [toVisit]

theorem toPush_cons (e : CuckooPathEntry) (items : List CuckooPathEntry) :
    toPush (e :: items) = nodes (6 - e.depth) + toPush items := by simp [toPush]

theorem toVisit_cons (e : CuckooPathEntry) (items : List CuckooPathEntry) :
    toVisit (e :: items) = nodes (5 - e.depth) + toVisit items := by simp [toVisit]

theorem nodes_pos {n : ℕ} (h : 0 < n) : 0 < nodes n := by
  cases n with
  | zero => exact absurd h (Nat.lt_irrefl 0)
  | succ n => exact Nat.lt_of_lt_of_le Nat.one_pos (Nat.le_add_right 1 _)

/-- Each item is one of the entries. -/
theorem length_le_toPush {items : List CuckooPathEntry}
    (h : ∀ e ∈ items, e.depth ≤ kMaxBFSPathLen) : items.length ≤ toPush items := by
  induction items with
  | nil => exact Nat.zero_le _
  | cons e items ih =>
    obtain ⟨he, hitems⟩ := forall_mem_cons.1 h
    rw [kMaxBFSPathLen] at he
    have hpos := nodes_pos (n := 6 - e.depth) (by omega)
    have hlength := ih hitems
    rw [toPush_cons, length_cons]
    omega

/-! ### The invariant -/

/-- What holds of the search, with these items in the queue and so much room for others that are yet
to come from the entry that is looked at. -/
structure SearchInv (m : PresizedCuckooMap α) (b1 b2 : ℕ) (items : List CuckooPathEntry)
    (room visits : ℕ)
    (s : Search) : Prop where
  queue : RingBuffer.Queue kMaxQueueSize s.cpq.queue s.cpq.head s.cpq.tail items
  reached : ∀ e ∈ items, Reached m b1 b2 s.visited s.visitedEnd e
  visited : ∀ i < s.visitedEnd, Reached m b1 b2 s.visited i (s.visited i) ∧
    Full m (s.visited i).bucket
  toPush_le : toPush items + room ≤ kMaxQueueSize
  toVisit_le : s.visitedEnd + toVisit items + visits ≤ kVisitedListSize
  notOverrun : s.overrun = false

variable {items : List CuckooPathEntry} {room visits room' visits' : ℕ} {s : Search}

theorem SearchInv.mono (h : SearchInv m b1 b2 items room visits s) (hroom : room' ≤ room)
    (hvisits : visits' ≤ visits) : SearchInv m b1 b2 items room' visits' s :=
  { h with
    toPush_le := (Nat.add_le_add_left hroom _).trans h.toPush_le
    toVisit_le := (Nat.add_le_add_left hvisits _).trans h.toVisit_le }

/-- There is room for one of the entries that are yet to come, and for another one. -/
theorem SearchInv.length_lt (h : SearchInv m b1 b2 items (room + nodes (6 - c.depth)) visits s)
    (hdepth : c.depth ≤ kMaxBFSPathLen) (hroom : 0 < room) : items.length + 1 < kMaxQueueSize := by
  have hlength := length_le_toPush fun e he ↦ (h.reached e he).depth_le
  rw [kMaxBFSPathLen] at hdepth
  have hpos := nodes_pos (n := 6 - c.depth) (by omega)
  have hle := h.toPush_le
  omega

/-- An entry for which there is room does not overrun the queue. -/
theorem SearchInv.pushBack
    (h : SearchInv m b1 b2 items (room + nodes (6 - c.depth)) (visits + nodes (5 - c.depth)) s)
    (hc : Reached m b1 b2 s.visited s.visitedEnd c) (hlength : items.length + 1 < kMaxQueueSize) :
    SearchInv m b1 b2 (items ++ [c]) room visits (s.pushBack c) := by
  refine ⟨h.queue.push hlength c, ?_, h.visited, ?_, ?_, ?_⟩
  · simpa [or_imp, forall_and] using ⟨h.reached, hc⟩
  · have := h.toPush_le
    rw [toPush_append]
    omega
  · have := h.toVisit_le
    rw [toVisit_append]
    dsimp only [Search.pushBack]
    omega
  · have hfull : s.cpq.isFull = false := decide_eq_false fun heq ↦
      hlength.ne (h.queue.tail_succ_eq_head_iff.1 heq)
    rw [Search.pushBack, h.notOverrun, hfull]
    rfl

theorem SearchInv.popFront (h : SearchInv m b1 b2 (e :: items) room visits s) :
    s.cpq.popFront.1 = e ∧
      SearchInv m b1 b2 items (room + nodes (6 - e.depth)) (visits + nodes (5 - e.depth))
        { s with cpq := s.cpq.popFront.2 } := by
  obtain ⟨hhead, hqueue⟩ := h.queue.pop
  have hpush := h.toPush_le
  have hvisit := h.toVisit_le
  rw [toPush_cons] at hpush
  rw [toVisit_cons] at hvisit
  refine ⟨hhead, hqueue, fun e he ↦ h.reached e (mem_cons_of_mem _ he), h.visited, ?_, ?_,
    h.notOverrun⟩
  · omega
  · dsimp only
    omega

/-- A full bucket is visited. -/
theorem SearchInv.visit (h : SearchInv m b1 b2 items room (visits + 1) s)
    (he : Reached m b1 b2 s.visited s.visitedEnd e) (hfull : Full m e.bucket) :
    SearchInv m b1 b2 items room visits (s.visit e) := by
  have hsame : ∀ i < s.visitedEnd, (s.visit e).visited i = s.visited i := fun i hi ↦
    Function.update_of_ne hi.ne _ _
  refine ⟨h.queue, fun c hc ↦ (h.reached c hc).mono (Nat.le_succ _) hsame, fun i hi ↦ ?_,
    h.toPush_le, ?_, ?_⟩
  · obtain hlt | rfl := Nat.lt_succ_iff_lt_or_eq.1 hi
    · rw [hsame i hlt]
      obtain ⟨hreached, hfull⟩ := h.visited i hlt
      exact ⟨hreached.mono (Nat.le_refl i) fun j hj ↦ hsame j (hj.trans hlt), hfull⟩
    · have hself : (s.visit e).visited s.visitedEnd = e := Function.update_self ..
      rw [hself]
      exact ⟨he.mono (Nat.le_refl _) hsame, hfull⟩
  · have := h.toVisit_le
    dsimp only [Search.visit]
    omega
  · have hroom : ¬kVisitedListSize ≤ s.visitedEnd := by
      have := h.toVisit_le
      omega
    rw [Search.visit, h.notOverrun, decide_eq_false hroom]
    rfl

/-! ### One round -/

/-- The child that a slot of the visited entry leads to. -/
theorem SearchInv.reached_child (h : SearchInv m b1 b2 items room visits s) {i : ℕ}
    (hi : i < s.visitedEnd) (hdepth : (s.visited i).depth < kMaxBFSPathLen) {slot : Fin 4}
    (hne : m.altBucket (m.keys ((s.visited i).bucket, slot)) (s.visited i).bucket ≠
      (s.visited (s.visited i).parent).bucket) :
    Reached m b1 b2 s.visited s.visitedEnd
      ⟨m.altBucket (m.keys ((s.visited i).bucket, slot)) (s.visited i).bucket, (s.visited i).depth +
        1, i, slot⟩ where
  depth_pos := Nat.succ_pos _
  depth_le := hdepth
  root hroot := by
    have := (h.visited i hi).1.depth_pos
    dsimp only at hroot
    omega
  parent _ := ⟨hi, rfl, rfl⟩
  noReturn hgrand := by
    obtain ⟨hparent, -, -⟩ := (h.visited i hi).1.parent (Nat.succ_lt_succ_iff.1 hgrand)
    exact ⟨hparent.trans hi, hne⟩

/-- By induction on the slots that are left. -/
theorem SearchInv.pushChildren (slots : List (Fin 4)) {i : ℕ} (hi : i < s.visitedEnd)
    (hdepth : (s.visited i).depth < kMaxBFSPathLen)
    (h : SearchInv m b1 b2 items (1 + slots.length * nodes (5 - (s.visited i).depth))
      (slots.length * nodes (4 - (s.visited i).depth)) s) :
    ∃ items', SearchInv m b1 b2 items' 1 0 (slots.foldl (pushChild m (s.visited i) i) s) ∧
      toPush items' ≤ toPush items + slots.length * nodes (5 - (s.visited i).depth) := by
  induction slots generalizing items s with
  | nil => exact ⟨items, h.mono (Nat.le_add_right _ _) (Nat.zero_le _), Nat.le_add_right _ _⟩
  | cons slot slots ih =>
    rw [foldl_cons, pushChild]
    rw [length_cons, Nat.succ_mul, Nat.succ_mul, ← Nat.add_assoc] at h
    rw [length_cons, Nat.succ_mul]
    split
    · next hne =>
      have hpush : 6 - ((s.visited i).depth + 1) = 5 - (s.visited i).depth := by omega
      have hvisit : 5 - ((s.visited i).depth + 1) = 4 - (s.visited i).depth := by omega
      rw [← hpush, ← hvisit] at h
      have hchild := h.reached_child hi hdepth hne
      have hpushed := h.pushBack (c := ⟨_, (s.visited i).depth + 1, i, slot⟩) hchild
        (h.length_lt hchild.depth_le (Nat.lt_add_right _ Nat.one_pos))
      rw [hpush, hvisit] at hpushed
      obtain ⟨items', hinv, hle⟩ :=
        ih (s := s.pushBack ⟨_, (s.visited i).depth + 1, i, slot⟩) hi hdepth hpushed
      have hsum := toPush_append items ⟨m.altBucket (m.keys ((s.visited i).bucket, slot))
        (s.visited i).bucket,
        (s.visited i).depth + 1, i, slot⟩
      rw [hpush] at hsum
      exact ⟨items', hinv, hle.trans (by dsimp only [Search.pushBack]; omega)⟩
    · obtain ⟨items', hinv, hle⟩ :=
        ih hi hdepth (h.mono (Nat.le_add_right _ _) (Nat.le_add_right _ _))
      exact ⟨items', hinv, hle.trans (by omega)⟩

/-- What the search finds. -/
structure Finds (m : PresizedCuckooMap α) (b1 b2 : ℕ) (r : Found) : Prop where
  notOverrun : r.search.overrun = false
  visited : ∀ i < r.search.visitedEnd,
    Reached m b1 b2 r.search.visited i (r.search.visited i) ∧ Full m (r.search.visited i).bucket
  free : ∀ e slot, r.free = some (e, slot) →
    Reached m b1 b2 r.search.visited r.search.visitedEnd e ∧ m.keys (e.bucket, slot) = kUnusedSlot

/-- A round ends the search or makes the trees smaller. -/
theorem SearchInv.searchRound (h : SearchInv m b1 b2 items 0 0 s) :
    (∃ r, searchRound m k s = .inr r ∧ Finds m b1 b2 r) ∨
      ∃ s' items', searchRound m k s = .inl s' ∧ SearchInv m b1 b2 items' 0 0 s' ∧
      toPush items' < toPush items := by
  rw [PresizedCuckooMap.searchRound]
  cases items with
  | nil =>
    have hempty : s.cpq.isEmpty = true := decide_eq_true (h.queue.head_eq_tail_iff.2 rfl)
    rw [if_pos hempty]
    exact .inl ⟨_, rfl, h.notOverrun, h.visited, nofun⟩
  | cons e items =>
    have hempty : ¬s.cpq.isEmpty = true := fun hempty ↦
      cons_ne_nil e items (h.queue.head_eq_tail_iff.1 (of_decide_eq_true hempty))
    obtain ⟨hpop, hinv⟩ := h.popFront
    have he := h.reached e mem_cons_self
    have hpos := he.depth_pos
    rw [if_neg hempty]
    dsimp only
    rw [hpop, toPush_cons]
    cases hspace : m.spaceAvailable e.bucket with
    | some slot =>
      refine .inl ⟨_, rfl, h.notOverrun, h.visited, ?_⟩
      rintro _ _ ⟨⟩
      exact ⟨he, unused_of_spaceAvailable hspace⟩
    | none =>
      have hfull := full_of_spaceAvailable_eq_none hspace
      dsimp only
      split
      · next hdepth =>
        have hlt := hdepth
        rw [kMaxBFSPathLen] at hlt
        have hpush : nodes (6 - e.depth) = 1 + 4 * nodes (5 - e.depth) := by
          rw [show 6 - e.depth = (5 - e.depth) + 1 by omega, nodes]
        have hvisit : nodes (5 - e.depth) = 4 * nodes (4 - e.depth) + 1 := by
          rw [show 5 - e.depth = (4 - e.depth) + 1 by omega, nodes, Nat.add_comm]
        rw [Nat.zero_add, Nat.zero_add, hpush] at hinv
        have hvisited := (hinv.mono (Nat.le_refl _) hvisit.ge).visit he hfull
        obtain ⟨t, ht⟩ : ∃ t, t = Search.visit { s with cpq := s.cpq.popFront.2 } e := ⟨_, rfl⟩
        rw [← ht] at hvisited ⊢
        have hself : t.visited s.visitedEnd = e := by
          rw [ht]
          exact Function.update_self ..
        have hend : s.visitedEnd < t.visitedEnd := by
          rw [ht]
          exact Nat.lt_succ_self _
        have hlength : (slotsFrom k e.bucket).length = 4 := by simp [slotsFrom]
        obtain ⟨items', hchildren, hle⟩ := SearchInv.pushChildren (slotsFrom k e.bucket) hend
          (by rwa [hself]) (by rwa [hself, hlength])
        rw [hself, hlength] at hle
        rw [hself] at hchildren
        exact .inr ⟨_, items', rfl, hchildren.mono (Nat.zero_le _) (Nat.zero_le _), by omega⟩
      · have hle := he.depth_le
        rw [kMaxBFSPathLen] at hle
        have hsome := nodes_pos (n := 6 - e.depth) (by omega)
        exact .inr ⟨_, items, rfl, hinv.mono (Nat.zero_le _) (Nat.zero_le _), by omega⟩

/-! ### The whole search -/

theorem searchInv_startSearch :
    SearchInv m b1 b2 [⟨b1, 1, 0, 0⟩, ⟨b2, 1, 0, 0⟩] 0 0 (startSearch m b1 b2) := by
  have hempty : SearchInv m b1 b2 [] kMaxQueueSize kVisitedListSize ⟨m.cpq.reset, m.visited, 0,
      false⟩ :=
    ⟨.nil (by decide) _, nofun, nofun, Nat.le_refl _, Nat.le_refl _, rfl⟩
  have hone : SearchInv m b1 b2 ([] ++ [⟨b1, 1, 0, 0⟩]) 341 85 _ :=
    hempty.pushBack (c := ⟨b1, 1, 0, 0⟩) (reached_root (.inl rfl))
      (by decide : 0 + 1 < kMaxQueueSize)
  exact hone.pushBack (c := ⟨b2, 1, 0, 0⟩) (reached_root (.inr rfl))
    (by decide : 1 + 1 < kMaxQueueSize)

/-- **The search ends**, without a write behind the end of the queue or of the visited array. -/
theorem search_ends (m : PresizedCuckooMap α) (k : UInt64) (b1 b2 : ℕ) :
    ∃ r, m.search k b1 b2 = some r ∧ Finds m b1 b2 r :=
  Rounds.exists_loop_of_measure (I := fun j s ↦ ∃ items, SearchInv m b1 b2 items 0 0 s ∧
    toPush items = j)
    (fun _ _ ⟨_, hinv, hitems⟩ ↦ hinv.searchRound.imp id fun ⟨s', items', hround, hinv', hlt⟩ ↦
      ⟨s', _, hround, ⟨items', hinv', rfl⟩, hitems ▸ hlt⟩)
    ⟨_, searchInv_startSearch, rfl⟩ (by decide : 682 < kMaxQueueSize + 1)

end PresizedCuckooMap

end TensorFlowCore
