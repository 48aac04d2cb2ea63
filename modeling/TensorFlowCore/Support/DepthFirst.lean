import Mathlib.Algebra.Order.BigOperators.Group.Finset

/-!
# Depth-first search with an explicit stack

A search that keeps on one stack the nodes to enter and the nodes to leave. It leaves every node
that can be reached once, and after all its successors from which it cannot be reached again
(`exists_leaveOrder`): between the mark for leaving a node and the top of the stack there are only
nodes that can be reached from it, and among them all its successors that have not been left, but
for those on a cycle with it.
-/

namespace TensorFlowCore.DepthFirst

open List Relation

variable {V : Type*}

/-- An entry of the stack: are we entering or leaving the node? -/
structure Work (V : Type*) where
  node : V
  leave : Bool
  deriving DecidableEq

/-- The entries that are pushed for the nodes behind `n`: those not visited, the last one on top. -/
def pushes [DecidableEq V] (next : V → List V) (visited : List V) (n : V) : List (Work V) :=
  ((next n).filter (· ∉ visited)).reverse.map (⟨·, false⟩)

/-- The loop over the stack. It returns the nodes in the order in which they were left. -/
def search [DecidableEq V] (next : V → List V) : ℕ → List (Work V) → List V → List V →
    Option (List V)
  | _, [], _, left => some left
  | 0, _ :: _, _, _ => none
  | fuel + 1, w :: stack, visited, left =>
    if w.leave then search next fuel stack visited (left ++ [w.node])
    else if w.node ∈ visited then search next fuel stack visited left
    else search next fuel (pushes next (w.node :: visited) w.node ++ ⟨w.node, true⟩ :: stack)
      (w.node :: visited) left

variable {next : V → List V} {start n : V} {stack : List (Work V)} {visited left above : List V}

variable (next) in
/-- One node comes directly behind another one. -/
def Step (a b : V) : Prop := b ∈ next a

variable (next) in
/-- The successors of a node that is still to be left have been left, or stand above its mark, or
are on a cycle with it. -/
def Pending (left : List V) : List V → List (Work V) → Prop
  | _, [] => True
  | above, w :: stack =>
    (w.leave = true → ∀ v ∈ next w.node,
        (v ∈ left ∨ v ∈ above) ∨ ReflTransGen (Step next) v w.node) ∧
      Pending left (w.node :: above) stack

variable (next start) in
/-- What holds during the search. -/
structure Searching (stack : List (Work V)) (visited left : List V) : Prop where
  visited_iff : ∀ v, v ∈ visited ↔ v ∈ left ∨ ⟨v, true⟩ ∈ stack
  nodup : left.Nodup
  marks_nodup : stack.Pairwise fun w w' ↦ w.leave = true → w'.leave = true → w.node ≠ w'.node
  disjoint : ∀ w ∈ stack, w.leave = true → w.node ∉ left
  postOrder : ∀ {before u after}, left = before ++ u :: after →
    ∀ v ∈ next u, v ∈ before ∨ ReflTransGen (Step next) v u
  closed : ∀ u ∈ visited, ∀ v ∈ next u, v ∈ visited ∨ v ∈ stack.map Work.node
  pending : Pending next left [] stack
  reach : stack.Pairwise fun x w ↦ w.leave = true → ReflTransGen (Step next) w.node x.node
  start_mem : start ∈ left ∨ start ∈ stack.map Work.node
  reached : ∀ v, v ∈ left ∨ v ∈ stack.map Work.node → ReflTransGen (Step next) start v

theorem Pending.mono {left' above' : List V}
    (hsub : ∀ v, v ∈ left ∨ v ∈ above → v ∈ left' ∨ v ∈ above')
    (h : Pending next left above stack) : Pending next left' above' stack := by
  induction stack generalizing above above' with
  | nil => trivial
  | cons w stack ih =>
    refine ⟨fun hw v hv ↦ (h.1 hw v hv).imp_left (hsub v), ih (fun v hv ↦ ?_) h.2⟩
    rw [mem_cons, or_left_comm] at hv ⊢
    exact hv.imp_right (hsub v)

/-- Entries for entering stand above what is below them and wait for nothing. -/
theorem pending_append {works : List (Work V)} (hworks : ∀ w ∈ works, w.leave = false)
    (h : Pending next left (works.map Work.node ++ above) stack) :
    Pending next left above (works ++ stack) := by
  induction works generalizing above with
  | nil => exact h
  | cons w works ih =>
    obtain ⟨hw, hworks⟩ := forall_mem_cons.1 hworks
    refine ⟨fun hleave ↦ ?_, ih hworks (h.mono fun v hv ↦ ?_)⟩
    · rw [hw] at hleave
      cases hleave
    · simp only [map_cons, cons_append, mem_cons, mem_append] at hv ⊢
      tauto

/-- An entry for a node that is marked below is not needed: what waits for the node is reached from
it. -/
theorem Pending.drop (hmark : ⟨n, true⟩ ∈ stack ∨ n ∈ above)
    (hreach : stack.Pairwise fun x w ↦ w.leave = true → ReflTransGen (Step next) w.node x.node)
    (h : Pending next left (n :: above) stack) : Pending next left above stack := by
  induction stack generalizing above with
  | nil => trivial
  | cons w stack ih =>
    obtain ⟨hhead, htail⟩ := pairwise_cons.1 hreach
    have hswap : Pending next left (n :: w.node :: above) stack := h.2.mono fun v hv ↦ by
      simp only [mem_cons] at hv ⊢
      tauto
    refine ⟨fun hw v hv ↦ ?_, ?_⟩
    · obtain (hleft | hmem) | hcycle := h.1 hw v hv
      · exact .inl (.inl hleft)
      · obtain rfl | hmem := mem_cons.1 hmem
        · obtain hmark | hmem := hmark
          · obtain rfl | hmark := mem_cons.1 hmark
            · exact .inr .refl
            · exact .inr (hhead _ hmark rfl)
          · exact .inl (.inr hmem)
        · exact .inl (.inr hmem)
      · exact .inr hcycle
    · by_cases hw : ⟨n, true⟩ ∈ stack
      · exact ih (.inl hw) htail hswap
      · refine ih (.inr ?_) htail hswap
        obtain hmark | hmem := hmark
        · obtain heq | hmark := mem_cons.1 hmark
          · rw [← heq]
            exact mem_cons_self
          · exact absurd hmark hw
        · exact mem_cons_of_mem _ hmem

/-- The successors of visited nodes are still visited or on the stack when an entry for a visited
node is gone. -/
theorem Searching.closed_tail {w : Work V} (h : Searching next start (w :: stack) visited left)
    (hw : w.node ∈ visited) :
    ∀ u ∈ visited, ∀ v ∈ next u, v ∈ visited ∨ v ∈ stack.map Work.node := by
  intro u hu v hv
  obtain hvisited | hmem := h.closed u hu v hv
  · exact .inl hvisited
  · obtain rfl | hmem := mem_cons.1 hmem
    · exact .inl hw
    · exact .inr hmem

/-- A node is left. -/
theorem Searching.leave (h : Searching next start (⟨n, true⟩ :: stack) visited left) :
    Searching next start stack visited (left ++ [n]) := by
  have hnot : n ∉ left := h.disjoint _ mem_cons_self rfl
  obtain ⟨hmarks, hmarks'⟩ := pairwise_cons.1 h.marks_nodup
  have hvisited : n ∈ visited := (h.visited_iff n).2 (.inr mem_cons_self)
  refine ⟨fun v ↦ ?_, ?_, hmarks', fun w hw hleave hmem ↦ ?_, fun {before u after} heq ↦ ?_,
    fun u hu v hv ↦ h.closed_tail hvisited u hu v hv, ?_, (pairwise_cons.1 h.reach).2, ?_,
    fun v hv ↦ h.reached v ?_⟩
  · rw [h.visited_iff v, mem_append, mem_singleton, mem_cons, or_assoc]
    simp only [Work.mk.injEq, and_true]
  · exact nodup_append.2 ⟨h.nodup, nodup_singleton n, fun a ha b hb hab ↦
      hnot (mem_singleton.1 hb ▸ hab ▸ ha)⟩
  · obtain hmem | hmem := mem_append.1 hmem
    · exact h.disjoint w (mem_cons_of_mem _ hw) hleave hmem
    · exact hmarks w hw rfl hleave (mem_singleton.1 hmem).symm
  · obtain hnil | ⟨after', last, hafter⟩ := eq_nil_or_concat after
    · subst hnil
      obtain ⟨hleft, hu⟩ := append_inj' heq rfl
      obtain rfl := singleton_inj.1 hu
      intro v hv
      obtain (hmem | hmem) | hcycle := h.pending.1 rfl v hv
      · exact .inl (hleft ▸ hmem)
      · cases hmem
      · exact .inr hcycle
    · subst hafter
      rw [concat_eq_append, ← cons_append, ← append_assoc] at heq
      exact h.postOrder (append_inj' heq rfl).1
  · exact h.pending.2.mono fun v hv ↦ by
      simp only [mem_append, mem_cons, not_mem_nil, or_false] at hv ⊢
      exact hv
  · have hstart := h.start_mem
    simp only [map_cons, mem_cons, mem_append, not_mem_nil, or_false]
      at hstart ⊢
    tauto
  · simp only [map_cons, mem_cons, mem_append, not_mem_nil, or_false] at hv ⊢
    tauto

/-- A node that has been visited is not entered again. -/
theorem Searching.skip (h : Searching next start (⟨n, false⟩ :: stack) visited left)
    (hn : n ∈ visited) : Searching next start stack visited left := by
  have hmark : n ∈ left ∨ ⟨n, true⟩ ∈ stack := by
    obtain hleft | hmem := (h.visited_iff n).1 hn
    · exact .inl hleft
    · obtain heq | hmem := mem_cons.1 hmem
      · cases heq
      · exact .inr hmem
  obtain ⟨-, hreach⟩ := pairwise_cons.1 h.reach
  refine ⟨fun v ↦ ?_, h.nodup, (pairwise_cons.1 h.marks_nodup).2,
    fun w hw ↦ h.disjoint w (mem_cons_of_mem _ hw), h.postOrder, h.closed_tail hn, ?_, hreach, ?_,
    fun v hv ↦ h.reached v (hv.imp_right fun hmem ↦ mem_cons_of_mem _ hmem)⟩
  · rw [h.visited_iff v, mem_cons]
    simp
  · obtain hleft | hmem := hmark
    · refine h.pending.2.mono fun v hv ↦ .inl ?_
      obtain hv | hv := hv
      · exact hv
      · exact mem_singleton.1 hv ▸ hleft
    · exact h.pending.2.drop (.inl hmem) hreach
  · obtain hleft | hmem := h.start_mem
    · exact .inl hleft
    · obtain rfl | hmem := mem_cons.1 hmem
      · exact hmark.imp_right fun hmem ↦ mem_map_of_mem hmem
      · exact .inr hmem

section

variable [DecidableEq V]

theorem leave_of_mem_pushes {w : Work V} (hw : w ∈ pushes next visited n) :
    w.leave = false ∧ w.node ∈ next n ∧ w.node ∉ visited := by
  obtain ⟨v, hv, rfl⟩ := mem_map.1 hw
  obtain ⟨hv, hvisited⟩ := mem_filter.1 (mem_reverse.1 hv)
  exact ⟨rfl, hv, by simpa using hvisited⟩

theorem mem_map_pushes {v : V} (hv : v ∈ next n) (hvisited : v ∉ visited) :
    v ∈ (pushes next visited n).map Work.node := by
  refine mem_map.2 ⟨⟨v, false⟩, mem_map.2 ⟨v, ?_, rfl⟩, rfl⟩
  exact mem_reverse.2 (mem_filter.2 ⟨hv, by simpa using hvisited⟩)

/-- A node is entered. -/
theorem Searching.enter (h : Searching next start (⟨n, false⟩ :: stack) visited left)
    (hn : n ∉ visited) :
    Searching next start (pushes next (n :: visited) n ++ ⟨n, true⟩ :: stack) (n :: visited)
    left := by
  have hnot : n ∉ left ∧ ⟨n, true⟩ ∉ stack := by
    rw [h.visited_iff, not_or] at hn
    exact ⟨hn.1, fun hmem ↦ hn.2 (mem_cons_of_mem _ hmem)⟩
  have hpushes : ∀ w ∈ pushes next (n :: visited) n, w.leave = false := fun w hw ↦
    (leave_of_mem_pushes hw).1
  have hnoMark : ∀ v, ⟨v, true⟩ ∉ pushes next (n :: visited) n := fun v hv ↦ by
    cases hpushes _ hv
  obtain ⟨hreachN, hreach⟩ := pairwise_cons.1 h.reach
  obtain ⟨-, hmarks⟩ := pairwise_cons.1 h.marks_nodup
  refine ⟨fun v ↦ ?_, h.nodup, ?_, ?_, h.postOrder, fun u hu v hv ↦ ?_, ?_, ?_, ?_, fun v hv ↦ ?_⟩
  · rw [mem_cons, h.visited_iff v, mem_append, mem_cons, mem_cons]
    have hv := hnoMark v
    simp only [Work.mk.injEq, and_true, and_false, Bool.true_eq_false, false_or, hv]
    tauto
  · refine pairwise_append.2 ⟨?_, pairwise_cons.2 ⟨fun w hw _ hleave heq ↦ ?_, hmarks⟩, ?_⟩
    · refine Pairwise.imp_of_mem (fun {w w'} hw _ _ hleave ↦ ?_) (pairwise_of_forall
        (l := pushes next (n :: visited) n) fun _ _ ↦ trivial)
      rw [hpushes w hw] at hleave
      cases hleave
    · obtain ⟨node, leave⟩ := w
      obtain rfl : leave = true := hleave
      obtain rfl : n = node := heq
      exact hnot.2 hw
    · intro w hw w' _ hleave
      rw [hpushes w hw] at hleave
      cases hleave
  · intro w hw hleave
    obtain hw | hw := mem_append.1 hw
    · rw [hpushes w hw] at hleave
      cases hleave
    · obtain rfl | hw := mem_cons.1 hw
      · exact hnot.1
      · exact h.disjoint w (mem_cons_of_mem _ hw) hleave
  · rw [map_append, map_cons, mem_append]
    by_cases hvisited : v ∈ n :: visited
    · exact .inl hvisited
    · obtain rfl | hu := mem_cons.1 hu
      · exact .inr (.inl (mem_map_pushes hv hvisited))
      · obtain hmem | hmem := h.closed u hu v hv
        · exact absurd (mem_cons_of_mem _ hmem) hvisited
        · exact .inr (.inr hmem)
  · refine pending_append hpushes ⟨fun _ v hv ↦ ?_, ?_⟩
    · by_cases hvisited : v ∈ n :: visited
      · obtain rfl | hvisited := mem_cons.1 hvisited
        · exact .inr .refl
        · obtain hleft | hmem := (h.visited_iff v).1 hvisited
          · exact .inl (.inl hleft)
          · obtain heq | hmem := mem_cons.1 hmem
            · cases heq
            · exact .inr (hreachN _ hmem rfl)
      · exact .inl (.inr (mem_append_left _ (mem_map_pushes hv hvisited)))
    · exact h.pending.2.mono fun v hv ↦ hv.imp_right fun hv ↦ by
        rw [mem_singleton.1 hv]
        exact mem_cons_self
  · refine pairwise_append.2 ⟨?_, pairwise_cons.2 ⟨fun w hw hleave ↦ ?_, hreach⟩, ?_⟩
    · refine Pairwise.imp_of_mem (fun {w w'} _ hw' _ hleave ↦ ?_) (pairwise_of_forall
        (l := pushes next (n :: visited) n) fun _ _ ↦ trivial)
      rw [hpushes w' hw'] at hleave
      cases hleave
    · exact hreachN w hw hleave
    · intro x hx w hw hleave
      have hstep : Step next n x.node := (leave_of_mem_pushes hx).2.1
      obtain rfl | hw := mem_cons.1 hw
      · exact .single hstep
      · exact (hreachN w hw hleave).tail hstep
  · rw [map_append, map_cons, mem_append]
    exact h.start_mem.imp_right .inr
  · rw [map_append, map_cons, mem_append] at hv
    obtain hv | hv | hv := hv
    · exact h.reached v (.inl hv)
    · obtain ⟨w, hw, rfl⟩ := mem_map.1 hv
      exact (h.reached n (.inr mem_cons_self)).tail (leave_of_mem_pushes hw).2.1
    · exact h.reached v (.inr hv)

/-! ### The run -/

/-- What is left to do: the entries of the stack, and for each node not visited its own entries. -/
def work (next : V → List V) (U : Finset V) (stack : List (Work V)) (visited : List V) : ℕ :=
  stack.length + ∑ v ∈ U with v ∉ visited, (1 + (next v).length)

theorem work_enter {U : Finset V} (hU : n ∈ U) (hn : n ∉ visited) :
    work next U (pushes next (n :: visited) n ++ ⟨n, true⟩ :: stack) (n :: visited) <
      work next U (⟨n, false⟩ :: stack) visited := by
  have herase : ({v ∈ U | v ∉ n :: visited} : Finset V) = {v ∈ U | v ∉ visited}.erase n := by
    ext v
    simp only [Finset.mem_filter, Finset.mem_erase, mem_cons, not_or]
    tauto
  have hmem : n ∈ ({v ∈ U | v ∉ visited} : Finset V) := Finset.mem_filter.2 ⟨hU, hn⟩
  have hsum := Finset.sum_erase_add _ (fun v ↦ 1 + (next v).length) hmem
  have hlength : (pushes next (n :: visited) n).length ≤ (next n).length := by
    rw [pushes, length_map, length_reverse]
    exact length_filter_le _ _
  rw [work, work, herase, ← hsum, length_append, length_cons, length_cons]
  omega

/-- The search ends when all has been left. -/
theorem Searching.search {fuel : ℕ} {U : Finset V}
    (hU : ∀ v, ReflTransGen (Step next) start v → v ∈ U)
    (h : Searching next start stack visited left) (hfuel : work next U stack visited ≤ fuel) :
    ∃ order visited', DepthFirst.search next fuel stack visited left = some order ∧
      Searching next start [] visited' order := by
  induction fuel generalizing stack visited left with
  | zero =>
    cases stack with
    | nil => exact ⟨left, visited, rfl, h⟩
    | cons w stack =>
      rw [work, length_cons] at hfuel
      omega
  | succ fuel ih =>
    cases stack with
    | nil => exact ⟨left, visited, rfl, h⟩
    | cons w stack =>
      obtain ⟨n, leave⟩ := w
      have hlen : work next U stack visited ≤ fuel := by
        rw [work, length_cons] at hfuel
        rw [work]
        omega
      rw [DepthFirst.search]
      cases leave with
      | true => exact ih h.leave hlen
      | false =>
        rw [if_neg (by simp)]
        dsimp only
        split
        · rename_i hn
          exact ih (h.skip hn) hlen
        · rename_i hn
          refine ih (h.enter hn) ?_
          have hlt : work next U (pushes next (n :: visited) n ++ ⟨n, true⟩ :: stack)
            (n :: visited) <
              work next U (⟨n, false⟩ :: stack) visited :=
            work_enter (hU n (h.reached n (.inr mem_cons_self))) hn
          omega

omit [DecidableEq V] in
theorem searching_start (next : V → List V) (start : V) :
    Searching next start [⟨start, false⟩] [] [] where
  visited_iff v := by simp
  nodup := nodup_nil
  marks_nodup := pairwise_singleton _ _
  disjoint w _ _ := by simp
  postOrder {before u after} h := by simp at h
  closed u hu := absurd hu not_mem_nil
  pending := ⟨nofun, trivial⟩
  reach := pairwise_singleton _ _
  start_mem := .inr mem_cons_self
  reached v hv := by
    obtain hv | hv := hv
    · cases hv
    · rw [mem_singleton.1 hv]

/-- A search leaves each node that can be reached once, and after all its successors that are on no
cycle with it. -/
theorem exists_leaveOrder {fuel : ℕ} {U : Finset V}
    (hU : ∀ v, ReflTransGen (Step next) start v → v ∈ U)
    (hfuel : 1 + ∑ v ∈ U, (1 + (next v).length) ≤ fuel) :
    ∃ order, search next fuel [⟨start, false⟩] [] [] = some order ∧ order.Nodup ∧
      (∀ v, v ∈ order ↔ ReflTransGen (Step next) start v) ∧
      ∀ {before u after}, order = before ++ u :: after →
        ∀ v ∈ next u, v ∈ before ∨ ReflTransGen (Step next) v u := by
  have hwork : work next U [⟨start, false⟩] [] ≤ fuel := by
    rw [work, length_singleton, Finset.filter_true_of_mem (by simp)]
    exact hfuel
  obtain ⟨order, visited', hsearch, h⟩ := (searching_start next start).search hU hwork
  have hvisited : ∀ v, v ∈ visited' ↔ v ∈ order := fun v ↦ by simp [h.visited_iff v]
  refine ⟨order, hsearch, h.nodup, fun v ↦ ⟨fun hv ↦ h.reached v (.inl hv), fun hv ↦ ?_⟩,
    h.postOrder⟩
  induction hv with
  | refl => exact h.start_mem.resolve_right (by simp)
  | @tail u w _ hstep ih =>
    have hclosed := h.closed u ((hvisited u).2 ih) w hstep
    exact (hvisited w).1 (hclosed.resolve_right not_mem_nil)

/-- Without cycles a search leaves each node that can be reached once, and after all its
successors. -/
theorem exists_postOrder {fuel : ℕ} {U : Finset V} (hacyclic : ∀ v, ¬TransGen (Step next) v v)
    (hU : ∀ v, ReflTransGen (Step next) start v → v ∈ U)
    (hfuel : 1 + ∑ v ∈ U, (1 + (next v).length) ≤ fuel) :
    ∃ order, search next fuel [⟨start, false⟩] [] [] = some order ∧ order.Nodup ∧
      (∀ v, v ∈ order ↔ ReflTransGen (Step next) start v) ∧
      ∀ {before u after}, order = before ++ u :: after → ∀ v ∈ next u, v ∈ before := by
  obtain ⟨order, hsearch, hnodup, hmem, hleave⟩ := exists_leaveOrder hU hfuel
  refine ⟨order, hsearch, hnodup, hmem, fun {before u after} heq v hv ↦ ?_⟩
  exact (hleave heq v hv).resolve_right fun hcycle ↦ hacyclic v (TransGen.tail' hcycle hv)

end

end TensorFlowCore.DepthFirst
