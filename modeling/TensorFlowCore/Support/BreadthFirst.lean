import TensorFlowCore.Support.DepthFirst

/-!
# Breadth-first search

A search takes nodes from a queue and appends to it the nodes one step away that have not been
visited. What it has visited in the end is what can be reached from where it started
(`mem_search_iff`).
-/

namespace TensorFlowCore.BreadthFirst

open DepthFirst List Relation

variable {V : Type*} [DecidableEq V] {next : V → List V}

/-- Visit a node: the queue and the visited nodes. -/
def visit (s : List V × List V) (v : V) : List V × List V :=
  if v ∈ s.2 then s else (s.1 ++ [v], s.2 ++ [v])

/-- The nodes that a search of so many steps has visited. -/
def search (next : V → List V) : ℕ → List V → List V → List V
  | 0, _, visited => visited
  | _ + 1, [], visited => visited
  | fuel + 1, v :: queue, visited =>
    let s := (next v).foldl visit (queue, visited)
    search next fuel s.1 s.2

/-- Visiting nodes appends those that are new to both lists. -/
theorem foldl_visit (l queue visited : List V) (hvisited : visited.Nodup) :
    ∃ new, l.foldl visit (queue, visited) = (queue ++ new, visited ++ new) ∧
    (visited ++ new).Nodup ∧
      (∀ v ∈ new, v ∈ l) ∧ ∀ v ∈ l, v ∈ visited ++ new := by
  induction l generalizing queue visited with
  | nil => exact ⟨[], by simp, by simpa using hvisited, by simp, by simp⟩
  | cons v l ih =>
    rw [foldl_cons, visit]
    split
    · rename_i hmem
      obtain ⟨new, hfold, hnodup, hnew, hl⟩ := ih queue visited hvisited
      refine ⟨new, hfold, hnodup, fun w hw ↦ mem_cons_of_mem v (hnew w hw), fun w hw ↦ ?_⟩
      obtain rfl | hw := mem_cons.1 hw
      · exact mem_append_left _ hmem
      · exact hl w hw
    · rename_i hmem
      obtain ⟨new, hfold, hnodup, hnew, hl⟩ := ih (queue ++ [v]) (visited ++ [v])
        (nodup_append.2 ⟨hvisited, nodup_singleton v, by
          rintro a ha b hb rfl
          exact hmem (mem_singleton.1 hb ▸ ha)⟩)
      rw [append_assoc, append_assoc, singleton_append] at hfold
      rw [append_assoc, singleton_append] at hnodup
      refine ⟨v :: new, hfold, hnodup, fun w hw ↦ ?_, fun w hw ↦ ?_⟩
      · obtain rfl | hw := mem_cons.1 hw
        · exact mem_cons_self
        · exact mem_cons_of_mem v (hnew w hw)
      · obtain rfl | hw := mem_cons.1 hw
        · simp
        · simpa using hl w hw

/-- The queue holds the visited nodes whose neighbours may be new. -/
structure Searching (next : V → List V) (start queue visited : List V) : Prop where
  start_subset : ∀ v ∈ start, v ∈ visited
  queue_subset : ∀ v ∈ queue, v ∈ visited
  nodup : visited.Nodup
  reachable : ∀ v ∈ visited, ∃ u ∈ start, ReflTransGen (Step next) u v
  closed : ∀ v ∈ visited, v ∈ queue ∨ ∀ w ∈ next v, w ∈ visited

/-- One node leaves the queue, and its unvisited neighbours enter it. -/
theorem Searching.step {start queue visited : List V} {v : V}
    (h : Searching next start (v :: queue) visited) :
    Searching next start ((next v).foldl visit (queue, visited)).1
        ((next v).foldl visit (queue, visited)).2 ∧
      ((next v).foldl visit (queue, visited)).1.length + visited.length =
        queue.length + ((next v).foldl visit (queue, visited)).2.length := by
  obtain ⟨new, hfold, hnodup, hnew, hall⟩ := foldl_visit (next v) queue visited h.nodup
  rw [hfold]
  refine ⟨⟨fun w hw ↦ mem_append_left _ (h.start_subset w hw), fun w hw ↦ ?_, hnodup,
    fun w hw ↦ ?_, fun w hw ↦ ?_⟩, ?_⟩
  · rcases mem_append.1 hw with hw | hw
    · exact mem_append_left _ (h.queue_subset w (mem_cons_of_mem v hw))
    · exact mem_append_right _ hw
  · rcases mem_append.1 hw with hw | hw
    · exact h.reachable w hw
    · obtain ⟨u, hu, hpath⟩ := h.reachable v (h.queue_subset v mem_cons_self)
      exact ⟨u, hu, hpath.tail (hnew w hw)⟩
  · rcases mem_append.1 hw with hw | hw
    · rcases h.closed w hw with hqueue | hnext
      · obtain rfl | hqueue := mem_cons.1 hqueue
        · exact .inr hall
        · exact .inl (mem_append_left _ hqueue)
      · exact .inr fun x hx ↦ mem_append_left _ (hnext x hx)
    · exact .inl (mem_append_right _ hw)
  · simp only [length_append]
    omega

omit [DecidableEq V] in
/-- With nothing left in the queue, everything that can be reached has been visited. -/
theorem Searching.mem_iff {start visited : List V} (h : Searching next start [] visited) (v : V) :
    v ∈ visited ↔ ∃ u ∈ start, ReflTransGen (Step next) u v := by
  refine ⟨h.reachable v, ?_⟩
  rintro ⟨u, hu, hpath⟩
  induction hpath with
  | refl => exact h.start_subset u hu
  | @tail a b _ hab ih => exact (h.closed a ih).resolve_left not_mem_nil b hab

/-- **The search finds what can be reached**, given fuel for every vertex. -/
theorem Searching.mem_search_iff {start queue visited : List V} {U : Finset V} {fuel : ℕ}
    (h : Searching next start queue visited)
    (hU : ∀ u ∈ start, ∀ v, ReflTransGen (Step next) u v → v ∈ U)
    (hfuel : queue.length + U.card ≤ fuel + visited.length) (v : V) :
    v ∈ search next fuel queue visited ↔ ∃ u ∈ start, ReflTransGen (Step next) u v := by
  induction fuel generalizing queue visited with
  | zero =>
    have hle : visited.length ≤ U.card := by
      rw [← toFinset_card_of_nodup h.nodup]
      refine Finset.card_le_card fun w hw ↦ ?_
      obtain ⟨u, hu, hpath⟩ := h.reachable w (mem_toFinset.1 hw)
      exact hU u hu w hpath
    obtain rfl : queue = [] := eq_nil_of_length_eq_zero (by omega)
    exact h.mem_iff v
  | succ fuel ih =>
    cases queue with
    | nil => exact h.mem_iff v
    | cons w queue =>
      obtain ⟨hstep, hlength⟩ := h.step
      rw [search]
      refine ih hstep ?_
      rw [length_cons] at hfuel
      omega

/-- A search that may take a step for every node that can be reached visits these nodes. -/
theorem mem_search_iff {start : List V} {U : Finset V} {fuel : ℕ} (hstart : start.Nodup)
    (hU : ∀ u ∈ start, ∀ v, ReflTransGen (Step next) u v → v ∈ U) (hfuel : U.card ≤ fuel) (v : V) :
    v ∈ search next fuel start start ↔ ∃ u ∈ start, ReflTransGen (Step next) u v := by
  refine Searching.mem_search_iff ⟨fun _ h ↦ h, fun _ h ↦ h, hstart, fun u hu ↦ ⟨u, hu, .refl⟩,
    fun _ h ↦ .inl h⟩ hU ?_ v
  omega

omit [DecidableEq V] in
/-- Without cycles, in a finite set, a walk that can go on everywhere else gets to the end. -/
theorem reflTransGen_end {r : V → V → Prop} {U : Finset V} {u t : V}
    (hU : ∀ v, ReflTransGen r u v → v ∈ U) (hcycle : ∀ v, ReflTransGen r u v → ¬TransGen r v v)
    (hnext : ∀ v, ReflTransGen r u v → v ≠ t → ∃ w, r v w) : ReflTransGen r u t := by
  classical
  induction hcard : (U.filter fun v ↦ ReflTransGen r u
    v).card using Nat.strongRecOn generalizing u with
  | ind n ih =>
    rcases eq_or_ne u t with rfl | hne
    · exact .refl
    · obtain ⟨w, hw⟩ := hnext u .refl hne
      have hsub : ∀ v, ReflTransGen r w v → ReflTransGen r u v := fun v hv ↦ hv.head hw
      -- what can be reached from the next node is less, as `u` cannot be
      have hlt : (U.filter fun v ↦ ReflTransGen r w v).card < n := by
        rw [← hcard]
        refine Finset.card_lt_card (Finset.ssubset_iff_of_subset ?_ |>.2 ⟨u, ?_, ?_⟩)
        · exact fun v hv ↦ Finset.mem_filter.2
            ⟨(Finset.mem_filter.1 hv).1, hsub v (Finset.mem_filter.1 hv).2⟩
        · exact Finset.mem_filter.2 ⟨hU u .refl, .refl⟩
        · exact fun hu ↦ hcycle u .refl (TransGen.head' hw (Finset.mem_filter.1 hu).2)
      exact (ih _ hlt (fun v hv ↦ hU v (hsub v hv)) (fun v hv ↦ hcycle v (hsub v hv))
        (fun v hv ↦ hnext v (hsub v hv)) rfl).head hw

end TensorFlowCore.BreadthFirst
