import Mathlib.Data.Finset.Card

/-!
# Searching for a bad edge

A search takes nodes from a stack, looks at the edges out of each and pushes the nodes that they
lead to and that have not been visited. It stops at the first bad edge. The nodes it starts from are
not visited by that, so that each of them may be pushed once more.

The search ends within a bound (`search_spec`), also where there are cycles, and it ends without
having found an edge exactly when no bad edge can be reached.
-/

namespace TensorFlowCore.StackSearch

open List Relation

variable {V E : Type*} [DecidableEq V] (next : V → List E) (dst : E → V) (bad : E → Bool)

/-- Look at edges: the stack and the visited nodes, or the first bad edge. -/
def scan : List E → List V × List V → Except E (List V × List V)
  | [], s => .ok s
  | e :: es, s =>
    if bad e then .error e
    else scan es (if dst e ∈ s.2 then s else (dst e :: s.1, dst e :: s.2))

/-- A search of at most so many steps. -/
def search : ℕ → List V → List V → Option (Except E Unit)
  | _, [], _ => some (.ok ())
  | 0, _ :: _, _ => none
  | fuel + 1, v :: stack, visited =>
    match scan dst bad (next v) (stack, visited) with
    | .error e => some (.error e)
    | .ok s => search fuel s.1 s.2

/-- There is an edge from one node to the other. -/
def Step (a b : V) : Prop := ∃ e ∈ next a, dst e = b

variable {next dst bad}

theorem scan_eq_error {es : List E} {s : List V × List V} {e : E}
    (h : scan dst bad es s = .error e) : e ∈ es ∧ bad e = true := by
  induction es generalizing s with
  | nil => cases h
  | cons e' es ih =>
    rw [scan] at h
    split at h
    · rename_i hbad
      obtain rfl := Except.error.inj h
      exact ⟨mem_cons_self, hbad⟩
    · obtain ⟨hmem, hbad⟩ := ih h
      exact ⟨mem_cons_of_mem e' hmem, hbad⟩

/-- Edges that are not bad put the new nodes on the stack. -/
theorem scan_eq_ok {es : List E} {stack visited : List V} {s : List V × List V}
    (hnodup : visited.Nodup) (h : scan dst bad es (stack, visited) = .ok s) :
    ∃ new, s = (new ++ stack, new ++ visited) ∧ (new ++ visited).Nodup ∧
    (∀ v ∈ new, ∃ e ∈ es, dst e = v) ∧
      ∀ e ∈ es, bad e = false ∧ dst e ∈ new ++ visited := by
  induction es generalizing stack visited with
  | nil =>
    cases h
    exact ⟨[], by simp, by simpa using hnodup, by simp, by simp⟩
  | cons e es ih =>
    rw [scan] at h
    split at h
    · cases h
    · rename_i hbad
      rw [Bool.not_eq_true] at hbad
      split at h
      · rename_i hmem
        obtain ⟨new, hs, hnodup, hnew, hall⟩ := ih hnodup h
        refine ⟨new, hs, hnodup, fun v hv ↦ ?_, fun e' he' ↦ ?_⟩
        · obtain ⟨e', he', hdst⟩ := hnew v hv
          exact ⟨e', mem_cons_of_mem e he', hdst⟩
        · obtain rfl | he' := mem_cons.1 he'
          · exact ⟨hbad, mem_append_right new hmem⟩
          · exact hall e' he'
      · rename_i hmem
        obtain ⟨new, hs, hnodup, hnew, hall⟩ := ih (nodup_cons.2 ⟨hmem, hnodup⟩) h
        refine ⟨new ++
          [dst e], by simpa using hs, by simpa using hnodup, fun v hv ↦ ?_, fun e' he' ↦ ?_⟩
        · obtain hv | hv := mem_append.1 hv
          · obtain ⟨e', he', hdst⟩ := hnew v hv
            exact ⟨e', mem_cons_of_mem e he', hdst⟩
          · exact ⟨e, mem_cons_self, (mem_singleton.1 hv).symm⟩
        · obtain rfl | he' := mem_cons.1 he'
          · exact ⟨hbad, by simp⟩
          · simpa using hall e' he'

/-- The nodes that the search has come to are on the stack or have no bad edge and only visited
neighbours. -/
structure Searching (next : V → List E) (dst : E → V) (bad : E →
    Bool) (start stack visited : List V) :
    Prop where
  nodup : visited.Nodup
  reachable : ∀ v, v ∈ stack ∨ v ∈ visited → ∃ u ∈ start, ReflTransGen (Step next dst) u v
  closed : ∀ v, v ∈ start ∨ v ∈ visited → v ∈ stack ∨ ∀ e ∈ next v, bad e = false ∧ dst e ∈ visited

/-- What is scanned is visited and pushed together. -/
theorem Searching.step {start stack visited : List V} {v : V} {s : List V × List V}
    (h : Searching next dst bad start (v :: stack) visited)
    (hscan : scan dst bad (next v) (stack, visited) = .ok s) :
    Searching next dst bad start s.1 s.2 ∧ s.1.length + visited.length = stack.length +
      s.2.length := by
  obtain ⟨new, rfl, hnodup, hnew, hall⟩ := scan_eq_ok h.nodup hscan
  have hreach : ∀ w ∈ new, ∃ u ∈ start, ReflTransGen (Step next dst) u w := by
    intro w hw
    obtain ⟨u, hu, hpath⟩ := h.reachable v (.inl mem_cons_self)
    exact ⟨u, hu, hpath.tail (hnew w hw)⟩
  refine ⟨⟨hnodup, fun w hw ↦ ?_, fun w hw ↦ ?_⟩, ?_⟩
  · rcases hw with hw | hw
    · rcases mem_append.1 hw with hw | hw
      · exact hreach w hw
      · exact h.reachable w (.inl (mem_cons_of_mem v hw))
    · rcases mem_append.1 hw with hw | hw
      · exact hreach w hw
      · exact h.reachable w (.inr hw)
  · by_cases hnewmem : w ∈ new
    · exact .inl (mem_append_left stack hnewmem)
    · -- what was known before the step is still known after it
      have hold : w ∈ start ∨ w ∈ visited :=
        hw.imp_right fun hmem ↦ (mem_append.1 hmem).resolve_left hnewmem
      rcases h.closed w hold with hstack | hedges
      · obtain rfl | hstack := mem_cons.1 hstack
        · exact .inr hall
        · exact .inl (mem_append_right new hstack)
      · exact .inr fun e he ↦ ⟨(hedges e he).1, mem_append_right new (hedges e he).2⟩
  · simp only [length_append]
    omega

omit [DecidableEq V] in
/-- With nothing left on the stack, no bad edge can be reached. -/
theorem Searching.not_bad {start visited : List V} (h : Searching next dst bad start [] visited)
    {u v : V}
    (hu : u ∈ start) (hpath : ReflTransGen (Step next dst) u v) : ∀ e ∈ next v, bad e = false := by
  have hmem : v ∈ start ∨ v ∈ visited := by
    induction hpath with
    | refl => exact .inl hu
    | @tail a b _ hab ih =>
      obtain ⟨e, he, rfl⟩ := hab
      exact .inr (((h.closed a ih).resolve_left not_mem_nil) e he).2
  exact fun e he ↦ (((h.closed v hmem).resolve_left not_mem_nil) e he).1

/-- What a search answers. -/
def Answer (next : V → List E) (dst : E → V) (bad : E → Bool) (start : List V) :
    Except E Unit → Prop
  | .ok () => ∀ u ∈ start, ∀ v, ReflTransGen (Step next dst) u v → ∀ e ∈ next v, bad e = false
  | .error e => bad e = true ∧ ∃ u ∈ start, ∃ v, ReflTransGen (Step next dst) u v ∧ e ∈ next v

omit [DecidableEq V] in
/-- The answer is that there is no bad edge, or a bad edge that can be reached. -/
theorem Answer.eq_ok_iff {start : List V} {r : Except E Unit} (h : Answer next dst bad start r) :
    r = .ok () ↔
      ¬ ∃ u ∈ start, ∃ v, ReflTransGen (Step next dst) u v ∧ ∃ e ∈ next v, bad e = true := by
  cases r with
  | ok =>
    refine iff_of_true rfl ?_
    rintro ⟨u, hu, v, hpath, e, he, hbad⟩
    rw [h u hu v hpath e he] at hbad
    exact Bool.false_ne_true hbad
  | error e =>
    obtain ⟨hbad, u, hu, v, hpath, he⟩ := h
    exact iff_of_false nofun (not_not_intro ⟨u, hu, v, hpath, e, he, hbad⟩)

/-- The search ends: no vertex is pushed twice. -/
theorem Searching.exists_search {start stack visited : List V} {U : Finset V} {fuel : ℕ}
    (h : Searching next dst bad start stack visited) (hU : ∀ v ∈ visited, v ∈ U)
    (hnext : ∀ v, ∀ e ∈ next v, dst e ∈ U) (hfuel : stack.length + U.card ≤ fuel + visited.length) :
    ∃ r, search next dst bad fuel stack visited = some r ∧ Answer next dst bad start r := by
  induction fuel generalizing stack visited with
  | zero =>
    have hle : visited.length ≤ U.card := by
      rw [← toFinset_card_of_nodup h.nodup]
      exact Finset.card_le_card fun w hw ↦ hU w (mem_toFinset.1 hw)
    obtain rfl : stack = [] := eq_nil_of_length_eq_zero (by omega)
    exact ⟨.ok (), rfl, fun u hu v hpath ↦ h.not_bad hu hpath⟩
  | succ fuel ih =>
    cases stack with
    | nil => exact ⟨.ok (), rfl, fun u hu v hpath ↦ h.not_bad hu hpath⟩
    | cons v stack =>
      cases hscan : scan dst bad (next v) (stack, visited) with
      | error e =>
        obtain ⟨he, hbad⟩ := scan_eq_error hscan
        obtain ⟨u, hu, hpath⟩ := h.reachable v (.inl mem_cons_self)
        exact ⟨.error e, by rw [search, hscan], hbad, u, hu, v, hpath, he⟩
      | ok s =>
        obtain ⟨hstep, hlength⟩ := h.step hscan
        obtain ⟨new, rfl, -, hnew, -⟩ := scan_eq_ok h.nodup hscan
        rw [length_cons] at hfuel
        have hU' : ∀ w ∈ new ++ visited, w ∈ U := by
          intro w hw
          rcases mem_append.1 hw with hw | hw
          · obtain ⟨e, he, rfl⟩ := hnew w hw
            exact hnext v e he
          · exact hU w hw
        obtain ⟨r, hr, hanswer⟩ := ih hstep hU' (by omega)
        exact ⟨r, by rw [search, hscan]; exact hr, hanswer⟩

/-- **The search ends**, within a step for each node that an edge leads to and one for each node
that it starts from, and its answer is right. -/
theorem search_spec (bad : E → Bool) {start : List V} {U : Finset V} {fuel : ℕ}
    (hnext : ∀ v, ∀ e ∈ next v, dst e ∈ U) (hfuel : start.length + U.card ≤ fuel) :
    ∃ r, search next dst bad fuel start [] = some r ∧ Answer next dst bad start r :=
  Searching.exists_search ⟨nodup_nil, fun v hv ↦ ⟨v, by simpa using hv, .refl⟩,
    fun v hv ↦ .inl (by simpa using hv)⟩ (by simp) hnext (by simpa using hfuel)

end TensorFlowCore.StackSearch
