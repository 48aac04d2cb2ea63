import Mathlib.Data.Finset.Max

/-!
# Closed walks in finite directed graphs

In a finite set of nodes each of which has an edge from the set, some closed walk is entered by no
edge from the rest of the set (`exists_closed_walk`): it visits all of a source component.
-/

namespace TensorFlowCore.ClosedWalk

open List Relation

variable {V E : Type*} (src dst : E → V)

/-- A walk along edges from a node to a node. -/
def IsWalk : V → List E → V → Prop
  | a, [], b => a = b
  | a, e :: es, b => src e = a ∧ IsWalk (dst e) es b

/-- There is an edge with a property between two nodes. -/
def Joined (P : E → Prop) (a b : V) : Prop := ∃ e, P e ∧ src e = a ∧ dst e = b

variable {src dst} {a b c : V} {es es' : List E} {P : E → Prop}

section

variable (h : IsWalk src dst a es b)
include h

theorem IsWalk.append (h' : IsWalk src dst b es' c) : IsWalk src dst a (es ++ es') c := by
  induction es generalizing a with
  | nil =>
    obtain rfl : a = b := h
    exact h'
  | cons e es ih => exact ⟨h.1, ih h.2⟩

/-- A walk ends in the last of the nodes that its edges lead to. -/
theorem IsWalk.mem_map_dst (hne : es ≠ []) : b ∈ es.map dst := by
  induction es generalizing a with
  | nil => exact absurd rfl hne
  | cons e es ih =>
    cases es with
    | nil =>
      obtain rfl : dst e = b := h.2
      exact mem_singleton_self _
    | cons e' es => exact mem_cons_of_mem _ (ih h.2 (cons_ne_nil _ _))

/-- A walk along which a number grows is not closed. -/
theorem IsWalk.lt {f : V → ℕ} (hne : es ≠ []) (hlt : ∀ e ∈ es, f (src e) < f (dst e)) :
    f a < f b := by
  induction es generalizing a with
  | nil => exact absurd rfl hne
  | cons e es ih =>
    obtain ⟨hhead, htail⟩ := forall_mem_cons.1 hlt
    obtain ⟨rfl, hwalk⟩ := h
    by_cases hnil : es = []
    · subst hnil
      obtain rfl : dst e = b := hwalk
      exact hhead
    · exact hhead.trans (ih hwalk hnil htail)

/-- A node of a walk is the end of the walk or the start of an edge of it. -/
theorem IsWalk.exists_src_eq (hc : c ∈ es.map dst) : c = b ∨ ∃ e ∈ es, src e = c := by
  induction es generalizing a with
  | nil => cases hc
  | cons e es ih =>
    obtain rfl | hc := mem_cons.1 hc
    · cases es with
      | nil => exact .inl h.2
      | cons e' es => exact .inr ⟨e', by simp, h.2.1⟩
    · exact (ih h.2 hc).imp_right fun ⟨e', he', hsrc⟩ ↦ ⟨e', mem_cons_of_mem _ he', hsrc⟩

end

/-- Every node of a closed walk is the start of an edge of it. -/
theorem IsWalk.exists_src_eq_of_closed (h : IsWalk src dst a es a) (hc : c ∈ es.map dst) :
    ∃ e ∈ es, src e = c := by
  obtain rfl | he := h.exists_src_eq hc
  · cases es with
    | nil => cases hc
    | cons e es => exact ⟨e, mem_cons_self, h.1⟩
  · exact he

/-- The end of a walk can be reached from its nodes. -/
theorem IsWalk.reach_end (h : IsWalk src dst a es b) (hP : ∀ e ∈ es, P e) :
    ReflTransGen (Joined src dst P) a b ∧
      ∀ c ∈ es.map dst, ReflTransGen (Joined src dst P) c b := by
  induction es generalizing a with
  | nil =>
    obtain rfl : a = b := h
    exact ⟨.refl, by simp⟩
  | cons e es ih =>
    obtain ⟨hPe, hPes⟩ := forall_mem_cons.1 hP
    obtain ⟨hreach, hall⟩ := ih h.2 hPes
    exact ⟨.head ⟨e, hPe, h.1, rfl⟩ hreach, forall_mem_cons.2 ⟨hreach, hall⟩⟩

theorem exists_walk (h : ReflTransGen (Joined src dst P) a b) :
    ∃ es, IsWalk src dst a es b ∧ ∀ e ∈ es, P e := by
  induction h with
  | refl => exact ⟨[], rfl, by simp⟩
  | tail _ hjoined ih =>
    obtain ⟨es, hwalk, hP⟩ := ih
    obtain ⟨e, hPe, rfl, rfl⟩ := hjoined
    refine ⟨es ++ [e], hwalk.append ⟨rfl, rfl⟩, fun e' he' ↦ ?_⟩
    obtain he' | he' := mem_append.1 he'
    · exact hP e' he'
    · exact mem_singleton.1 he' ▸ hPe

/-- Nodes that can be reached from a node, and from which it can be reached, lie on one closed walk
through it. -/
theorem exists_closed_walk_through {cs : List V}
    (hcs : ∀ c ∈ cs, ReflTransGen (Joined src dst P) a c ∧ ReflTransGen (Joined src dst P) c a) :
    ∃ es, IsWalk src dst a es a ∧ (∀ e ∈ es, P e) ∧ ∀ c ∈ cs, c = a ∨ c ∈ es.map dst := by
  induction cs with
  | nil => exact ⟨[], rfl, by simp, by simp⟩
  | cons c cs ih =>
    obtain ⟨⟨hto, hfrom⟩, hrest⟩ := forall_mem_cons.1 hcs
    obtain ⟨es, hwalk, hP, hvisits⟩ := ih hrest
    obtain ⟨es₁, hwalk₁, hP₁⟩ := exists_walk hto
    obtain ⟨es₂, hwalk₂, hP₂⟩ := exists_walk hfrom
    refine ⟨es₁ ++ (es₂ ++ es), hwalk₁.append (hwalk₂.append hwalk), ?_, ?_⟩
    · simp only [mem_append]
      rintro e (he | he | he)
      · exact hP₁ e he
      · exact hP₂ e he
      · exact hP e he
    · refine forall_mem_cons.2 ⟨?_, fun c' hc' ↦ ?_⟩
      · by_cases hnil : es₁ = []
        · subst hnil
          obtain rfl : a = c := hwalk₁
          exact .inl rfl
        · refine .inr ?_
          rw [map_append]
          exact mem_append_left _ (hwalk₁.mem_map_dst hnil)
      · refine (hvisits c' hc').imp_right fun hmem ↦ ?_
        rw [map_append, map_append]
        exact mem_append_right _ (mem_append_right _ hmem)

/-- In a finite set some node can be reached only from nodes that it reaches. -/
theorem exists_source_component (r : V → V → Prop) {S : Finset V} (hne : S.Nonempty) :
    ∃ m ∈ S, ∀ c ∈ S, ReflTransGen r c m → ReflTransGen r m c := by
  classical
  obtain ⟨m, hm, hmin⟩ :=
    S.exists_min_image (fun m ↦ {c ∈ S | ReflTransGen r c m}.card) hne
  refine ⟨m, hm, fun c hc hcm ↦ ?_⟩
  have hsub : {d ∈ S | ReflTransGen r d c} ⊆ {d ∈ S | ReflTransGen r d m} := fun d hd ↦ by
    obtain ⟨hdS, hdc⟩ := Finset.mem_filter.1 hd
    exact Finset.mem_filter.2 ⟨hdS, hdc.trans hcm⟩
  have heq := Finset.eq_of_subset_of_card_le hsub (hmin c hc)
  have hmem : m ∈ {d ∈ S | ReflTransGen r d m} := Finset.mem_filter.2 ⟨hm, .refl⟩
  rw [← heq] at hmem
  exact (Finset.mem_filter.1 hmem).2

/-- In a finite set of nodes each of which has an edge from the set, some closed walk is entered by
no edge from the rest of the set. -/
theorem exists_closed_walk {S : Finset V} (hne : S.Nonempty)
    (hP : ∀ e, P e → src e ∈ S ∧ dst e ∈ S) (hin : ∀ b ∈ S, ∃ e, P e ∧ dst e = b) :
    ∃ a es, es ≠ [] ∧ IsWalk src dst a es a ∧ (∀ e ∈ es, P e) ∧
      ∀ e, P e → dst e ∈ es.map dst → src e ∈ es.map dst := by
  classical
  obtain ⟨m, hm, hsource⟩ := exists_source_component (Joined src dst P) hne
  obtain ⟨e₀, hP₀, hdst₀⟩ := hin m hm
  have hlast : ReflTransGen (Joined src dst P) (src e₀) m := .single ⟨e₀, hP₀, rfl, hdst₀⟩
  obtain ⟨es₁, hwalk₁, hP₁⟩ := exists_walk (hsource _ (hP e₀ hP₀).1 hlast)
  have hboth : ∀ c ∈ (S.filter fun c ↦ ReflTransGen (Joined src dst P) c m).toList,
      ReflTransGen (Joined src dst P) m c ∧ ReflTransGen (Joined src dst P) c m := fun c hc ↦ by
    obtain ⟨hcS, hcm⟩ := Finset.mem_filter.1 (Finset.mem_toList.1 hc)
    exact ⟨hsource c hcS hcm, hcm⟩
  obtain ⟨es₂, hwalk₂, hP₂, hvisits⟩ := exists_closed_walk_through hboth
  have hstep : IsWalk src dst (src e₀) [e₀] m := ⟨rfl, hdst₀⟩
  have hclosed : IsWalk src dst m (es₂ ++ (es₁ ++ [e₀])) m :=
    hwalk₂.append (hwalk₁.append hstep)
  have hallP : ∀ e ∈ es₂ ++ (es₁ ++ [e₀]), P e := by
    simp only [mem_append, mem_singleton]
    rintro e (he | he | rfl)
    · exact hP₂ e he
    · exact hP₁ e he
    · exact hP₀
  refine ⟨m, es₂ ++ (es₁ ++ [e₀]), by simp, hclosed, hallP, fun e hPe hdst ↦ ?_⟩
  have hreach : ReflTransGen (Joined src dst P) (src e) m :=
    .head ⟨e, hPe, rfl, rfl⟩ ((hclosed.reach_end hallP).2 _ hdst)
  have hmem := hvisits (src e) (Finset.mem_toList.2 (Finset.mem_filter.2 ⟨(hP e hPe).1, hreach⟩))
  obtain hend | hmem := hmem
  · rw [hend]
    exact hclosed.mem_map_dst (by simp)
  · rw [map_append]
    exact mem_append_left _ hmem

end TensorFlowCore.ClosedWalk
