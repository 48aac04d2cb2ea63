import TensorFlowCore.Graph.Serialisation
import TensorFlowCore.Support.DepthFirst

/-!
# Walks over graphs

`GetPostOrder`, `GetReversePostOrder` and `ReverseDFS` of `tensorflow/core/graph/algorithm.cc`, and
`Graph::RemoveNode`. In a graph without cycles a reverse post order is a topological order of the
nodes that can be reached from source.
-/

namespace TensorFlowCore

open List

namespace Graph

open DepthFirst Relation

variable {α : Type} (g : Graph α)

/-- `Node::out_nodes`. -/
def outNodes (id : ℕ) : List ℕ := (g.outEdges id).map Edge.dst

/-- `Node::in_nodes`. -/
def inNodes (id : ℕ) : List ℕ := (g.inEdges id).map Edge.src

/-- A bound for the steps of a search: one for each node and for each edge, and one to start. -/
def searchFuel : ℕ := 1 + (g.numNodeIds + g.edges.length)

/-- `GetPostOrder`. -/
def getPostOrder : Option (List ℕ) := search g.outNodes g.searchFuel [⟨kSourceId, false⟩] [] []

/-- `GetReversePostOrder`. -/
def getReversePostOrder : Option (List ℕ) := g.getPostOrder.map List.reverse

/-- The nodes in the order in which `ReverseDFS` leaves them. -/
def reversePostOrderFromSink : Option (List ℕ) :=
  search g.inNodes g.searchFuel [⟨kSinkId, false⟩] [] []

/-- `Graph::RemoveNode`: the node and any edges involving it. -/
def removeNode (id : ℕ) : Graph α :=
  { g with
    nodes := g.nodes.set id none
    edges := g.edges.filter fun e ↦ e.src ≠ id ∧ e.dst ≠ id }

/-- There is an edge between two nodes. -/
def Adjacent (a b : ℕ) : Prop := ∃ e ∈ g.edges, e.src = a ∧ e.dst = b

/-- The graph has no cycle. -/
def Acyclic : Prop := ∀ id, ¬TransGen g.Adjacent id id

/-- Edges are between nodes of the graph. -/
def EdgesExist : Prop :=
  ∀ e ∈ g.edges, (g.findNodeId e.src).isSome = true ∧ (g.findNodeId e.dst).isSome = true

variable {g} {id : ℕ}

/-- Nodes are removed with the edges at them. -/
theorem foldl_removeNode (ids : List ℕ) (g : Graph α) :
    (ids.foldl removeNode g).edges = g.edges.filter (fun e ↦ e.src ∉ ids ∧ e.dst ∉ ids) ∧
      ∀ i, (ids.foldl removeNode g).findNodeId i = if i ∈ ids then none else g.findNodeId i := by
  induction ids generalizing g with
  | nil => simp
  | cons id ids ih =>
    obtain ⟨hedges, hnodes⟩ := ih (g.removeNode id)
    rw [foldl_cons]
    refine ⟨?_, fun i ↦ ?_⟩
    · rw [hedges, removeNode, filter_filter]
      refine filter_congr fun e _ ↦ ?_
      rw [← Bool.decide_and, decide_eq_decide]
      simp only [mem_cons, not_or]
      tauto
    · rw [hnodes]
      rcases eq_or_ne i id with rfl | hne
      · have hnone : (g.removeNode i).findNodeId i = none := by
          rw [removeNode, findNodeId, getElem?_set_self']
          cases g.nodes[i]? <;> rfl
        rw [if_pos mem_cons_self, hnone, ite_self]
      · have hsame : (g.removeNode id).findNodeId i = g.findNodeId i := by
          rw [removeNode, findNodeId, findNodeId, getElem?_set_ne hne.symm]
        simp only [mem_cons, or_iff_right hne, hsame]

theorem step_outNodes : Step g.outNodes = g.Adjacent := by
  funext a b
  simp [Step, outNodes, outEdges, Adjacent, and_assoc]

theorem step_inNodes : Step g.inNodes = Function.swap g.Adjacent := by
  funext a b
  simp [Step, inNodes, inEdges, Adjacent, Function.swap, and_assoc, and_comm]

/-- Edges that lead upwards are on no cycle. -/
theorem acyclic_of_rank (rank : ℕ → ℕ) (hrank : ∀ e ∈ g.edges, rank e.src < rank e.dst) :
    g.Acyclic := by
  have hlt : ∀ {a b}, TransGen g.Adjacent a b → rank a < rank b := by
    intro a b h
    induction h with
    | single h =>
      obtain ⟨e, he, rfl, rfl⟩ := h
      exact hrank e he
    | tail _ h ih =>
      obtain ⟨e, he, rfl, rfl⟩ := h
      exact ih.trans (hrank e he)
  exact fun id h ↦ Nat.lt_irrefl _ (hlt h)

theorem lt_of_isSome (h : (g.findNodeId id).isSome = true) : id < g.numNodeIds := by
  by_contra hle
  rw [findNodeId, getElem?_eq_none (Nat.not_lt.1 hle)] at h
  cases h

theorem lt_of_reachable {start : ℕ} (hedges : g.EdgesExist) (hstart : start < g.numNodeIds)
    (h : ReflTransGen g.Adjacent start id) : id < g.numNodeIds := by
  obtain rfl | ⟨b, -, e, he, -, rfl⟩ := ReflTransGen.cases_tail h
  · exact hstart
  · exact lt_of_isSome (hedges e he).2

/-- Counting edges by one of their ends. -/
theorem sum_length_filter_le (f : Edge → ℕ) (es : List Edge) (N : ℕ) :
    ∑ v ∈ Finset.range N, (es.filter fun e ↦ f e = v).length ≤ es.length := by
  induction es with
  | nil => simp
  | cons e es ih =>
    have hsum : ∑ v ∈ Finset.range N, ((e :: es).filter fun e ↦ f e = v).length =
        ∑ v ∈ Finset.range N, ((es.filter fun e ↦ f e = v).length + if v = f e then 1 else 0) := by
      refine Finset.sum_congr rfl fun v _ ↦ ?_
      rw [filter_cons]
      by_cases hv : f e = v
      · simp [hv]
      · simp [hv, Ne.symm hv]
    rw [hsum, Finset.sum_add_distrib, length_cons]
    have hone : ∑ v ∈ Finset.range N, (if v = f e then 1 else 0) ≤ 1 := by
      rw [Finset.sum_ite_eq']
      split <;> omega
    omega

theorem sum_le_searchFuel {next : ℕ → List ℕ} (f : Edge → ℕ)
    (hnext : ∀ v, (next v).length = (g.edges.filter fun e ↦ f e = v).length) :
    1 + ∑ v ∈ Finset.range g.numNodeIds, (1 + (next v).length) ≤ g.searchFuel := by
  have hones : ∑ v ∈ Finset.range g.numNodeIds, 1 = g.numNodeIds := by simp
  have hle := sum_length_filter_le f g.edges g.numNodeIds
  rw [Finset.sum_add_distrib, hones, searchFuel]
  simp only [hnext]
  omega

/-- A map over a list in which every entry has a value. -/
theorem exists_mapM_eq_some {β γ : Type} {f : β → Option γ} {l : List β}
    (hl : ∀ b ∈ l, (f b).isSome = true) : ∃ l', l.mapM f = some l' ∧ l'.map some = l.map f := by
  induction l with
  | nil => exact ⟨[], rfl, rfl⟩
  | cons b l ih =>
    obtain ⟨c, hc⟩ := Option.isSome_iff_exists.1 (hl b mem_cons_self)
    obtain ⟨l', hl', hmap⟩ := ih fun b' hb' ↦ hl b' (mem_cons_of_mem b hb')
    refine ⟨c :: l', ?_, ?_⟩
    · rw [mapM_cons, hc, hl']
      rfl
    · rw [map_cons, map_cons, hmap, hc]

/-- Entries that are changed can be moved behind the others. -/
theorem map_ite_perm {β : Type} (p : β → Bool) (f : β → β) (l : List β) :
    (l.map fun b ↦ if p b then f b else b).Perm
      (l.filter (fun b ↦ !p b) ++ (l.filter p).map f) := by
  induction l with
  | nil => exact Perm.refl _
  | cons b l ih =>
    cases hb : p b with
    | false => simpa [hb] using ih.cons b
    | true =>
      simp only [map_cons, hb, if_true, filter_cons_of_pos, Bool.not_true, Bool.false_eq_true,
        not_false_eq_true, filter_cons_of_neg]
      exact (ih.cons (f b)).trans perm_middle.symm

theorem reachable_mem_range (hedges : g.EdgesExist) (hsource : kSourceId < g.numNodeIds) (v : ℕ)
    (hv : ReflTransGen (Step g.outNodes) kSourceId v) : v ∈ Finset.range g.numNodeIds :=
  Finset.mem_range.2 (lt_of_reachable hedges hsource (step_outNodes ▸ hv))

theorem length_outNodes (v : ℕ) :
    (g.outNodes v).length = (g.edges.filter fun e ↦ e.src = v).length :=
  length_map _

theorem reverse_eq_of_eq {order before after : List ℕ} {u : ℕ}
    (h : order.reverse = before ++ u :: after) : order = after.reverse ++ u :: before.reverse := by
  rw [← reverse_reverse order, h]
  simp

/-- A reverse post order has every node that can be reached from source once, and an edge leads from
a node to a later one. -/
theorem exists_reversePostOrder (hedges : g.EdgesExist) (hacyclic : g.Acyclic)
    (hsource : kSourceId < g.numNodeIds) :
    ∃ order, g.getReversePostOrder = some order ∧ order.Nodup ∧
      (∀ id, id ∈ order ↔ ReflTransGen g.Adjacent kSourceId id) ∧
      ∀ {before u after}, order = before ++ u :: after → ∀ v ∈ g.outNodes u, v ∈ after := by
  obtain ⟨order, hsearch, hnodup, hmem, hpost⟩ := exists_postOrder
    (by rw [step_outNodes]; exact hacyclic) (reachable_mem_range hedges hsource)
    (sum_le_searchFuel Edge.src length_outNodes)
  refine ⟨order.reverse, ?_, nodup_reverse.2 hnodup, fun id ↦ ?_, fun {before u after} h v hv ↦ ?_⟩
  · rw [getReversePostOrder, getPostOrder, hsearch]
    rfl
  · rw [mem_reverse, hmem, step_outNodes]
  · exact mem_reverse.1 (hpost (reverse_eq_of_eq h) v hv)

/-- In any graph a reverse post order has every node that can be reached from source once, and an
edge that is on no cycle leads from a node to a later one. -/
theorem getReversePostOrder_topological (hedges : g.EdgesExist)
    (hsource : kSourceId < g.numNodeIds) :
    ∃ order, g.getReversePostOrder = some order ∧ order.Nodup ∧
      (∀ id, id ∈ order ↔ ReflTransGen g.Adjacent kSourceId id) ∧
      ∀ e ∈ g.edges, ReflTransGen g.Adjacent kSourceId e.src →
      ¬ReflTransGen g.Adjacent e.dst e.src →
        order.idxOf e.src < order.idxOf e.dst := by
  obtain ⟨order, hsearch, hnodup, hmem, hleave⟩ := exists_leaveOrder
    (reachable_mem_range hedges hsource) (sum_le_searchFuel Edge.src length_outNodes)
  have hmem' : ∀ id, id ∈ order.reverse ↔ ReflTransGen g.Adjacent kSourceId id := fun id ↦ by
    rw [mem_reverse, hmem, step_outNodes]
  refine ⟨order.reverse, ?_, nodup_reverse.2 hnodup, hmem', fun e he hsrc hcycle ↦ ?_⟩
  · rw [getReversePostOrder, getPostOrder, hsearch]
    rfl
  · obtain ⟨before, after, hsplit⟩ := append_of_mem ((hmem' _).2 hsrc)
    have hdst : e.dst ∈ g.outNodes e.src := mem_map.2 ⟨e, by simp [outEdges, he], rfl⟩
    have hafter : e.dst ∈ after := by
      refine mem_reverse.1 ((hleave (reverse_eq_of_eq hsplit) _ hdst).resolve_right fun h ↦ ?_)
      exact hcycle (step_outNodes ▸ h)
    have hnodup' := nodup_reverse.2 hnodup
    rw [hsplit] at hnodup' ⊢
    obtain ⟨-, -, hdisjoint⟩ := nodup_append.1 hnodup'
    have hsrcnot : e.src ∉ before := fun h ↦ hdisjoint _ h _ mem_cons_self rfl
    have hdstnot : e.dst ∉ before := fun h ↦ hdisjoint _ h _ (mem_cons_of_mem _ hafter) rfl
    have hne : e.dst ≠ e.src := fun h ↦ hcycle (h ▸ .refl)
    rw [idxOf_append_of_notMem hsrcnot, idxOf_append_of_notMem hdstnot, idxOf_cons_self,
      idxOf_cons_ne _ hne.symm]
    omega

/-- A graph with two nodes on a cycle between source and sink. -/
def ring : Graph Unit where
  nodes := (new : Graph Unit).nodes ++ [some (endpoint (ascii "a")), some (endpoint (ascii "b"))]
  edges := (new : Graph Unit).edges ++ [⟨kSourceId, kControlSlot, 2, kControlSlot⟩,
    ⟨2, kControlSlot, 3, kControlSlot⟩, ⟨3, kControlSlot, 2, kControlSlot⟩,
    ⟨3, kControlSlot, kSinkId, kControlSlot⟩]
  versions := (new : Graph Unit).versions

theorem getReversePostOrder_topological_ring :
    ∃ order, ring.getReversePostOrder = some order ∧ order.Nodup ∧
      (∀ id, id ∈ order ↔ ReflTransGen ring.Adjacent kSourceId id) ∧
      ∀ e ∈ ring.edges, ReflTransGen ring.Adjacent kSourceId e.src →
        ¬ReflTransGen ring.Adjacent e.dst e.src → order.idxOf e.src < order.idxOf e.dst :=
  getReversePostOrder_topological (by unfold EdgesExist; decide) (by decide)

/-- The nodes that `ReverseDFS` leaves are nodes of the graph, each left once. -/
theorem exists_reversePostOrderFromSink (hedges : g.EdgesExist) (hacyclic : g.Acyclic)
    (hsink : (g.findNodeId kSinkId).isSome = true) :
    ∃ order, g.reversePostOrderFromSink = some order ∧ order.Nodup ∧
      ∀ id ∈ order, (g.findNodeId id).isSome = true := by
  have hlength : ∀ v, (g.inNodes v).length = (g.edges.filter fun e ↦ e.dst = v).length :=
    fun v ↦ length_map _
  have hnode : ∀ v, ReflTransGen (Step g.inNodes) kSinkId v → (g.findNodeId v).isSome = true := by
    intro v hv
    rw [step_inNodes] at hv
    obtain rfl | ⟨b, -, e, he, rfl, -⟩ := ReflTransGen.cases_tail hv
    · exact hsink
    · exact (hedges e he).1
  have hcycle : ∀ v, ¬TransGen (Step g.inNodes) v v := by
    intro v hv
    rw [step_inNodes, transGen_swap] at hv
    exact hacyclic v hv
  obtain ⟨order, hsearch, hnodup, hmem, -⟩ := exists_postOrder hcycle
    (fun v hv ↦ Finset.mem_range.2 (lt_of_isSome (hnode v hv))) (sum_le_searchFuel Edge.dst hlength)
  exact ⟨order, hsearch, hnodup, fun id hid ↦ hnode id ((hmem id).1 hid)⟩

end Graph

end TensorFlowCore
