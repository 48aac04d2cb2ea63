import Mathlib
import TensorFlowCore.Graph.ImportGraphDef

/-!
# A failed import

`Undo` only knows the nodes that `name_index_` lists. Every node that an import adds is listed there
as soon as it exists, and every edge that it adds leads to one of them, so `Undo` leaves the graph
as it was before the import (`construct_eq_error`).
-/

namespace TensorFlowCore

open Function List

namespace GraphConstructor

open Std.Do Worklist

set_option mvcgen.warning false

variable {α ω σ η ρ : Type}

/-! ### Steps that keep what has been added -/

/-- A loop keeps what its rounds keep. -/
theorem forM_spec {β : Type} {l : List β} {f : β → Import α ρ Unit} {P E : ImportState α ρ → Prop}
    (h : ∀ b ∈ l, ⦃fun s ↦ ⌜P s⌝⦄ f b ⦃post⟨fun _ s ↦ ⌜P s⌝, fun _ s ↦ ⌜E s⌝⟩⦄) :
    ⦃fun s ↦ ⌜P s⌝⦄ l.forM f ⦃post⟨fun _ s ↦ ⌜P s⌝, fun _ s ↦ ⌜E s⌝⟩⦄ := by
  induction l with
  | nil => mvcgen
  | cons b l ih =>
    show ⦃fun s ↦ ⌜P s⌝⦄ (f b >>= fun _ ↦ l.forM f) ⦃post⟨fun _ s ↦ ⌜P s⌝, fun _ s ↦ ⌜E s⌝⟩⦄
    exact Triple.bind _ _ (h b mem_cons_self) fun _ ↦ ih fun b hb ↦ h b (mem_cons_of_mem _ hb)

theorem ofExcept_spec {β : Type} (x : Except Status β) (s₀ : ImportState α ρ) :
    ⦃fun s ↦ ⌜s = s₀⌝⦄ (MonadExcept.ofExcept x : Import α ρ β)
    ⦃post⟨fun b s ↦ ⌜x = .ok b ∧ s = s₀⌝, fun _ s ↦ ⌜s = s₀⌝⟩⦄ := by
  cases x with
  | ok b => mvcgen [MonadExcept.ofExcept]
  | error e => mvcgen [MonadExcept.ofExcept]

theorem callRefiner_spec {β : Type} (f : ρ → β × ρ) (s₀ : ConvertState α) :
    ⦃fun s ↦ ⌜s.toConvertState = s₀⌝⦄ (callRefiner (α := α) f)
    ⦃post⟨fun _ s ↦ ⌜s.toConvertState = s₀⌝, fun _ s ↦ ⌜s.toConvertState = s₀⌝⟩⦄ := by
  mvcgen [callRefiner]

theorem validateOutputShape_spec (refiner : ShapeRefiner α σ η ρ) (id : ℕ) (node : Node α)
    (p : σ × ℕ) (s₀ : ConvertState α) :
    ⦃fun s ↦ ⌜s.toConvertState = s₀⌝⦄ validateOutputShape refiner id node p
    ⦃post⟨fun _ s ↦ ⌜s.toConvertState = s₀⌝, fun _ s ↦ ⌜s.toConvertState = s₀⌝⟩⦄ := by
  mvcgen [validateOutputShape, callRefiner_spec] <;> simp_all

theorem validateOutputShapes_spec (refiner : ShapeRefiner α σ η ρ) (id : ℕ) (node : Node α)
    (shapes : List (σ × ℕ)) (s₀ : ConvertState α) :
    ⦃fun s ↦ ⌜s.toConvertState = s₀⌝⦄ shapes.forM (validateOutputShape refiner id node)
    ⦃post⟨fun _ s ↦ ⌜s.toConvertState = s₀⌝, fun _ s ↦ ⌜s.toConvertState = s₀⌝⟩⦄ :=
  forM_spec fun p _ ↦ validateOutputShape_spec refiner id node p s₀

/-! ### The invariant -/

/-- `Undo` finds everything that an import of `N` nodes into `g₀` has added. -/
structure Undoable (g₀ : Graph α) (N : ℕ) (s : ConvertState α) : Prop where
  le : g₀.numNodeIds ≤ s.graph.numNodeIds
  nodes_eq : ∀ i < g₀.numNodeIds, s.graph.nodes[i]? = g₀.nodes[i]?
  edges_eq : ∃ new, s.graph.edges = g₀.edges ++ new ∧
    ∀ e ∈ new, g₀.numNodeIds ≤ e.dst ∧ e.dst < s.graph.numNodeIds
  backEdges_new : ∀ e ∈ s.backEdges, g₀.numNodeIds ≤ e.dstNode ∧ e.dstNode < s.graph.numNodeIds
  recorded : ∀ id, g₀.numNodeIds ≤ id → id < s.graph.numNodeIds → ∃ n < N, s.node n = some id
  new_of_node : ∀ n id, s.node n = some id → g₀.numNodeIds ≤ id

/-- The `o`-th node has become the node `id`, and its edges are being added. -/
structure Adding (g₀ : Graph α) (N : ℕ) (node : ℕ → Option ℕ) (worklist : State) (o id : ℕ)
    (s : ConvertState α) : Prop where
  undoable : Undoable g₀ N s
  node_eq : s.node = Function.update node o (some id)
  worklist_eq : s.worklist = worklist
  le : g₀.numNodeIds ≤ id
  lt : id < s.graph.numNodeIds

variable {g₀ g : Graph α} {N : ℕ} {node : ℕ → Option ℕ} {worklist : State} {id o : ℕ}
  {s : ConvertState α}

/-- `Undo` does not look at the counters. -/
@[simp] theorem undoable_mk {processed : ℕ} :
    Undoable g₀ N ⟨s.graph, s.node, worklist, s.backEdges, processed⟩ ↔ Undoable g₀ N s :=
  ⟨fun h ↦ ⟨h.le, h.nodes_eq, h.edges_eq, h.backEdges_new, h.recorded, h.new_of_node⟩,
    fun h ↦ ⟨h.le, h.nodes_eq, h.edges_eq, h.backEdges_new, h.recorded, h.new_of_node⟩⟩

/-- A change of new nodes only. -/
theorem Undoable.of_nodes (h : Undoable g₀ N s) (hsize : g.numNodeIds = s.graph.numNodeIds)
    (hnodes : ∀ i < g₀.numNodeIds, g.nodes[i]? = s.graph.nodes[i]?)
    (hedges : g.edges = s.graph.edges) : Undoable g₀ N { s with graph := g } := by
  refine ⟨hsize ▸ h.le, fun i hi ↦ (hnodes i hi).trans (h.nodes_eq i hi), ?_, ?_, ?_, h.new_of_node⟩
  · rw [hsize, hedges]
    exact h.edges_eq
  · rw [hsize]
    exact h.backEdges_new
  · rw [hsize]
    exact h.recorded

/-- One more edge to a new node. -/
theorem Undoable.addEdge (h : Undoable g₀ N s) {src : ℕ} {x y : ℤ} (hle : g₀.numNodeIds ≤ id)
    (hlt : id < s.graph.numNodeIds) :
    Undoable g₀ N { s with graph := s.graph.addEdge src x id y } := by
  obtain ⟨new, hnew, hdst⟩ := h.edges_eq
  refine ⟨h.le, h.nodes_eq, ⟨new ++ [⟨src, x, id, y⟩], ?_, fun e he ↦ ?_⟩, h.backEdges_new,
    h.recorded,
    h.new_of_node⟩
  · show s.graph.edges ++ _ = _
    rw [hnew, append_assoc]
  · rcases mem_append.1 he with he | he
    · exact hdst e he
    · obtain rfl := mem_singleton.1 he
      exact ⟨hle, hlt⟩

theorem makeEdge_eq_ok {src dst : ℕ} {x y : ℤ} {g' : Graph α}
    (h : makeEdge stray g src x dst y = .ok g') : g' = g ∨ g' = g.addEdge src x dst y := by
  rw [GraphConstructor.makeEdge] at h
  split at h
  · dsimp only at h
    split at h
    · cases h
    · exact .inr (Except.ok.inj h).symm
  · exact .inl (Except.ok.inj h).symm

theorem Undoable.makeEdge (h : Undoable g₀ N s) {src : ℕ} {x y : ℤ} (hle : g₀.numNodeIds ≤ id)
    (hlt : id < s.graph.numNodeIds) (hg : makeEdge stray s.graph src x id y = .ok g) :
    Undoable g₀ N { s with graph := g } := by
  rcases makeEdge_eq_ok hg with rfl | rfl
  · exact h
  · exact h.addEdge hle hlt

theorem numNodeIds_of_makeEdge {src dst : ℕ} {x y : ℤ} {g' : Graph α}
    (h : makeEdge stray g src x dst y = .ok g') : g'.numNodeIds = g.numNodeIds := by
  rcases makeEdge_eq_ok h with rfl | rfl <;> rfl

theorem Adding.clearOutputShapes (registry : ImportRegistry α ω σ)
    (h : Adding g₀ N node worklist o id s) :
    Adding g₀ N node worklist o id { s with graph := clearOutputShapes registry s.graph id } := by
  have hsize : (GraphConstructor.clearOutputShapes registry s.graph id).numNodeIds =
      s.graph.numNodeIds := length_modify _ _ _
  refine ⟨h.undoable.of_nodes hsize (fun i hi ↦ ?_) rfl, h.node_eq, h.worklist_eq, h.le,
    hsize.symm ▸ h.lt⟩
  rw [GraphConstructor.clearOutputShapes]
  exact getElem?_modify_ne _ _ (hi.trans_le h.le).ne'

theorem Adding.of_eq {s' : ConvertState α} (h : Adding g₀ N node worklist o id s) (heq : s' = s) :
    Adding g₀ N node worklist o id s' := heq ▸ h

theorem validateShape_spec [Inhabited α] (g₀ : Graph α) (N : ℕ) (node : ℕ → Option ℕ)
    (worklist : State) (o : ℕ) (registry : ImportRegistry α ω σ) (refiner : ShapeRefiner α σ η ρ)
    (opts : Options) (id : ℕ) :
    ⦃fun s ↦ ⌜Adding g₀ N node worklist o id s.toConvertState⌝⦄ validateShape registry
    refiner opts id
    ⦃post⟨fun _ s ↦ ⌜Adding g₀ N node worklist o id s.toConvertState⌝,
      fun _ s ↦ ⌜Adding g₀ N node worklist o id s.toConvertState⌝⟩⦄ := by
  mvcgen [validateShape, callRefiner_spec, ofExcept_spec, validateOutputShapes_spec]
  case vc4 =>
    rename_i h _ _ h₁ _ _ _ _ _ _ _ _ h₂ _ _ h₃ _
    exact Adding.clearOutputShapes registry (h.of_eq (by rw [h₃, h₂.2, h₁]))
  all_goals simp_all

theorem Adding.backEdge (h : Adding g₀ N node worklist o id s) (name : ByteString) (x y : ℤ) :
    Adding g₀ N node worklist o id { s with backEdges := s.backEdges ++ [⟨name, x, id, y⟩] } := by
  refine ⟨⟨h.undoable.le, h.undoable.nodes_eq, h.undoable.edges_eq, fun e he ↦ ?_,
    h.undoable.recorded,
    h.undoable.new_of_node⟩, h.node_eq, h.worklist_eq, h.le, h.lt⟩
  rcases mem_append.1 he with he | he
  · exact h.undoable.backEdges_new e he
  · obtain rfl := mem_singleton.1 he
    exact ⟨h.le, h.lt⟩

theorem importEdge_spec (stray : List DataType → ℤ → DataType) (id : ℕ) (p : InputInfo × ℕ) :
    ⦃fun s ↦ ⌜Adding g₀ N node worklist o id s.toConvertState⌝⦄
    (importEdge stray id p : Import α ρ Unit)
    ⦃post⟨fun _ s ↦ ⌜Adding g₀ N node worklist o id s.toConvertState⌝,
      fun _ s ↦ ⌜Adding g₀ N node worklist o id s.toConvertState⌝⟩⦄ := by
  mvcgen [importEdge, changeGraph, ofExcept_spec]
  case vc1 h _ =>
    exact h.backEdge _ _ _
  case vc2 h _ _ hg =>
    obtain rfl := Except.ok.inj hg.1
    exact ⟨h.undoable.addEdge h.le h.lt, h.node_eq, h.worklist_eq, h.le, h.lt⟩
  case vc4 h _ _ hg =>
    exact ⟨h.undoable.makeEdge h.le h.lt hg.1, h.node_eq, h.worklist_eq, h.le,
      (numNodeIds_of_makeEdge hg.1).symm ▸ h.lt⟩
  all_goals simp_all

/-- A node is added together with its entry in `name_index_`. -/
theorem Undoable.addNode {added : Option (Node α)} (h : Undoable g₀ N s) (ho : o < N)
    (hnone : s.node o = none) (hnodes : g.nodes = s.graph.nodes ++ [added])
    (hedges : g.edges = s.graph.edges) :
    Adding g₀ N s.node s.worklist o s.graph.numNodeIds
      { s with graph := g, node := Function.update s.node o (some s.graph.numNodeIds) } := by
  have hsize : g.numNodeIds = s.graph.numNodeIds + 1 := by
    rw [Graph.numNodeIds, hnodes, length_append, length_singleton, Graph.numNodeIds]
  have hlt : ∀ {n}, n < s.graph.numNodeIds → n < g.numNodeIds := fun hn ↦ by omega
  obtain ⟨new, hnew, hdst⟩ := h.edges_eq
  refine ⟨⟨?_, fun i hi ↦ ?_,
    ⟨new, hedges.trans hnew, fun e he ↦ ⟨(hdst e he).1, hlt (hdst e he).2⟩⟩,
    fun e he ↦ ⟨(h.backEdges_new e he).1, hlt (h.backEdges_new e he).2⟩, fun id hle hid ↦ ?_,
    fun n id hn ↦ ?_⟩, rfl, rfl, h.le, ?_⟩
  · exact h.le.trans (hsize ▸ Nat.le_succ _)
  · show g.nodes[i]? = _
    rw [hnodes, getElem?_append_left (hi.trans_le h.le), h.nodes_eq i hi]
  · rcases Nat.lt_succ_iff_lt_or_eq.1 (hsize ▸ hid) with hid | rfl
    · obtain ⟨n, hn, hsome⟩ := h.recorded id hle hid
      refine ⟨n, hn, ?_⟩
      show update s.node o _ n = _
      rw [update_of_ne, hsome]
      rintro rfl
      cases hnone.symm.trans hsome
    · exact ⟨o, ho, update_self ..⟩
  · change update s.node o _ n = some id at hn
    rcases eq_or_ne n o with rfl | hne
    · rw [update_self] at hn
      exact Option.some.inj hn ▸ h.le
    · rw [update_of_ne hne] at hn
      exact h.new_of_node n id hn
  · show _ < g.numNodeIds
    rw [hsize]
    exact Nat.lt_succ_self _

theorem createNode_spec [Inhabited α] (registry : ImportRegistry α ω σ) (opts : Options)
    (nodeDef : NodeDef α) (ho : o < N) (hnone : node o = none) :
    ⦃fun s ↦ ⌜Undoable g₀ N s.toConvertState ∧ s.node = node ∧ s.worklist = worklist⌝⦄
    (createNode registry opts o nodeDef : Import α ρ ℕ)
    ⦃post⟨fun id s ↦ ⌜Adding g₀ N node worklist o id s.toConvertState⌝,
      fun _ s ↦ ⌜Undoable g₀ N s.toConvertState⌝⟩⦄ := by
  mvcgen [createNode, ofExcept_spec]
  case vc1 s h r _ hmake =>
    obtain ⟨hundo, rfl, rfl⟩ := h
    obtain rfl :=
      Except.ok.inj ((makeNode_eq (hasSignature_of_makeNode hmake.1)).symm.trans hmake.1)
    exact hundo.addNode ho hnone rfl rfl
  case vc2 =>
    simp_all

theorem importEdges_spec (g₀ : Graph α) (N : ℕ) (node : ℕ → Option ℕ) (worklist : State) (o : ℕ)
    (stray : List DataType → ℤ → DataType) (id : ℕ) (inputs : List (InputInfo × ℕ)) :
    ⦃fun s ↦ ⌜Adding g₀ N node worklist o id s.toConvertState⌝⦄
    (inputs.forM (importEdge stray id) : Import α ρ Unit)
    ⦃post⟨fun _ s ↦ ⌜Adding g₀ N node worklist o id s.toConvertState⌝,
      fun _ s ↦ ⌜Adding g₀ N node worklist o id s.toConvertState⌝⟩⦄ :=
  forM_spec fun p _ ↦ importEdge_spec stray id p

theorem importNode_spec [Inhabited α] (g₀ : Graph α) (worklist : State)
    (registry : ImportRegistry α ω σ) (refiner : ShapeRefiner α σ η ρ)
    (stray : List DataType → ℤ → DataType) (opts : Options) (gdef : GraphDef α)
    (outputs : ℕ → List ℕ) (ho : o < N) (hnone : node o = none) :
    ⦃fun s ↦ ⌜Undoable g₀ N s.toConvertState ∧ s.node = node ∧ s.worklist = worklist⌝⦄
    importNode registry refiner stray opts gdef outputs o
    ⦃post⟨fun _ s ↦ ⌜Undoable g₀ N s.toConvertState ∧
      (∃ id, s.node = Function.update node o (some id)) ∧
        s.worklist = release (outputs o) worklist⌝,
      fun _ s ↦ ⌜Undoable g₀ N s.toConvertState⌝⟩⦄ := by
  have hedges := importEdges_spec (ρ := ρ) g₀ N node worklist o stray
  have hshape := validateShape_spec g₀ N node worklist o registry refiner opts
  mvcgen [importNode, ofExcept_spec, createNode_spec, hedges, hshape]
  case vc9 h _ =>
    exact ⟨undoable_mk.2 h.undoable, ⟨_, h.node_eq⟩, congrArg (release (outputs o)) h.worklist_eq⟩
  case vc10 => exact Adding.undoable
  case vc11 => exact Adding.undoable
  all_goals simp_all

/-- The counters and the entries of `name_index_` agree on which nodes have been converted. -/
structure Counting [Inhabited α] (g₀ : Graph α) (gdef : GraphDef α) (s : ConvertState α) :
    Prop where
  undoable : Undoable g₀ gdef.node.length s
  tracks : ∃ done, Tracks (preds gdef) (need gdef) gdef.node.length done s.worklist ∧
    ∀ n, s.node n = none ↔ n ∉ done

/-- The `o`-th node has been taken from `ready_`. -/
structure Taken [Inhabited α] (g₀ : Graph α) (gdef : GraphDef α) (o : ℕ) (s : ConvertState α) :
    Prop where
  undoable : Undoable g₀ gdef.node.length s
  tracks : ∃ done, Tracks (preds gdef) (need gdef) gdef.node.length done
    ⟨o :: s.worklist.ready, s.worklist.pending⟩ ∧ ∀ n, s.node n = none ↔ n ∉ done

variable [Inhabited α] {gdef : GraphDef α}

theorem Counting.take {ready : List ℕ} {processed : ℕ} (h : Counting g₀ gdef s)
    (hready : s.worklist.ready = o :: ready) :
    Taken g₀ gdef o ⟨s.graph, s.node, ⟨ready, s.worklist.pending⟩, s.backEdges, processed⟩ := by
  obtain ⟨done, htracks, hdone⟩ := h.tracks
  refine ⟨undoable_mk.2 h.undoable, done, ?_, hdone⟩
  show Tracks _ _ _ done ⟨o :: ready, s.worklist.pending⟩
  rw [← hready]
  exact htracks

/-- A node is imported, or what has been imported so far can be undone. -/
theorem importNode_taken_spec (registry : ImportRegistry α ω σ) (refiner : ShapeRefiner α σ η ρ)
    (stray : List DataType → ℤ → DataType) (opts : Options) {s₀ : ImportState α ρ}
    (h : Taken g₀ gdef o s₀.toConvertState) :
    ⦃fun s ↦ ⌜s = s₀⌝⦄ importNode registry refiner stray opts gdef (outputs gdef) o
    ⦃post⟨fun _ s ↦ ⌜Counting g₀ gdef s.toConvertState⌝,
      fun _ s ↦ ⌜Undoable g₀ gdef.node.length s.toConvertState⌝⟩⦄ := by
  obtain ⟨done, htracks, hdone⟩ := h.tracks
  obtain ⟨ho, hnew, -⟩ := (htracks.mem_ready o).1 mem_cons_self
  have hnode := importNode_spec g₀ s₀.worklist registry refiner stray opts gdef (outputs gdef) ho
    ((hdone o).2 hnew)
  mvcgen [hnode]
  case vc1 heq =>
    rw [heq]
    exact ⟨h.undoable, rfl, rfl⟩
  case vc2 =>
    rintro hundo ⟨id, hid⟩ hworklist
    refine ⟨hundo, done ++ [o], ?_, fun n ↦ ?_⟩
    · rw [hworklist]
      exact htracks.take (adjacent gdef)
    · rw [hid, mem_append, mem_singleton, not_or]
      rcases eq_or_ne n o with rfl | hne
      · rw [update_self]
        exact iff_of_false nofun fun hn ↦ hn.2 rfl
      · rw [update_of_ne hne, hdone n]
        exact (and_iff_left hne).symm

theorem importLoop_spec (g₀ : Graph α) (gdef : GraphDef α) (registry : ImportRegistry α ω σ)
    (refiner : ShapeRefiner α σ η ρ) (stray : List DataType → ℤ → DataType) (opts : Options)
    (fuel : ℕ) :
    ⦃fun s ↦ ⌜Counting g₀ gdef s.toConvertState⌝⦄
    importLoop registry refiner stray opts gdef (outputs gdef) fuel
    ⦃post⟨fun _ s ↦ ⌜Counting g₀ gdef s.toConvertState⌝,
      fun _ s ↦ ⌜Undoable g₀ gdef.node.length s.toConvertState⌝⟩⦄ := by
  induction fuel with
  | zero => mvcgen [importLoop]
  | succ fuel ih =>
    have hnode := fun o (s₀ : ImportState α ρ) (h : Taken g₀ gdef o s₀.toConvertState) ↦
      importNode_taken_spec registry refiner stray opts h
    mvcgen [importLoop, hnode, ih]
    case h h _ _ hready =>
      exact h.take hready

theorem importNodes_spec (g₀ : Graph α) (registry : ImportRegistry α ω σ)
    (refiner : ShapeRefiner α σ η ρ) (stray : List DataType → ℤ → DataType) (opts : Options)
    {index : EdgeIndex} (hindex : initFromEdges gdef = .ok index) :
    ⦃fun s ↦ ⌜Undoable g₀ gdef.node.length s.toConvertState ∧ (∀ n, s.node n = none) ∧
      s.worklist = index.worklist⌝⦄
    importNodes registry refiner stray opts gdef index.outputs
    ⦃post⟨fun _ s ↦ ⌜Undoable g₀ gdef.node.length s.toConvertState⌝,
      fun _ s ↦ ⌜Undoable g₀ gdef.node.length s.toConvertState⌝⟩⦄ := by
  obtain rfl := Except.ok.inj ((initFromEdges_eq (known_of_initFromEdges hindex)).symm.trans hindex)
  have hloop := importLoop_spec g₀ gdef registry refiner stray opts gdef.node.length
  change ⦃_⦄ importNodes registry refiner stray opts gdef (outputs gdef) ⦃_⦄
  mvcgen [importNodes, hloop]
  case vc1 h =>
    refine ⟨h.1, [], ?_, fun n ↦ iff_of_true (h.2.1 n) not_mem_nil⟩
    rw [h.2.2]
    exact tracks_edgeIndex gdef
  all_goals exact Counting.undoable ‹_›

omit [Inhabited α] in
theorem Undoable.addBackEdge {stray : List DataType → ℤ → DataType} {s₀ : ConvertState α}
    {e : EdgeInfo}
    (h : Undoable g₀ N s) (he : e ∈ s.backEdges) (hg : addBackEdge stray gdef s₀ s.graph e =
      .ok g) :
    Undoable g₀ N { s with graph := g } := by
  obtain ⟨hle, hlt⟩ := h.backEdges_new e he
  rw [GraphConstructor.addBackEdge] at hg
  split at hg
  · cases hg
    exact h
  · split at hg
    · cases hg
      exact h.addEdge hle hlt
    · exact h.makeEdge hle hlt hg

omit [Inhabited α] in
theorem addBackEdge_spec (g₀ : Graph α) (N : ℕ) (gdef : GraphDef α) (stray : List DataType → ℤ →
    DataType) (s₀ : ConvertState α) {e : EdgeInfo}
    (he : e ∈ s₀.backEdges) :
    ⦃fun s ↦ ⌜Undoable g₀ N s.toConvertState ∧ s.backEdges = s₀.backEdges⌝⦄
    (changeGraph fun g ↦ addBackEdge stray gdef s₀ g e : Import α ρ Unit)
    ⦃post⟨fun _ s ↦ ⌜Undoable g₀ N s.toConvertState ∧ s.backEdges = s₀.backEdges⌝,
      fun _ s ↦ ⌜Undoable g₀ N s.toConvertState⌝⟩⦄ := by
  mvcgen [changeGraph, ofExcept_spec]
  case vc1 h _ _ hg =>
    exact ⟨h.1.addBackEdge (h.2 ▸ he) hg.1, h.2⟩
  case vc2 =>
    simp_all

omit [Inhabited α] in
theorem importBackEdges_spec (g₀ : Graph α) (N : ℕ) (stray : List DataType → ℤ → DataType)
    (gdef : GraphDef α) :
    ⦃fun s ↦ ⌜Undoable g₀ N s.toConvertState⌝⦄ (importBackEdges stray gdef : Import α ρ Unit)
    ⦃post⟨fun _ s ↦ ⌜Undoable g₀ N s.toConvertState⌝,
      fun _ s ↦ ⌜Undoable g₀ N s.toConvertState⌝⟩⦄ := by
  have hloop := fun s₀ : ConvertState α ↦ forM_spec (ρ := ρ) fun e (he : e ∈ s₀.backEdges) ↦
    addBackEdge_spec g₀ N gdef stray s₀ he
  mvcgen [importBackEdges, hloop]
  exact fun h _ ↦ h

omit [Inhabited α] in
theorem undoable_start (g₀ : Graph α) (N : ℕ) :
    Undoable g₀ N ⟨g₀, fun _ ↦ none, worklist, [], 0⟩ where
  le := le_rfl
  nodes_eq _ _ := rfl
  edges_eq := ⟨[], (append_nil _).symm, fun _ he ↦ absurd he not_mem_nil⟩
  backEdges_new _ he := absurd he not_mem_nil
  recorded _ hle hlt := absurd hle (Nat.not_le.2 hlt)
  new_of_node _ _ h := by cases h

theorem tryImport_spec (registry : ImportRegistry α ω σ) (refiner : ShapeRefiner α σ η ρ)
    (stray : List DataType → ℤ → DataType) (opts : Options) (gdef : GraphDef α) (g₀ : Graph α)
    (r : ρ) : ⦃fun s ↦ ⌜s = { graph := g₀, worklist := ⟨[], fun _ ↦ 0⟩, refiner := r }⌝⦄
    tryImport registry refiner stray opts gdef
    ⦃post⟨fun _ _ ↦ ⌜True⌝, fun _ s ↦ ⌜Undoable g₀ gdef.node.length s.toConvertState⌝⟩⦄ := by
  have hnodes := fun index (hindex : initFromEdges gdef = .ok index) ↦
    importNodes_spec g₀ registry refiner stray opts hindex
  have hback := importBackEdges_spec (ρ := ρ) g₀ gdef.node.length stray gdef
  mvcgen [tryImport, ofExcept_spec, hnodes, hback]
  case vc1 h _ => exact h.1
  case vc2 hstart _ _ hnames _ _ hindex _ _ hedges _ =>
    obtain rfl := hedges.2.trans (hindex.2.trans (hnames.2.trans hstart))
    exact ⟨undoable_start g₀ _, fun _ ↦ rfl, rfl⟩
  all_goals
    rintro rfl
    simp_all [undoable_start]

/-! ### `Undo` -/

omit [Inhabited α] in
/-- `Undo` takes back what an import has added. -/
theorem Undoable.undo {s : ImportState α ρ} (hash : HashOrder) (gdef : GraphDef α)
    (versions : VersionDef) (hedges : g₀.EdgesExist)
    (h : Undoable g₀ gdef.node.length s.toConvertState) :
    (∀ id, (undo hash gdef versions s).findNodeId id = g₀.findNodeId id) ∧
      (undo hash gdef versions s).edges = g₀.edges := by
  set ids := (hash.order (range gdef.node.length)).filterMap s.node with hids
  have hmem : ∀ id, id ∈ ids ↔ ∃ n < gdef.node.length, s.node n = some id := fun id ↦ by
    simp [hids, (hash.perm _).mem_iff]
  have hnew : ∀ id ∈ ids, g₀.numNodeIds ≤ id := fun id hid ↦ by
    obtain ⟨n, -, hn⟩ := (hmem id).1 hid
    exact h.new_of_node n id hn
  obtain ⟨hremoved, hfind⟩ := Graph.foldl_removeNode ids s.graph
  refine ⟨fun id ↦ (hfind id).trans ?_, hremoved.trans ?_⟩
  · split
    · rename_i hid
      rw [Graph.findNodeId, getElem?_eq_none (hnew id hid)]
      rfl
    · rename_i hid
      rcases Nat.lt_or_ge id g₀.numNodeIds with hlt | hge
      · rw [Graph.findNodeId, h.nodes_eq id hlt]
        rfl
      · have hsize : s.graph.nodes.length ≤ id := by
          by_contra hlt
          exact hid ((hmem id).2 (h.recorded id hge (Nat.not_le.1 hlt)))
        rw [Graph.findNodeId, Graph.findNodeId, getElem?_eq_none hsize, getElem?_eq_none hge]
  · obtain ⟨new, hnewEdges, hdst⟩ := h.edges_eq
    have hold : ∀ e ∈ g₀.edges, e.src ∉ ids ∧ e.dst ∉ ids := fun e he ↦
      ⟨fun hid ↦ Nat.not_le.2 (Graph.lt_of_isSome (hedges e he).1) (hnew _ hid),
        fun hid ↦ Nat.not_le.2 (Graph.lt_of_isSome (hedges e he).2) (hnew _ hid)⟩
    have hadded : ∀ e ∈ new, ¬(e.src ∉ ids ∧ e.dst ∉ ids) := fun e he hnot ↦
      hnot.2 ((hmem _).2 (h.recorded _ (hdst e he).1 (hdst e he).2))
    rw [hnewEdges, filter_append, filter_eq_self.2 fun e he ↦ decide_eq_true (hold e he),
      filter_eq_nil_iff.2 fun e he ↦ by simpa using hadded e he, append_nil]

theorem undoable_of_tryImport {registry : ImportRegistry α ω σ} {refiner : ShapeRefiner α σ η ρ}
    {opts : Options} {r : ρ} {s : ImportState α ρ} {status : Status}
    (h : tryImport registry refiner stray opts gdef
      { graph := g₀, worklist := ⟨[], fun _ ↦ 0⟩, refiner := r } = (.error status, s)) :
    Undoable g₀ gdef.node.length s.toConvertState := by
  have hspec := tryImport_spec registry refiner stray opts gdef g₀ r _ rfl
  simp [WP.wp, ExceptT.run, StateT.run, Id.run, h] at hspec
  exact hspec

/-- An import that fails leaves the nodes, the edges and the versions of the graph as they were. -/
theorem construct_eq_error (registry : ImportRegistry α ω σ) (refiner : ShapeRefiner α σ η ρ)
    (stray : List DataType → ℤ → DataType) (opts : Options) (hash : HashOrder)
    (tfVersionString : ByteString) (gdef : GraphDef α) {g : Graph α} (hedges : g.EdgesExist) (r : ρ)
    (h : (construct registry refiner stray opts hash tfVersionString gdef g r).1.isOk = false) :
    (∀ id, (construct registry refiner stray opts hash tfVersionString gdef g r).2.1.findNodeId id =
        g.findNodeId id) ∧
      (construct registry refiner stray opts hash tfVersionString gdef g r).2.1.edges.Perm g.edges ∧
      (construct registry refiner stray opts hash tfVersionString gdef g r).2.1.versions =
        g.versions := by
  rw [construct] at h ⊢
  split
  · exact ⟨fun _ ↦ rfl, Perm.refl _, rfl⟩
  · split
    · rename_i s htry
      obtain ⟨hnodes, hedges'⟩ := (undoable_of_tryImport htry).undo hash gdef g.versions hedges
      exact ⟨hnodes, Perm.of_eq hedges', rfl⟩
    · rename_i hcheck _ s htry
      rw [hcheck] at h
      rw [htry] at h
      cases h

/-- The ops on floats, without defaults and shapes. -/
def floatImports : ImportRegistry Unit Unit Unit where
  toOpRegistry := floatOps
  lookUpOpDef _ := .ok ()
  addDefaultsToNodeDef _ nodeDef := nodeDef
  validateNodeDef _ _ := .ok ()
  checkOpDeprecation _ _ := .ok ()
  colocationGroups _ := none
  setColocationGroups _ attr := attr
  outputShapes _ := none
  clearOutputShapes attr := attr

/-- A shape refiner that counts the nodes. -/
def countingRefiner : ShapeRefiner Unit Unit Unit ℕ where
  addNode _ _ n := (.ok (), n + 1)
  makeShapeFromShapeProto _ _ n := (.ok (), n)
  setShape _ _ _ n := (.ok (), n)

/-- A hash table whose entries come in the order in which they were inserted. -/
def insertionOrder : HashOrder where
  order entries := entries
  perm := List.Perm.refl

/-- The last node takes the index that a `Merge` returns for a float. -/
def wrongType : GraphDef Unit :=
  currentGraphDef [⟨ascii "m", ascii "Merge", [ascii "c"], [], ()⟩,
    ⟨ascii "c", ascii "Const", [], [], ()⟩,
    ⟨ascii "i", ascii "Identity", [ascii "m:1"], [], ()⟩]

theorem construct_eq_error_wrongType :
    (∀ id, (construct floatImports countingRefiner (fun _ _ ↦ 0) (importOptions (ascii "p"))
        insertionOrder [] wrongType Graph.ring 0).2.1.findNodeId id =
        Graph.ring.findNodeId id) ∧
      (construct floatImports countingRefiner (fun _ _ ↦ 0) (importOptions (ascii "p"))
        insertionOrder [] wrongType Graph.ring 0).2.1.edges.Perm Graph.ring.edges ∧
      (construct floatImports countingRefiner (fun _ _ ↦ 0) (importOptions (ascii "p"))
        insertionOrder [] wrongType Graph.ring 0).2.1.versions = Graph.ring.versions :=
  construct_eq_error floatImports countingRefiner (fun _ _ ↦ 0) (importOptions (ascii "p"))
    insertionOrder [] wrongType (by unfold Graph.EdgesExist; decide) 0 (by decide +kernel)

end GraphConstructor

end TensorFlowCore
