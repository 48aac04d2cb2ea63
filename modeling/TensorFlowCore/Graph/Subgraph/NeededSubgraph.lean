import TensorFlowCore.Graph.Subgraph.Feeds

/-!
# What is left for the targets

`PruneForTargets` leaves source, sink and the nodes that a target can be reached from, and connects
those that have lost their edges to source and to sink (`pruned_of_pruneForTargets`).
-/

namespace TensorFlowCore.Subgraph

open ExceptPost TensorFlowCore.Graph GraphConstructor List Relation Transfer

variable {α : Type} {g' G : Graph α} {T : List ℕ} {s : Rewriting α} {targetNodes : List ByteString}
  {e : Edge} {id : ℕ}

/-- The node is needed: a target can be reached from it. -/
def Needed (G : Graph α) (T : List ℕ) (id : ℕ) : Prop := ∃ t ∈ T, ReflTransGen G.Adjacent id t

/-- The edges between nodes that are left. -/
def keptEdges (G g' : Graph α) : List Edge :=
  G.edges.filter fun e ↦ (g'.findNodeId e.src).isSome ∧ (g'.findNodeId e.dst).isSome

/-- What is left of a graph for targets. -/
structure Pruned (G : Graph α) (T : List ℕ) (g' : Graph α) : Prop where
  findNodeId_eq_some_iff : ∀ id node, g'.findNodeId id = some node ↔
    G.findNodeId id = some node ∧ (id = kSourceId ∨ id = kSinkId ∨ Needed G T id)
  edges_eq : ∃ extra, (∀ e ∈ extra, IsFixup { g' with edges := keptEdges G g' } e) ∧
    g'.edges = keptEdges G g' ++ extra
  exists_in : ∀ id, (g'.findNodeId id).isSome = true → id ≠ kSourceId → ∃ e ∈ g'.edges, e.dst = id
  exists_out : ∀ id, (g'.findNodeId id).isSome = true → id ≠ kSinkId → ∃ e ∈ g'.edges, e.src = id

theorem needed_of_edge (he : e ∈ G.edges) (h : Needed G T e.dst) : Needed G T e.src := by
  obtain ⟨t, ht, hpath⟩ := h
  exact ⟨t, ht, hpath.head ⟨e, he, rfl, rfl⟩⟩

/-- What `PruneForReverseReachability` visits. -/
theorem mem_search_inNodes_iff (hedges : G.EdgesExist) (hnodup : T.Nodup)
    (hT : ∀ t ∈ T, (G.findNodeId t).isSome = true) (id : ℕ) :
    id ∈ BreadthFirst.search G.inNodes G.numNodeIds T T ↔ Needed G T id := by
  have hU : ∀ t ∈ T, ∀ v, ReflTransGen (DepthFirst.Step G.inNodes) t v →
      v ∈ Finset.range G.numNodeIds := by
    intro t ht v hv
    rw [step_inNodes] at hv
    rw [Finset.mem_range]
    obtain rfl | ⟨b, -, e, he, rfl, -⟩ := ReflTransGen.cases_tail hv
    · exact lt_of_isSome (hT v ht)
    · exact lt_of_isSome (hedges e he).1
  rw [BreadthFirst.mem_search_iff hnodup hU (Finset.card_range _).le, step_inNodes]
  simp only [Needed, reflTransGen_swap]

theorem findNodeId_eq_some_iff_and {p : Prop} {node : Node α} {removed : List ℕ}
    (h : ∀ i, g'.findNodeId i = if i ∈ removed then none else G.findNodeId i)
    (hremoved : (G.findNodeId id).isSome = true → (id ∈ removed ↔ ¬p)) :
    g'.findNodeId id = some node ↔ G.findNodeId id = some node ∧ p := by
  rw [h]
  split
  · rename_i hmem
    refine iff_of_false nofun fun hp ↦ ?_
    exact (hremoved (Option.isSome_iff_exists.2 ⟨node, hp.1⟩)).1 hmem hp.2
  · rename_i hmem
    refine ⟨fun hnode ↦ ⟨hnode, ?_⟩, And.left⟩
    by_contra hp
    exact hmem ((hremoved (Option.isSome_iff_exists.2 ⟨node, hnode⟩)).2 hp)

/-- `PruneForReverseReachability` and `FixupSourceAndSinkEdges`. -/
theorem pruned_of_eq (hedges : G.EdgesExist) (hnodup : T.Nodup)
    (hT : ∀ t ∈ T, (G.findNodeId t).isSome = true)
    (hg' : g' = (pruneForReverseReachability G T).fixupSourceAndSinkEdges) : Pruned G T g' := by
  obtain ⟨removed, hremoved⟩ : ∃ removed, removed = (range G.numNodeIds).filter fun id ↦
      (G.findNodeId id).isSome ∧ id ∉ BreadthFirst.search G.inNodes G.numNodeIds T T ∧
        id ≠ kSourceId ∧ id ≠ kSinkId := ⟨_, rfl⟩
  have hmem : ∀ id, (G.findNodeId id).isSome = true →
      (id ∈ removed ↔ ¬(id = kSourceId ∨ id = kSinkId ∨ Needed G T id)) := by
    intro id hid
    rw [hremoved, mem_filter, decide_eq_true_iff, mem_range,
      mem_search_inNodes_iff hedges hnodup hT, and_iff_right (lt_of_isSome hid), and_iff_right hid]
    tauto
  have hprune : pruneForReverseReachability G T = removed.foldl removeNode G := by
    rw [hremoved, pruneForReverseReachability]
  obtain ⟨hkept, hfind⟩ := foldl_removeNode removed G
  obtain ⟨extra, hextra, hfixup, hends⟩ := fixupSourceAndSinkEdges_spec (removed.foldl removeNode G)
  rw [hprune, hfixup] at hg'
  have hnode : ∀ id, g'.findNodeId id = if id ∈ removed then none else G.findNodeId id :=
    fun id ↦ by
    rw [hg', ← hfind]
    rfl
  have hleft : ∀ id, (G.findNodeId id).isSome = true →
      (id ∉ removed ↔ (g'.findNodeId id).isSome = true) := by
    intro id hid
    rw [hnode]
    split
    · rename_i hmem
      exact iff_of_false (not_not_intro hmem) Bool.false_ne_true
    · rename_i hmem
      exact iff_of_true hmem hid
  have hkeptEdges : (removed.foldl removeNode G).edges = keptEdges G g' := by
    rw [hkept, keptEdges]
    refine filter_congr fun e he ↦ ?_
    rw [decide_eq_decide, hleft _ (hedges e he).1, hleft _ (hedges e he).2]
  have hedges' : g'.edges = keptEdges G g' ++ extra :=
    (congrArg Graph.edges hg').trans (congrArg (· ++ extra) hkeptEdges)
  have hpruned : removed.foldl removeNode G = { g' with edges := keptEdges G g' } := by
    rw [← hkeptEdges, hg']
  have hsome : ∀ id, (g'.findNodeId id).isSome = true →
      ((removed.foldl removeNode G).findNodeId id).isSome = true := fun id hid ↦ by
    rw [hpruned]
    exact hid
  refine ⟨fun id node ↦ findNodeId_eq_some_iff_and hnode (hmem id),
    ⟨extra, fun e he ↦ hpruned ▸ hextra e he,
    hedges'⟩, fun id hid hne ↦ ?_, fun id hid hne ↦ ?_⟩
  · rw [hedges', ← hkeptEdges]
    exact (hends id (hsome id hid)).1 hne
  · rw [hedges', ← hkeptEdges]
    exact (hends id (hsome id hid)).2 hne

/-- Targets that are found under their names. -/
theorem mem_targets_iff : id ∈ targets s targetNodes ↔
    ∃ name ∈ targetNames s targetNodes, targetNode s name = some id := by
  rw [targets, mem_dedup, mem_filterMap]

theorem targetNode_eq_some {name : ByteString} (h : targetNode s name = some id) :
    s.nameIndex (parseTensorName name).1 = some id ∧
      ∃ node, s.graph.findNodeId id = some node ∧ node.name = name := by
  rw [targetNode] at h
  split at h
  · cases h
  · rename_i n hn
    split at h
    · rename_i hname
      cases h
      obtain ⟨node, hnode, hname⟩ := Option.map_eq_some_iff.1 hname
      exact ⟨hn, node, hnode, hname⟩
    · cases h

/-- `PruneForTargets`. -/
theorem pruned_of_pruneForTargets (hedges : s.graph.EdgesExist)
    (h : pruneForTargets s targetNodes = .ok g') :
    (∀ name ∈ targetNames s targetNodes, (targetNode s name).isSome = true) ∧
      Pruned s.graph (targets s targetNodes) g' := by
  rw [pruneForTargets] at h
  split at h
  · cases h
  · rename_i hfound
    rw [not_not, filter_eq_nil_iff] at hfound
    refine ⟨fun name hname ↦ ?_, pruned_of_eq hedges (nodup_dedup _) (fun t ht ↦ ?_)
      (Except.ok.inj h).symm⟩
    · have hsome := hfound name hname
      rwa [Bool.not_eq_true, Option.isNone_eq_false_iff] at hsome
    · obtain ⟨name, -, hname⟩ := mem_targets_iff.1 ht
      obtain ⟨-, node, hnode, -⟩ := targetNode_eq_some hname
      rw [hnode]
      rfl

end TensorFlowCore.Subgraph

/-!
## The graph that a run needs

A rewriting that succeeds leaves what is needed for its targets (`neededSubgraph`). Every slot that
a fed output led to is fed by the `_Recv`, every fetched tensor is read by one `_Send`, and the
other edges stay. Whether the nodes are between source and sink depends on the loops: an op that a
loop needs but that needs no exit of the loop leads nowhere.
-/

namespace TensorFlowCore.Subgraph

open ExceptPost TensorFlowCore.Graph GraphConstructor List Relation Transfer

variable {α : Type} {env : Env α} {g g' G : Graph α} {feeds fetches targetNodes : List ByteString}
  {s s₁ : Rewriting α} {e : Edge} {id : ℕ} {f : Transfer}

/-- Source and sink, as every graph starts with them. -/
structure HasEndpoints (g : Graph α) : Prop where
  source : ∃ node, g.findNodeId kSourceId = some node ∧ node.numOutputs = 0
  sink : (g.findNodeId kSinkId).isSome = true

/-- Two transfers are of the same output. -/
def Transfer.SameOutput (f f' : Transfer) : Prop := f.node = f'.node ∧ f.index = f'.index

/-- No node on a cycle is related to the node. -/
def OffCycles (g : Graph α) (r : ℕ → Prop) : Prop := ∀ v, r v → ¬TransGen g.Adjacent v v

/-- What is left of a graph after feeds and fetches. -/
structure NeededSubgraph (env : Env α) (g : Graph α) (feeds fetches targetNodes : List ByteString)
    (s : Rewriting α) (g' : Graph α) : Prop where
  isFeed : List.Forall₂ (IsFeed env s.graph) feeds s.fed
  isFetch : List.Forall₂ (IsFetch env s.graph) fetches s.fetched
  nodes_eq : ∀ id < g.numNodeIds, s.graph.findNodeId id = g.findNodeId id
  exists_added : ∀ id, g.numNodeIds ≤ id → (s.graph.findNodeId id).isSome = true →
    ∃ f ∈ s.fed ++ s.fetched, f.added = id
  /-- The nodes that are left are those from which a target can be reached. -/
  findNodeId_eq_some_iff : ∀ id node, g'.findNodeId id = some node ↔
    s.graph.findNodeId id = some node ∧
    (id = kSourceId ∨ id = kSinkId ∨ Needed s.graph (targets s targetNodes) id)
  /-- No edge leaves an output that is fed and that no fetch reads. -/
  gone : ∀ f ∈ s.fed, 0 ≤ f.index → (∀ f' ∈ s.fetched, ¬f'.SameOutput f) →
    ∀ e ∈ g'.edges, ¬(e.src = f.node ∧ e.srcOutput = f.index)
  /-- What the output led to is fed by the first `_Recv` for it, if that is not fed itself. -/
  slot : ∀ before f after, s.fed = before ++ f :: after → 0 ≤ f.index →
    (∀ f' ∈ before, ¬f'.SameOutput f) → (∀ f' ∈ after, ¬(f'.node = f.added ∧ f'.index = 0)) →
    ∀ e ∈ g.edges, e.src = f.node → e.srcOutput = f.index →
    Needed s.graph (targets s targetNodes) e.dst →
      ⟨f.added, 0, e.dst, e.dstInput⟩ ∈ g'.edges
  /-- What is fetched is read by a `_Send` that is left, and by one only if nothing else needs
  another. -/
  sent : ∀ f ∈ s.fetched, ∃ f' ∈ s.fetched, f'.SameOutput f ∧
    (g'.findNodeId f'.added).isSome = true ∧
    g'.inEdges f'.added = [⟨f.node, f.index, f'.added, 0⟩] ∧
    (¬Needed s.graph (targets s targetNodes) kSinkId → ∀ f'' ∈ s.fetched, f''.SameOutput f →
      (g'.findNodeId f''.added).isSome = true → f''.added = f'.added)
  /-- Edges that no feed moves are left between nodes that are left. -/
  kept : ∀ e ∈ g.edges, (g'.findNodeId e.src).isSome = true → (g'.findNodeId e.dst).isSome = true →
    (∀ f ∈ s.fed, ¬f.Moves g e) → g'.edges.count e = g.edges.count e
  /-- The other edges between nodes of the graph come from source or lead to sink. -/
  new : ∀ e ∈ g'.edges, e.src < g.numNodeIds → e.dst < g.numNodeIds →
    e ∈ g.edges ∧ (∀ f ∈ s.fed, ¬f.Moves g e) ∨ IsEndpointEdge e
  /-- Feeds keep nodes reachable from source. -/
  source_reaches : (∀ f ∈ s.fed, 0 ≤ f.index) →
    (∀ id, ReflTransGen g.Adjacent kSourceId id → ReflTransGen s.graph.Adjacent kSourceId id) ∧
      ∀ f ∈ s.fed, ReflTransGen s.graph.Adjacent kSourceId f.added
  /-- Nodes can be reached from source if they could be before, or if no cycle leads to them. -/
  from_source : ∀ id, Needed s.graph (targets s targetNodes) id →
    ReflTransGen s.graph.Adjacent kSourceId id ∨ OffCycles g' (ReflTransGen g'.Adjacent · id) →
      ReflTransGen g'.Adjacent kSourceId id
  /-- Nodes lead to sink if they lead to a `_Send`, or to no cycle. -/
  to_sink : ∀ id, (g'.findNodeId id).isSome = true →
    (∃ f ∈ s.fetched, ReflTransGen g'.Adjacent id f.added) ∨
      OffCycles g' (ReflTransGen g'.Adjacent id ·) → ReflTransGen g'.Adjacent id kSinkId

/-! ### Edges after feeds -/

/-- An edge from a fed output is moved to the first `_Recv` for it. -/
theorem moves_eq_target {before after : List Transfer} (hindex : 0 ≤ f.index)
    (hbefore : ∀ f' ∈ before, ¬f'.SameOutput f)
    (hafter : ∀ f' ∈ after, ¬(f'.node = f.added ∧ f'.index = 0)) (hsrc : e.src = f.node)
    (houtput : e.srcOutput = f.index) :
    moves g (before ++ f :: after) e = ⟨f.added, 0, e.dst, e.dstInput⟩ := by
  have hstay : ∀ (fed : List Transfer) (e : Edge), (∀ f' ∈ fed, ¬f'.Moves g e) →
      moves g fed e = e := by
    intro fed e hfed
    induction fed with
    | nil => rfl
    | cons f' fed ih =>
      obtain ⟨hf', hfed⟩ := forall_mem_cons.1 hfed
      show moves g fed (f'.move g e) = e
      rw [move, if_neg hf', ih hfed]
  have hcontrol : ∀ i : ℤ, 0 ≤ i → i ≠ kControlSlot := fun i hi h ↦ absurd (h ▸ hi) (by decide)
  have hfirst : moves g before e = e := hstay before e fun f' hf' hmoves ↦ by
    obtain ⟨hnode, hslot | hslot⟩ := hmoves
    · exact hbefore f' hf' ⟨hnode.symm.trans hsrc, hslot.symm.trans houtput⟩
    · exact hcontrol _ hindex (houtput.symm.trans hslot.1)
  have hmoves : f.Moves g e := ⟨hsrc, .inl houtput⟩
  have hlast : moves g after ⟨f.added, 0, e.dst, e.dstInput⟩ = ⟨f.added, 0, e.dst, e.dstInput⟩ :=
    hstay after _ fun f' hf' hmoves ↦ by
      obtain ⟨hnode, hslot | hslot⟩ := hmoves
      · exact hafter f' hf' ⟨hnode.symm, hslot.symm⟩
      · exact hcontrol 0 le_rfl hslot.1
  have happend : moves g (before ++ f :: after) e = moves g after (f.move g (moves g before e)) :=
    foldl_append
  rw [happend, hfirst, move, if_pos hmoves, target, if_pos houtput, hlast]

/-- Edges between nodes from before: those that no feed moves. -/
theorem Fed.count_eq (h : Fed env g feeds s) (hsrc : e.src < g.numNodeIds)
    (hdst : e.dst < g.numNodeIds) :
    s.graph.edges.count e = if ∀ f ∈ s.fed, ¬f.Moves g e then g.edges.count e else 0 := by
  obtain ⟨new, hperm, hnew, -⟩ := h.edges_perm
  have hnone : new.count e = 0 := count_eq_zero.2 fun he ↦ absurd (hnew e he) (Nat.not_le.2 hdst)
  rw [hperm.count_eq, count_append, hnone, Nat.add_zero, count, countP_map]
  have hmoves : ∀ e', moves g s.fed e' = e ↔ (∀ f ∈ s.fed, ¬f.Moves g e) ∧ e' = e := by
    intro e'
    rcases moves_eq_or (g := g) (fun f hf ↦ h.le_added hf) e' with ⟨heq, hstay⟩ | ⟨hle, f,
      hf, hmoves⟩
    · rw [heq]
      exact ⟨fun he ↦ ⟨he ▸ hstay, he⟩, And.right⟩
    · refine iff_of_false (fun he ↦ ?_) fun he ↦ he.1 f hf (he.2 ▸ hmoves)
      rw [he] at hle
      exact absurd hsrc (Nat.not_lt.2 hle)
  split
  · rename_i hstay
    refine countP_congr fun e' _ ↦ ?_
    show (moves g s.fed e' == e) = true ↔ (e' == e) = true
    rw [beq_iff_eq, beq_iff_eq, hmoves, and_iff_right hstay]
  · rename_i hmoved
    refine countP_eq_zero.2 fun e' _ he ↦ hmoved ?_
    exact ((hmoves e').1 (beq_iff_eq.1 he)).1

/-- Source has no output that could be fed. -/
theorem Fed.node_ne_source (h : Fed env g feeds s) (hg : HasEndpoints g) (hf : f ∈ s.fed)
    (hindex : 0 ≤ f.index) : f.node ≠ kSourceId := by
  intro heq
  obtain ⟨source, hsource, houtputs⟩ := hg.source
  obtain ⟨_, -, hfeed⟩ := exists_of_forall₂ h.isFeed f hf
  obtain ⟨node, hnode, -, hlt, -⟩ := hfeed.replaced
  rw [heq, h.nodes_eq _ (lt_of_findNodeId hsource), hsource] at hnode
  cases hnode
  omega

theorem Fed.source_reaches (h : Fed env g feeds s) (hg : HasEndpoints g)
    (hindex : ∀ f ∈ s.fed, 0 ≤ f.index) :
    (∀ id, ReflTransGen g.Adjacent kSourceId id → ReflTransGen s.graph.Adjacent kSourceId id) ∧
      ∀ f ∈ s.fed, ReflTransGen s.graph.Adjacent kSourceId f.added := by
  obtain ⟨new, hperm, -, hnew⟩ := h.edges_perm
  rw [hnew fun f hf ↦ h.node_ne_source hg hf (hindex f hf)] at hperm
  have hrecv : ∀ f ∈ s.fed, ReflTransGen s.graph.Adjacent kSourceId f.added := fun f hf ↦
    .single ⟨f.recvEdge, hperm.mem_iff.2 (mem_append_right _ (mem_map_of_mem hf)), rfl, rfl⟩
  refine ⟨fun id hpath ↦ ?_, hrecv⟩
  induction hpath with
  | refl => exact .refl
  | tail _ hstep ih =>
    obtain ⟨e, he, rfl, rfl⟩ := hstep
    have hmem : moves g s.fed e ∈ s.graph.edges :=
      hperm.mem_iff.2 (mem_append_left _ (mem_map_of_mem he))
    rcases moves_eq_or (g := g) (fun f hf ↦ h.le_added hf) e with ⟨heq, -⟩ | ⟨hle, -⟩
    · exact ih.tail ⟨e, heq ▸ hmem, rfl, rfl⟩
    · obtain ⟨f, hf, hadded⟩ := h.exists_added hle (lt_of_isSome (h.edgesExist _ hmem).1)
      exact (hrecv f hf).tail ⟨_, hmem, hadded.symm, moves_dst _ e⟩

/-! ### Edges after fetches -/

section

variable (h : Fetched env s₁ fetches s)
include h

theorem Fetched.mem_edges_iff : e ∈ s.graph.edges ↔
    e ∈ s₁.graph.edges ∨ ∃ f ∈ s.fetched, e = ⟨f.node, f.index, f.added, 0⟩ ∨
      e = ⟨f.added, kControlSlot, kSinkId, kControlSlot⟩ := by
  rw [h.edges_eq, mem_append, mem_flatMap]
  simp only [sendEdges, mem_pair]

theorem Fetched.le_added (hf : f ∈ s.fetched) : s₁.graph.numNodeIds ≤ f.added := by
  have hmem := mem_map_of_mem (f := added) hf
  rw [h.added_eq, mem_range'_1] at hmem
  exact hmem.1

theorem Fetched.isSome_of_isSome (hid : (s₁.graph.findNodeId id).isSome = true) :
    (s.graph.findNodeId id).isSome = true := by
  rwa [h.nodes_eq id (lt_of_isSome hid)]

theorem Fetched.edgesExist (hedges : s₁.graph.EdgesExist)
    (hsink : (s₁.graph.findNodeId kSinkId).isSome = true) : s.graph.EdgesExist := by
  intro e he
  rcases h.mem_edges_iff.1 he with he | ⟨f, hf, he⟩
  · exact ⟨h.isSome_of_isSome (hedges e he).1, h.isSome_of_isSome (hedges e he).2⟩
  · obtain ⟨_, -, hfetch⟩ := exists_of_forall₂ h.isFetch f hf
    obtain ⟨_, _, hnode, -, -, -, hadded⟩ := hfetch.sent
    have hnode' := Option.isSome_iff_exists.2 ⟨_, hnode⟩
    have hadded' := Option.isSome_iff_exists.2 ⟨_, hadded⟩
    rcases he with rfl | rfl
    · exact ⟨hnode', hadded'⟩
    · exact ⟨hadded', h.isSome_of_isSome hsink⟩

/-- The only edge to a `_Send`. -/
theorem Fetched.inEdges_eq (hedges : s₁.graph.EdgesExist)
    (hsink : (s₁.graph.findNodeId kSinkId).isSome = true) (hf : f ∈ s.fetched) :
    s.graph.inEdges f.added = [⟨f.node, f.index, f.added, 0⟩] := by
  have hsend : ∀ fetched : List Transfer, (fetched.map added).Nodup → f ∈ fetched →
      (∀ f' ∈ fetched, f'.added ≠ kSinkId) →
      (fetched.flatMap sendEdges).filter (fun e ↦ e.dst = f.added) =
        [⟨f.node, f.index, f.added, 0⟩] := by
    intro fetched hnodup hf hne
    obtain ⟨before, after, rfl⟩ := append_of_mem hf
    have hnone : ∀ l : List Transfer, (∀ f' ∈ l, f'.added ≠ f.added) →
        (l.flatMap sendEdges).filter (fun e ↦ e.dst = f.added) = [] := by
      intro l hl
      rw [filter_eq_nil_iff]
      intro e he
      obtain ⟨f', hf', he⟩ := mem_flatMap.1 he
      rw [decide_eq_true_iff]
      rcases mem_pair.1 he with rfl | rfl
      · exact hl f' hf'
      · exact (hne f hf).symm
    rw [map_append, map_cons, nodup_append, nodup_cons] at hnodup
    obtain ⟨-, ⟨hafter, -⟩, hbefore⟩ := hnodup
    rw [flatMap_append, flatMap_cons, filter_append, filter_append,
      hnone before fun f' hf' ↦ hbefore _ (mem_map_of_mem hf') _ mem_cons_self,
      hnone after fun f' hf' heq ↦ hafter (heq ▸ mem_map_of_mem hf')]
    have hother : kSinkId ≠ f.added := (hne f hf).symm
    simp [sendEdges, hother]
  have hold : s₁.graph.edges.filter (fun e ↦ e.dst = f.added) = [] := by
    rw [filter_eq_nil_iff]
    intro e he
    rw [decide_eq_true_iff]
    exact ((lt_of_isSome (hedges e he).2).trans_le (h.le_added hf)).ne
  rw [inEdges, h.edges_eq, filter_append, hold, nil_append]
  refine hsend _ ?_ hf fun f' hf' ↦ ((lt_of_isSome hsink).trans_le (h.le_added hf')).ne'
  rw [h.added_eq]
  exact nodup_range'

/-- A `_Send` only leads to sink. -/
theorem Fetched.dst_eq (hedges : s₁.graph.EdgesExist) (hf : f ∈ s.fetched) (he : e ∈ s.graph.edges)
    (hsrc : e.src = f.added) : e.dst = kSinkId := by
  rcases h.mem_edges_iff.1 he with he | ⟨f', hf', rfl | rfl⟩
  · exact absurd (lt_of_isSome (hedges e he).1) (Nat.not_lt.2 (hsrc ▸ h.le_added hf))
  · -- a `_Send` has no outputs
    obtain ⟨_, -, hfetch⟩ := exists_of_forall₂ h.isFetch f hf
    obtain ⟨_, _, -, -, -, -, hadded⟩ := hfetch.sent
    obtain ⟨_, -, hfetch'⟩ := exists_of_forall₂ h.isFetch f' hf'
    obtain ⟨node, _, hnode, -, hlt, -⟩ := hfetch'.sent
    rw [show f'.node = f.added from hsrc, hadded] at hnode
    cases hnode
    exact absurd hlt (Int.not_lt.2 hfetch'.nonneg)
  · rfl

end

/-! ### What is left -/

namespace Pruned

variable {T : List ℕ}

section

variable (h : Pruned G T g')
include h

theorem isSome_of_needed (hid : (G.findNodeId id).isSome = true) (hneeded : Needed G T id) :
    (g'.findNodeId id).isSome = true := by
  obtain ⟨node, hnode⟩ := Option.isSome_iff_exists.1 hid
  exact Option.isSome_iff_exists.2
    ⟨node, (h.findNodeId_eq_some_iff id node).2 ⟨hnode, .inr (.inr hneeded)⟩⟩

theorem mem_keptEdges_of_needed (hedges : G.EdgesExist) (he : e ∈ G.edges)
    (hneeded : Needed G T e.dst) : e ∈ keptEdges G g' :=
  mem_filter.2 ⟨he, decide_eq_true ⟨h.isSome_of_needed (hedges e he).1 (needed_of_edge he hneeded),
    h.isSome_of_needed (hedges e he).2 hneeded⟩⟩

theorem mem_edges_of_mem_keptEdges (he : e ∈ keptEdges G g') : e ∈ g'.edges := by
  obtain ⟨extra, -, heq⟩ := h.edges_eq
  exact heq ▸ mem_append_left _ he

theorem edgesExist (hsource : (G.findNodeId kSourceId).isSome = true)
    (hsink : (G.findNodeId kSinkId).isSome = true) : g'.EdgesExist := by
  obtain ⟨extra, hextra, heq⟩ := h.edges_eq
  obtain ⟨source, hsource⟩ := Option.isSome_iff_exists.1 hsource
  obtain ⟨sink, hsink⟩ := Option.isSome_iff_exists.1 hsink
  have hsource' :=
    Option.isSome_iff_exists.2 ⟨source, (h.findNodeId_eq_some_iff _ _).2 ⟨hsource, .inl rfl⟩⟩
  have hsink' :=
    Option.isSome_iff_exists.2 ⟨sink, (h.findNodeId_eq_some_iff _ _).2 ⟨hsink, .inr (.inl rfl)⟩⟩
  intro e he
  rw [heq] at he
  rcases mem_append.1 he with he | he
  · exact decide_eq_true_iff.1 (mem_filter.1 he).2
  · obtain ⟨id, hid, ⟨-, -, rfl⟩ | ⟨-, -, rfl⟩⟩ := hextra e he
    · exact ⟨hsource', hid⟩
    · exact ⟨hid, hsink'⟩

/-- A walk to a node that is needed is left. -/
theorem reflTransGen_of_needed (hedges : G.EdgesExist) {u v : ℕ}
    (hpath : ReflTransGen G.Adjacent u v) (hneeded : Needed G T v) :
    ReflTransGen g'.Adjacent u v := by
  induction hpath using ReflTransGen.head_induction_on with
  | refl => exact .refl
  | head hstep hpath ih =>
    obtain ⟨e, he, rfl, rfl⟩ := hstep
    obtain ⟨t, ht, hpath'⟩ := hneeded
    refine ih.head ⟨e, h.mem_edges_of_mem_keptEdges ?_, rfl, rfl⟩
    exact h.mem_keptEdges_of_needed hedges he ⟨t, ht, hpath.trans hpath'⟩

end

theorem isSome_of_reflTransGen (hedges : g'.EdgesExist) {u v : ℕ}
    (hu : (g'.findNodeId u).isSome = true) (hpath : ReflTransGen g'.Adjacent u v) :
    (g'.findNodeId v).isSome = true := by
  obtain rfl | ⟨b, -, e, he, -, rfl⟩ := ReflTransGen.cases_tail hpath
  · exact hu
  · exact (hedges e he).2

section

variable {id : ℕ} (h : Pruned G T g') (hedges : g'.EdgesExist)
  (hid : (g'.findNodeId id).isSome = true)
include h hedges hid

/-- A node from which no cycle can be reached leads to sink. -/
theorem to_sink (hcycle : OffCycles g' (ReflTransGen g'.Adjacent id ·)) :
    ReflTransGen g'.Adjacent id kSinkId := by
  have hsome : ∀ v, ReflTransGen g'.Adjacent id v → (g'.findNodeId v).isSome = true :=
    fun v hv ↦ isSome_of_reflTransGen hedges hid hv
  refine BreadthFirst.reflTransGen_end (U := Finset.range g'.numNodeIds)
    (fun v hv ↦ Finset.mem_range.2 (lt_of_isSome (hsome v hv))) hcycle fun v hv hne ↦ ?_
  obtain ⟨e, he, rfl⟩ := h.exists_out v (hsome v hv) hne
  exact ⟨e.dst, e, he, rfl, rfl⟩

/-- A node that no cycle leads to can be reached from source. -/
theorem from_source (hcycle : OffCycles g' (ReflTransGen g'.Adjacent · id)) :
    ReflTransGen g'.Adjacent kSourceId id := by
  have hsome : ∀ v, ReflTransGen g'.Adjacent v id → (g'.findNodeId v).isSome = true := fun v hv ↦ by
    obtain rfl | ⟨b, ⟨e, he, rfl, -⟩, -⟩ := ReflTransGen.cases_head hv
    · exact hid
    · exact (hedges e he).1
  rw [← reflTransGen_swap]
  refine BreadthFirst.reflTransGen_end (U := Finset.range g'.numNodeIds) (fun v hv ↦ ?_)
    (fun v hv ↦ ?_)
    fun v hv hne ↦ ?_
  · exact Finset.mem_range.2 (lt_of_isSome (hsome v (reflTransGen_swap.1 hv)))
  · rw [transGen_swap]
    exact hcycle v (reflTransGen_swap.1 hv)
  · obtain ⟨e, he, rfl⟩ := h.exists_in v (hsome v (reflTransGen_swap.1 hv)) hne
    exact ⟨e.src, e, he, rfl, rfl⟩

end

/-- Edges of the graph that are left have their number from before. -/
theorem count_eq (h : Pruned G T g') (he : e ∈ keptEdges G g') :
    g'.edges.count e = G.edges.count e := by
  obtain ⟨extra, hextra, heq⟩ := h.edges_eq
  have hnone : extra.count e = 0 := count_eq_zero.2 fun hmem ↦ by
    obtain ⟨id, -, ⟨-, hempty, rfl⟩ | ⟨-, hempty, rfl⟩⟩ := hextra e hmem
    · exact filter_eq_nil_iff.1 hempty _ he (decide_eq_true rfl)
    · exact filter_eq_nil_iff.1 hempty _ he (decide_eq_true rfl)
  rw [heq, count_append, hnone, Nat.add_zero, keptEdges, count_filter]
  exact (mem_filter.1 he).2

theorem inEdges_eq (h : Pruned G T g') (hin : G.inEdges e.dst = [e]) (he : e ∈ keptEdges G g')
    (hsink : e.dst ≠ kSinkId) : g'.inEdges e.dst = [e] := by
  obtain ⟨extra, hextra, heq⟩ := h.edges_eq
  have hkept : (keptEdges G g').filter (fun e' ↦ e'.dst = e.dst) = [e] := by
    rw [keptEdges, filter_filter]
    have hcomm : G.edges.filter (fun e' ↦ decide (e'.dst = e.dst) &&
        decide ((g'.findNodeId e'.src).isSome ∧ (g'.findNodeId e'.dst).isSome)) =
        (G.inEdges e.dst).filter fun e' ↦ (g'.findNodeId e'.src).isSome ∧
        (g'.findNodeId e'.dst).isSome := by
      rw [inEdges, filter_filter]
      exact filter_congr fun e' _ ↦ Bool.and_comm _ _
    rw [hcomm, hin]
    exact filter_eq_self.2 (forall_mem_singleton.2 (mem_filter.1 he).2)
  rw [inEdges, heq, filter_append, hkept]
  refine (append_right_eq_self ..).2 (filter_eq_nil_iff.2 fun e' he' ↦ ?_)
  rw [decide_eq_true_iff]
  rintro hdst
  obtain ⟨id, -, ⟨-, hempty, rfl⟩ | ⟨-, -, rfl⟩⟩ := hextra e' he'
  · exact filter_eq_nil_iff.1 hempty _ he (decide_eq_true hdst.symm)
  · exact hsink hdst.symm

end Pruned

/-! ### The rewriting -/

/-- The name of a `_Send`, which is a target. -/
theorem Fetched.exists_sendName (h : Fetched env s₁ fetches s) (targetNodes : List ByteString)
    (hf : f ∈ s.fetched) :
    ∃ node send, s.graph.findNodeId f.node = some node ∧ s.graph.findNodeId f.added = some send ∧
      send.name = sendName (node.name, f.index) ∧ send.name ∈ targetNames s targetNodes := by
  obtain ⟨t, -, hfetch⟩ := exists_of_forall₂ h.isFetch f hf
  obtain ⟨node, input, hnode, hname, -, -, hsend⟩ := hfetch.sent
  refine ⟨node, _, hnode, hsend, ?_, mem_append_left _ (mem_filterMap.2 ⟨f, hf, ?_⟩)⟩
  · show sendName (parseTensorName t) = _
    rw [hname, hfetch.index_eq]
  · rw [hsend]
    rfl

/-- A `_Send` that is a target is the one that the index leads to. -/
theorem Fetched.nameIndex_eq (h : Fetched env s₁ fetches s) {node send : Node α}
    (hsend : s.graph.findNodeId f.added = some send)
    (hname : send.name = sendName (node.name, f.index)) (hmem : f.added ∈ targets s targetNodes) :
    s.nameIndex (sendName (node.name, f.index)) = some f.added := by
  obtain ⟨name, -, htarget⟩ := mem_targets_iff.1 hmem
  obtain ⟨hindex, node', hnode', -⟩ := targetNode_eq_some htarget
  obtain ⟨node'', hnode'', hname''⟩ := h.indexed _ _ hindex
  obtain rfl := Option.some.inj (hsend.symm.trans hnode'')
  rwa [← hname, hname'']

theorem isSome_of_needed (hedges : s.graph.EdgesExist)
    (h : Needed s.graph (targets s targetNodes) id) : (s.graph.findNodeId id).isSome = true := by
  obtain ⟨t, ht, hpath⟩ := h
  obtain rfl | ⟨b, ⟨e, he, rfl, -⟩, -⟩ := ReflTransGen.cases_head hpath
  · obtain ⟨name, -, htarget⟩ := mem_targets_iff.1 ht
    obtain ⟨-, node, hnode, -⟩ := targetNode_eq_some htarget
    exact Option.isSome_iff_exists.2 ⟨node, hnode⟩
  · exact (hedges e he).1

/-- One `_Send` for a tensor is a target. -/
theorem Fetched.exists_sent (h : Fetched env s₁ fetches s)
    (hfound : ∀ name ∈ targetNames s targetNodes, (targetNode s name).isSome = true)
    (hf : f ∈ s.fetched) : ∃ f' ∈ s.fetched, f'.SameOutput f ∧ f'.added ∈ targets s targetNodes ∧
      ∀ f'' ∈ s.fetched, f''.SameOutput f → f''.added ∈ targets s targetNodes →
      f''.added = f'.added := by
  obtain ⟨node, send, hnode, hsend, hname, hmem⟩ := h.exists_sendName targetNodes hf
  obtain ⟨f', hf', hsame, hindex, hlatest⟩ := h.latest f hf node hnode
  have htarget : targetNode s send.name = some f'.added := by
    obtain ⟨id, hid⟩ := Option.isSome_iff_exists.1 (hfound _ hmem)
    obtain ⟨hid', node', hnode', hname'⟩ := targetNode_eq_some hid
    obtain ⟨node'', hnode'', hname''⟩ := h.indexed _ _ hid'
    obtain rfl := Option.some.inj (hnode'.symm.trans hnode'')
    rw [← hname'', hname', hname, hlatest] at hid'
    rw [hid, Option.some.inj hid']
  refine ⟨f', hf', ⟨hsame, hindex⟩, mem_targets_iff.2 ⟨_, hmem, htarget⟩,
    fun f'' hf'' hsame'' hmem'' ↦ ?_⟩
  obtain ⟨node'', send'', hnode'', hsend'', hname'', -⟩ := h.exists_sendName targetNodes hf''
  have hindex'' := h.nameIndex_eq hsend'' hname'' hmem''
  rw [hsame''.1, hnode] at hnode''
  cases hnode''
  rw [hsame''.2, hlatest] at hindex''
  exact (Option.some.inj hindex'').symm

/-- A rewriting leaves what is needed for its targets. -/
theorem neededSubgraph (env : Env α) (g g' : Graph α) (feeds fetches targetNodes : List ByteString)
    (hg : HasEndpoints g) (hedges : g.EdgesExist)
    (h : rewriteGraphForExecution env g feeds fetches targetNodes = .ok g') :
    ∃ s, feedAndFetch env g feeds fetches = .ok s ∧
      NeededSubgraph env g feeds fetches targetNodes s g' := by
  obtain ⟨-, -, -, s, hs, hprune⟩ := rewriteGraphForExecution_eq_ok_iff.1 h
  refine ⟨s, hs, ?_⟩
  have hsource : (g.findNodeId kSourceId).isSome = true :=
    Option.isSome_iff_exists.2 (hg.source.imp fun _ ↦ And.left)
  obtain ⟨s₁, hfed, hfetched⟩ := exists_fed_fetched hedges hsource hs
  have hle : g.numNodeIds ≤ s₁.graph.numNodeIds := hfed.numNodeIds_eq ▸ Nat.le_add_right _ _
  have hnodes : ∀ id < g.numNodeIds, s.graph.findNodeId id = g.findNodeId id := fun id hid ↦
    (hfetched.nodes_eq id (hid.trans_le hle)).trans (hfed.nodes_eq id hid)
  have hsource₁ : (s.graph.findNodeId kSourceId).isSome = true := by
    rwa [hnodes _ (lt_of_isSome hsource)]
  have hsink₁ : (s₁.graph.findNodeId kSinkId).isSome = true := by
    rw [hfed.nodes_eq _ (lt_of_isSome hg.sink)]
    exact hg.sink
  have hsink : (s.graph.findNodeId kSinkId).isSome = true := hfetched.isSome_of_isSome hsink₁
  have hedges₁ : s.graph.EdgesExist := hfetched.edgesExist hfed.edgesExist hsink₁
  obtain ⟨hfound, hpruned⟩ := pruned_of_pruneForTargets hedges₁ hprune
  have hedges' : g'.EdgesExist := hpruned.edgesExist hsource₁ hsink
  have hfedEq : s.fed = s₁.fed := hfetched.fed_eq
  have hsub : ∀ e ∈ s₁.graph.edges, e ∈ s.graph.edges :=
    fun e he ↦ hfetched.mem_edges_iff.2 (.inl he)
  have hcount : ∀ e : Edge, e.src < g.numNodeIds → e.dst < g.numNodeIds →
      s.graph.edges.count e = if ∀ f ∈ s.fed, ¬f.Moves g e then g.edges.count e else 0 := by
    intro e hsrc hdst
    have hnone : (s.fetched.flatMap sendEdges).count e = 0 := count_eq_zero.2 fun he ↦ by
      obtain ⟨f, hf, he⟩ := mem_flatMap.1 he
      have hadded := hle.trans (hfetched.le_added hf)
      rcases mem_pair.1 he with rfl | rfl
      · exact absurd hdst (Nat.not_lt.2 hadded)
      · exact absurd hsrc (Nat.not_lt.2 hadded)
    rw [hfetched.edges_eq, count_append, hnone, Nat.add_zero, hfedEq, hfed.count_eq hsrc hdst]
  refine ⟨?_, hfetched.isFetch, hnodes, ?_, hpruned.findNodeId_eq_some_iff, ?_, ?_, ?_, ?_, ?_,
    ?_, ?_, ?_⟩
  · rw [hfedEq]
    exact hfed.isFeed.imp fun _ _ hf ↦ hf.mono hfetched.nodes_eq
  · intro id hid hsome
    rcases Nat.lt_or_ge id s₁.graph.numNodeIds with hlt | hge
    · obtain ⟨f, hf, hadded⟩ := hfed.exists_added hid hlt
      exact ⟨f, mem_append_left _ (hfedEq ▸ hf), hadded⟩
    · have hmem : id ∈ s.fetched.map added := by
        rw [hfetched.added_eq, mem_range'_1]
        exact ⟨hge, hfetched.numNodeIds_eq ▸ lt_of_isSome hsome⟩
      obtain ⟨f, hf, hadded⟩ := mem_map.1 hmem
      exact ⟨f, mem_append_right _ hf, hadded⟩
  · intro f hf hindex hnot e he hout
    have hcontrol : e.srcOutput ≠ kControlSlot := fun heq ↦ by
      rw [← hout.2, heq] at hindex
      exact absurd hindex (by decide)
    obtain ⟨extra, hextra, heq⟩ := hpruned.edges_eq
    rw [heq] at he
    rcases mem_append.1 he with he | he
    · rcases hfetched.mem_edges_iff.1 (mem_filter.1 he).1 with he | ⟨f', hf', rfl | rfl⟩
      · exact hfed.gone f (hfedEq ▸ hf) hindex e he hout
      · exact hnot f' hf' hout
      · exact hcontrol rfl
    · exact hcontrol (hextra e he).isEndpointEdge.srcOutput_eq
  · intro before f after hsplit hindex hbefore hafter e he hsrc houtput hneeded
    obtain ⟨new, hperm, -⟩ := hfed.edges_perm
    have hmem : (⟨f.added, 0, e.dst, e.dstInput⟩ : Edge) ∈ s₁.graph.edges := by
      rw [← moves_eq_target (g := g) hindex hbefore hafter hsrc houtput, ← hsplit, hfedEq]
      exact hperm.mem_iff.2 (mem_append_left _ (mem_map_of_mem he))
    exact hpruned.mem_edges_of_mem_keptEdges (hpruned.mem_keptEdges_of_needed hedges₁ (hsub _ hmem)
      hneeded)
  · intro f hf
    obtain ⟨f', hf', hsame, htarget, hunique⟩ := hfetched.exists_sent hfound hf
    have hneeded : Needed s.graph (targets s targetNodes) f'.added := ⟨_, htarget, .refl⟩
    have hmem : (⟨f'.node, f'.index, f'.added, 0⟩ : Edge) ∈ s.graph.edges :=
      hfetched.mem_edges_iff.2 (.inr ⟨f', hf', .inl rfl⟩)
    have hin := hfetched.inEdges_eq hfed.edgesExist hsink₁ hf'
    have hne : f'.added ≠ kSinkId := ((lt_of_isSome hsink₁).trans_le (hfetched.le_added hf')).ne'
    refine ⟨f', hf', hsame, hpruned.isSome_of_needed (hedges₁ _ hmem).2 hneeded, ?_, ?_⟩
    · rw [← hsame.1, ← hsame.2]
      exact hpruned.inEdges_eq hin (hpruned.mem_keptEdges_of_needed hedges₁ hmem hneeded) hne
    · intro hsinkNot f'' hf'' hsame'' hleft
      refine hunique f'' hf'' hsame'' ?_
      obtain ⟨node, hnode⟩ := Option.isSome_iff_exists.1 hleft
      have hle'' := hle.trans (hfetched.le_added hf'')
      obtain ⟨-, heq | heq | ⟨t, ht, hpath⟩⟩ := (hpruned.findNodeId_eq_some_iff _ _).1 hnode
      · exact absurd (heq ▸ hle'') (Nat.not_le.2 (lt_of_isSome hsource))
      · exact absurd (heq ▸ hle'') (Nat.not_le.2 (lt_of_isSome hg.sink))
      · -- a `_Send` only reaches itself and what sink reaches
        obtain rfl | ⟨b, ⟨e, he, hsrc, rfl⟩, hpath⟩ := ReflTransGen.cases_head hpath
        · exact ht
        · rw [hfetched.dst_eq hfed.edgesExist hf'' he hsrc] at hpath
          exact absurd ⟨t, ht, hpath⟩ hsinkNot
  · intro e he hsrc hdst hstay
    have hmem : e ∈ s.graph.edges := by
      rw [← count_pos_iff, hcount e (lt_of_isSome (hedges e he).1) (lt_of_isSome (hedges e he).2),
        if_pos hstay]
      exact count_pos_iff.2 he
    rw [hpruned.count_eq (mem_filter.2 ⟨hmem, decide_eq_true ⟨hsrc, hdst⟩⟩),
      hcount e (lt_of_isSome (hedges e he).1) (lt_of_isSome (hedges e he).2), if_pos hstay]
  · intro e he hsrc hdst
    obtain ⟨extra, hextra, heq⟩ := hpruned.edges_eq
    rw [heq] at he
    rcases mem_append.1 he with he | he
    · have hpos := count_pos_iff.2 (mem_filter.1 he).1
      rw [hcount e hsrc hdst] at hpos
      split at hpos
      · rename_i hstay
        exact .inl ⟨count_pos_iff.1 hpos, hstay⟩
      · exact absurd hpos (Nat.lt_irrefl 0)
    · exact .inr (hextra e he).isEndpointEdge
  · intro hindex
    obtain ⟨hreach, hrecv⟩ := hfed.source_reaches hg (hfedEq ▸ hindex)
    have hmono : ∀ {a b}, ReflTransGen s₁.graph.Adjacent a b → ReflTransGen s.graph.Adjacent a b :=
      fun hpath ↦ ReflTransGen.mono (fun _ _ ⟨e, he, hends⟩ ↦ ⟨e, hsub e he, hends⟩) _ _ hpath
    exact ⟨fun id hid ↦ hmono (hreach id hid), fun f hf ↦ hmono (hrecv f (hfedEq ▸ hf))⟩
  · intro id hneeded hreach
    rcases hreach with hpath | hcycle
    · exact hpruned.reflTransGen_of_needed hedges₁ hpath hneeded
    · exact hpruned.from_source hedges'
        (hpruned.isSome_of_needed (isSome_of_needed hedges₁ hneeded) hneeded) hcycle
  · intro id hid hreach
    rcases hreach with ⟨f, hf, hpath⟩ | hcycle
    · have hadded := Pruned.isSome_of_reflTransGen hedges' hid hpath
      have hmem : (⟨f.added, kControlSlot, kSinkId, kControlSlot⟩ : Edge) ∈ s.graph.edges :=
        hfetched.mem_edges_iff.2 (.inr ⟨f, hf, .inr rfl⟩)
      have hsink' := Option.isSome_iff_exists.1 hsink
      refine hpath.tail ⟨_, hpruned.mem_edges_of_mem_keptEdges (mem_filter.2 ⟨hmem, decide_eq_true
        ⟨hadded, ?_⟩⟩), rfl, rfl⟩
      obtain ⟨sink, hsink⟩ := hsink'
      exact Option.isSome_iff_exists.2
        ⟨sink, (hpruned.findNodeId_eq_some_iff _ _).2 ⟨hsink, .inr (.inl rfl)⟩⟩
    · exact hpruned.to_sink hedges' hid hcycle

theorem hasEndpoints_chain : HasEndpoints chain where
  source := ⟨_, rfl, rfl⟩
  sink := rfl

theorem edgesExist_chain : chain.EdgesExist := by
  unfold EdgesExist
  decide

theorem neededSubgraph_chain : ∃ g' s,
    rewriteGraphForExecution cpuEnv chain [ascii "a"] [ascii "b"] [] = .ok g' ∧
      feedAndFetch cpuEnv chain [ascii "a"] [ascii "b"] = .ok s ∧
      NeededSubgraph cpuEnv chain [ascii "a"] [ascii "b"] [] s g' := by
  obtain ⟨s, hs, hneeded⟩ :=
    neededSubgraph cpuEnv chain _ [ascii "a"] [ascii "b"] [] hasEndpoints_chain
    edgesExist_chain rfl
  exact ⟨_, s, rfl, hs, hneeded⟩

/-- No walk leaves a set that no edge leaves. -/
theorem mem_of_reflTransGen {l : List ℕ} (hl : ∀ e ∈ G.edges, e.src ∈ l → e.dst ∈ l) {u v : ℕ}
    (hu : u ∈ l) (h : ReflTransGen G.Adjacent u v) : v ∈ l := by
  induction h with
  | refl => exact hu
  | tail _ hstep ih =>
    obtain ⟨e, he, rfl, rfl⟩ := hstep
    exact hl e he ih

/-- A loop with one exit. -/
def loop : Graph Unit where
  nodes := (Graph.new : Graph Unit).nodes ++
    [some ⟨⟨ascii "e", ascii "Enter", [], [], ()⟩, {}, [], [1], []⟩,
      some ⟨⟨ascii "m", ascii "Merge", [ascii "e", ascii "n"], [], ()⟩, {}, [1, 1], [1, 3], []⟩,
      some ⟨⟨ascii "n", ascii "NextIteration", [ascii "m"], [], ()⟩, {}, [1], [1], []⟩,
      some ⟨⟨ascii "x", ascii "Exit", [ascii "m"], [], ()⟩, {}, [1], [1], []⟩]
  edges := (Graph.new : Graph Unit).edges ++ [⟨Graph.kSourceId, kControlSlot, 2, kControlSlot⟩,
    ⟨2, 0, 3, 0⟩, ⟨4, 0, 3, 1⟩, ⟨3, 0, 4, 0⟩, ⟨3, 0, 5, 0⟩,
    ⟨5, kControlSlot, Graph.kSinkId, kControlSlot⟩]
  versions := (Graph.new : Graph Unit).versions

/-- A target in a loop leads nowhere once the exit is removed. With another name a fed output can
still be fetched, the `_Recv` for it can be fed, and with sink as a target a tensor can keep two
`_Send`s. -/
theorem not_neededSubgraph :
    (¬ ∀ (env : Env Unit) (g g' : Graph Unit) (feeds fetches targetNodes : List ByteString),
      HasEndpoints g → g.EdgesExist → rewriteGraphForExecution env g feeds fetches targetNodes =
        .ok g' →
        ∀ id, (g'.findNodeId id).isSome = true → ReflTransGen g'.Adjacent id kSinkId) ∧
    (¬ ∀ (env : Env Unit) (g g' : Graph Unit) (feeds fetches targetNodes : List ByteString),
      HasEndpoints g → g.EdgesExist → rewriteGraphForExecution env g feeds fetches targetNodes =
        .ok g' →
        ∀ t ∈ feeds, ∀ n node, g.findNodeId n = some node → node.name = (parseTensorName t).1 →
          ∀ e ∈ g'.edges, ¬(e.src = n ∧ e.srcOutput = (parseTensorName t).2)) ∧
    (¬ ∀ (env : Env Unit) (g g' : Graph Unit) (feeds fetches targetNodes : List ByteString),
      HasEndpoints g → g.EdgesExist → rewriteGraphForExecution env g feeds fetches targetNodes =
        .ok g' →
        ∀ t ∈ feeds, ∀ n node, g.findNodeId n = some node → node.name = (parseTensorName t).1 →
          ∀ e ∈ g.edges, e.src = n → e.srcOutput = (parseTensorName t).2 →
            (g'.findNodeId e.dst).isSome = true → ∃ e' ∈ g'.edges, e'.dst = e.dst ∧
            e'.dstInput = e.dstInput ∧
              (g'.findNodeId e'.src).map Node.name = some (recvName (parseTensorName t))) ∧
    ¬ ∀ (env : Env Unit) (g g' : Graph Unit) (feeds fetches targetNodes : List ByteString),
      HasEndpoints g → g.EdgesExist → rewriteGraphForExecution env g feeds fetches targetNodes =
        .ok g' →
        ∀ t ∈ fetches, ∀ id id', (g'.findNodeId id).map Node.name =
          some (sendName (parseTensorName t)) →
          (g'.findNodeId id').map Node.name = some (sendName (parseTensorName t)) → id = id' := by
  refine ⟨fun h ↦ ?_, fun h ↦ ?_, fun h ↦ ?_, fun h ↦ ?_⟩
  · have hpath :=
      h cpuEnv loop _ [] [] [ascii "m"] ⟨⟨_, rfl, rfl⟩, rfl⟩ (by unfold EdgesExist; decide) rfl 3
      (by decide)
    have hloop : kSinkId ∈ [3, 4] := mem_of_reflTransGen (by decide) (by decide) hpath
    exact absurd hloop (by decide)
  · exact h cpuEnv chain _ [ascii "a"] [ascii "a:0"] [] hasEndpoints_chain edgesExist_chain rfl
      (ascii "a")
      mem_cons_self 2 _ rfl rfl ⟨2, 0, 5, 0⟩ (by decide) ⟨rfl, by decide⟩
  · have hfed :=
      h cpuEnv chain _ [ascii "a", ascii "_recv_a_0"] [] [ascii "b"] hasEndpoints_chain
        edgesExist_chain
      rfl (ascii "a") mem_cons_self 2 _ rfl rfl ⟨2, 0, 3, 0⟩ (by decide) rfl (by decide) (by decide)
    exact absurd hfed (by decide)
  · have hsame :=
      h cpuEnv chain _ [] [ascii "a", ascii "a"] [ascii "_SINK"] hasEndpoints_chain edgesExist_chain
      rfl (ascii "a") mem_cons_self 4 5 (by decide) (by decide)
    exact absurd hsame (by decide)

end TensorFlowCore.Subgraph
