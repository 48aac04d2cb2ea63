import TensorFlowCore.Graph.Subgraph.Model
import TensorFlowCore.Support.DoublyLinked

/-!
# What feeds and fetches do to a graph

Every feed adds a `_Recv` and moves the edges out of the fed output to it, every fetch adds a
`_Send` behind the fetched output. `Fed` says what holds of the graph after any feeds: the edges of
the graph before have been moved one by one, and the edges that are new lead to new nodes. `Fetched`
says what fetches add to a graph.
-/

namespace TensorFlowCore.Subgraph

open ExceptPost Function TensorFlowCore.Graph GraphConstructor List Transfer

variable {α : Type} {env : Env α} {g : Graph α} {s s' : Rewriting α} {t : ByteString} {f : Transfer}

/-! ### Moving edges -/

/-- The node is a `Placeholder`. -/
def isPlaceholder (g : Graph α) (id : ℕ) : Bool :=
  (g.findNodeId id).any fun node ↦ node.nodeDef.op = ascii "Placeholder"

/-- The feed moves the edge. -/
def Transfer.Moves (g : Graph α) (f : Transfer) (e : Edge) : Prop :=
  e.src = f.node ∧ (e.srcOutput = f.index ∨ e.srcOutput = kControlSlot ∧
    isPlaceholder g f.node = true)

instance (g : Graph α) (f : Transfer) (e : Edge) : Decidable (f.Moves g e) :=
  inferInstanceAs (Decidable (_ ∧ _))

/-- Where the feed moves an edge to. -/
def Transfer.target (f : Transfer) (e : Edge) : Edge :=
  if e.srcOutput = f.index then ⟨f.added, 0, e.dst, e.dstInput⟩
  else ⟨f.added, kControlSlot, e.dst, kControlSlot⟩

/-- The edge behind a feed. -/
def Transfer.move (g : Graph α) (f : Transfer) (e : Edge) : Edge :=
  if f.Moves g e then f.target e else e

/-- The edge behind feeds. -/
def moves (g : Graph α) (fed : List Transfer) (e : Edge) : Edge :=
  fed.foldl (fun e f ↦ f.move g e) e

theorem moves_append (fed : List Transfer) (f : Transfer) (e : Edge) :
    moves g (fed ++ [f]) e = f.move g (moves g fed e) := by
  rw [moves, foldl_append]
  rfl

theorem Transfer.target_src (f : Transfer) (e : Edge) : (f.target e).src = f.added := by
  rw [target]
  split <;> rfl

theorem Transfer.target_dst (f : Transfer) (e : Edge) : (f.target e).dst = e.dst := by
  rw [target]
  split <;> rfl

theorem Transfer.move_dst (f : Transfer) (e : Edge) : (f.move g e).dst = e.dst := by
  rw [move]
  split
  · exact f.target_dst e
  · rfl

theorem moves_dst (fed : List Transfer) (e : Edge) : (moves g fed e).dst = e.dst := by
  induction fed using reverseRecOn with
  | nil => rfl
  | append_singleton fed f ih => rw [moves_append, move_dst, ih]

/-- An edge that is moved once stays at new nodes. -/
theorem moves_eq_or {n : ℕ} {fed : List Transfer} (hfed : ∀ f ∈ fed, n ≤ f.added) (e : Edge) :
    moves g fed e = e ∧ (∀ f ∈ fed, ¬f.Moves g e) ∨
      n ≤ (moves g fed e).src ∧ ∃ f ∈ fed, f.Moves g e := by
  induction fed using reverseRecOn with
  | nil => exact .inl ⟨rfl, fun f hf ↦ absurd hf not_mem_nil⟩
  | append_singleton fed f ih =>
    rw [forall_mem_append, forall_mem_singleton] at hfed
    rw [moves_append]
    rcases ih hfed.1 with ⟨heq, hnone⟩ | ⟨hle, f', hf', hmoves⟩
    · rw [heq, move]
      split
      · rename_i hmoves
        exact .inr ⟨by rw [target_src]; exact hfed.2, f, by simp, hmoves⟩
      · rename_i hmoves
        refine .inl ⟨rfl, fun f' hf' ↦ ?_⟩
        rcases mem_append.1 hf' with hf' | hf'
        · exact hnone f' hf'
        · exact mem_singleton.1 hf' ▸ hmoves
    · refine .inr ⟨?_, f', mem_append_left _ hf', hmoves⟩
      rw [move]
      split
      · rw [target_src]
        exact hfed.2
      · exact hle

/-- Entries that are taken out one by one, each after its replacement has been appended. -/
theorem foldl_erase_perm {β : Type} [DecidableEq β] (f : β → β) {M l rest : List β}
    (h : l.Perm (M ++ rest)) :
    (M.foldl (fun l b ↦ (l ++ [f b]).erase b) l).Perm (rest ++ M.map f) := by
  induction M generalizing l rest with
  | nil => simpa using h
  | cons b M ih =>
    have hstep : ((l ++ [f b]).erase b).Perm (M ++ (rest ++ [f b])) := by
      refine ((h.append_right [f b]).erase b).trans ?_
      rw [cons_append, cons_append, erase_cons_head, append_assoc]
    refine (ih hstep).trans ?_
    rw [append_assoc]
    exact Perm.refl _

theorem foldl_moveEdge (g : Graph α) (recv : ℕ) (index : ℤ) (M : List Edge) :
    M.foldl (moveEdge recv index) g =
      { g with edges := M.foldl (fun l e ↦
          (l ++ [(⟨0, index, recv⟩ : Transfer).target e]).erase e) g.edges } := by
  induction M generalizing g with
  | nil => rfl
  | cons e M ih =>
    have hstep : moveEdge recv index g e =
        { g with edges := (g.edges ++ [(⟨0, index, recv⟩ : Transfer).target e]).erase e } := by
      rw [moveEdge, target]
      split <;> rfl
    rw [foldl_cons, foldl_cons, ih, hstep]

/-- The edges behind a feed. -/
theorem edges_foldl_moveEdge {g' : Graph α} {n recv : ℕ} {index : ℤ} {node : Node α}
    (hnode : g.findNodeId n = some node ∨ g.findNodeId n = none ∧
      node.nodeDef.op ≠ ascii "Placeholder") :
    ((movingEdges g' n node index).foldl (moveEdge recv index) g').edges.Perm
      (g'.edges.map ((⟨n, index, recv⟩ : Transfer).move g)) := by
  have hplaceholder : node.nodeDef.op = ascii "Placeholder" ↔ isPlaceholder g n = true := by
    rcases hnode with hnode | ⟨hnode, hop⟩
    · rw [isPlaceholder, hnode, Option.any_some, decide_eq_true_iff]
    · rw [isPlaceholder, hnode, Option.any_none]
      exact iff_of_false hop Bool.false_ne_true
  have hmoving : movingEdges g' n node index =
      g'.edges.filter fun e ↦ (⟨n, index, recv⟩ : Transfer).Moves g e := by
    rw [movingEdges, outEdges, filter_filter]
    refine filter_congr fun e _ ↦ ?_
    rw [← Bool.decide_and, decide_eq_decide, Moves, hplaceholder, and_comm]
  have hpartition : g'.edges.Perm (movingEdges g' n node index ++
      g'.edges.filter fun e ↦ !decide ((⟨n, index, recv⟩ : Transfer).Moves g e)) := by
    rw [hmoving]
    exact (filter_append_perm _ _).symm
  rw [foldl_moveEdge]
  refine (foldl_erase_perm _ hpartition).trans ?_
  rw [hmoving]
  have hmap := map_ite_perm (fun e ↦ decide ((⟨n, index, recv⟩ : Transfer).Moves g e))
    (⟨n, index, recv⟩ : Transfer).target g'.edges
  refine hmap.symm.trans (Perm.of_eq (map_congr_left fun e _ ↦ ?_))
  rw [move]
  simp only [decide_eq_true_iff]

/-! ### Feeds -/

/-- The feed has replaced an output by a `_Recv`. -/
structure IsFeed (env : Env α) (G : Graph α) (t : ByteString) (f : Transfer) : Prop where
  index_eq : f.index = (parseTensorName t).2
  replaced : ∃ node, G.findNodeId f.node = some node ∧ node.name = (parseTensorName t).1 ∧
    f.index < node.numOutputs ∧ G.findNodeId f.added =
      some (recvNode env (parseTensorName t)
      (DataType.baseType (readType env.stray node.outputTypes f.index)) t)

/-- The edge from source to the `_Recv` of a feed. -/
def Transfer.recvEdge (f : Transfer) : Edge := ⟨kSourceId, kControlSlot, f.added, kControlSlot⟩

/-- Names lead to nodes that have them. -/
def Indexed (G : Graph α) (index : ByteString → Option ℕ) : Prop :=
  ∀ name id, index name = some id → ∃ node, G.findNodeId id = some node ∧ node.name = name

/-- A graph after feeds. -/
structure Fed (env : Env α) (g : Graph α) (feeds : List ByteString) (s : Rewriting α) : Prop where
  indexed : Indexed s.graph s.nameIndex
  numNodeIds_eq : s.graph.numNodeIds = g.numNodeIds + s.fed.length
  nodes_eq : ∀ id < g.numNodeIds, s.graph.findNodeId id = g.findNodeId id
  isFeed : List.Forall₂ (IsFeed env s.graph) feeds s.fed
  added_eq : s.fed.map Transfer.added = List.range' g.numNodeIds s.fed.length
  fetched_eq : s.fetched = []
  edgesExist : s.graph.EdgesExist
  edges_perm : ∃ new, s.graph.edges.Perm (g.edges.map (moves g s.fed) ++ new) ∧
    (∀ e ∈ new, g.numNodeIds ≤ e.dst) ∧
    ((∀ f ∈ s.fed, f.node ≠ kSourceId) → new = s.fed.map Transfer.recvEdge)
  gone : ∀ f ∈ s.fed, 0 ≤ f.index → ∀ e ∈ s.graph.edges, ¬(e.src = f.node ∧ e.srcOutput = f.index)

theorem finalize_eq_ok {node : Node α} {r : Graph α × ℕ} (h : finalize env g node = .ok r) :
    r = ({ g with nodes := g.nodes ++ [some node] }, g.numNodeIds) := by
  obtain ⟨-, h⟩ := check_eq_ok_iff.1 h
  obtain ⟨-, h⟩ := check_eq_ok_iff.1 h
  exact (Except.ok.inj h).symm

/-- The graph with a `_Recv` that no edges have been moved to. -/
def withRecv (env : Env α) (G : Graph α) (t : ByteString) (type : DataType) : Graph α :=
  { G with nodes := G.nodes ++ [some (recvNode env (parseTensorName t) type t)] }.addControlEdge
    kSourceId G.numNodeIds

/-- A round of `FeedInputs`. -/
theorem feedInput_eq_ok (hindex : Indexed s.graph s.nameIndex) (h : feedInput env s t = .ok s') :
    ∃ n node type, s.nameIndex (parseTensorName t).1 = some n ∧ s.graph.findNodeId n = some node ∧
      node.name = (parseTensorName t).1 ∧ (parseTensorName t).2 < node.numOutputs ∧
      type = DataType.baseType (readType env.stray node.outputTypes (parseTensorName t).2) ∧
      s' = { s with
        graph := (movingEdges (withRecv env s.graph t type) n node (parseTensorName t).2).foldl
          (moveEdge s.graph.numNodeIds (parseTensorName t).2) (withRecv env s.graph t type)
        nameIndex := Function.update s.nameIndex (recvName (parseTensorName t))
          (some s.graph.numNodeIds)
        fed := s.fed ++ [⟨n, (parseTensorName t).2, s.graph.numNodeIds⟩] } := by
  rw [feedInput] at h
  cases hn : s.nameIndex (parseTensorName t).1 with
  | none =>
    rw [hn] at h
    cases h
  | some n =>
    obtain ⟨node, hnode, hname⟩ := hindex _ n hn
    rw [hn] at h
    simp only [hnode] at h
    split at h
    · cases h
    · rename_i hlt
      obtain ⟨r, hr, h⟩ := bind_eq_ok_iff.1 h
      rw [finalize_eq_ok hr] at h
      exact ⟨n, node, _, rfl, hnode, hname, not_le.1 hlt, rfl, (Except.ok.inj h).symm⟩

theorem numNodeIds_foldl_moveEdge (recv : ℕ) (index : ℤ) (M : List Edge) :
    (M.foldl (moveEdge recv index) g).nodes = g.nodes := by
  rw [foldl_moveEdge]

/-- A node that is appended gets the next id. -/
theorem findNodeId_of_nodes_eq {g' : Graph α} {node : Node α}
    (h : g'.nodes = g.nodes ++ [some node]) :
    g'.numNodeIds = g.numNodeIds + 1 ∧ g'.findNodeId g.numNodeIds = some node ∧
      ∀ id < g.numNodeIds, g'.findNodeId id = g.findNodeId id := by
  refine ⟨?_, ?_, fun id hid ↦ ?_⟩
  · rw [numNodeIds, h, length_append]
    rfl
  · rw [findNodeId, h, numNodeIds, getElem?_concat_length]
    rfl
  · rw [findNodeId, h, findNodeId, getElem?_append_left hid]

theorem lt_of_findNodeId {id : ℕ} {node : Node α} (h : g.findNodeId id = some node) :
    id < g.numNodeIds :=
  lt_of_isSome (Option.isSome_iff_exists.2 ⟨node, h⟩)

/-- What holds of a transfer in a graph holds after nodes have been appended. -/
theorem IsFeed.mono {G G' : Graph α} (h : IsFeed env G t f)
    (hnodes : ∀ id < G.numNodeIds, G'.findNodeId id = G.findNodeId id) : IsFeed env G' t f := by
  obtain ⟨node, hnode, hname, hlt, hadded⟩ := h.replaced
  refine ⟨h.index_eq, node, ?_, hname, hlt, ?_⟩
  · rw [hnodes _ (lt_of_findNodeId hnode), hnode]
  · rw [hnodes _ (lt_of_findNodeId hadded), hadded]

theorem Indexed.update {G G' : Graph α} {index : ByteString → Option ℕ} {node : Node α}
    (h : Indexed G index) (hnode : G'.findNodeId G.numNodeIds = some node)
    (hnodes : ∀ id < G.numNodeIds, G'.findNodeId id = G.findNodeId id) :
    Indexed G' (Function.update index node.name (some G.numNodeIds)) := by
  intro name id hid
  rcases eq_or_ne name node.name with rfl | hne
  · rw [update_self] at hid
    cases hid
    exact ⟨node, hnode, rfl⟩
  · rw [update_of_ne hne] at hid
    obtain ⟨node', hnode', hname'⟩ := h name id hid
    exact ⟨node', (hnodes id (lt_of_findNodeId hnode')).trans hnode', hname'⟩

theorem exists_of_forall₂ {β γ : Type} {R : β → γ → Prop} {l : List β} {l' : List γ}
    (h : List.Forall₂ R l l') : ∀ c ∈ l', ∃ b ∈ l, R b c := by
  induction h with
  | nil => exact fun c hc ↦ absurd hc not_mem_nil
  | @cons b c l l' hbc _ ih =>
    refine forall_mem_cons.2 ⟨⟨b, mem_cons_self, hbc⟩, fun c hc ↦ ?_⟩
    obtain ⟨b', hb', hR⟩ := ih c hc
    exact ⟨b', mem_cons_of_mem b hb', hR⟩

variable {feeds : List ByteString}

section

variable (h : Fed env g feeds s)
include h

/-- The nodes that feeds have added. -/
theorem Fed.exists_added {id : ℕ} (hle : g.numNodeIds ≤ id) (hlt : id < s.graph.numNodeIds) :
    ∃ f ∈ s.fed, f.added = id := by
  have hmem : id ∈ s.fed.map added := by
    rw [h.added_eq, mem_range'_1]
    exact ⟨hle, h.numNodeIds_eq ▸ hlt⟩
  exact mem_map.1 hmem

theorem Fed.le_added (hf : f ∈ s.fed) : g.numNodeIds ≤ f.added := by
  have hmem := mem_map_of_mem (f := added) hf
  rw [h.added_eq, mem_range'_1] at hmem
  exact hmem.1

/-- A node that is fed was in the graph, or it is no placeholder. -/
theorem Fed.findNodeId_or {n : ℕ} {node : Node α} (hnode : s.graph.findNodeId n = some node) :
    g.findNodeId n = some node ∨ g.findNodeId n = none ∧ node.nodeDef.op ≠ ascii "Placeholder" := by
  rcases Nat.lt_or_ge n g.numNodeIds with hlt | hge
  · exact .inl ((h.nodes_eq n hlt).symm.trans hnode)
  · refine .inr ⟨?_, ?_⟩
    · rw [findNodeId, getElem?_eq_none hge]
      rfl
    · obtain ⟨f, hf, rfl⟩ := h.exists_added hge (lt_of_findNodeId hnode)
      obtain ⟨t, -, hfeed⟩ := exists_of_forall₂ h.isFeed f hf
      obtain ⟨_, -, -, -, hadded⟩ := hfeed.replaced
      obtain rfl := Option.some.inj (hnode.symm.trans hadded)
      show ascii "_Recv" ≠ ascii "Placeholder"
      decide

/-- The edges after a feed: those before and the one from source to the `_Recv`, each moved. -/
theorem Fed.edges_feedInput {n : ℕ} {node : Node α} (t : ByteString) (type : DataType) {index : ℤ}
    (hnode : s.graph.findNodeId n = some node) (hf : f = ⟨n, index, s.graph.numNodeIds⟩) :
    ((movingEdges (withRecv env s.graph t type) n node index).foldl
        (moveEdge s.graph.numNodeIds index) (withRecv env s.graph t type)).edges.Perm
      ((s.graph.edges ++ [f.recvEdge]).map (f.move g)) :=
  hf ▸ edges_foldl_moveEdge (h.findNodeId_or hnode)

/-- A feed in a graph after feeds. -/
theorem Fed.feedInput (hsource : (g.findNodeId kSourceId).isSome = true)
    (hok : feedInput env s t = .ok s') : Fed env g (feeds ++ [t]) s' := by
  obtain ⟨n, node, type, hn, hnode, hname, hlt, htype, rfl⟩ := feedInput_eq_ok h.indexed hok
  generalize hf : (⟨n, (parseTensorName t).2, s.graph.numNodeIds⟩ : Transfer) = f
  generalize hG : (movingEdges (withRecv env s.graph t type) n node (parseTensorName t).2).foldl
    (moveEdge s.graph.numNodeIds (parseTensorName t).2) (withRecv env s.graph t type) = G
  have hnodes : G.nodes = s.graph.nodes ++ [some (recvNode env (parseTensorName t) type t)] := by
    rw [← hG, numNodeIds_foldl_moveEdge]
    rfl
  have hedges := h.edges_feedInput t type hnode hf.symm
  rw [hG] at hedges
  obtain ⟨hsize, hrecv, hold⟩ := findNodeId_of_nodes_eq hnodes
  have hsome : ∀ id, (s.graph.findNodeId id).isSome = true → (G.findNodeId id).isSome = true :=
    fun id hid ↦ by rwa [hold id (lt_of_isSome hid)]
  have hadded : f.added = s.graph.numNodeIds := by rw [← hf]
  have hrecvSome : (G.findNodeId f.added).isSome = true := by rw [hadded, hrecv]; rfl
  refine ⟨h.indexed.update hrecv hold, ?_, ?_, ?_, ?_, h.fetched_eq, ?_, ?_, ?_⟩
  · rw [hsize, h.numNodeIds_eq, length_append]
    rfl
  · intro id hid
    rw [hold id (hid.trans_le (h.numNodeIds_eq ▸ Nat.le_add_right _ _)), h.nodes_eq id hid]
  · refine rel_append (h.isFeed.imp fun _ _ hf ↦ hf.mono hold) (.cons ?_ .nil)
    rw [← hf]
    refine ⟨rfl, node, ?_, hname, hlt, ?_⟩
    · rw [hold n (lt_of_findNodeId hnode), hnode]
    · rw [hrecv, htype]
  · rw [map_append, h.added_eq, length_append, length_singleton, range'_1_concat, ← h.numNodeIds_eq,
      map_singleton, hadded]
  · intro e' he'
    obtain ⟨e, he, rfl⟩ := mem_map.1 (hedges.mem_iff.1 he')
    have hends : (G.findNodeId e.src).isSome = true ∧ (G.findNodeId e.dst).isSome = true := by
      rcases mem_append.1 he with he | he
      · exact ⟨hsome _ (h.edgesExist e he).1, hsome _ (h.edgesExist e he).2⟩
      · obtain rfl := mem_singleton.1 he
        refine ⟨hsome _ ?_, hrecvSome⟩
        show (s.graph.findNodeId kSourceId).isSome = true
        rwa [h.nodes_eq _ (lt_of_isSome hsource)]
    rw [move_dst]
    refine ⟨?_, hends.2⟩
    rw [move]
    split
    · rw [target_src]
      exact hrecvSome
    · exact hends.1
  · obtain ⟨new, hperm, hnew, hsourceEdges⟩ := h.edges_perm
    refine ⟨(new ++ [f.recvEdge]).map (f.move g), ?_, ?_, fun hfed ↦ ?_⟩
    · refine (hedges.trans ((hperm.append_right _).map _)).trans (Perm.of_eq ?_)
      rw [append_assoc, map_append, map_map]
      refine congrArg (· ++ _) (map_congr_left fun e _ ↦ ?_)
      rw [moves_append]
      rfl
    · intro e' he'
      obtain ⟨e, he, rfl⟩ := mem_map.1 he'
      rw [move_dst]
      rcases mem_append.1 he with he | he
      · exact hnew e he
      · obtain rfl := mem_singleton.1 he
        show g.numNodeIds ≤ f.added
        exact hadded ▸ h.numNodeIds_eq ▸ Nat.le_add_right _ _
    · rw [forall_mem_append, forall_mem_singleton] at hfed
      rw [hsourceEdges hfed.1, map_append, map_append, map_map]
      have hstay : ∀ f' : Transfer, f.move g f'.recvEdge = f'.recvEdge := fun f' ↦
        if_neg fun hmoves ↦ hfed.2 hmoves.1.symm
      have hmap : s.fed.map (f.move g ∘ recvEdge) = s.fed.map recvEdge :=
        map_congr_left fun f' _ ↦ hstay f'
      rw [hmap, map_singleton, map_singleton, hstay]
  · intro f' hf' hindex e' he' hsrc
    obtain ⟨e, he, rfl⟩ := mem_map.1 (hedges.mem_iff.1 he')
    have hlt' : f'.node < s.graph.numNodeIds := by
      rcases mem_append.1 hf' with hf' | hf'
      · obtain ⟨_, -, hfeed⟩ := exists_of_forall₂ h.isFeed f' hf'
        obtain ⟨_, hnode', -⟩ := hfeed.replaced
        exact lt_of_findNodeId hnode'
      · obtain rfl := mem_singleton.1 hf'
        exact hf ▸ lt_of_findNodeId hnode
    rw [move] at hsrc
    split at hsrc
    · rw [target_src, hadded] at hsrc
      exact hlt'.ne' hsrc.1
    · rename_i hstay
      rcases mem_append.1 hf' with hf' | hf'
      · rcases mem_append.1 he with he | he
        · exact h.gone f' hf' hindex e he hsrc
        · obtain rfl := mem_singleton.1 he
          have hslot : kControlSlot = f'.index := hsrc.2
          rw [← hslot] at hindex
          exact absurd hindex (by decide)
      · obtain rfl := mem_singleton.1 hf'
        exact hstay ⟨hsrc.1, .inl hsrc.2⟩

end

theorem indexed_nameIndex (g : Graph α) : Indexed g (nameIndex g) := by
  rw [nameIndex]
  refine foldlRecOn (motive := Indexed g) _ _ (fun name id hid ↦ by cases hid) fun index h id _ ↦ ?_
  intro name id' hid'
  cases hnode : g.findNodeId id with
  | none =>
    simp only [hnode] at hid'
    exact h name id' hid'
  | some node =>
    simp only [hnode] at hid'
    rcases eq_or_ne name node.name with rfl | hne
    · rw [update_self] at hid'
      cases hid'
      exact ⟨node, hnode, rfl⟩
    · rw [update_of_ne hne] at hid'
      exact h name id' hid'

theorem fed_nil (hedges : g.EdgesExist) :
    Fed env g [] { graph := g, nameIndex := nameIndex g } where
  indexed := indexed_nameIndex g
  numNodeIds_eq := rfl
  nodes_eq _ _ := rfl
  isFeed := .nil
  added_eq := rfl
  fetched_eq := rfl
  edgesExist := hedges
  edges_perm := by
    refine ⟨[], ?_, fun e he ↦ absurd he not_mem_nil, fun _ ↦ rfl⟩
    show g.edges.Perm (g.edges.map (fun e ↦ e) ++ [])
    simp
  gone f hf := absurd hf not_mem_nil

/-- `FeedInputs`. -/
theorem Fed.feedInputs (h : Fed env g feeds s) (hsource : (g.findNodeId kSourceId).isSome = true)
    {rest : List ByteString} (hok : feedInputs env s rest = .ok s') :
    Fed env g (feeds ++ rest) s' := by
  induction rest generalizing feeds s with
  | nil =>
    cases hok
    rwa [append_nil]
  | cons t rest ih =>
    obtain ⟨s₁, hs₁, hok⟩ := bind_eq_ok_iff.1 hok
    rw [append_cons]
    exact ih (h.feedInput hsource hs₁) hok

end TensorFlowCore.Subgraph

/-!
## What fetches do to a graph

Every fetch adds a `_Send` behind the fetched output and an edge from it to sink. `Fetched` says
what holds of the graph after any fetches. A tensor that is fetched again gets another `_Send` with
the same name, and the index then leads to the last one.
-/

namespace TensorFlowCore.Subgraph

open ExceptPost Function TensorFlowCore.Graph GraphConstructor List Transfer

variable {α : Type} {env : Env α} {g G : Graph α} {s s₁ s' : Rewriting α} {t : ByteString}
  {fetches : List ByteString}

theorem sendName_injective : Function.Injective sendName := by
  have hnot : ∀ n : ℤ, (95 : UInt8) ∉ decimalInt n := fun n hmem ↦
    (mem_decimalInt hmem).elim (by decide) fun h ↦ absurd h.2 (by decide)
  rintro ⟨name, index⟩ ⟨name', index'⟩ h
  obtain ⟨k, -, hk⟩ | ⟨hname, -, hindex⟩ | ⟨k, hk, -⟩ := DoublyLinked.append_cons_eq_append_cons h
  · exact (hnot index' (hk ▸ mem_append_right k mem_cons_self)).elim
  · exact Prod.ext (append_cancel_left hname) (decimalInt_injective hindex)
  · exact (hnot index (hk ▸ mem_append_right k mem_cons_self)).elim

/-- The fetch has added a `_Send` for an output. -/
structure IsFetch (env : Env α) (G : Graph α) (t : ByteString) (f : Transfer) : Prop where
  index_eq : f.index = (parseTensorName t).2
  nonneg : 0 ≤ f.index
  sent : ∃ node input, G.findNodeId f.node = some node ∧ node.name = (parseTensorName t).1 ∧
    f.index < node.numOutputs ∧ addInput node.name f.index = .ok input ∧ G.findNodeId f.added =
      some (sendNode env (parseTensorName t)
      (DataType.baseType (readType env.stray node.outputTypes f.index))
        t input)

/-- The edges of a `_Send`. -/
def Transfer.sendEdges (f : Transfer) : List Edge :=
  [⟨f.node, f.index, f.added, 0⟩, ⟨f.added, kControlSlot, kSinkId, kControlSlot⟩]

/-- A graph after fetches. -/
structure Fetched (env : Env α) (s₁ : Rewriting α) (fetches : List ByteString) (s : Rewriting α) :
    Prop where
  indexed : Indexed s.graph s.nameIndex
  numNodeIds_eq : s.graph.numNodeIds = s₁.graph.numNodeIds + s.fetched.length
  nodes_eq : ∀ id < s₁.graph.numNodeIds, s.graph.findNodeId id = s₁.graph.findNodeId id
  isFetch : List.Forall₂ (IsFetch env s.graph) fetches s.fetched
  added_eq : s.fetched.map Transfer.added = List.range' s₁.graph.numNodeIds s.fetched.length
  fed_eq : s.fed = s₁.fed
  edges_eq : s.graph.edges = s₁.graph.edges ++ s.fetched.flatMap Transfer.sendEdges
  named : ∀ f ∈ s.fetched, ∀ node, s.graph.findNodeId f.node = some node →
    ∃ id node', s.nameIndex node.name = some id ∧ s.graph.findNodeId id = some node' ∧
      (node'.numOutputs ≠ 0 → id = f.node)
  latest : ∀ f ∈ s.fetched, ∀ node, s.graph.findNodeId f.node = some node →
    ∃ f' ∈ s.fetched, f'.node = f.node ∧ f'.index = f.index ∧
      s.nameIndex (sendName (node.name, f.index)) = some f'.added

/-- The graph with the `_Send` for a tensor. -/
def withSend (env : Env α) (G : Graph α) (t input : ByteString) (type : DataType) (n : ℕ) :
    Graph α :=
  ({ G with nodes := G.nodes ++ [some (sendNode env (parseTensorName t) type t input)] }.addEdge n
    (parseTensorName t).2 G.numNodeIds 0).addControlEdge G.numNodeIds kSinkId

/-- A round of `FetchOutputs`. -/
theorem fetchOutput_eq_ok (hindex : Indexed s.graph s.nameIndex)
    (h : fetchOutput env s t = .ok s') :
    ∃ n node type input, s.nameIndex (parseTensorName t).1 = some n ∧
    s.graph.findNodeId n = some node ∧
      node.name = (parseTensorName t).1 ∧ 0 ≤ (parseTensorName t).2 ∧
      (parseTensorName t).2 < node.numOutputs ∧
      type = DataType.baseType (readType env.stray node.outputTypes (parseTensorName t).2) ∧
      addInput node.name (parseTensorName t).2 = .ok input ∧
      s' = { s with
        graph := withSend env s.graph t input type n
        nameIndex := Function.update s.nameIndex (sendName (parseTensorName t))
          (some s.graph.numNodeIds)
        fetched := s.fetched ++ [⟨n, (parseTensorName t).2, s.graph.numNodeIds⟩] } := by
  rw [fetchOutput] at h
  cases hn : s.nameIndex (parseTensorName t).1 with
  | none =>
    rw [hn] at h
    cases h
  | some n =>
    obtain ⟨node, hnode, hname⟩ := hindex _ n hn
    rw [hn] at h
    simp only [hnode] at h
    split at h
    · cases h
    split at h
    · cases h
    rename_i hlt
    split at h
    · cases h
    rename_i hnonneg
    cases hinput : addInput node.name (parseTensorName t).2 with
    | error msg =>
      simp only [hinput] at h
      cases h
    | ok input =>
      simp only [hinput] at h
      obtain ⟨r, hr, h⟩ := bind_eq_ok_iff.1 h
      rw [finalize_eq_ok hr] at h
      exact ⟨n, node, _, input, rfl, hnode, hname, not_lt.1 hnonneg, not_le.1 hlt, rfl, hinput,
        (Except.ok.inj h).symm⟩

theorem IsFetch.mono {G G' : Graph α} (h : IsFetch env G t f)
    (hnodes : ∀ id < G.numNodeIds, G'.findNodeId id = G.findNodeId id) : IsFetch env G' t f := by
  obtain ⟨node, input, hnode, hname, hlt, hinput, hadded⟩ := h.sent
  refine ⟨h.index_eq, h.nonneg, node, input, ?_, hname, hlt, hinput, ?_⟩
  · rw [hnodes _ (lt_of_findNodeId hnode), hnode]
  · rw [hnodes _ (lt_of_findNodeId hadded), hadded]

theorem Fetched.lt_node (h : Fetched env s₁ fetches s) (hf : f ∈ s.fetched) :
    f.node < s.graph.numNodeIds := by
  obtain ⟨_, -, hfetch⟩ := exists_of_forall₂ h.isFetch f hf
  obtain ⟨_, _, hnode, -⟩ := hfetch.sent
  exact lt_of_findNodeId hnode

/-- A node that is found under a name after a fetch: the `_Send`, or the node from before. -/
theorem update_eq_or {index : ByteString → Option ℕ} {name : ByteString} {id : ℕ}
    (h : index name = some id) (name' : ByteString) (id' : ℕ) :
    name = name' ∧ Function.update index name' (some id') name = some id' ∨
      Function.update index name' (some id') name = some id := by
  rcases eq_or_ne name name' with rfl | hne
  · exact .inl ⟨rfl, update_self ..⟩
  · exact .inr (by rw [update_of_ne hne, h])

/-- A fetch in a graph after fetches. -/
theorem Fetched.fetchOutput (h : Fetched env s₁ fetches s) (hok : fetchOutput env s t = .ok s') :
    Fetched env s₁ (fetches ++ [t]) s' := by
  obtain ⟨n, node, type, input, hn, hnode, hname, hnonneg, hlt, htype, hinput, rfl⟩ :=
    fetchOutput_eq_ok h.indexed hok
  generalize hf : (⟨n, (parseTensorName t).2, s.graph.numNodeIds⟩ : Transfer) = f
  have hnodes : (withSend env s.graph t input type n).nodes =
    s.graph.nodes ++ [some (sendNode env (parseTensorName t) type t input)] := rfl
  have hedges : (withSend env s.graph t input type n).edges = s.graph.edges ++ f.sendEdges := by
    rw [← hf]
    exact append_assoc ..
  generalize withSend env s.graph t input type n = G at hnodes hedges
  obtain ⟨hsize, hsend, hold⟩ := findNodeId_of_nodes_eq hnodes
  have hadded : f.added = s.graph.numNodeIds := by rw [← hf]
  have houtputs : node.numOutputs ≠ 0 := by omega
  have hnamed : ∀ f' ∈ s.fetched ++ [f], ∀ node', G.findNodeId f'.node = some node' →
      f' ∈ s.fetched ∧ s.graph.findNodeId f'.node = some node' ∨ f' = f ∧ node' = node := by
    intro f' hf' node' hnode'
    rcases mem_append.1 hf' with hf' | hf'
    · exact .inl ⟨hf', (hold _ (h.lt_node hf')).symm.trans hnode'⟩
    · obtain rfl := mem_singleton.1 hf'
      rw [← hf, hold n (lt_of_findNodeId hnode), hnode] at hnode'
      exact .inr ⟨rfl, (Option.some.inj hnode').symm⟩
  refine ⟨h.indexed.update hsend hold, ?_, ?_, ?_, ?_, h.fed_eq, ?_, ?_, ?_⟩
  · rw [hsize, h.numNodeIds_eq, length_append]
    rfl
  · intro id hid
    rw [hold id (hid.trans_le (h.numNodeIds_eq ▸ Nat.le_add_right _ _)), h.nodes_eq id hid]
  · refine rel_append (h.isFetch.imp fun _ _ hf ↦ hf.mono hold) (.cons ?_ .nil)
    rw [← hf]
    refine ⟨rfl, hnonneg, node, input, ?_, hname, hlt, hinput, ?_⟩
    · rw [hold n (lt_of_findNodeId hnode), hnode]
    · rw [hsend, htype]
  · rw [map_append, h.added_eq, length_append, length_singleton, range'_1_concat, ← h.numNodeIds_eq,
      map_singleton, hadded]
  · rw [hedges, h.edges_eq, flatMap_append, flatMap_singleton, append_assoc]
  · -- a name that was fetched leads to the same node, or to a `_Send` without outputs
    intro f' hf' node' hnode'
    have hbefore : ∃ id node'', s.nameIndex node'.name = some id ∧
        s.graph.findNodeId id = some node'' ∧
        (node''.numOutputs ≠ 0 → id = f'.node) := by
      rcases hnamed f' hf' node' hnode' with ⟨hf', hnode'⟩ | ⟨rfl, rfl⟩
      · exact h.named f' hf' node' hnode'
      · exact ⟨n, node', hname ▸ hn, hnode, fun _ ↦ hf ▸ rfl⟩
    obtain ⟨id, node'', hid, hnode'', houtputs⟩ := hbefore
    rcases update_eq_or hid (sendName (parseTensorName t)) s.graph.numNodeIds with
      ⟨-, hupdate⟩ | hupdate
    · exact ⟨_, _, hupdate, hsend, fun hne ↦ absurd rfl hne⟩
    · exact ⟨id, node'', hupdate, (hold id (lt_of_findNodeId hnode'')).trans hnode'', houtputs⟩
  · intro f' hf' node' hnode'
    have hself : update s.nameIndex (sendName (parseTensorName t)) (some s.graph.numNodeIds)
        (sendName (parseTensorName t)) = some f.added := hadded ▸ update_self ..
    have hfetch : (node.name, f.index) = parseTensorName t := by rw [← hf, hname]
    have hmem : f ∈ s.fetched ++ [f] := mem_append_right _ (mem_singleton_self f)
    rcases hnamed f' hf' node' hnode' with ⟨hf', hnode'⟩ | ⟨rfl, rfl⟩
    · obtain ⟨f'', hf'', hsame, hindex, hlatest⟩ := h.latest f' hf' node' hnode'
      rcases update_eq_or hlatest (sendName (parseTensorName t)) s.graph.numNodeIds with
        ⟨heq, -⟩ | hupdate
      · -- the same tensor is fetched again, so its node is the same
        have hid := sendName_injective heq
        obtain ⟨id, node'', hid', hnode'', hsameNode⟩ := h.named f' hf' node' hnode'
        have hname' : node'.name = (parseTensorName t).1 := congrArg Prod.fst hid
        rw [hname', hn] at hid'
        cases hid'
        obtain rfl := Option.some.inj (hnode.symm.trans hnode'')
        refine ⟨f, hmem, ?_, ?_, hid ▸ hself⟩
        · rw [← hsameNode houtputs, ← hf]
        · rw [← hf]
          exact (congrArg Prod.snd hid).symm
      · exact ⟨f'', mem_append_left _ hf'', hsame, hindex, hupdate⟩
    · exact ⟨f', hmem, rfl, rfl, hfetch ▸ hself⟩

theorem fetched_nil (hindexed : Indexed s.graph s.nameIndex) (hfetched : s.fetched = []) :
    Fetched env s [] s where
  indexed := hindexed
  numNodeIds_eq := by rw [hfetched]; rfl
  nodes_eq _ _ := rfl
  isFetch := hfetched ▸ .nil
  added_eq := by rw [hfetched]; rfl
  fed_eq := rfl
  edges_eq := by rw [hfetched]; exact (append_nil _).symm
  named f hf := by rw [hfetched] at hf; cases hf
  latest f hf := by rw [hfetched] at hf; cases hf

/-- `FetchOutputs`. -/
theorem Fetched.fetchOutputs (h : Fetched env s₁ fetches s) {rest : List ByteString}
    (hok : fetchOutputs env s rest = .ok s') : Fetched env s₁ (fetches ++ rest) s' := by
  induction rest generalizing fetches s with
  | nil =>
    cases hok
    rwa [append_nil]
  | cons t rest ih =>
    obtain ⟨s₂, hs₂, hok⟩ := bind_eq_ok_iff.1 hok
    rw [append_cons]
    exact ih (h.fetchOutput hs₂) hok

/-- `FeedInputs` and `FetchOutputs`. -/
theorem exists_fed_fetched {feeds : List ByteString} (hedges : g.EdgesExist)
    (hsource : (g.findNodeId kSourceId).isSome = true)
    (hok : feedAndFetch env g feeds fetches = .ok s) :
    ∃ s₁, Fed env g feeds s₁ ∧ Fetched env s₁ fetches s := by
  obtain ⟨s₁, hs₁, hok⟩ := bind_eq_ok_iff.1 hok
  have hfed := (fed_nil hedges).feedInputs hsource hs₁
  exact ⟨s₁, hfed, (fetched_nil hfed.indexed hfed.fetched_eq).fetchOutputs hok⟩

end TensorFlowCore.Subgraph
