import TensorFlowCore.CommonRuntime.ConstantFolding.Model

/-!
# The constant graph

The nodes that `FindConstantFoldableNodes` finds may be evaluated and depend on each other and on
source only (`DataFlowOrder`), so `GetConstantGraph` finds a copy of the source of every edge that
it copies (`Copied`), and a node has the same values in the constant graph and in the original one
(`Copied.exists_isValuation`).
-/

namespace TensorFlowCore

open List

namespace ConstantFolding

open TensorFlowCore.Graph GraphConstructor Relation

variable {V α : Type} {env : Env V α} {g : Graph α} {id : ℕ} {node : Node α} {nodes : List ℕ}

/-! ### The nodes that are found -/

/-- A node that may be evaluated. -/
structure IsPure (id : ℕ) (node : Node α) : Prop where
  isOp : Graph.isOp id = true
  stateless : node.opDef.isStateful = false
  controlFlow : node.isControlFlow = false
  send : node.isSend = false
  recv : node.isRecv = false

/-- What a graph has to be for constant folding: wired, without cycles, with source and sink, which
are linked via control edges, and with constants that are not stateful. -/
structure Foldable (g : Graph α) : Prop where
  wired : g.Wired
  acyclic : g.Acyclic
  source : (g.findNodeId kSourceId).isSome = true
  sink : (g.findNodeId kSinkId).isSome = true
  control : ∀ e ∈ g.edges, isOp e.src = false → e.isControlEdge = true
  constant : ∀ {id node}, g.findNodeId id = some node → node.isConstant = true →
    isOp id = true ∧ node.opDef.isStateful = false

variable (g) in
/-- Nodes in data flow order: each may be evaluated and depends on those before it and on source. -/
inductive DataFlowOrder : List ℕ → Prop
  | nil : DataFlowOrder []
  | snoc {nodes : List ℕ} {id : ℕ} {node : Node α} : DataFlowOrder nodes → id ∉ nodes →
    g.findNodeId id = some node → IsPure id node →
    (∀ parent ∈ g.inNodes id, parent ∈ nodes ∨ parent = kSourceId) → DataFlowOrder (nodes ++ [id])

theorem isPure_of_isConstant (hop : isOp id = true) (hstateless : node.opDef.isStateful = false)
    (hconstant : node.isConstant = true) : IsPure id node := by
  have hclass : node.nodeClass = .constant := of_decide_eq_true hconstant
  refine ⟨hop, hstateless, ?_, ?_, ?_⟩
  · rw [Node.isControlFlow, hclass]
    rfl
  · rw [Node.isSend, hclass]
    rfl
  · rw [Node.isRecv, hclass]
    rfl

theorem isPure_of_isConstantFoldable (h : isConstantFoldable env g id node = true) :
    IsPure id node := by
  obtain ⟨hstateful, -, hclass, -, hsource, hsink, -⟩ := of_decide_eq_true h
  simp only [not_or, Bool.not_eq_true] at hstateful hclass
  obtain ⟨hcontrol, hsend, hrecv⟩ := hclass
  refine ⟨decide_eq_true ?_, hstateful, hcontrol, hsend, hrecv⟩
  simp only [kSourceId, kSinkId] at hsource hsink
  omega

/-- Leaving a node keeps the data flow order. -/
theorem exists_leaveNode (env : Env V α) {found : Found} (hg : Foldable g)
    (hnode : (g.findNodeId id).isSome = true) (hfound : DataFlowOrder g found.nodes)
    (hid : id ∉ found.nodes) :
    ∃ found', leaveNode env g found id = some found' ∧ DataFlowOrder g found'.nodes ∧
      ∀ n ∈ found'.nodes, n ∈ found.nodes ∨ n = id := by
  obtain ⟨node, hnode⟩ := Option.isSome_iff_exists.1 hnode
  have hadd : ∀ n ∈ found.nodes ++ [id], n ∈ found.nodes ∨ n = id := by simp
  rw [leaveNode, hnode]
  refine ⟨_, rfl, ?_⟩
  dsimp only
  by_cases hconstant : node.isConstant = true
  · obtain ⟨hop, hstateless⟩ := hg.constant hnode hconstant
    rw [if_pos hconstant]
    split
    · rename_i hin
      refine ⟨hfound.snoc hid hnode (isPure_of_isConstant hop hstateless hconstant) ?_, hadd⟩
      intro parent hparent
      obtain hempty | hsource := hin
      · rw [inNodes, length_eq_zero_iff.1 hempty] at hparent
        cases hparent
      · rw [inNodes, hsource] at hparent
        exact .inr (mem_singleton.1 hparent)
    · exact ⟨hfound, fun n hn ↦ .inl hn⟩
  · rw [if_neg hconstant]
    split
    · rename_i hfoldable
      split
      · rename_i hparents
        refine ⟨hfound.snoc hid hnode (isPure_of_isConstantFoldable hfoldable) ?_, hadd⟩
        exact fun parent hparent ↦ of_decide_eq_true (all_eq_true.1 hparents parent hparent)
      · exact ⟨hfound, fun n hn ↦ .inl hn⟩
    · exact ⟨hfound, fun n hn ↦ .inl hn⟩

/-- `FindConstantFoldableNodes` returns nodes in data flow order. -/
theorem exists_findConstantFoldableNodes (env : Env V α) (hg : Foldable g) :
    ∃ nodes, findConstantFoldableNodes env g = some nodes ∧ DataFlowOrder g nodes := by
  obtain ⟨order, horder, hnodup, hnodes⟩ :=
    exists_reversePostOrderFromSink hg.wired.edgesExist hg.acyclic hg.sink
  have hloop : ∀ rest : List ℕ, rest.Nodup → (∀ id ∈ rest, (g.findNodeId id).isSome = true) →
      ∀ found : Found, DataFlowOrder g found.nodes → (∀ n ∈ found.nodes, n ∉ rest) →
        ∃ found', rest.foldlM (leaveNode env g) found = some found' ∧
          DataFlowOrder g found'.nodes := by
    intro rest
    induction rest with
    | nil => exact fun _ _ found hfound _ ↦ ⟨found, rfl, hfound⟩
    | cons id rest ih =>
      intro hnodup hnodes found hfound hdisjoint
      obtain ⟨hid, hnodup⟩ := nodup_cons.1 hnodup
      obtain ⟨hnode, hnodes⟩ := forall_mem_cons.1 hnodes
      obtain ⟨found', hleave, hfound', hmem⟩ := exists_leaveNode env hg hnode hfound
        fun h ↦ hdisjoint id h mem_cons_self
      have hdisjoint' : ∀ n ∈ found'.nodes, n ∉ rest := by
        intro n hn
        obtain hn | rfl := hmem n hn
        · exact fun h ↦ hdisjoint n hn (mem_cons_of_mem id h)
        · exact hid
      obtain ⟨found'', hrest, hfound''⟩ := ih hnodup hnodes found' hfound' hdisjoint'
      refine ⟨found'', ?_, hfound''⟩
      rw [foldlM_cons, hleave]
      exact hrest
  obtain ⟨found, hfold, hfound⟩ := hloop order hnodup hnodes {} .nil (by simp)
  rw [findConstantFoldableNodes, horder]
  simp only [Option.bind_eq_bind, Option.bind_some, hfold]
  refine ⟨_, rfl, ?_⟩
  split
  · exact hfound
  · exact .nil

/-! ### The constant graph -/

/-- An edge of the constant graph is the copy of an edge. -/
structure CopyOf (nodeMap : List (ℕ × ℕ)) (e e' : Edge) : Prop where
  src : (e.src, e'.src) ∈ nodeMap
  srcOutput : e'.srcOutput = e.srcOutput
  dstInput : e'.dstInput = e.dstInput

theorem CopyOf.isDataAt_eq {nodeMap : List (ℕ × ℕ)} {e e' : Edge} (h : CopyOf nodeMap e e')
    (i : ℕ) : isDataAt i e' = isDataAt i e := by
  rw [isDataAt, isDataAt, Edge.isControlEdge, Edge.isControlEdge, h.srcOutput, h.dstInput]

theorem mem_of_lookup {m : List (ℕ × ℕ)} {n k : ℕ} (h : m.lookup n = some k) : (n, k) ∈ m := by
  obtain ⟨before, after, rfl, -⟩ := lookup_eq_some_iff.1 h
  exact mem_append_right _ mem_cons_self

/-- What holds when the nodes have been copied. -/
structure Copied [Inhabited α] (g : Graph α) (nodes : List ℕ) (c : ConstantGraph α) : Prop where
  lookup : ∀ n, n ∈ nodes ∨ n = kSourceId → ∃ k, c.nodeMap.lookup n = some k
  mem : ∀ p ∈ c.nodeMap, p.1 ∈ nodes ∧ isOp p.2 = true ∧ c.graph.findNodeId p.2 = g.findNodeId p.1 ∨
    isOp p.1 = false ∧ p.1 = p.2
  lt : ∀ p ∈ c.nodeMap, p.2 < c.graph.numNodeIds
  inj : ∀ p ∈ c.nodeMap, ∀ p' ∈ c.nodeMap, p.2 = p'.2 → p.1 = p'.1
  inEdges : ∀ p ∈ c.nodeMap, isOp p.2 = true →
    List.Forall₂ (CopyOf c.nodeMap) (g.inEdges p.1) (c.graph.inEdges p.2)
  dst_lt : ∀ e ∈ c.graph.edges, e.dst < c.graph.numNodeIds
  endpoint : ∀ k, isOp k = false → c.graph.findNodeId k = (Graph.new : Graph α).findNodeId k
  exists_mem : ∀ {k node}, c.graph.findNodeId k = some node → isOp k = true →
    ∃ n ∈ nodes, (n, k) ∈ c.nodeMap
  two_le : 2 ≤ c.graph.numNodeIds

/-- The edges into a node are copied if their sources have been. -/
theorem exists_foldlM_copyEdge (added : ℕ) {es : List Edge} {c : ConstantGraph α}
    (hsrc : ∀ e ∈ es, ∃ k, c.nodeMap.lookup e.src = some k) :
    ∃ es', es.foldlM (copyEdge added) c =
        some { c with graph := { c.graph with edges := c.graph.edges ++ es' } } ∧
      List.Forall₂ (CopyOf c.nodeMap) es es' ∧ ∀ e' ∈ es', e'.dst = added := by
  induction es generalizing c with
  | nil => exact ⟨[], by simp, .nil, by simp⟩
  | cons e es ih =>
    obtain ⟨⟨k, hk⟩, hsrc⟩ := forall_mem_cons.1 hsrc
    have hcopy : copyEdge added c e =
        some { c with graph := c.graph.addEdge k e.srcOutput added e.dstInput } := by
      rw [copyEdge, hk]
      rfl
    obtain ⟨es', hes', hforall, hdst⟩ :=
      ih (c := { c with graph := c.graph.addEdge k e.srcOutput added e.dstInput }) hsrc
    refine ⟨⟨k, e.srcOutput, added, e.dstInput⟩ :: es', ?_, ?_, ?_⟩
    · rw [foldlM_cons, hcopy]
      refine hes'.trans ?_
      simp [addEdge]
    · exact .cons ⟨mem_of_lookup hk, rfl, rfl⟩ hforall
    · exact forall_mem_cons.2 ⟨rfl, hdst⟩

theorem copied_new [Inhabited α] (g : Graph α) :
    Copied g [] ⟨Graph.new, [(kSourceId, kSourceId), (kSinkId, kSinkId)]⟩ where
  lookup n hn := by
    obtain hn | rfl := hn
    · cases hn
    · exact ⟨kSourceId, rfl⟩
  mem p hp := by
    obtain rfl | hp := mem_cons.1 hp
    · exact .inr ⟨rfl, rfl⟩
    · obtain rfl := mem_singleton.1 hp
      exact .inr ⟨rfl, rfl⟩
  lt p hp := by
    obtain rfl | hp := mem_cons.1 hp
    · exact Nat.zero_lt_two
    · obtain rfl := mem_singleton.1 hp
      exact Nat.one_lt_two
  inj p hp p' hp' h := by
    have hself : ∀ p ∈ [(kSourceId, kSourceId), (kSinkId, kSinkId)], p.1 = p.2 := by simp
    rw [hself p hp, hself p' hp', h]
  inEdges p hp hop := by
    obtain rfl | hp := mem_cons.1 hp
    · cases hop
    · obtain rfl := mem_singleton.1 hp
      cases hop
  dst_lt e he := by
    obtain rfl := mem_singleton.1 he
    exact Nat.one_lt_two
  endpoint k _ := rfl
  exists_mem {k node} hk hop := by
    have hlt : k < 2 := lt_of_isSome (by rw [hk]; rfl)
    have hlt' : 1 < k := of_decide_eq_true hop
    omega
  two_le := Nat.le_refl 2

/-- Copying a node that depends on copied ones. -/
theorem Copied.exists_copyInto [Inhabited α] {c : ConstantGraph α} (hc : Copied g nodes c)
    (hnode : g.findNodeId id = some node) (hid : id ∉ nodes) (hop : isOp id = true)
    (hparents : ∀ parent ∈ g.inNodes id, parent ∈ nodes ∨ parent = kSourceId) :
    ∃ c', copyInto g c id = some c' ∧ Copied g (nodes ++ [id]) c' := by
  set added := c.graph.numNodeIds with hadded
  have hnew : ∀ p ∈ c.nodeMap, p.1 ≠ id := by
    rintro p hp rfl
    obtain ⟨hmem, -⟩ | ⟨hnot, -⟩ := hc.mem p hp
    · exact hid hmem
    · rw [hop] at hnot
      cases hnot
  have hlookup : ∀ {n k}, c.nodeMap.lookup n = some k →
      ((id, added) :: c.nodeMap).lookup n = some k := by
    intro n k hn
    rw [lookup_cons, beq_false_of_ne (hnew _ (mem_of_lookup hn))]
    exact hn
  have hsrc : ∀ e ∈ g.inEdges id, ∃ k, ((id, added) :: c.nodeMap).lookup e.src = some k := by
    intro e he
    obtain ⟨k, hk⟩ := hc.lookup e.src (hparents e.src (mem_map_of_mem he))
    exact ⟨k, hlookup hk⟩
  obtain ⟨es', hfold, hforall, hdst⟩ := exists_foldlM_copyEdge added
    (c := ⟨(c.graph.copyNode node).1, (id, added) :: c.nodeMap⟩) hsrc
  obtain ⟨graph, hgraph⟩ : ∃ graph : Graph α, graph =
      ⟨c.graph.nodes ++ [some node], c.graph.edges ++ es', c.graph.versions⟩ := ⟨_, rfl⟩
  have hcopy : copyInto g c id = some ⟨graph, (id, added) :: c.nodeMap⟩ := by
    rw [copyInto, hnode, hgraph]
    exact hfold
  refine ⟨_, hcopy, ?_⟩
  have hnum : graph.numNodeIds = added + 1 := by simp [hgraph, hadded, numNodeIds]
  have hold : ∀ {k}, k < added → graph.findNodeId k = c.graph.findNodeId k := fun hk ↦ by
    rw [findNodeId, findNodeId, hgraph, getElem?_append_left hk]
  have hself : graph.findNodeId added = some node := by
    simp [findNodeId, hgraph, hadded, numNodeIds]
  have hinOld : ∀ {k}, k < added → graph.inEdges k = c.graph.inEdges k := fun {k} hk ↦ by
    have hnone : es'.filter (fun e ↦ e.dst = k) = [] := filter_eq_nil_iff.2 fun e he ↦ by
      rw [hdst e he]
      simp only [decide_eq_true_eq]
      omega
    rw [Graph.inEdges, Graph.inEdges, hgraph, filter_append, hnone, append_nil]
  have hinSelf : graph.inEdges added = es' := by
    have hnone : c.graph.edges.filter (fun e ↦ e.dst = added) = [] :=
      filter_eq_nil_iff.2 fun e he ↦ by
        have hlt := hc.dst_lt e he
        simp only [decide_eq_true_eq]
        omega
    rw [Graph.inEdges, hgraph, filter_append, hnone, nil_append]
    exact filter_eq_self.2 fun e he ↦ decide_eq_true (hdst e he)
  have hmono : ∀ {e e'}, CopyOf c.nodeMap e e' → CopyOf ((id, added) :: c.nodeMap) e e' :=
    fun h ↦ ⟨mem_cons_of_mem _ h.src, h.srcOutput, h.dstInput⟩
  have htwo := hc.two_le
  refine
    { lookup := fun n hn ↦ ?_
      mem := forall_mem_cons.2 ⟨.inl ⟨by simp, decide_eq_true (by omega), ?_⟩, fun p hp ↦ ?_⟩
      lt := forall_mem_cons.2 ⟨hnum ▸ Nat.lt_succ_self added, fun p hp ↦ ?_⟩
      inj := ?_
      inEdges := forall_mem_cons.2 ⟨fun _ ↦ ?_, fun p hp hp' ↦ ?_⟩
      dst_lt := fun e he ↦ ?_
      endpoint := fun k hk ↦ ?_
      exists_mem := fun {k node'} hk hk' ↦ ?_
      two_le := hnum ▸ Nat.le_succ_of_le htwo }
  · by_cases hn' : n = id
    · subst hn'
      exact ⟨added, lookup_cons_self⟩
    · obtain ⟨k, hk⟩ := hc.lookup n (by simpa [hn'] using hn)
      exact ⟨k, hlookup hk⟩
  · rw [hself, hnode]
  · rw [hold (hc.lt p hp)]
    exact (hc.mem p hp).imp_left (And.imp_left (mem_append_left _))
  · have hlt := hc.lt p hp
    show p.2 < graph.numNodeIds
    omega
  · rintro p hp p' hp' heq
    obtain rfl | hp := mem_cons.1 hp
    · obtain rfl | hp' := mem_cons.1 hp'
      · rfl
      · have hlt := hc.lt p' hp'
        omega
    · obtain rfl | hp' := mem_cons.1 hp'
      · have hlt := hc.lt p hp
        omega
      · exact hc.inj p hp p' hp' heq
  · rw [hinSelf]
    exact hforall
  · rw [hinOld (hc.lt p hp)]
    exact (hc.inEdges p hp hp').imp fun _ _ ↦ hmono
  · rw [hgraph] at he
    obtain he | he := mem_append.1 he
    · have hlt := hc.dst_lt e he
      show e.dst < graph.numNodeIds
      omega
    · rw [hdst e he]
      exact hnum ▸ Nat.lt_succ_self added
  · have hlt : ¬1 < k := of_decide_eq_false hk
    rw [hold (by omega)]
    exact hc.endpoint k hk
  · by_cases hk'' : k = added
    · exact ⟨id, by simp, by rw [hk'']; exact mem_cons_self⟩
    · have hlt : k < added := by
        have hlt : k < graph.numNodeIds := lt_of_isSome (by rw [hk]; rfl)
        omega
      rw [hold hlt] at hk
      obtain ⟨n, hn, hmem⟩ := hc.exists_mem hk hk'
      exact ⟨n, mem_append_left _ hn, mem_cons_of_mem _ hmem⟩

theorem DataFlowOrder.exists_foldlM_copyInto [Inhabited α] (h : DataFlowOrder g nodes) :
    ∃ c, nodes.foldlM (copyInto g) ⟨Graph.new, [(kSourceId, kSourceId), (kSinkId, kSinkId)]⟩ =
      some c ∧ Copied g nodes c := by
  induction h with
  | nil => exact ⟨_, rfl, copied_new g⟩
  | snoc h hid hnode hpure hparents ih =>
    obtain ⟨c, hfold, hc⟩ := ih
    obtain ⟨c', hcopy, hc'⟩ := hc.exists_copyInto hnode hid hpure.isOp hparents
    refine ⟨c', ?_, hc'⟩
    rw [foldlM_append, hfold]
    simp [hcopy]

theorem DataFlowOrder.isPure (h : DataFlowOrder g nodes) {n : ℕ} (hn : n ∈ nodes) :
    ∃ node, g.findNodeId n = some node ∧ IsPure n node := by
  induction h with
  | nil => cases hn
  | @snoc nodes id node h _ hnode hpure _ ih =>
    obtain hn | hn := mem_append.1 hn
    · exact ih hn
    · obtain rfl := mem_singleton.1 hn
      exact ⟨node, hnode, hpure⟩

/-! ### Values in the constant graph -/

/-- The first data edges for a slot among edges and among their copies. -/
theorem find?_copyOf {nodeMap : List (ℕ × ℕ)} {es es' : List Edge}
    (h : List.Forall₂ (CopyOf nodeMap) es es') (i : ℕ) :
    es.find? (isDataAt i) = none ∧ es'.find? (isDataAt i) = none ∨
      ∃ e e', es.find? (isDataAt i) = some e ∧ es'.find? (isDataAt i) = some e' ∧
        CopyOf nodeMap e e' := by
  induction h with
  | nil => exact .inl ⟨rfl, rfl⟩
  | @cons e e' es es' he _ ih =>
    rw [find?_cons, find?_cons, he.isDataAt_eq]
    cases isDataAt i e with
    | true => exact .inr ⟨e, e', rfl, rfl, he⟩
    | false => exact ih

section Values

variable {I : Interpretation V α} {val : ℕ → ℤ → V}

theorem IsPure.compute_eq (h : IsPure id node) (id' : ℕ) :
    I.compute id node = I.compute id' node := by
  funext inputs o
  rw [Interpretation.compute, Interpretation.compute, if_neg (by simp [h.stateless]),
    if_neg (by simp [h.stateless])]

/-- The constant graph has a valuation with the original values. -/
theorem Copied.exists_isValuation [Inhabited α] {c : ConstantGraph α} (hc : Copied g nodes c)
    (hg : Foldable g) (hnodes : DataFlowOrder g nodes) (hval : IsValuation I g val) :
    ∃ val', IsValuation I c.graph val' ∧
      ∀ p ∈ c.nodeMap, isOp p.2 = true → ∀ o, val' p.2 o = val p.1 o := by
  classical
  let val' : ℕ → ℤ → V := fun k o ↦
    if h : isOp k = true ∧ ∃ n, (n, k) ∈ c.nodeMap then val h.2.choose o
    else match c.graph.findNodeId k with
      | some node => I.compute k node [] o
      | none => val k o
  have hcopy : ∀ p ∈ c.nodeMap, isOp p.2 = true → ∀ o, val' p.2 o = val p.1 o := by
    intro p hp hop o
    have h : isOp p.2 = true ∧ ∃ n, (n, p.2) ∈ c.nodeMap := ⟨hop, p.1, hp⟩
    have hchoose : h.2.choose = p.1 := hc.inj _ h.2.choose_spec p hp rfl
    show dite _ _ _ = _
    rw [dif_pos h, hchoose]
  refine ⟨val', fun k node hk o ↦ ?_, hcopy⟩
  cases hop : isOp k with
  | false =>
    -- source and sink of the constant graph have no inputs
    have hinputs : c.graph.inputValues val' k node = [] := by
      have hlt : k < 2 := by
        have hnot : ¬1 < k := of_decide_eq_false hop
        omega
      rw [hc.endpoint k hop] at hk
      interval_cases k
      · cases hk
        rfl
      · cases hk
        rfl
    show dite _ _ _ = _
    rw [dif_neg (by simp [hop]), hk, hinputs]
  | true =>
    obtain ⟨n, hn, hmem⟩ := hc.exists_mem hk hop
    obtain ⟨node', hnode', hpure⟩ := hnodes.isPure hn
    have hfind : c.graph.findNodeId k = g.findNodeId n := by
      obtain ⟨-, -, hfind⟩ | ⟨hnot, -⟩ := hc.mem _ hmem
      · exact hfind
      · have hop' := hpure.isOp
        rw [hnot] at hop'
        cases hop'
    obtain rfl : node = node' := by
      rw [hk, hnode'] at hfind
      exact Option.some.inj hfind
    have hinputs : c.graph.inputValues val' k node = g.inputValues val n node := by
      refine map_congr_left fun i _ ↦ ?_
      rw [inputEdge, inputEdge]
      obtain ⟨hnone, hnone'⟩ | ⟨e, e', hfound, hfound', he⟩ :=
        find?_copyOf (hc.inEdges _ hmem hop) i
      · rw [hnone, hnone']
        rfl
      · rw [hfound, hfound']
        obtain ⟨hedge, -, hdata, -⟩ := mem_of_find? hfound
        have hop' : isOp e'.src = true := by
          obtain ⟨-, hop', -⟩ | ⟨hnot, -⟩ := hc.mem _ he.src
          · exact hop'
          · rw [hg.control e hedge hnot] at hdata
            cases hdata
        exact congrArg some ((hcopy _ he.src hop' _).trans (by rw [he.srcOutput]))
    rw [hcopy _ hmem hop, hinputs, ← hpure.compute_eq k]
    exact hval n node hnode' o

end Values

end ConstantFolding

end TensorFlowCore
