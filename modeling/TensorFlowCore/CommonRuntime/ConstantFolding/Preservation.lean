import TensorFlowCore.CommonRuntime.ConstantFolding.ConstantGraph

/-!
# Constant folding keeps what a graph computes

A replacement feeds the consumers of an output from a constant with the value of the output
(`Replacement`), so it leaves the values at all nodes as they were, and every input is still fed by
one edge. The values are those that running the constant graph returns.
-/

namespace TensorFlowCore

open List

namespace ConstantFolding

open TensorFlowCore.Graph GraphConstructor Relation

variable {V α : Type} {env : Env V α} {I : Interpretation V α} {val : ℕ → ℤ → V} {g g' : Graph α}
  {id : ℕ} {node : Node α} {tensor : ℕ × ℤ} {v : V}

/-- What constant folding relies on: the registry has `Const` as a stateless op without inputs,
which outputs its value, and `GraphRunner::Run` fails or returns what the nodes of the graph
compute. -/
structure Faithful (env : Env V α) (I : Interpretation V α) : Prop where
  signature : ∀ {attr sig}, env.registry.signature (ascii "Const") attr = .ok sig →
    sig.opDef.isStateful = false ∧ sig.inputTypes = []
  constant : ∀ v, I.stateless (ascii "Const") (env.constAttr v) [] 0 = v
  run : ∀ {g} {names : List ByteString} {outputs : List V}, env.run g names = some outputs →
    outputs.length = names.length ∧ ∀ {val}, IsValuation I g val → ∀ {i : ℕ} {id node o},
      g.findNodeId id = some node →
      names[i]? = some (node.name ++ ascii ":" ++ decimalInt o) → outputs[i]? = some (val id o)

/-! ### One replacement -/

/-- An edge from the tensor comes from output 0 of the constant. -/
def takeFrom (tensor : ℕ × ℤ) (constantNode : ℕ) (e : Edge) : Edge :=
  if e.src = tensor.1 ∧ e.srcOutput = tensor.2 then ⟨constantNode, 0, e.dst, e.dstInput⟩ else e

/-- A constant has taken the place of a tensor. -/
structure Replacement (env : Env V α) (g : Graph α) (tensor : ℕ × ℤ) (v : V) (g' : Graph α) :
    Prop where
  constant : ∃ node, g'.findNodeId g.numNodeIds = some node ∧ node.nodeDef.op = ascii "Const" ∧
    node.nodeDef.attr = env.constAttr v ∧ node.opDef.isStateful = false ∧ node.inputTypes = []
  findNodeId_eq : ∀ id < g.numNodeIds, g'.findNodeId id = g.findNodeId id
  numNodeIds_eq : g'.numNodeIds = g.numNodeIds + 1
  edges : g'.edges.Perm (g.edges.map (takeFrom tensor g.numNodeIds) ++
    [⟨kSourceId, kControlSlot, g.numNodeIds, kControlSlot⟩])

/-- Adding a copy of each edge and removing the edge. -/
theorem foldl_addEdge_removeEdge (constantNode : ℕ) (es rest : List Edge) (g : Graph α)
    (hg : g.edges.Perm (es ++ rest)) :
    ∃ edges, es.foldl (fun g e ↦ (g.addEdge constantNode 0 e.dst e.dstInput).removeEdge e) g =
        { g with edges := edges } ∧
      edges.Perm (rest ++ es.map fun e ↦ ⟨constantNode, 0, e.dst, e.dstInput⟩) := by
  induction es generalizing g rest with
  | nil => exact ⟨g.edges, rfl, by simpa using hg⟩
  | cons e es ih =>
    have hstep : ((g.addEdge constantNode 0 e.dst e.dstInput).removeEdge e).edges.Perm
        (es ++ (rest ++ [⟨constantNode, 0, e.dst, e.dstInput⟩])) := by
      refine ((hg.append_right _).erase e).trans (Perm.of_eq ?_)
      rw [cons_append, cons_append, erase_cons_head, append_assoc]
    obtain ⟨edges, hfold, hedges⟩ := ih _ _ hstep
    refine ⟨edges, ?_, ?_⟩
    · rw [foldl_cons, hfold]
      rfl
    · rw [append_assoc] at hedges
      exact hedges

theorem rewire_eq (g : Graph α) (tensor : ℕ × ℤ) (constantNode : ℕ) :
    ∃ edges, rewire g tensor constantNode = { g with edges := edges } ∧
      edges.Perm (g.edges.map (takeFrom tensor constantNode)) := by
  set p : Edge → Bool := fun e ↦ e.src = tensor.1 ∧ e.srcOutput = tensor.2 with hp
  have hfilter : (g.outEdges tensor.1).filter (fun e ↦ e.srcOutput = tensor.2) =
      g.edges.filter p := by
    rw [outEdges, filter_filter]
    refine filter_congr fun e _ ↦ ?_
    show _ = decide (e.src = tensor.1 ∧ e.srcOutput = tensor.2)
    rw [Bool.decide_and, Bool.and_comm]
  obtain ⟨edges, hfold, hedges⟩ := foldl_addEdge_removeEdge constantNode (g.edges.filter p)
    (g.edges.filter fun e ↦ !p e) g (filter_append_perm p g.edges).symm
  refine ⟨edges, by rw [rewire, hfilter, hfold], hedges.trans ?_⟩
  have htake : g.edges.map (takeFrom tensor constantNode) =
      g.edges.map fun e ↦ if p e then ⟨constantNode, 0, e.dst, e.dstInput⟩ else e :=
    map_congr_left fun e _ ↦ by simp [takeFrom, hp]
  rw [htake]
  exact (map_ite_perm p _ _).symm

/-- The assignment of a device leaves the definition, the op and the inputs of the constant. -/
theorem placeConstant_spec (env : Env V α) {constantNode : ℕ}
    (hnode : g.findNodeId constantNode = some node) :
    (placeConstant env g constantNode).edges = g.edges ∧
      (placeConstant env g constantNode).numNodeIds = g.numNodeIds ∧
      (∀ id, id ≠ constantNode → (placeConstant env g constantNode).findNodeId id =
        g.findNodeId id) ∧
      ∃ node', (placeConstant env g constantNode).findNodeId constantNode = some node' ∧
        node'.nodeDef = node.nodeDef ∧ node'.opDef = node.opDef ∧
        node'.inputTypes = node.inputTypes := by
  rw [placeConstant]
  split
  · exact ⟨rfl, rfl, fun _ _ ↦ rfl, node, hnode, rfl, rfl, rfl⟩
  · rename_i device _
    refine ⟨rfl, by simp [setAssignedDeviceName, numNodeIds], fun id hid ↦ ?_, ?_⟩
    · rw [findNodeId, findNodeId, setAssignedDeviceName, getElem?_modify]
      simp [Ne.symm hid]
    · refine ⟨{ node with assignedDeviceName := device.name }, ?_, rfl, rfl, rfl⟩
      rw [findNodeId] at hnode ⊢
      rw [setAssignedDeviceName, getElem?_modify]
      cases hget : g.nodes[constantNode]? with
      | none => rw [hget] at hnode; cases hnode
      | some slot =>
        rw [hget] at hnode
        obtain rfl : slot = some node := hnode
        simp

/-- `ReplaceTensorWithConstant` leaves the graph alone, or replaces an output of a node that is no
constant. -/
theorem exists_replaceTensorWithConstant (tensor : ℕ × ℤ) (henv : Faithful env I) {s : State α}
    (hnode : s.graph.findNodeId tensor.1 = some node) (v : V) :
    ∃ s' replaced, replaceTensorWithConstant env s tensor v = some (s', replaced) ∧
      (replaced = false ∧ s'.graph = s.graph ∨
        replaced = true ∧ node.isConstant = false ∧ Replacement env s.graph tensor v s'.graph) := by
  rw [replaceTensorWithConstant, hnode, Option.map_some]
  split
  · exact ⟨s, false, rfl, .inl ⟨rfl, rfl⟩⟩
  · rename_i hskip
    simp only [not_or, Bool.not_eq_true] at hskip
    dsimp only
    split
    · exact ⟨_, false, rfl, .inl ⟨rfl, rfl⟩⟩
    · cases hadd : s.graph.addNode env.registry (constantDef env s node v) with
      | error _ => exact ⟨_, false, rfl, .inl ⟨rfl, rfl⟩⟩
      | ok r =>
        refine ⟨_, true, rfl, .inr ⟨rfl, hskip.1, ?_⟩⟩
        rw [addNode] at hadd
        cases hsignature : env.registry.signature (constantDef env s node v).op
            (constantDef env s node v).attr with
        | error _ => rw [hsignature] at hadd; cases hadd
        | ok sig =>
          rw [hsignature] at hadd
          cases hadd
          obtain ⟨hstateful, hinputs⟩ := henv.signature hsignature
          set g₁ : Graph α := { s.graph with nodes := s.graph.nodes ++
            [some ⟨constantDef env s node v, sig.opDef, sig.inputTypes, sig.outputTypes, []⟩]
            } with hg₁
          obtain ⟨edges, hrewire, hedges⟩ := rewire_eq g₁ tensor s.graph.numNodeIds
          rw [hrewire]
          have hconstant : g₁.findNodeId s.graph.numNodeIds =
              some ⟨constantDef env s node v, sig.opDef, sig.inputTypes, sig.outputTypes, []⟩ := by
            simp [findNodeId, hg₁, numNodeIds]
          obtain ⟨hedges', hnum, hold, node', hnode', hdef, hop, hin⟩ := placeConstant_spec
            env (g := { g₁ with edges := edges }.addEdge kSourceId kControlSlot
              s.graph.numNodeIds kControlSlot) hconstant
          refine ⟨⟨node', hnode', by rw [hdef]; rfl, by rw [hdef]; rfl, by
            rw [hop]; exact hstateful,
            by rw [hin]; exact hinputs⟩, fun id hid ↦ ?_, ?_, ?_⟩
          · rw [hold id (by omega)]
            show g₁.findNodeId id = _
            rw [findNodeId, findNodeId, hg₁, getElem?_append_left hid]
          · rw [hnum]
            simp [addEdge, numNodeIds, hg₁]
          · rw [hedges']
            exact hedges.append_right _

/-! ### What a replacement preserves -/

theorem takeFrom_dst (c : ℕ) (e : Edge) : (takeFrom tensor c e).dst = e.dst := by
  rw [takeFrom]
  split <;> rfl

theorem takeFrom_dstInput (c : ℕ) (e : Edge) : (takeFrom tensor c e).dstInput = e.dstInput := by
  rw [takeFrom]
  split <;> rfl

theorem isControlEdge_takeFrom {c : ℕ} (hdata : tensor.2 ≠ kControlSlot) (e : Edge) :
    (takeFrom tensor c e).isControlEdge = e.isControlEdge := by
  rw [takeFrom]
  split
  · rename_i h
    rw [Edge.isControlEdge, Edge.isControlEdge, h.2, decide_eq_false hdata]
    rfl
  · rfl

theorem isDataAt_takeFrom {c : ℕ} (hdata : tensor.2 ≠ kControlSlot) (i : ℕ) (e : Edge) :
    isDataAt i (takeFrom tensor c e) = isDataAt i e := by
  rw [isDataAt, isDataAt, isControlEdge_takeFrom hdata, takeFrom_dstInput]

namespace Replacement

variable (h : Replacement env g tensor v g')
include h

theorem mem_edges {e : Edge} : e ∈ g'.edges ↔
    (∃ e₀ ∈ g.edges, takeFrom tensor g.numNodeIds e₀ = e) ∨
      e = ⟨kSourceId, kControlSlot, g.numNodeIds, kControlSlot⟩ := by
  rw [h.edges.mem_iff]
  simp

/-- A node is the constant or has been there before. -/
theorem cases_findNodeId (hnode : g'.findNodeId id = some node) :
    id = g.numNodeIds ∨ id < g.numNodeIds ∧ g.findNodeId id = some node := by
  have hlt : id < g'.numNodeIds := lt_of_isSome (by rw [hnode]; rfl)
  rw [h.numNodeIds_eq] at hlt
  obtain hlt | heq := Nat.lt_succ_iff_lt_or_eq.1 hlt
  · exact .inr ⟨hlt, by rw [← h.findNodeId_eq id hlt, hnode]⟩
  · exact .inl heq

theorem findNodeId_of_some (hnode : g.findNodeId id = some node) :
    g'.findNodeId id = some node := by
  rw [h.findNodeId_eq id (lt_of_isSome (by rw [hnode]; rfl)), hnode]

theorem inputTypes_eq_nil (hnode : g'.findNodeId g.numNodeIds = some node) :
    node.inputTypes = [] := by
  obtain ⟨node', hnode', -, -, -, hinputs⟩ := h.constant
  obtain rfl := Option.some.inj (hnode'.symm.trans hnode)
  exact hinputs

theorem inEdges_perm (hid : id < g.numNodeIds) :
    (g'.inEdges id).Perm ((g.inEdges id).map (takeFrom tensor g.numNodeIds)) := by
  refine (h.edges.filter _).trans (Perm.of_eq ?_)
  have hnone : [(⟨kSourceId, kControlSlot, g.numNodeIds, kControlSlot⟩ : Edge)].filter
      (fun e ↦ e.dst = id) = [] := by
    simp only [filter_eq_nil_iff, mem_singleton, decide_eq_true_eq]
    rintro e rfl rfl
    exact Nat.lt_irrefl _ hid
  rw [filter_append, hnone, append_nil, filter_map]
  refine congrArg _ (filter_congr fun e _ ↦ ?_)
  rw [Function.comp_apply, takeFrom_dst]

/-- An input is fed by the edge that has taken the place of the one before. -/
theorem filter_isDataAt (hdata : tensor.2 ≠ kControlSlot) (hid : id < g.numNodeIds) {i : ℕ}
    {e : Edge} (he : (g.inEdges id).filter (isDataAt i) = [e]) :
    (g'.inEdges id).filter (isDataAt i) = [takeFrom tensor g.numNodeIds e] := by
  refine perm_singleton.1 (((h.inEdges_perm hid).filter _).trans (Perm.of_eq ?_))
  have hcomp : isDataAt i ∘ takeFrom tensor g.numNodeIds = isDataAt i :=
    funext fun e ↦ isDataAt_takeFrom hdata i e
  rw [filter_map, hcomp, he]
  rfl

/-- A constant in place of a tensor feeds each of its consumers' inputs, once. -/
theorem wired (hw : g.Wired) (hsource : (g.findNodeId kSourceId).isSome = true)
    (hdata : tensor.2 ≠ kControlSlot) : g'.Wired where
  edgesExist e he := by
    have hsome : ∀ {id}, (g.findNodeId id).isSome = true → (g'.findNodeId id).isSome = true := by
      intro id hid
      rw [h.findNodeId_eq id (lt_of_isSome hid), hid]
    have hself : (g'.findNodeId g.numNodeIds).isSome = true := by
      obtain ⟨node, hnode, -⟩ := h.constant
      rw [hnode]
      rfl
    obtain ⟨e, hmem, rfl⟩ | rfl := h.mem_edges.1 he
    · obtain ⟨hsrc, hdst⟩ := hw.edgesExist e hmem
      rw [takeFrom_dst]
      refine ⟨?_, hsome hdst⟩
      rw [takeFrom]
      split
      · exact hself
      · exact hsome hsrc
    · exact ⟨hsome hsource, hself⟩
  fedOnce {id node} hnode i hi := by
    obtain rfl | ⟨hid, hnode⟩ := h.cases_findNodeId hnode
    · rw [Node.numInputs, h.inputTypes_eq_nil hnode] at hi
      cases hi
    · obtain ⟨e, hfilter, -⟩ := (hw.fedOnce hnode i hi).exists_inputEdge
      rw [FedOnce, h.filter_isDataAt hdata hid hfilter]
      rfl
  inRange e he hcontrol {node} hnode := by
    obtain ⟨e, hmem, rfl⟩ | rfl := h.mem_edges.1 he
    · rw [isControlEdge_takeFrom hdata] at hcontrol
      rw [takeFrom_dst] at hnode
      rw [takeFrom_dstInput]
      obtain heq | ⟨-, hnode⟩ := h.cases_findNodeId hnode
      · have hlt := lt_of_isSome (hw.edgesExist e hmem).2
        omega
      · exact hw.inRange e hmem hcontrol hnode
    · cases hcontrol

/-- No node feeds the constant. -/
theorem wellFounded_feeds (hw : g.Wired) (hwf : WellFounded g.Feeds)
    (hdata : tensor.2 ≠ kControlSlot) : WellFounded g'.Feeds := by
  have hcases : ∀ {a b}, g'.Feeds a b → b < g.numNodeIds ∧ (a = g.numNodeIds ∨ g.Feeds a b) := by
    rintro a b ⟨e, he, hcontrol, rfl, rfl⟩
    obtain ⟨e, hmem, rfl⟩ | rfl := h.mem_edges.1 he
    · rw [isControlEdge_takeFrom hdata] at hcontrol
      rw [takeFrom_dst]
      refine ⟨lt_of_isSome (hw.edgesExist e hmem).2, ?_⟩
      rw [takeFrom]
      split
      · exact .inl rfl
      · exact .inr ⟨e, hmem, hcontrol, rfl, rfl⟩
    · cases hcontrol
  have hself : Acc g'.Feeds g.numNodeIds := ⟨_, fun a ha ↦ absurd (hcases ha).1 (Nat.lt_irrefl _)⟩
  refine ⟨fun b ↦ ?_⟩
  induction b using hwf.induction with
  | _ b ih =>
    refine ⟨_, fun a ha ↦ ?_⟩
    obtain rfl | ha := (hcases ha).2
    · exact hself
    · exact ih a ha

/-- The values are kept if the constant has the value of the tensor. -/
theorem exists_isValuation (henv : Faithful env I) (hw : g.Wired) (hdata : tensor.2 ≠ kControlSlot)
    (hval : IsValuation I g val) (hv : val tensor.1 tensor.2 = v) :
    ∃ val', IsValuation I g' val' ∧ ∀ id < g.numNodeIds, val' id = val id := by
  obtain ⟨constant, hconstant, hop, hattr, hstateful, hinputTypes⟩ := h.constant
  set c := g.numNodeIds with hc
  set val' := Function.update val c (I.compute c constant []) with hval'
  have hold : ∀ id < c, val' id = val id := fun id hid ↦ Function.update_of_ne (by omega) _ _
  have hself : val' c = I.compute c constant [] := Function.update_self _ _ _
  have hout : val' c 0 = v := by
    rw [hself, Interpretation.compute, if_neg (by simp [hstateful]), hop, hattr, henv.constant]
  refine ⟨val', fun id node hnode o ↦ ?_, hold⟩
  obtain rfl | ⟨hid, hnode⟩ := h.cases_findNodeId hnode
  · obtain rfl := Option.some.inj (hconstant.symm.trans hnode)
    have hinputs : g'.inputValues val' g.numNodeIds constant = [] := by
      rw [inputValues, Node.numInputs, hinputTypes]
      rfl
    rw [hself, hinputs]
  · have hinputs : g'.inputValues val' id node = g.inputValues val id node := by
      refine map_congr_left fun i hi ↦ ?_
      obtain ⟨e, hfilter, hedge⟩ := (hw.fedOnce hnode i (mem_range.1 hi)).exists_inputEdge
      rw [FedOnce.inputEdge_eq (h.filter_isDataAt hdata hid hfilter), hedge]
      refine congrArg some ?_
      rw [takeFrom]
      dsimp only
      split
      · rename_i htensor
        rw [hout, htensor.1, htensor.2, hv]
      · have hsrc := lt_of_isSome (hw.edgesExist e (mem_of_find? hedge).1).1
        rw [hold _ hsrc]
    rw [hold id hid, hinputs]
    exact hval id node hnode o

end Replacement

/-! ### The loop over the outputs -/

variable (env) in
/-- Tensors have been replaced by constants one after the other. -/
inductive ReplacedBy (g : Graph α) : List ((ℕ × ℤ) × V) → Graph α → Prop
  | refl : ReplacedBy g [] g
  | tail {replaced : List ((ℕ × ℤ) × V)} {g₁ g₂ : Graph α} {tensor : ℕ × ℤ} {v : V} :
    ReplacedBy g replaced g₁ → Replacement env g₁ tensor v g₂ →
      ReplacedBy g (replaced ++ [(tensor, v)]) g₂

/-- The second graph has the nodes of the first one with the same values. -/
structure Folded (I : Interpretation V α) (g g' : Graph α) : Prop where
  node : ∀ {id node}, g.findNodeId id = some node → g'.findNodeId id = some node
  wired : g'.Wired
  wellFounded : WellFounded g'.Feeds
  values : ∀ {val}, IsValuation I g val → ∃ val', IsValuation I g' val' ∧
    ∀ {id}, (g.findNodeId id).isSome = true → val' id = val id

theorem Folded.refl (I : Interpretation V α) (hg : Foldable g) : Folded I g g where
  node h := h
  wired := hg.wired
  wellFounded := Graph.wellFounded_feeds hg.wired.edgesExist hg.acyclic
  values {val} hval := ⟨val, hval, fun _ ↦ rfl⟩

/-- A tensor may be replaced by a value: it is an output of a node that may be evaluated, and has
the value in every valuation. -/
structure Replaceable (I : Interpretation V α) (g : Graph α) (tensor : ℕ × ℤ) (v : V) : Prop where
  isPure : ∃ node, g.findNodeId tensor.1 = some node ∧ IsPure tensor.1 node
  data : tensor.2 ≠ kControlSlot
  value : ∀ {val}, IsValuation I g val → val tensor.1 tensor.2 = v

theorem Folded.trans_replacement {g₁ g₂ : Graph α} (h : Folded I g g₁) (henv : Faithful env I)
    (hg : Foldable g) (hr : Replacement env g₁ tensor v g₂) (ht : Replaceable I g tensor v) :
    Folded I g g₂ where
  node hnode := hr.findNodeId_of_some (h.node hnode)
  wired := by
    obtain ⟨source, hsource⟩ := Option.isSome_iff_exists.1 hg.source
    exact hr.wired h.wired (by rw [h.node hsource]; rfl) ht.data
  wellFounded := hr.wellFounded_feeds h.wired h.wellFounded ht.data
  values {val} hval := by
    obtain ⟨val₁, hval₁, heq₁⟩ := h.values hval
    obtain ⟨node, hnode, -⟩ := ht.isPure
    have hv : val₁ tensor.1 tensor.2 = v := by
      rw [heq₁ (by rw [hnode]; rfl), ht.value hval]
    obtain ⟨val₂, hval₂, heq₂⟩ := hr.exists_isValuation henv h.wired ht.data hval₁ hv
    refine ⟨val₂, hval₂, fun {id} hid ↦ ?_⟩
    obtain ⟨node', hnode'⟩ := Option.isSome_iff_exists.1 hid
    rw [heq₂ id (lt_of_isSome (by rw [h.node hnode']; rfl)), heq₁ hid]

/-- The loop over the outputs. -/
theorem exists_foldlM_replaceOutput (henv : Faithful env I) (hg : Foldable g)
    {outputs : List (Fetch × V)} (houtputs : ∀ t ∈ outputs, Replaceable I g (t.1.2, t.1.1.2) t.2)
    {s : State α} {replaced : List ((ℕ × ℤ) × V)} (hs : Folded I g s.graph)
    (hreplaced : ReplacedBy env g replaced s.graph)
    (hpure : ∀ t ∈ replaced, Replaceable I g t.1 t.2 ∧
      (g.findNodeId t.1.1).all (!·.isConstant) = true) :
    ∃ s' replaced', outputs.foldlM (replaceOutput env) (s, replaced.length) =
        some (s', replaced'.length) ∧ Folded I g s'.graph ∧ ReplacedBy env g replaced' s'.graph ∧
      ∀ t ∈ replaced', Replaceable I g t.1 t.2 ∧
        (g.findNodeId t.1.1).all (!·.isConstant) = true := by
  induction outputs generalizing s replaced with
  | nil => exact ⟨s, replaced, rfl, hs, hreplaced, hpure⟩
  | cons t outputs ih =>
    obtain ⟨ht, houtputs⟩ := forall_mem_cons.1 houtputs
    obtain ⟨node, hnode, -⟩ := ht.isPure
    obtain ⟨s₁, success, hreplace, hcases⟩ :=
      exists_replaceTensorWithConstant (t.1.2, t.1.1.2) henv (hs.node hnode) t.2
    rw [foldlM_cons, replaceOutput]
    simp only [hreplace, Option.map_some]
    obtain ⟨rfl, hgraph⟩ | ⟨rfl, hconstant, hr⟩ := hcases
    · exact ih houtputs (hgraph ▸ hs) (hgraph ▸ hreplaced) hpure
    · have hlength : replaced.length + 1 = (replaced ++ [((t.1.2, t.1.1.2), t.2)]).length := by simp
      simp only [if_true, hlength]
      refine ih houtputs (hs.trans_replacement henv hg hr ht) (hreplaced.tail hr) ?_
      intro t' ht'
      obtain ht' | ht' := mem_append.1 ht'
      · exact hpure t' ht'
      · obtain rfl := mem_singleton.1 ht'
        refine ⟨ht, ?_⟩
        rw [hnode]
        simpa using hconstant

/-! ### Constant folding -/

theorem exists_of_mem_tensorsToFetch {nodeMap : List (ℕ × ℕ)} {t : Fetch}
    (ht : t ∈ tensorsToFetch env g nodeMap) :
    ∃ p ∈ nodeMap, ∃ e ∈ g.edges, e.src = p.1 ∧ e.isControlEdge = false ∧
      t = ((p.2, e.srcOutput), p.1) := by
  rw [tensorsToFetch, mem_insertionSort, mem_dedup, mem_flatMap] at ht
  obtain ⟨p, hp, ht⟩ := ht
  obtain ⟨e, he, rfl⟩ := mem_map.1 ht
  obtain ⟨he, hfetch⟩ := mem_filter.1 he
  obtain ⟨he, hsrc⟩ := mem_filter.1 he
  exact ⟨p, hp, e, he, of_decide_eq_true hsrc,
    Bool.eq_false_iff.2 (of_decide_eq_true hfetch).2, rfl⟩

section

variable [Inhabited α] {nodes : List ℕ} {c : ConstantGraph α} (hg : Foldable g)
  (hnodes : DataFlowOrder g nodes) (hc : Copied g nodes c)
include hg hnodes hc

/-- A tensor to fetch is an output of the copy of a node that may be evaluated. -/
theorem Copied.exists_fetch {t : Fetch} (ht : t ∈ tensorsToFetch env g c.nodeMap) :
    (t.2, t.1.1) ∈ c.nodeMap ∧ isOp t.1.1 = true ∧ t.1.2 ≠ kControlSlot ∧
      ∃ node, g.findNodeId t.2 = some node ∧ IsPure t.2 node ∧
        c.graph.findNodeId t.1.1 = some node := by
  obtain ⟨p, hp, e, he, hsrc, hdata, rfl⟩ := exists_of_mem_tensorsToFetch ht
  obtain ⟨hmem, hop, hfind⟩ | ⟨hnot, -⟩ := hc.mem p hp
  · obtain ⟨node, hnode, hpure⟩ := hnodes.isPure hmem
    exact ⟨hp, hop, of_decide_eq_false hdata, node, hnode, hpure, hfind.trans hnode⟩
  · rw [hg.control e he (hsrc ▸ hnot)] at hdata
    cases hdata

/-- What running the constant graph returns may replace the tensors. -/
theorem Copied.replaceable (henv : Faithful env I) {names : List ByteString} {outputs : List V}
    (hnames : names.map some = (tensorsToFetch env g c.nodeMap).map (tensorName c.graph))
    (hrun : env.run c.graph names = some outputs) :
    ∀ t ∈ (tensorsToFetch env g c.nodeMap).zip outputs, Replaceable I g (t.1.2, t.1.1.2) t.2 := by
  rintro ⟨t, v⟩ hmem
  obtain ⟨i, hi⟩ := mem_iff_getElem?.1 hmem
  obtain ⟨hfetch, houtput⟩ := getElem?_zip_eq_some.1 hi
  obtain ⟨hcopy, hop, hdata, node, hnode, hpure, hfind⟩ :=
    hc.exists_fetch hg hnodes (mem_of_getElem? hfetch)
  refine ⟨⟨node, hnode, hpure⟩, hdata, fun {val} hval ↦ ?_⟩
  obtain ⟨val', hval', heq⟩ := hc.exists_isValuation hg hnodes hval
  have hname : names[i]? = some (node.name ++ ascii ":" ++ decimalInt t.1.2) := by
    have hget := congrArg (·[i]?) hnames
    simp only [getElem?_map, hfetch, Option.map_some, tensorName, hfind] at hget
    cases hname : names[i]? with
    | none => rw [hname] at hget; cases hget
    | some name =>
      rw [hname] at hget
      exact Option.some.inj hget
  have hvalue := (henv.run hrun).2 hval' hfind hname
  rw [houtput] at hvalue
  rw [← heq _ hcopy hop t.1.2]
  exact (Option.some.inj hvalue).symm

end

/-- The op nodes of a graph that is run are copies of nodes that may be evaluated. -/
def Evaluates (g constantGraph : Graph α) : Prop :=
  ∀ {id node}, constantGraph.findNodeId id = some node → isOp id = true →
    ∃ n, g.findNodeId n = some node ∧ IsPure n node

/-- What constant folding does: every node is left and computes the same, every input is fed by one
edge, and the tensors that have been replaced are outputs of nodes that may be evaluated. -/
structure FoldsTo (env : Env V α) (I : Interpretation V α) (g g' : Graph α) (result : Bool) :
    Prop where
  node : ∀ {id node}, g.findNodeId id = some node → g'.findNodeId id = some node
  fedOnce : ∀ {id node}, g'.findNodeId id = some node → ∀ i < node.numInputs, g'.FedOnce id i
  values : ∀ {val val'}, IsValuation I g val → IsValuation I g' val' →
    ∀ {id}, (g.findNodeId id).isSome = true → ∀ o, val' id o = val id o
  /-- What the first graph computes, the second one computes as well. -/
  exists_values : ∀ {val}, IsValuation I g val → ∃ val', IsValuation I g' val' ∧
    ∀ {id}, (g.findNodeId id).isSome = true → val' id = val id
  replaced : ∃ replaced, ReplacedBy env g replaced g' ∧
    (∀ t ∈ replaced, ∃ node, g.findNodeId t.1.1 = some node ∧ IsPure t.1.1 node ∧
      node.isConstant = false) ∧ (result = true ↔ replaced ≠ [])

theorem Folded.foldsTo {replaced : List ((ℕ × ℤ) × V)} (h : Folded I g g')
    (hreplaced : ReplacedBy env g replaced g') (hpure : ∀ t ∈ replaced, Replaceable I g t.1 t.2 ∧
      (g.findNodeId t.1.1).all (!·.isConstant) = true) :
    FoldsTo env I g g' (0 < replaced.length) where
  node hnode := h.node hnode
  fedOnce hnode := h.wired.fedOnce hnode
  values {val val'} hval hval' {id} hid o := by
    obtain ⟨val₁, hval₁, heq⟩ := h.values hval
    obtain ⟨node, hnode⟩ := Option.isSome_iff_exists.1 hid
    rw [← heq hid]
    exact hval'.eq h.wired.edgesExist h.wellFounded hval₁ (by rw [h.node hnode]; rfl) o
  exists_values := h.values
  replaced := by
    refine ⟨replaced, hreplaced, fun t ht ↦ ?_, ?_⟩
    · obtain ⟨⟨⟨node, hnode, hpure⟩, -, -⟩, hconstant⟩ := hpure t ht
      rw [hnode] at hconstant
      exact ⟨node, hnode, hpure, by simpa using hconstant⟩
    · rw [decide_eq_true_eq, length_pos_iff]

theorem foldsTo_refl (env : Env V α) (I : Interpretation V α) (hg : Foldable g) :
    FoldsTo env I g g false :=
  (Folded.refl I hg).foldsTo .refl (by simp)

/-- `DoConstantFolding` returns, evaluates only nodes that may be evaluated, leaves the graph
unchanged if that fails, and otherwise keeps what it computes. -/
theorem exists_doConstantFolding [Inhabited α] (env : Env V α) (I : Interpretation V α)
    (s : State α) (hg : Foldable s.graph) (henv : Faithful env I) :
    ∃ s' result nodes constantGraph fetch names,
      doConstantFolding env s = some (s', result) ∧
      findConstantFoldableNodes env s.graph = some nodes ∧
      getConstantGraph env s.graph nodes = some (constantGraph, fetch) ∧
      fetch.mapM (tensorName constantGraph) = some names ∧
      Evaluates s.graph constantGraph ∧
      (env.run constantGraph names = none → s' = s ∧ result = false) ∧
      FoldsTo env I s.graph s'.graph result := by
  obtain ⟨nodes, hfind, hnodes⟩ := exists_findConstantFoldableNodes env hg
  obtain ⟨c, hcopy, hc⟩ := hnodes.exists_foldlM_copyInto
  have hgraph : getConstantGraph env s.graph nodes =
      some (c.graph, tensorsToFetch env s.graph c.nodeMap) := by
    rw [getConstantGraph, hcopy]
    rfl
  have hname : ∀ t ∈ tensorsToFetch env s.graph c.nodeMap, (tensorName c.graph t).isSome =
      true := by
    intro t ht
    obtain ⟨-, -, -, node, -, -, hnode⟩ := hc.exists_fetch hg hnodes ht
    rw [tensorName, hnode]
    rfl
  obtain ⟨names, hmapM, hnames⟩ := exists_mapM_eq_some hname
  have hevaluates : Evaluates s.graph c.graph := by
    intro id node hnode hop
    obtain ⟨n, hn, hmem⟩ := hc.exists_mem hnode hop
    obtain ⟨node', hnode', hpure⟩ := hnodes.isPure hn
    obtain ⟨-, -, hsame⟩ | ⟨hnot, -⟩ := hc.mem _ hmem
    · rw [hnode, hnode'] at hsame
      cases hsame
      exact ⟨n, hnode', hpure⟩
    · have hop' := hpure.isOp
      rw [hnot] at hop'
      cases hop'
  suffices h : ∃ s' result, doConstantFolding env s = some (s', result) ∧
      (env.run c.graph names = none → s' = s ∧ result = false) ∧
      FoldsTo env I s.graph s'.graph result by
    obtain ⟨s', result, hfold, hfail, hto⟩ := h
    exact ⟨s', result, nodes, c.graph, _, names, hfold, hfind, hgraph, hmapM, hevaluates,
      hfail, hto⟩
  rw [doConstantFolding]
  simp only [Option.bind_eq_bind, hfind, hgraph, hmapM, Option.bind_some]
  have hsame : ∃ s' result, some (s, false) = some (s', result) ∧
      (env.run c.graph names = none → s' = s ∧ result = false) ∧
      FoldsTo env I s.graph s'.graph result :=
    ⟨s, false, rfl, fun _ ↦ ⟨rfl, rfl⟩, foldsTo_refl env I hg⟩
  split
  · exact hsame
  · split
    · exact hsame
    · cases hrun : env.run c.graph names with
      | none =>
        rw [hrun] at hsame
        exact hsame
      | some outputs =>
        have hlength : outputs.length = (tensorsToFetch env s.graph c.nodeMap).length := by
          rw [(henv.run hrun).1]
          simpa using congrArg length hnames
        obtain ⟨s', replaced, hloop, hfolded, hreplaced, hpure⟩ :=
          exists_foldlM_replaceOutput henv hg (hc.replaceable hg hnodes henv hnames hrun)
            (Folded.refl I hg) .refl (by simp)
        refine ⟨s', 0 < replaced.length, ?_, nofun, hfolded.foldsTo hreplaced hpure⟩
        rw [length_nil] at hloop
        simp only [hlength, Nat.lt_irrefl, if_false, hloop, Option.bind_some]
        rfl

/-- A stateful node `c` that consumes the successor of a constant. -/
def successorOfConst : Graph ℕ where
  nodes := [some (endpoint (ascii "_SOURCE")), some (endpoint (ascii "_SINK")),
    some ⟨⟨ascii "a", ascii "Const", [], [], 5⟩, {}, [], [3], []⟩,
    some ⟨⟨ascii "b", ascii "Successor", [], [], 0⟩, {}, [3], [3], []⟩,
    some ⟨⟨ascii "c", ascii "Consume", [], [], 0⟩, { isStateful := true }, [3], [], []⟩]
  edges := [⟨0, -1, 1, -1⟩, ⟨0, -1, 2, -1⟩, ⟨2, 0, 3, 0⟩, ⟨3, 0, 4, 0⟩, ⟨4, -1, 1, -1⟩]
  versions := { producer := graphDefVersion, minConsumer := graphDefVersionMinConsumer }

/-- The meaning of the ops of `successorOfConst`. -/
def successorMeaning : Interpretation ℕ ℕ where
  stateless op attr inputs _ := if op = ascii "Const" then attr else (inputs.getD 0 none).getD 0 + 1
  stateful _ inputs _ := (inputs.getD 0 none).getD 0

/-- Runs the constant graph of `successorOfConst`. -/
def successorEnv : Env ℕ ℕ where
  consider := none
  isFunction _ := false
  registry := ⟨fun op _ ↦ if op = ascii "Const" then .ok ⟨{}, [], [3]⟩ else .error .ok⟩
  partitionDevice := none
  memoryTypeForOutput _ _ _ := none
  totalBytes _ := 4
  constAttr v := v
  finalizes _ := true
  hasKernel _ _ := true
  validates _ _ := true
  address id := id
  run g names :=
    if g.nodes = successorOfConst.nodes.take 4 ∧
        g.edges = [⟨0, -1, 1, -1⟩, ⟨0, -1, 2, -1⟩, ⟨2, 0, 3, 0⟩] ∧
        names = [ascii "b:0"] then some [6]
    else none

theorem foldable_successorOfConst : Foldable successorOfConst := by
  have hlt : ∀ {id node}, successorOfConst.findNodeId id = some node → id < 5 := fun h ↦
    lt_of_isSome (g := successorOfConst) (by rw [h]; rfl)
  refine ⟨⟨by unfold EdgesExist; decide, fun {id node} hfind ↦ ?_, fun e he hdata node hfind ↦ ?_⟩,
    acyclic_of_rank (fun id ↦ if id = 1 then 5 else id) (by decide), rfl, rfl, by decide,
    fun {id node} hfind hconstant ↦ ?_⟩
  · have hid := hlt hfind
    interval_cases id <;> cases hfind <;> unfold FedOnce <;> decide
  · have hall : ∀ e ∈ successorOfConst.edges, e.isControlEdge = false →
        (successorOfConst.findNodeId e.dst).all fun node ↦
          0 ≤ e.dstInput ∧ e.dstInput < node.numInputs := by decide
    simpa [hfind] using hall e he hdata
  · have hid := hlt hfind
    interval_cases id <;> cases hfind <;> revert hconstant <;> decide

theorem faithful_successorEnv : Faithful successorEnv successorMeaning where
  signature {attr sig} h := by
    obtain rfl : (⟨{}, [], [3]⟩ : Signature) = sig := Except.ok.inj h
    exact ⟨rfl, rfl⟩
  constant v := rfl
  run {g names outputs} hrun := by
    simp only [successorEnv] at hrun
    split at hrun
    · rename_i h
      obtain ⟨hnodes, hedges, rfl⟩ := h
      cases hrun
      refine ⟨rfl, fun {val} hval {i id node o} hfind hname ↦ ?_⟩
      obtain ⟨nodes, edges, versions⟩ := g
      subst hnodes hedges
      have hid : id < 4 := lt_of_isSome (by rw [hfind]; rfl)
      have hi : i = 0 := by
        by_contra hne
        rw [getElem?_eq_none (by simp; omega)] at hname
        cases hname
      subst hi
      have hconst : val 2 0 = 5 := hval 2 _ rfl 0
      have hsuccessor : val 3 o = val 2 0 + 1 := hval 3 _ rfl o
      -- the name of the tensor starts with the letter of node 3
      have hhead := congrArg head? (Option.some.inj hname)
      interval_cases id
      · cases hfind
        exact absurd hhead (by decide : ¬(some 98 : Option UInt8) = some 95)
      · cases hfind
        exact absurd hhead (by decide : ¬(some 98 : Option UInt8) = some 95)
      · cases hfind
        exact absurd hhead (by decide : ¬(some 98 : Option UInt8) = some 97)
      · rw [hsuccessor, hconst]
        rfl
    · cases hrun

theorem exists_doConstantFolding_successorOfConst :
    Foldable successorOfConst ∧ Faithful successorEnv successorMeaning ∧
    ∃ s' result nodes constantGraph fetch names,
      doConstantFolding successorEnv ⟨successorOfConst, 0, 0⟩ = some (s', result) ∧
      findConstantFoldableNodes successorEnv successorOfConst = some nodes ∧
      getConstantGraph successorEnv successorOfConst nodes = some (constantGraph, fetch) ∧
      fetch.mapM (tensorName constantGraph) = some names ∧
      Evaluates successorOfConst constantGraph ∧
      (successorEnv.run constantGraph names = none →
        s' = ⟨successorOfConst, 0, 0⟩ ∧ result = false) ∧
      FoldsTo successorEnv successorMeaning successorOfConst s'.graph result :=
  ⟨foldable_successorOfConst, faithful_successorEnv,
    exists_doConstantFolding successorEnv successorMeaning ⟨successorOfConst, 0, 0⟩
      foldable_successorOfConst faithful_successorEnv⟩

example : (doConstantFolding successorEnv ⟨successorOfConst, 0, 0⟩).map (·.2) = some true := by
  decide +kernel

end ConstantFolding

end TensorFlowCore
