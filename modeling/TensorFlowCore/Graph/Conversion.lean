import TensorFlowCore.Graph.EdgeIndex

/-!
# What `GraphConstructor` builds

The graph that an accepted `GraphDef` is converted to, in terms of the `GraphDef`: one node for each
`NodeDef`, in the order in which they were converted, and one edge for each input (`Built`). Every
node was converted when enough of its inputs were (`Worklist.Enabled`).
-/

namespace TensorFlowCore.GraphConstructor

open List Worklist

variable {α : Type} [Inhabited α] {gdef : GraphDef α} {l : Link}

/-! ### `Convert`, one node -/

/-- Control dependencies come after regular dependencies. -/
def ControlsLast (inputs : List ByteString) : Prop :=
  inputs.Pairwise fun input input' ↦ isControl input = true → isControl input' = true

/-- `src_node->num_outputs()`. -/
def numOutputs (g : Graph α) (src : ℕ) : ℕ := ((g.findNodeId src).map Node.numOutputs).getD 0

/-- What `Convert` collects of an input. -/
def inputInfo (gdef : GraphDef α) (s : ConvertState α) (input : ByteString) : InputInfo :=
  ⟨(inputId input).1, s.nodeNamed gdef (inputId input).1, linkIndex input⟩

/-- The outputs that are named of converted nodes exist. -/
def OutputsExist (gdef : GraphDef α) (s : ConvertState α) (inputs : List ByteString) : Prop :=
  ∀ input ∈ inputs, isControl input = false → ∀ src,
    s.nodeNamed gdef (inputId input).1 = some src → (inputId input).2 < numOutputs s.graph src

/-- An input that is a regular dependency on a node that is not converted yet. -/
def isDataBackEdge (gdef : GraphDef α) (s : ConvertState α) (input : ByteString) : Bool :=
  !isControl input && (s.nodeNamed gdef (inputId input).1).isNone

/-- What the loop over the inputs of a node asks of them. -/
structure Resolvable (gdef : GraphDef α) (s : ConvertState α) (flag : Bool)
    (inputs : List ByteString) : Prop where
  control : flag = true → ∀ input ∈ inputs, isControl input = true
  controlsLast : ControlsLast inputs
  outputsExist : OutputsExist gdef s inputs

omit [Inhabited α] in
theorem resolvable_cons {s : ConvertState α} {flag : Bool} {input : ByteString}
    {inputs : List ByteString} :
    Resolvable gdef s flag (input :: inputs) ↔
      (isControl input = true ∧ Resolvable gdef s true inputs) ∨
      (isControl input = false ∧ flag = false ∧
        (∀ src, s.nodeNamed gdef (inputId input).1 = some src →
          (inputId input).2 < numOutputs s.graph src) ∧ Resolvable gdef s false inputs) := by
  constructor
  · rintro ⟨hcontrol, hlast, hexist⟩
    obtain ⟨hhead, htail⟩ := pairwise_cons.1 hlast
    obtain ⟨hexist₁, hexist₂⟩ := forall_mem_cons.1 hexist
    cases hinput : isControl input with
    | true => exact .inl ⟨rfl, fun _ input' hm ↦ hhead input' hm hinput, htail, hexist₂⟩
    | false =>
      have hflag : flag = false := by
        cases flag with
        | false => rfl
        | true => exact absurd (hcontrol rfl input mem_cons_self) (by rw [hinput]; simp)
      exact .inr ⟨rfl, hflag, hexist₁ hinput, nofun, htail, hexist₂⟩
  · rintro (⟨hinput, hcontrol, hlast, hexist⟩ | ⟨hinput, rfl, hsrc, -, hlast, hexist⟩)
    · refine ⟨fun _ ↦ forall_mem_cons.2 ⟨hinput, hcontrol rfl⟩,
        pairwise_cons.2 ⟨fun input' hm _ ↦ hcontrol rfl input' hm, hlast⟩,
        forall_mem_cons.2 ⟨fun hfalse ↦ ?_, hexist⟩⟩
      rw [hinput] at hfalse
      cases hfalse
    · refine ⟨nofun, pairwise_cons.2 ⟨fun input' _ htrue ↦ ?_, hlast⟩,
        forall_mem_cons.2 ⟨fun _ ↦ hsrc, hexist⟩⟩
      rw [hinput] at htrue
      cases htrue

omit [Inhabited α] in
/-- The loop over the inputs of a node succeeds if they are as it asks. -/
theorem Resolvable.resolveInputs_eq {s : ConvertState α} {nodeDef : NodeDef α} {flag : Bool}
    {inputs : List ByteString} (h : Resolvable gdef s flag inputs) :
    resolveInputs gdef s nodeDef inputs flag =
      .ok (inputs.map (inputInfo gdef s), inputs.any (isDataBackEdge gdef s)) := by
  induction inputs generalizing flag with
  | nil => rfl
  | cons input inputs ih =>
    rw [resolveInputs, map_cons, any_cons]
    obtain ⟨hinput, htail⟩ | ⟨hinput, rfl, hsrc, htail⟩ := resolvable_cons.1 h
    · rw [if_pos hinput, ih htail]
      simp only [inputInfo, linkIndex, isDataBackEdge, hinput, if_true, Bool.not_true,
        Bool.false_and, Bool.false_or]
      rfl
    · have hnot : ¬isControl input = true := by simp [hinput]
      rw [if_neg hnot, if_neg Bool.false_ne_true]
      simp only [inputInfo, linkIndex, isDataBackEdge, hinput, Bool.not_false, Bool.true_and]
      cases hnamed : s.nodeNamed gdef (inputId input).1 with
      | none =>
        rw [ih htail]
        rfl
      | some src =>
        have hlt : ¬(inputId input).2 ≥ numOutputs s.graph src := Int.not_le.2 (hsrc src hnamed)
        simp only [numOutputs] at hlt
        simp only [hlt, if_false, ih htail]
        rfl

omit [Inhabited α] in
/-- The loop over the inputs of a node succeeds only if they are as it asks. -/
theorem resolvable_of_resolveInputs {s : ConvertState α} {nodeDef : NodeDef α} {flag : Bool}
    {inputs : List ByteString} {r : List InputInfo × Bool}
    (h : resolveInputs gdef s nodeDef inputs flag = .ok r) : Resolvable gdef s flag inputs := by
  induction inputs generalizing flag r with
  | nil => exact ⟨fun _ ↦ nofun, Pairwise.nil, nofun⟩
  | cons input inputs ih =>
    rw [resolveInputs] at h
    rw [resolvable_cons]
    split at h
    · rename_i hinput
      obtain ⟨r', hr', -⟩ := ExceptPost.bind_eq_ok_iff.1 h
      exact .inl ⟨hinput, ih hr'⟩
    · rename_i hinput
      split at h
      · cases h
      · rename_i hflag
        refine .inr ⟨Bool.eq_false_of_not_eq_true hinput, Bool.eq_false_of_not_eq_true hflag, ?_⟩
        dsimp only at h
        split at h
        · rename_i hnamed
          obtain ⟨r', hr', -⟩ := ExceptPost.bind_eq_ok_iff.1 h
          exact ⟨fun src hsrc ↦ (nomatch hnamed.symm.trans hsrc), ih hr'⟩
        · rename_i src hnamed
          split at h
          · cases h
          · rename_i hlt
            obtain ⟨r', hr', -⟩ := ExceptPost.bind_eq_ok_iff.1 h
            refine ⟨fun src' hsrc' ↦ ?_, ih hr'⟩
            obtain rfl := Option.some.inj (hnamed.symm.trans hsrc')
            exact Int.not_le.1 hlt

section

variable (registry : OpRegistry α) (stray : List DataType → ℤ → DataType)
  (opts : GraphConstructorOptions)

/-- The op of a node is registered, with types for its inputs and outputs. -/
def HasSignature (nodeDef : NodeDef α) : Prop :=
  ∃ sig, registry.signature nodeDef.op nodeDef.attr = .ok sig

/-- The signature of a node that has one. -/
def signatureOf (nodeDef : NodeDef α) : Signature :=
  match registry.signature nodeDef.op nodeDef.attr with
  | .ok sig => sig
  | .error _ => { inputTypes := [], outputTypes := [] }

/-- The node that is made of a `NodeDef`. -/
def builtNode (nodeDef : NodeDef α) : Node α where
  nodeDef := nodeDef
  opDef := (signatureOf registry nodeDef).opDef
  inputTypes := (signatureOf registry nodeDef).inputTypes
  outputTypes := (signatureOf registry nodeDef).outputTypes
  assignedDeviceName := if opts.expectDeviceSpec then nodeDef.device else []

/-- The types at the two ends of an edge, as `MakeEdge` reads them, are compatible. -/
def Fits (srcNode : Node α) (x : ℤ) (dstNode : Node α) (y : ℤ) : Prop :=
  typesCompatible (readType stray dstNode.inputTypes y) (readType stray srcNode.outputTypes x) =
    true

end

section

variable {registry : OpRegistry α} {stray : List DataType → ℤ → DataType}
  {opts : GraphConstructorOptions} {g : Graph α} {nodeDef : NodeDef α}

omit [Inhabited α] in
theorem modify_append_singleton {β : Type} (l : List β) (a : β) (f : β → β) :
    (l ++ [a]).modify l.length f = l ++ [f a] := by
  rw [modify_eq_set_getElem?]
  simp

omit [Inhabited α] in
/-- `MakeNode` appends the node. -/
theorem makeNode_eq (h : HasSignature registry nodeDef) :
    makeNode registry opts g nodeDef =
      .ok ({ g with nodes := g.nodes ++ [some (builtNode registry opts nodeDef)] },
        g.nodes.length) := by
  obtain ⟨sig, hsig⟩ := h
  have hof : signatureOf registry nodeDef = sig := by rw [signatureOf, hsig]
  rw [makeNode, Graph.addNode, hsig]
  show Except.ok _ = _
  by_cases hexpect : opts.expectDeviceSpec = true
  · simp only [hexpect, if_true, Graph.setAssignedDeviceName, Graph.numNodeIds,
      modify_append_singleton, builtNode, hof, Option.map_some]
  · simp only [hexpect, builtNode, hof, Graph.numNodeIds]
    rfl

omit [Inhabited α] in
theorem hasSignature_of_makeNode {r : Graph α × ℕ}
    (h : makeNode registry opts g nodeDef = .ok r) : HasSignature registry nodeDef := by
  obtain ⟨r', hr', -⟩ := ExceptPost.bind_eq_ok_iff.1 h
  rw [Graph.addNode] at hr'
  split at hr'
  · cases hr'
  · rename_i hsig
    exact ⟨_, hsig⟩

omit [Inhabited α] in
theorem makeEdge_eq_ok_iff {src dst : ℕ} {x y : ℤ} {a b : Node α} {g' : Graph α}
    (ha : g.findNodeId src = some a) (hb : g.findNodeId dst = some b) :
    makeEdge stray g src x dst y = .ok g' ↔ Fits stray a x b y ∧ g.addEdge src x dst y = g' := by
  rw [makeEdge, ha, hb]
  dsimp only
  split
  · rename_i hnot
    exact iff_of_false (by simp) fun h ↦ hnot h.1
  · rename_i hfits
    rw [Except.ok.injEq]
    exact (and_iff_right (not_not.1 hfits)).symm

/-- The edge of an input whose node is converted. -/
def forwardEdge (node : ℕ) (p : InputInfo × ℕ) : Option Edge :=
  p.1.node.map fun src ↦
    if p.1.index = -1 then ⟨src, kControlSlot, node, kControlSlot⟩ else ⟨src, p.1.index, node, p.2⟩

/-- The back edge of an input whose node is not converted. -/
def backEdge (node : ℕ) (p : InputInfo × ℕ) : Option EdgeInfo :=
  if p.1.node = none then some ⟨p.1.name, p.1.index, node, p.2⟩ else none

/-- The types of all inputs of a node whose sources are converted are compatible. -/
def AllFit (stray : List DataType → ℤ → DataType) (g : Graph α) (dstNode : Node α)
    (ps : List (InputInfo × ℕ)) : Prop :=
  ∀ p ∈ ps, p.1.index ≠ -1 → ∀ src ∈ p.1.node, ∀ a, g.findNodeId src = some a →
    Fits stray a p.1.index dstNode p.2

omit [Inhabited α] in
/-- The loop that adds the edges of a node. -/
theorem addInputEdges_eq_ok_iff {node : ℕ} {dstNode : Node α} {infos : List InputInfo} {i : ℕ}
    {backEdges : List EdgeInfo} {r : Graph α × List EdgeInfo}
    (hdst : g.findNodeId node = some dstNode)
    (hsrc : ∀ info ∈ infos, ∀ src ∈ info.node, ∃ a, g.findNodeId src = some a) :
    addInputEdges stray node infos i g backEdges = .ok r ↔
      AllFit stray g dstNode (infos.zipIdx i) ∧
      ({ g with edges := g.edges ++ (infos.zipIdx i).filterMap (forwardEdge node) },
        backEdges ++ (infos.zipIdx i).filterMap (backEdge node)) = r := by
  induction infos generalizing i g backEdges with
  | nil => simp [addInputEdges, AllFit]
  | cons info infos ih =>
    obtain ⟨hsrc₁, hsrc₂⟩ := forall_mem_cons.1 hsrc
    rw [addInputEdges, zipIdx_cons, AllFit, forall_mem_cons]
    cases hnode : info.node with
    | none =>
      rw [ih hdst hsrc₂, AllFit]
      simp [forwardEdge, backEdge, hnode]
    | some src =>
      obtain ⟨a, ha⟩ := hsrc₁ src hnode
      dsimp only
      split
      · rename_i hindex
        rw [ih (g := g.addControlEdge src node) hdst hsrc₂]
        simp [forwardEdge, backEdge, hnode, hindex, AllFit, Graph.addControlEdge, Graph.addEdge,
          Graph.findNodeId]
      · rename_i hindex
        rw [ExceptPost.bind_eq_ok_iff]
        simp only [makeEdge_eq_ok_iff ha hdst, and_assoc, exists_and_left, exists_eq_left']
        rw [ih (g := g.addEdge src info.index node i) hdst hsrc₂]
        rw [Graph.findNodeId] at ha
        simp [forwardEdge, backEdge, hnode, hindex, AllFit, Graph.addEdge, Graph.findNodeId, ha]

/-! ### `Convert`, node after node -/

/-- The id of a node when the nodes have been converted in this order. -/
def nodeId (done : List ℕ) (n : ℕ) : ℕ := 2 + done.idxOf n

/-- The edge of a link. -/
def Link.edge (done : List ℕ) (l : Link) : Edge :=
  if l.index = -1 then ⟨nodeId done l.src, kControlSlot, nodeId done l.dst, kControlSlot⟩
  else ⟨nodeId done l.src, l.index, nodeId done l.dst, l.slot⟩

/-- The back edge that is recorded for a link. -/
def Link.backEdge (gdef : GraphDef α) (done : List ℕ) (l : Link) : EdgeInfo :=
  ⟨(gdef.nodeAt l.src).name, l.index, nodeId done l.dst, l.slot⟩

variable (registry stray opts) in
/-- The types at the two ends of a link are compatible. -/
def Link.Fits (gdef : GraphDef α) (l : Link) : Prop :=
  GraphConstructor.Fits stray (builtNode registry opts (gdef.nodeAt l.src)) l.index
    (builtNode registry opts (gdef.nodeAt l.dst)) l.slot

variable (registry stray opts) in
/-- The graph and the back edges when the nodes in `done` have been converted, in this order. -/
structure Converted (gdef : GraphDef α) (done : List ℕ) (s : ConvertState α) : Prop where
  processed_eq : s.processed = done.length
  node_eq : ∀ n, s.node n = if n ∈ done then some (nodeId done n) else none
  nodes_eq : s.graph.nodes = (Graph.new : Graph α).nodes ++
    done.map fun n ↦ some (builtNode registry opts (gdef.nodeAt n))
  hasSignature : ∀ n ∈ done, HasSignature registry (gdef.nodeAt n)
  controlsLast : ∀ n ∈ done, ControlsLast (gdef.nodeAt n).input
  edges_eq : ∃ forward back : List Link,
    s.graph.edges = (Graph.new : Graph α).edges ++ forward.map (Link.edge done) ∧
    s.backEdges = back.map (Link.backEdge gdef done) ∧
    (forward ++ back).Perm (done.flatMap (links gdef)) ∧
    ∀ l ∈ forward, l.src ∈ done ∧ (l.index ≠ -1 → l.Fits registry stray opts gdef)

variable (registry stray opts) in
/-- The state when the nodes in `done` have been converted, in this order. -/
structure Converting (gdef : GraphDef α) (done : List ℕ) (s : ConvertState α) : Prop extends
    Converted registry stray opts gdef done s where
  tracks : Tracks (preds gdef) (need gdef) gdef.node.length done s.worklist

theorem nodeId_append {done : List ℕ} {n : ℕ} (hn : n ∈ done) (o : ℕ) :
    nodeId (done ++ [o]) n = nodeId done n := by
  rw [nodeId, nodeId, idxOf_append_of_mem hn]

theorem nodeId_append_self {done : List ℕ} {o : ℕ} (ho : o ∉ done) :
    nodeId (done ++ [o]) o = 2 + done.length := by
  rw [nodeId, idxOf_append_of_notMem ho]
  simp

theorem Link.edge_append {done : List ℕ} (hsrc : l.src ∈ done) (hdst : l.dst ∈ done) (o : ℕ) :
    l.edge (done ++ [o]) = l.edge done := by
  rw [Link.edge, Link.edge, nodeId_append hsrc, nodeId_append hdst]

theorem Link.backEdge_append {done : List ℕ} (hdst : l.dst ∈ done) (o : ℕ) :
    l.backEdge gdef (done ++ [o]) = l.backEdge gdef done := by
  rw [Link.backEdge, Link.backEdge, nodeId_append hdst]

theorem dst_of_mem_links {n : ℕ} (hl : l ∈ links gdef n) : l.dst = n := by
  obtain ⟨p, -, rfl⟩ := mem_map.1 hl
  rfl

theorem dst_mem_of_mem_flatMap {done : List ℕ} (hl : l ∈ done.flatMap (links gdef)) :
    l.dst ∈ done := by
  obtain ⟨n, hn, hl⟩ := mem_flatMap.1 hl
  exact dst_of_mem_links hl ▸ hn

section

variable {done : List ℕ} {s : ConvertState α} (h : Converted registry stray opts gdef done s)
include h

/-- A converted node is found under its id. -/
theorem Converted.findNodeId_eq {n : ℕ} (hn : n ∈ done) :
    s.graph.findNodeId (nodeId done n) = some (builtNode registry opts (gdef.nodeAt n)) := by
  have hlen : (Graph.new (α := α)).nodes.length = 2 := rfl
  have hlt : done.idxOf n < done.length := idxOf_lt_length_of_mem hn
  rw [Graph.findNodeId, h.nodes_eq, nodeId, ← hlen, getElem?_append_right (Nat.le_add_right _ _),
    Nat.add_sub_cancel_left, getElem?_map, getElem?_eq_getElem hlt, getElem_idxOf hlt]
  rfl

/-- The converted node that an input names. -/
theorem Converted.nodeNamed_eq {input : ByteString}
    (hknown : ∃ j, gdef.nameIndex (inputId input).1 = some j) :
    s.nodeNamed gdef (inputId input).1 = if srcIndex gdef input ∈ done then
      some (nodeId done (srcIndex gdef input)) else none := by
  obtain ⟨j, hj⟩ := hknown
  rw [ConvertState.nodeNamed, srcIndex, hj]
  exact h.node_eq j

/-- The links of inputs with their slots. -/
theorem forwardEdges_eq (o : ℕ) {ps : List (ByteString × ℕ)}
    (hknown : ∀ p ∈ ps, ∃ j, gdef.nameIndex (inputId p.1).1 = some j) :
    (ps.map fun p ↦ (inputInfo gdef s p.1, p.2)).filterMap (forwardEdge (nodeId (done ++ [o]) o)) =
      ((ps.map fun p ↦ (⟨srcIndex gdef p.1, linkIndex p.1, o, p.2⟩ : Link)).filter
        (·.src ∈ done)).map (Link.edge (done ++ [o])) := by
  induction ps with
  | nil => rfl
  | cons p ps ih =>
    obtain ⟨hp, hps⟩ := forall_mem_cons.1 hknown
    have hnode := h.nodeNamed_eq hp
    rw [map_cons, map_cons, filterMap_cons, filter_cons, ih hps]
    by_cases hsrc : srcIndex gdef p.1 ∈ done
    · rw [if_pos hsrc] at hnode
      simp only [forwardEdge, hnode, Option.map_some, hsrc, decide_true, if_true, map_cons,
        Link.edge, nodeId_append hsrc, inputInfo]
    · rw [if_neg hsrc] at hnode
      simp only [forwardEdge, inputInfo, hnode, Option.map_none, hsrc, decide_false,
        Bool.false_eq_true, if_false]

theorem backEdges_eq (o : ℕ) {ps : List (ByteString × ℕ)}
    (hknown : ∀ p ∈ ps, ∃ j, gdef.nameIndex (inputId p.1).1 = some j) :
    (ps.map fun p ↦ (inputInfo gdef s p.1, p.2)).filterMap (backEdge (nodeId (done ++ [o]) o)) =
      ((ps.map fun p ↦ (⟨srcIndex gdef p.1, linkIndex p.1, o, p.2⟩ : Link)).filter
        fun l ↦ !decide (l.src ∈ done)).map (Link.backEdge gdef (done ++ [o])) := by
  induction ps with
  | nil => rfl
  | cons p ps ih =>
    obtain ⟨hp, hps⟩ := forall_mem_cons.1 hknown
    have hnode := h.nodeNamed_eq hp
    rw [map_cons, map_cons, filterMap_cons, filter_cons, ih hps]
    by_cases hsrc : srcIndex gdef p.1 ∈ done
    · rw [if_pos hsrc] at hnode
      simp [backEdge, inputInfo, hnode, hsrc]
    · rw [if_neg hsrc] at hnode
      obtain ⟨j, hj⟩ := hp
      have hname : (gdef.nodeAt (srcIndex gdef p.1)).name = (inputId p.1).1 := by
        rw [srcIndex, hj]
        exact (nameIndex_eq_some hj).2
      simp only [backEdge, hnode, hsrc, decide_false, Bool.not_false, if_true, map_cons,
        Link.backEdge, inputInfo, hname]

end

theorem known_zipIdx (hknown : Known gdef) {o : ℕ} (ho : o < gdef.node.length) :
    ∀ p ∈ (gdef.nodeAt o).input.zipIdx, ∃ j, gdef.nameIndex (inputId p.1).1 = some j :=
  fun _ hp ↦ hknown o ho _ (fst_mem_of_mem_zipIdx hp)

omit [Inhabited α] in
theorem zipIdx_map_inputInfo (s : ConvertState α) (inputs : List ByteString) :
    (inputs.map (inputInfo gdef s)).zipIdx =
      inputs.zipIdx.map fun p ↦ (inputInfo gdef s p.1, p.2) :=
  zipIdx_map ..

/-- What the conversion of a node needs to succeed. -/
structure Convertible (registry : OpRegistry α) (stray : List DataType → ℤ → DataType)
    (opts : GraphConstructorOptions) (gdef : GraphDef α) (s : ConvertState α) (o : ℕ) : Prop where
  resolvable : Resolvable gdef s false (gdef.nodeAt o).input
  merge : (gdef.nodeAt o).input.any (isDataBackEdge gdef s) = true → isMerge (gdef.nodeAt o) = true
  hasSignature : HasSignature registry (gdef.nodeAt o)
  fits : ∀ l ∈ links gdef o, (s.node l.src).isSome → l.index ≠ -1 → l.Fits registry stray opts gdef

/-- The state after the conversion of a node. -/
def afterNode (registry : OpRegistry α) (opts : GraphConstructorOptions) (gdef : GraphDef α)
    (done : List ℕ) (s : ConvertState α) (o : ℕ) : ConvertState α where
  graph :=
    { s.graph with
      nodes := s.graph.nodes ++ [some (builtNode registry opts (gdef.nodeAt o))]
      edges := s.graph.edges ++
        ((links gdef o).filter (·.src ∈ done)).map (Link.edge (done ++ [o])) }
  node := Function.update s.node o (some (nodeId (done ++ [o]) o))
  worklist := Worklist.release (outputs gdef o) s.worklist
  backEdges := s.backEdges ++
    ((links gdef o).filter fun l ↦ !decide (l.src ∈ done)).map (Link.backEdge gdef (done ++ [o]))
  processed := s.processed + 1

theorem Converted.length_nodes {done : List ℕ} {s : ConvertState α}
    (h : Converted registry stray opts gdef done s) : s.graph.nodes.length = 2 + done.length := by
  rw [h.nodes_eq, length_append, length_map]
  rfl

omit [Inhabited α] in
theorem findNodeId_append (node : Node α) {id : ℕ} {a : Node α} (h : g.findNodeId id = some a) :
    Graph.findNodeId { g with nodes := g.nodes ++ [some node] } id = some a := by
  rw [Graph.findNodeId] at h ⊢
  have hlt : id < g.nodes.length := by
    by_contra hle
    rw [getElem?_eq_none (Nat.not_lt.1 hle)] at h
    cases h
  rwa [getElem?_append_left hlt]

omit [Inhabited α] in
theorem findNodeId_append_self {node : Node α} :
    Graph.findNodeId { g with nodes := g.nodes ++ [some node] } g.nodes.length = some node := by
  rw [Graph.findNodeId, getElem?_concat_length]
  rfl

section

variable {done : List ℕ} {s : ConvertState α} (h : Converted registry stray opts gdef done s)
include h

/-- The types that the loop over the inputs checks are those of the links. -/
theorem Converted.allFit_iff {o : ℕ} (hknown : Known gdef) (ho : o < gdef.node.length) :
    AllFit stray
        { s.graph with nodes := s.graph.nodes ++ [some (builtNode registry opts (gdef.nodeAt o))] }
        (builtNode registry opts (gdef.nodeAt o))
        (((gdef.nodeAt o).input.map (inputInfo gdef s)).zipIdx) ↔
      ∀ l ∈ links gdef o, (s.node l.src).isSome → l.index ≠ -1 →
        l.Fits registry stray opts gdef := by
  rw [zipIdx_map_inputInfo, AllFit, links, forall_mem_map, forall_mem_map]
  refine forall₂_congr fun p hp ↦ ?_
  have hnode := h.nodeNamed_eq (known_zipIdx hknown ho p hp)
  have hnode' := h.node_eq (srcIndex gdef p.1)
  by_cases hsrc : srcIndex gdef p.1 ∈ done
  · rw [if_pos hsrc] at hnode hnode'
    have hfind := findNodeId_append (builtNode registry opts (gdef.nodeAt o))
      (h.findNodeId_eq hsrc)
    simp [inputInfo, hnode, hnode', hfind, Link.Fits]
  · rw [if_neg hsrc] at hnode hnode'
    simp [inputInfo, hnode, hnode']

/-- A node is converted exactly if it can be. -/
theorem Converted.convertNode_eq_ok_iff {s' : ConvertState α} {o : ℕ} (hknown : Known gdef)
    (ho : o < gdef.node.length) (hdone : o ∉ done) :
    convertNode registry stray opts gdef (outputs gdef) s o = .ok s' ↔
      Convertible registry stray opts gdef s o ∧
      afterNode registry opts gdef done s o = s' := by
  have hid : s.graph.nodes.length = nodeId (done ++ [o]) o := by
    rw [h.length_nodes, nodeId_append_self hdone]
  have hsrc : ∀ info ∈ (gdef.nodeAt o).input.map (inputInfo gdef s), ∀ src ∈ info.node,
      ∃ a, Graph.findNodeId { s.graph with nodes := s.graph.nodes ++
        [some (builtNode registry opts (gdef.nodeAt o))] } src = some a := by
    rw [forall_mem_map]
    intro input hinput src hsrc
    have hnode := h.nodeNamed_eq (hknown o ho input hinput)
    by_cases hmem : srcIndex gdef input ∈ done
    · rw [if_pos hmem] at hnode
      obtain rfl := Option.some.inj (hnode.symm.trans hsrc)
      exact ⟨_, findNodeId_append _ (h.findNodeId_eq hmem)⟩
    · rw [if_neg hmem] at hnode
      cases hnode.symm.trans hsrc
  have hforward := forwardEdges_eq h o (known_zipIdx hknown ho)
  have hback := backEdges_eq h o (known_zipIdx hknown ho)
  rw [← zipIdx_map_inputInfo, ← hid] at hforward hback
  have hafter : afterNode registry opts gdef done s o =
      { graph := { s.graph with
          nodes := s.graph.nodes ++ [some (builtNode registry opts (gdef.nodeAt o))]
          edges := s.graph.edges ++ ((gdef.nodeAt o).input.map (inputInfo gdef s)).zipIdx.filterMap
            (forwardEdge s.graph.nodes.length) }
        node := Function.update s.node o (some s.graph.nodes.length)
        worklist := Worklist.release (outputs gdef o) s.worklist
        backEdges := s.backEdges ++ ((gdef.nodeAt o).input.map
          (inputInfo gdef s)).zipIdx.filterMap (backEdge s.graph.nodes.length)
        processed := s.processed + 1 } := by
    rw [afterNode, hforward, hback, hid]
    rfl
  rw [convertNode, ExceptPost.bind_eq_ok_iff]
  constructor
  · rintro ⟨r, hr, hrest⟩
    have hres : Resolvable gdef s false (gdef.nodeAt o).input := resolvable_of_resolveInputs hr
    obtain rfl := Except.ok.inj (hres.resolveInputs_eq.symm.trans hr)
    dsimp only at hrest
    split at hrest
    · cases hrest
    · rename_i hmerge
      obtain ⟨r₁, hr₁, hrest⟩ := ExceptPost.bind_eq_ok_iff.1 hrest
      have hsig := hasSignature_of_makeNode hr₁
      obtain rfl := Except.ok.inj ((makeNode_eq hsig).symm.trans hr₁)
      obtain ⟨r₂, hr₂, hrest⟩ := ExceptPost.bind_eq_ok_iff.1 hrest
      obtain ⟨hfit, rfl⟩ := (addInputEdges_eq_ok_iff findNodeId_append_self hsrc).1 hr₂
      refine ⟨⟨hres, ?_, hsig, (h.allFit_iff hknown ho).1 hfit⟩, ?_⟩
      · intro hany
        by_contra hnot
        exact hmerge ⟨hany, hnot⟩
      · rw [← Except.ok.inj hrest]
        exact hafter
  · rintro ⟨⟨hres, hmerge, hsig, hfits⟩, rfl⟩
    refine ⟨_, hres.resolveInputs_eq, ?_⟩
    dsimp only
    rw [if_neg fun hnot ↦ hnot.2 (hmerge hnot.1), ExceptPost.bind_eq_ok_iff]
    refine ⟨_, makeNode_eq hsig, ExceptPost.bind_eq_ok_iff.2 ⟨_, (addInputEdges_eq_ok_iff
      findNodeId_append_self hsrc).2 ⟨(h.allFit_iff hknown ho).2 hfits, rfl⟩, ?_⟩⟩
    rw [hafter]
    rfl

/-- Only the counters look at the worklist. -/
theorem Converted.withWorklist (w : Worklist.State) :
    Converted registry stray opts gdef done { s with worklist := w } :=
  ⟨h.processed_eq, h.node_eq, h.nodes_eq, h.hasSignature, h.controlsLast, h.edges_eq⟩

end

/-- One more node is converted. -/
theorem Converted.afterNode {done : List ℕ} {s : ConvertState α} {o : ℕ}
    (h : Converted registry stray opts gdef done s) (hdone : o ∉ done)
    (hconv : Convertible registry stray opts gdef s o) :
    Converted registry stray opts gdef (done ++ [o]) (afterNode registry opts gdef done s o) := by
  refine ⟨?_, fun n ↦ ?_, ?_, ?_, ?_, ?_⟩
  · rw [length_append, ← h.processed_eq]
    rfl
  · show Function.update s.node o (some (nodeId (done ++ [o]) o)) n = _
    by_cases hn : n = o
    · subst hn
      simp
    · rw [Function.update_of_ne hn, h.node_eq n]
      by_cases hmem : n ∈ done
      · rw [if_pos hmem, if_pos (mem_append_left _ hmem), nodeId_append hmem]
      · rw [if_neg hmem, if_neg (by simp [hmem, hn])]
  · show s.graph.nodes ++ _ = _
    rw [h.nodes_eq, map_append, append_assoc]
    rfl
  · exact forall_mem_append.2 ⟨h.hasSignature, forall_mem_singleton.2 hconv.hasSignature⟩
  · exact forall_mem_append.2
      ⟨h.controlsLast, forall_mem_singleton.2 hconv.resolvable.controlsLast⟩
  · obtain ⟨forward, back, hedges, hbacks, hperm, hforward⟩ := h.edges_eq
    have hdst : ∀ l ∈ forward ++ back, l.dst ∈ done :=
      fun l hl ↦ dst_mem_of_mem_flatMap (hperm.mem_iff.1 hl)
    refine ⟨forward ++ (links gdef o).filter (·.src ∈ done),
      back ++ (links gdef o).filter fun l ↦ !decide (l.src ∈ done), ?_, ?_, ?_, ?_⟩
    · show s.graph.edges ++ _ = _
      rw [hedges, map_append, append_assoc]
      congr 2
      exact map_congr_left fun l hl ↦ (Link.edge_append (hforward l hl).1
        (hdst l (mem_append_left _ hl)) o).symm
    · show s.backEdges ++ _ = _
      rw [hbacks, map_append]
      congr 1
      exact map_congr_left fun l hl ↦
        (Link.backEdge_append (hdst l (mem_append_right _ hl)) o).symm
    · rw [flatMap_append, flatMap_singleton]
      refine Perm.trans ?_
        (hperm.append (filter_append_perm (fun l : Link ↦ decide (l.src ∈ done)) (links gdef o)))
      rw [append_assoc, append_assoc]
      refine Perm.append_left _ ?_
      rw [← append_assoc, ← append_assoc]
      exact Perm.append_right _ perm_append_comm
    · refine forall_mem_append.2 ⟨fun l hl ↦ ?_, fun l hl ↦ ?_⟩
      · exact ⟨mem_append_left _ (hforward l hl).1, (hforward l hl).2⟩
      · obtain ⟨hlink, hsrc⟩ := mem_filter.1 hl
        have hsrc' : l.src ∈ done := by simpa using hsrc
        refine ⟨mem_append_left _ hsrc', hconv.fits l hlink ?_⟩
        rw [h.node_eq, if_pos hsrc']
        rfl

/-- One round of `Convert`. -/
theorem Converting.convertNode {done rest : List ℕ} {s s' : ConvertState α} {o : ℕ}
    (h : Converting registry stray opts gdef done s) (hknown : Known gdef)
    (hready : s.worklist.ready = o :: rest)
    (hstep : convertNode registry stray opts gdef (outputs gdef)
      { s with worklist := ⟨rest, s.worklist.pending⟩ } o = .ok s') :
    Converting registry stray opts gdef (done ++ [o]) s' := by
  have htracks : Tracks (preds gdef) (need gdef) gdef.node.length done
      ⟨o :: rest, s.worklist.pending⟩ := by
    rw [← hready]
    exact h.tracks
  obtain ⟨ho, hdone, -⟩ := (htracks.mem_ready o).1 mem_cons_self
  have h' := h.withWorklist ⟨rest, s.worklist.pending⟩
  obtain ⟨hconv, rfl⟩ := (h'.convertNode_eq_ok_iff hknown ho hdone).1 hstep
  exact ⟨h'.afterNode hdone hconv, htracks.take (adjacent gdef)⟩

/-- The loop of `Convert` ends with no node ready: it is never cut short. -/
theorem Converting.convertLoop (hknown : Known gdef) {fuel : ℕ} {done : List ℕ}
    {s s' : ConvertState α} (h : Converting registry stray opts gdef done s)
    (hfuel : gdef.node.length ≤ done.length + fuel)
    (hloop : convertLoop registry stray opts gdef (outputs gdef) fuel s = .ok s') :
    ∃ done', Converting registry stray opts gdef done' s' ∧ s'.worklist.ready = [] := by
  induction fuel generalizing done s with
  | zero =>
    cases hloop
    refine ⟨done, h, eq_nil_iff_forall_not_mem.2 fun n hn ↦ ?_⟩
    obtain ⟨hlt, hdone, -⟩ := (h.tracks.mem_ready n).1 hn
    exact hdone (h.tracks.mem_of_length_eq (Nat.le_antisymm h.tracks.length_le hfuel) hlt)
  | succ fuel ih =>
    rw [GraphConstructor.convertLoop] at hloop
    cases hready : s.worklist.ready with
    | nil =>
      rw [hready] at hloop
      cases hloop
      exact ⟨done, h, hready⟩
    | cons o rest =>
      rw [hready] at hloop
      obtain ⟨s₁, hs₁, hloop⟩ := ExceptPost.bind_eq_ok_iff.1 hloop
      refine ih (h.convertNode hknown hready hs₁) ?_ hloop
      rw [length_append, length_singleton]
      omega

/-- The loop succeeds if every node can be converted when it is ready. -/
theorem Converting.exists_convertLoop (hknown : Known gdef)
    (hconv : ∀ done s o, Converted registry stray opts gdef done s → o < gdef.node.length →
      Enabled (preds gdef) (need gdef) done o → Convertible registry stray opts gdef s o) {fuel : ℕ}
    {done : List ℕ} {s : ConvertState α} (h : Converting registry stray opts gdef done s) :
    ∃ s', GraphConstructor.convertLoop registry stray opts gdef (outputs gdef) fuel s = .ok s' := by
  induction fuel generalizing done s with
  | zero => exact ⟨s, rfl⟩
  | succ fuel ih =>
    rw [GraphConstructor.convertLoop]
    cases hready : s.worklist.ready with
    | nil => exact ⟨s, rfl⟩
    | cons o rest =>
      obtain ⟨ho, hdone, henabled⟩ := (h.tracks.mem_ready o).1 (hready ▸ mem_cons_self)
      have h' := h.withWorklist ⟨rest, s.worklist.pending⟩
      have hstep :=
        (h'.convertNode_eq_ok_iff hknown ho hdone).2 ⟨hconv done _ o h' ho henabled, rfl⟩
      obtain ⟨s', hs'⟩ := ih (h.convertNode hknown hready hstep)
      exact ⟨s', ExceptPost.bind_eq_ok_iff.2 ⟨_, hstep, hs'⟩⟩

theorem converting_nil (gdef : GraphDef α) :
    Converting registry stray opts gdef []
      { graph := Graph.new, worklist := (edgeIndex gdef gdef.node.length).worklist } where
  processed_eq := rfl
  node_eq := by simp
  nodes_eq := rfl
  hasSignature := by simp
  controlsLast := by simp
  edges_eq := ⟨[], [], rfl, rfl, Perm.nil, by simp⟩
  tracks := tracks_edgeIndex gdef

/-! ### `AddBackEdges` -/

theorem nameIndex_src (hknown : Known gdef) {n : ℕ} (hn : n < gdef.node.length)
    (hl : l ∈ links gdef n) : gdef.nameIndex (gdef.nodeAt l.src).name = some l.src := by
  obtain ⟨p, hp, rfl⟩ := mem_map.1 hl
  obtain ⟨j, hj⟩ := known_zipIdx hknown hn p hp
  have hsrc : srcIndex gdef p.1 = j := by rw [srcIndex, hj]; rfl
  show gdef.nameIndex (gdef.nodeAt (srcIndex gdef p.1)).name = some (srcIndex gdef p.1)
  rw [hsrc, (nameIndex_eq_some hj).2, hj]

/-- The back edges are added exactly if their types are compatible. -/
theorem Converted.addBackEdges_eq_ok_iff {done : List ℕ} {s : ConvertState α} {g' : Graph α}
    (h : Converted registry stray opts gdef done s) {back : List Link}
    (hback : ∀ l ∈ back, l.src ∈ done ∧ l.dst ∈ done ∧
      gdef.nameIndex (gdef.nodeAt l.src).name = some l.src) (hg : g.nodes = s.graph.nodes) :
    (back.map (Link.backEdge gdef done)).foldlM (addBackEdge stray gdef s) g = .ok g' ↔
      (∀ l ∈ back, l.index ≠ -1 → l.Fits registry stray opts gdef) ∧
      { g with edges := g.edges ++ back.map (Link.edge done) } = g' := by
  induction back generalizing g with
  | nil =>
    simp only [map_nil, foldlM_nil, append_nil, not_mem_nil, false_implies, implies_true, true_and]
    exact ⟨fun heq ↦ Except.ok.inj heq, fun heq ↦ congrArg Except.ok heq⟩
  | cons l back ih =>
    obtain ⟨⟨hsrc, hdst, hname⟩, hback⟩ := forall_mem_cons.1 hback
    have hnamed : s.nodeNamed gdef (Link.backEdge gdef done l).srcName =
        some (nodeId done l.src) := by
      show s.nodeNamed gdef (gdef.nodeAt l.src).name = _
      rw [ConvertState.nodeNamed, hname, Option.bind_some, h.node_eq, if_pos hsrc]
    have hfind : ∀ n ∈ done, g.findNodeId (nodeId done n) =
        some (builtNode registry opts (gdef.nodeAt n)) := by
      intro n hn
      rw [← h.findNodeId_eq hn, Graph.findNodeId, Graph.findNodeId, hg]
    rw [map_cons, foldlM_cons, ExceptPost.bind_eq_ok_iff, forall_mem_cons, addBackEdge, hnamed]
    have hsrcIndex : (Link.backEdge gdef done l).srcIndex = l.index := rfl
    have hdstNode : (Link.backEdge gdef done l).dstNode = nodeId done l.dst := rfl
    have hdstIndex : (Link.backEdge gdef done l).dstIndex = l.slot := rfl
    simp only [hsrcIndex, hdstNode, hdstIndex]
    by_cases hindex : l.index = -1
    · rw [if_pos hindex]
      simp only [Except.ok.injEq, exists_eq_left', hindex, ne_eq, not_true_eq_false, false_implies,
        true_and]
      rw [ih (g := g.addControlEdge (nodeId done l.src) (nodeId done l.dst)) hback hg]
      simp [Graph.addControlEdge, Graph.addEdge, Link.edge, hindex]
    · rw [if_neg hindex]
      simp only [makeEdge_eq_ok_iff (hfind l.src hsrc) (hfind l.dst hdst), and_assoc,
        exists_and_left, exists_eq_left']
      rw [ih (g := g.addEdge (nodeId done l.src) l.index (nodeId done l.dst) l.slot) hback hg]
      simp [Graph.addEdge, Link.edge, hindex, Link.Fits]

/-! ### Source and sink -/

/-- A control edge from source or to sink. -/
structure IsEndpointEdge (e : Edge) : Prop where
  srcOutput_eq : e.srcOutput = kControlSlot
  dstInput_eq : e.dstInput = kControlSlot
  endpoint : e.src = Graph.kSourceId ∧ e.dst ≠ Graph.kSourceId ∨
    e.dst = Graph.kSinkId ∧ e.src ≠ Graph.kSinkId

/-- The edge from source to a node without incoming edges, or to sink from one without outgoing
edges. -/
def IsFixup (g : Graph α) (e : Edge) : Prop :=
  ∃ id, (g.findNodeId id).isSome = true ∧
    (id ≠ Graph.kSourceId ∧ g.inEdges id = [] ∧
    e = ⟨Graph.kSourceId, kControlSlot, id, kControlSlot⟩ ∨
      id ≠ Graph.kSinkId ∧ g.outEdges id = [] ∧ e = ⟨id, kControlSlot, Graph.kSinkId, kControlSlot⟩)

omit [Inhabited α] in
theorem IsFixup.isEndpointEdge {e : Edge} (h : IsFixup g e) : IsEndpointEdge e := by
  obtain ⟨id, -, ⟨hid, -, rfl⟩ | ⟨hid, -, rfl⟩⟩ := h
  · exact ⟨rfl, rfl, .inl ⟨rfl, hid⟩⟩
  · exact ⟨rfl, rfl, .inr ⟨rfl, hid⟩⟩

omit [Inhabited α] in
/-- A round of `FixupSourceAndSinkEdges`, after others. -/
theorem fixupNode_eq {id : ℕ} (hid : (g.findNodeId id).isSome = true) (before : List Edge) :
    ∃ extra, (∀ e ∈ extra, IsFixup g e) ∧
      Graph.fixupNode { g with edges := g.edges ++ before } id =
        { g with edges := g.edges ++ (before ++ extra) } ∧
      (id ≠ Graph.kSourceId → ∃ e ∈ g.edges ++ (before ++ extra), e.dst = id) ∧
      (id ≠ Graph.kSinkId → ∃ e ∈ g.edges ++ (before ++ extra), e.src = id) := by
  have hsource : ∃ extra, (∀ e ∈ extra, IsFixup g e) ∧
      (if id ≠ Graph.kSourceId ∧ Graph.inEdges { g with edges := g.edges ++ before } id = [] then
        Graph.addControlEdge { g with edges := g.edges ++ before } Graph.kSourceId id
        else { g with edges := g.edges ++ before }) = { g with edges :=
        g.edges ++ (before ++ extra) } ∧
      (id ≠ Graph.kSourceId → ∃ e ∈ g.edges ++ (before ++ extra), e.dst = id) := by
    split
    · rename_i hnone
      refine ⟨[⟨Graph.kSourceId, kControlSlot, id, kControlSlot⟩], forall_mem_singleton.2
        ⟨id, hid, .inl ⟨hnone.1, ?_, rfl⟩⟩, ?_,
        fun _ ↦ ⟨⟨Graph.kSourceId, kControlSlot, id, kControlSlot⟩, by simp, rfl⟩⟩
      · have hempty := hnone.2
        rw [Graph.inEdges, filter_append, append_eq_nil_iff] at hempty
        exact hempty.1
      · rw [← append_assoc]
        rfl
    · rename_i hsome
      refine ⟨[], nofun, by rw [append_nil], fun hne ↦ ?_⟩
      obtain ⟨e, he⟩ := exists_mem_of_ne_nil _ fun hempty ↦ hsome ⟨hne, hempty⟩
      rw [Graph.inEdges, mem_filter, decide_eq_true_iff] at he
      exact ⟨e, by simpa using he.1, he.2⟩
  obtain ⟨extra, hextra, heq, hin⟩ := hsource
  rw [Graph.fixupNode, heq]
  split
  · rename_i hnone
    refine ⟨extra ++ [⟨id, kControlSlot, Graph.kSinkId, kControlSlot⟩], forall_mem_append.2
      ⟨hextra, forall_mem_singleton.2 ⟨id, hid, .inr ⟨hnone.1, ?_, rfl⟩⟩⟩, ?_, fun hne ↦ ?_,
      fun _ ↦ ⟨⟨id, kControlSlot, Graph.kSinkId, kControlSlot⟩, by simp, rfl⟩⟩
    · have hempty := hnone.2
      rw [Graph.outEdges, filter_append, append_eq_nil_iff] at hempty
      exact hempty.1
    · rw [Graph.addControlEdge, Graph.addEdge, append_assoc, append_assoc]
    · obtain ⟨e, he, hdst⟩ := hin hne
      refine ⟨e, ?_, hdst⟩
      rw [← append_assoc before, ← append_assoc g.edges]
      exact mem_append_left _ he
  · rename_i hsome
    refine ⟨extra, hextra, rfl, hin, fun hne ↦ ?_⟩
    obtain ⟨e, he⟩ := exists_mem_of_ne_nil _ fun hempty ↦ hsome ⟨hne, hempty⟩
    rw [Graph.outEdges, mem_filter, decide_eq_true_iff] at he
    exact ⟨e, he.1, he.2⟩

omit [Inhabited α] in
/-- `FixupSourceAndSinkEdges` adds control edges so that every node is between two others. -/
theorem fixupSourceAndSinkEdges_spec (g : Graph α) : ∃ extra, (∀ e ∈ extra, IsFixup g e) ∧
    g.fixupSourceAndSinkEdges = { g with edges := g.edges ++ extra } ∧
    ∀ id, (g.findNodeId id).isSome = true →
      (id ≠ Graph.kSourceId → ∃ e ∈ g.edges ++ extra, e.dst = id) ∧
      (id ≠ Graph.kSinkId → ∃ e ∈ g.edges ++ extra, e.src = id) := by
  have hfold : ∀ (ids : List ℕ) (before : List Edge), (∀ e ∈ before, IsFixup g e) →
      ∃ extra, (∀ e ∈ extra, IsFixup g e) ∧
      ids.foldl (fun g id ↦ if (g.findNodeId id).isSome then g.fixupNode id else g)
          { g with edges := g.edges ++ before } = { g with edges := g.edges ++ extra } ∧
      (∀ e ∈ before, e ∈ extra) ∧ ∀ id ∈ ids, (g.findNodeId id).isSome = true →
        (id ≠ Graph.kSourceId → ∃ e ∈ g.edges ++ extra, e.dst = id) ∧
        (id ≠ Graph.kSinkId → ∃ e ∈ g.edges ++ extra, e.src = id) := by
    intro ids
    induction ids with
    | nil => exact fun before hbefore ↦ ⟨before, hbefore, rfl, fun e he ↦ he, nofun⟩
    | cons id ids ih =>
      intro before hbefore
      have hsame : Graph.findNodeId { g with edges := g.edges ++ before } id = g.findNodeId id :=
        rfl
      rw [foldl_cons, hsame]
      by_cases hid : (g.findNodeId id).isSome = true
      · obtain ⟨extra, hextra, heq, hends⟩ := fixupNode_eq hid before
        obtain ⟨extra', hextra', heq', hsub, hrest⟩ := ih (before ++ extra)
          (forall_mem_append.2 ⟨hbefore, hextra⟩)
        rw [if_pos hid, heq]
        have hmem : ∀ e ∈ g.edges ++ (before ++ extra), e ∈ g.edges ++ extra' := fun e he ↦
          (mem_append.1 he).elim (mem_append_left _) fun he ↦ mem_append_right _ (hsub e he)
        refine ⟨extra', hextra', heq', fun e he ↦ hsub e (mem_append_left _ he),
          forall_mem_cons.2 ⟨fun _ ↦ ⟨fun hne ↦ ?_, fun hne ↦ ?_⟩, hrest⟩⟩
        · obtain ⟨e, he, hdst⟩ := hends.1 hne
          exact ⟨e, hmem e he, hdst⟩
        · obtain ⟨e, he, hsrc⟩ := hends.2 hne
          exact ⟨e, hmem e he, hsrc⟩
      · rw [if_neg hid]
        obtain ⟨extra, hextra, heq, hsub, hrest⟩ := ih before hbefore
        exact ⟨extra, hextra, heq, hsub, forall_mem_cons.2 ⟨fun hsome ↦ absurd hsome hid, hrest⟩⟩
  obtain ⟨extra, hextra, heq, -, hends⟩ := hfold (range g.numNodeIds) [] nofun
  rw [append_nil] at heq
  refine ⟨extra, hextra, heq, fun id hid ↦ hends id (mem_range.2 ?_) hid⟩
  by_contra hle
  rw [Graph.findNodeId, getElem?_eq_none (Nat.not_lt.1 hle)] at hid
  cases hid

/-! ### The graph -/

variable (registry stray opts) in
/-- The graph that a `GraphDef` is converted to. -/
structure Built (gdef : GraphDef α) (done : List ℕ) (g : Graph α) : Prop where
  known : Known gdef
  nodup : done.Nodup
  mem_done : ∀ n, n ∈ done ↔ n < gdef.node.length
  enabled : ∀ {before n after}, done = before ++ n :: after →
    Enabled (preds gdef) (need gdef) before n
  nodes_eq : g.nodes = (Graph.new : Graph α).nodes ++
    done.map fun n ↦ some (builtNode registry opts (gdef.nodeAt n))
  versions_eq : g.versions = gdef.versions
  nodeOk : ∀ n < gdef.node.length, NodeOk opts (gdef.nodeAt n)
  names_nodup : (gdef.node.map NodeDef.name).Nodup
  hasSignature : ∀ n < gdef.node.length, HasSignature registry (gdef.nodeAt n)
  controlsLast : ∀ n < gdef.node.length, ControlsLast (gdef.nodeAt n).input
  edges_perm : ∃ extra, (∀ e ∈ extra, IsEndpointEdge e) ∧
    g.edges.Perm ((done.flatMap (links gdef)).map (Link.edge done) ++ extra)
  fits : ∀ n < gdef.node.length, ∀ l ∈ links gdef n, l.index ≠ -1 → l.Fits registry stray opts gdef

theorem src_mem_of_mem_links (hknown : Known gdef) {n : ℕ} (hn : n < gdef.node.length)
    (hl : l ∈ links gdef n) : l.src < gdef.node.length :=
  (nameIndex_eq_some (nameIndex_src hknown hn hl)).1

/-- What an accepted `GraphDef` is converted to. -/
theorem exists_built {tfVersionString : ByteString}
    (h : convertGraphDefToGraph registry stray opts tfVersionString gdef = .ok g) :
    ∃ done, Built registry stray opts gdef done g := by
  obtain ⟨_, -, h⟩ := ExceptPost.bind_eq_ok_iff.1 h
  obtain ⟨_, hnames, h⟩ := ExceptPost.bind_eq_ok_iff.1 h
  obtain ⟨index, hindex, h⟩ := ExceptPost.bind_eq_ok_iff.1 h
  have hknown := known_of_initFromEdges hindex
  obtain rfl := Except.ok.inj ((initFromEdges_eq hknown).symm.trans hindex)
  obtain ⟨s, hs, h⟩ := ExceptPost.bind_eq_ok_iff.1 h
  obtain ⟨s₁, hloop, hs⟩ := ExceptPost.bind_eq_ok_iff.1 hs
  obtain ⟨done, hconv, hready⟩ := (converting_nil gdef).convertLoop hknown (by simp) hloop
  split at hs
  · cases hs
  · rename_i hprocessed
    obtain rfl := Except.ok.inj hs
    rw [hconv.processed_eq, Nat.not_lt] at hprocessed
    have hall : ∀ n, n ∈ done ↔ n < gdef.node.length := fun n ↦
      ⟨hconv.tracks.lt n, hconv.tracks.mem_of_length_eq
        (Nat.le_antisymm hconv.tracks.length_le hprocessed)⟩
    obtain ⟨forward, back, hedges, hbacks, hperm, hforward⟩ := hconv.edges_eq
    have hlink : ∀ l ∈ forward ++ back, ∃ n < gdef.node.length, l ∈ links gdef n := by
      intro l hl
      obtain ⟨n, hn, hl⟩ := mem_flatMap.1 (hperm.mem_iff.1 hl)
      exact ⟨n, (hall n).1 hn, hl⟩
    obtain ⟨g₁, hg₁, h⟩ := ExceptPost.bind_eq_ok_iff.1 h
    rw [addBackEdges, hbacks, hconv.addBackEdges_eq_ok_iff (fun l hl ↦ ?_) rfl] at hg₁
    · obtain ⟨hfits, rfl⟩ := hg₁
      obtain rfl := Except.ok.inj h
      obtain ⟨extra, hextra, hfixup, -⟩ := fixupSourceAndSinkEdges_spec (Graph.mk s₁.graph.nodes
        (s₁.graph.edges ++ back.map (Link.edge done)) gdef.versions)
      rw [hfixup]
      obtain ⟨hok, hnodup⟩ := (buildNodeIndex_eq_ok_iff nodup_nil).1 hnames
      refine ⟨done, hknown, hconv.tracks.nodup, hall, hconv.tracks.enabled, hconv.nodes_eq, rfl, ?_,
        hnodup, ?_, ?_, ?_, ?_⟩
      · intro n hn
        rw [nodeAt_of_lt hn]
        exact hok _ (getElem_mem hn)
      · exact fun n hn ↦ hconv.hasSignature n ((hall n).2 hn)
      · exact fun n hn ↦ hconv.controlsLast n ((hall n).2 hn)
      · refine ⟨(Graph.new : Graph α).edges ++ extra, forall_mem_append.2
          ⟨?_, fun e he ↦ (hextra e he).isEndpointEdge⟩, ?_⟩
        · exact forall_mem_singleton.2 ⟨rfl, rfl, .inl ⟨rfl, by decide⟩⟩
        · show (s₁.graph.edges ++ back.map (Link.edge done) ++ extra).Perm _
          rw [hedges, ← append_assoc]
          refine Perm.append_right _ ?_
          rw [append_assoc, ← map_append]
          exact perm_append_comm.trans (Perm.append_right _ (hperm.map _))
      · intro n hn l hl hindex
        have hmem : l ∈ forward ++ back :=
          hperm.mem_iff.2 (mem_flatMap.2 ⟨n, (hall n).2 hn, hl⟩)
        obtain hl | hl := mem_append.1 hmem
        · exact (hforward l hl).2 hindex
        · exact hfits l hl hindex
    · obtain ⟨n, hn, hl'⟩ := hlink l (mem_append_right _ hl)
      exact ⟨(hall _).2 (src_mem_of_mem_links hknown hn hl'),
        (hall _).2 (dst_of_mem_links hl' ▸ hn), nameIndex_src hknown hn hl'⟩

end

end TensorFlowCore.GraphConstructor
