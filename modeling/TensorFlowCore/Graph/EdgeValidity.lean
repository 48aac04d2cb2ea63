import TensorFlowCore.Graph.Conversion

/-!
# Validity of the edges of a converted graph

`Convert` checks that an output exists only when the node is converted already, and neither it nor
`AddBackEdges` compares the number of inputs of a `NodeDef` with that of its op. The edges of an
accepted graph are therefore valid exactly if the inputs match the ops (`InputsMatch`).
-/

namespace TensorFlowCore

open List

namespace Graph

variable {α : Type}

/-- A data edge between an output and an input that exist and have compatible types. -/
def EdgeValid (g : Graph α) (e : Edge) : Prop :=
  ∃ src dst, g.findNodeId e.src = some src ∧ g.findNodeId e.dst = some dst ∧
    0 ≤ e.srcOutput ∧ e.srcOutput < src.numOutputs ∧ 0 ≤ e.dstInput ∧ e.dstInput < dst.numInputs ∧
    typesCompatible (dst.inputTypes.getD e.dstInput.toNat 0)
      (src.outputTypes.getD e.srcOutput.toNat 0) = true

/-- Every data edge is valid, and every input of every node is fed by exactly one edge. -/
def EdgesValid (g : Graph α) : Prop :=
  (∀ e ∈ g.edges, e.isControlEdge = false → g.EdgeValid e) ∧
    ∀ id node, g.findNodeId id = some node → ∀ i < node.numInputs,
      g.edges.countP (fun e : Edge ↦ e.dst = id ∧ e.dstInput = (i : ℤ)) = 1

end Graph

namespace GraphConstructor

variable {α : Type} [Inhabited α] {gdef : GraphDef α} {registry : OpRegistry α}
  {stray : List DataType → ℤ → DataType} {opts : GraphConstructorOptions} {done : List ℕ}
  {g : Graph α} {n : ℕ} {l : Link}

/-- The inputs of every node match its op: there is one for each input of the op, it names an output
that exists, and what comes behind are control dependencies. -/
def InputsMatch (registry : OpRegistry α) (gdef : GraphDef α) : Prop :=
  ∀ n < gdef.node.length, ∀ i : ℕ,
    (i < (signatureOf registry (gdef.nodeAt n)).inputTypes.length →
      ∃ input, (gdef.nodeAt n).input[i]? = some input ∧ 0 ≤ linkIndex input ∧
        linkIndex input <
          (signatureOf registry (gdef.nodeAt (srcIndex gdef input))).outputTypes.length) ∧
    ((signatureOf registry (gdef.nodeAt n)).inputTypes.length ≤ i →
      ∀ input, (gdef.nodeAt n).input[i]? = some input → linkIndex input = -1)

theorem mem_links_iff : l ∈ links gdef n ↔
    ∃ i input, (gdef.nodeAt n).input[i]? = some input ∧
      (⟨srcIndex gdef input, linkIndex input, n, i⟩ : Link) = l := by
  rw [links, mem_map]
  constructor
  · rintro ⟨⟨input, i⟩, hp, rfl⟩
    exact ⟨i, input, mem_zipIdx_iff_getElem?.1 hp, rfl⟩
  · rintro ⟨i, input, hp, rfl⟩
    exact ⟨(input, i), mem_zipIdx_iff_getElem?.2 hp, rfl⟩

/-- The inputs of a node have distinct slots. -/
theorem nodup_links (n : ℕ) : (links gdef n).Nodup := by
  refine Nodup.of_map Link.slot ?_
  rw [links, map_map]
  show (map Prod.snd _).Nodup
  rw [zipIdx_map_snd]
  exact nodup_range'

theorem nodup_flatMap_links (hdone : done.Nodup) : (done.flatMap (links gdef)).Nodup := by
  refine nodup_flatMap.2 ⟨fun n _ ↦ nodup_links n, hdone.imp fun hne ↦ ?_⟩
  intro l hl hl'
  exact hne ((dst_of_mem_links hl).symm.trans (dst_of_mem_links hl'))

theorem nodeId_inj {m : ℕ} (hm : m ∈ done) (h : nodeId done m = nodeId done n) : m = n := by
  have hidx : done.idxOf m = done.idxOf n := Nat.add_left_cancel h
  exact (idxOf_inj hm).1 hidx

section

variable (h : Built registry stray opts gdef done g)
include h

theorem Built.findNodeId_eq (hn : n < gdef.node.length) :
    g.findNodeId (nodeId done n) = some (builtNode registry opts (gdef.nodeAt n)) := by
  have hlen : (Graph.new (α := α)).nodes.length = 2 := rfl
  have hlt : done.idxOf n < done.length := idxOf_lt_length_of_mem ((h.mem_done n).2 hn)
  rw [Graph.findNodeId, h.nodes_eq, nodeId, ← hlen, getElem?_append_right (Nat.le_add_right _ _),
    Nat.add_sub_cancel_left, getElem?_map, getElem?_eq_getElem hlt, getElem_idxOf hlt]
  rfl

/-- A node with inputs is one of those that were converted. -/
theorem Built.exists_of_findNodeId {id : ℕ} {node : Node α} (hnode : g.findNodeId id = some node)
    (hinputs : 0 < node.numInputs) :
    ∃ n < gdef.node.length, id = nodeId done n ∧
    node = builtNode registry opts (gdef.nodeAt n) := by
  rw [Graph.findNodeId, h.nodes_eq] at hnode
  obtain _ | _ | k := id
  · obtain rfl : Graph.endpoint (ascii "_SOURCE") = node := Option.some.inj hnode
    exact absurd hinputs (Nat.lt_irrefl 0)
  · obtain rfl : Graph.endpoint (ascii "_SINK") = node := Option.some.inj hnode
    exact absurd hinputs (Nat.lt_irrefl 0)
  · have hk : (done.map fun n ↦ some (builtNode registry opts (gdef.nodeAt n)))[k]?.join =
        some node := hnode
    rw [getElem?_map] at hk
    cases hdone : done[k]? with
    | none =>
      rw [hdone] at hk
      cases hk
    | some n =>
      rw [hdone] at hk
      obtain ⟨hlt, rfl⟩ := List.getElem?_eq_some_iff.1 hdone
      refine ⟨done[k], (h.mem_done _).1 (getElem_mem hlt), ?_, (Option.some.inj hk).symm⟩
      rw [nodeId, h.nodup.idxOf_getElem k hlt]
      exact Nat.add_comm k 2

/-- The edges of a built graph: those of the links, and control edges of source and sink. -/
theorem Built.mem_edges_iff :
    ∃ extra : List Edge, (∀ e ∈ extra, IsEndpointEdge e) ∧ ∀ e, e ∈ g.edges ↔
      (∃ n < gdef.node.length, ∃ l ∈ links gdef n, l.edge done = e) ∨ e ∈ extra := by
  obtain ⟨extra, hextra, hperm⟩ := h.edges_perm
  refine ⟨extra, hextra, fun e ↦ ?_⟩
  rw [hperm.mem_iff, mem_append, mem_map]
  refine or_congr_left ⟨?_, ?_⟩
  · rintro ⟨l, hl, rfl⟩
    obtain ⟨n, hn, hl⟩ := mem_flatMap.1 hl
    exact ⟨n, (h.mem_done n).1 hn, l, hl, rfl⟩
  · rintro ⟨n, hn, l, hl, rfl⟩
    exact ⟨l, mem_flatMap.2 ⟨n, (h.mem_done n).2 hn, hl⟩, rfl⟩

end

theorem Link.edge_of_ne (h : l.index ≠ -1) :
    l.edge done = ⟨nodeId done l.src, l.index, nodeId done l.dst, l.slot⟩ := if_neg h

theorem Link.src_edge (l : Link) : (l.edge done).src = nodeId done l.src := by
  rw [Link.edge]
  split <;> rfl

theorem Link.dst_edge (l : Link) : (l.edge done).dst = nodeId done l.dst := by
  rw [Link.edge]
  split <;> rfl

theorem Link.isControlEdge_edge : (l.edge done).isControlEdge = decide (l.index = -1) := by
  by_cases hindex : l.index = -1
  · rw [Link.edge, if_pos hindex, decide_eq_true hindex]
    rfl
  · rw [Link.edge_of_ne hindex, decide_eq_false hindex]
    exact decide_eq_false hindex

/-- A link with an output number feeds its slot of its node, and no other. -/
theorem Link.feeds_iff (l : Link) (hl : l.dst ∈ done) (i : ℕ) :
    ((l.edge done).dst = nodeId done n ∧ (l.edge done).dstInput = i) ↔
      l.dst = n ∧ l.index ≠ -1 ∧ l.slot = i := by
  by_cases hindex : l.index = -1
  · rw [Link.edge, if_pos hindex]
    refine iff_of_false (fun hfeeds ↦ ?_) fun hfeeds ↦ hfeeds.2.1 hindex
    have hcontrol : (-1 : ℤ) = i := hfeeds.2
    omega
  · rw [Link.edge_of_ne hindex]
    constructor
    · rintro ⟨hdst, hslot⟩
      exact ⟨nodeId_inj hl hdst, hindex, Int.ofNat.inj hslot⟩
    · rintro ⟨rfl, -, rfl⟩
      exact ⟨rfl, rfl⟩

/-- The number of edges that feed an input of a converted node. -/
theorem Built.countP_eq (h : Built registry stray opts gdef done g) (n i : ℕ) :
    g.edges.countP (fun e : Edge ↦ e.dst = nodeId done n ∧ e.dstInput = (i : ℤ)) =
      (done.flatMap (links gdef)).countP fun l ↦ l.dst = n ∧ l.index ≠ -1 ∧ l.slot = i := by
  obtain ⟨extra, hextra, hperm⟩ := h.edges_perm
  have hnone : extra.countP (fun e : Edge ↦ e.dst = nodeId done n ∧ e.dstInput = (i : ℤ)) = 0 := by
    refine countP_eq_zero.2 fun e he ↦ ?_
    have hcontrol : e.dstInput = -1 := (hextra e he).dstInput_eq
    simp only [hcontrol, decide_eq_true_eq, not_and]
    omega
  rw [hperm.countP_eq, countP_append, hnone, Nat.add_zero, countP_map]
  refine countP_congr fun l hl ↦ ?_
  simp only [Function.comp_apply, decide_eq_true_eq]
  exact l.feeds_iff (dst_mem_of_mem_flatMap hl) i

theorem countP_eq_one {β : Type} [DecidableEq β] {l : List β} (hl : l.Nodup) {a : β} (ha : a ∈ l)
    {p : β → Bool} (hp : ∀ b ∈ l, p b = true ↔ b = a) : l.countP p = 1 := by
  rw [← count_eq_one_of_mem hl ha]
  refine countP_congr fun b hb ↦ ?_
  rw [hp b hb, beq_iff_eq]

omit [Inhabited α] in
/-- An index in range is read from the vector. -/
theorem readType_of_lt {types : List DataType} {i : ℤ} (h₀ : 0 ≤ i) (h : i < types.length) :
    readType stray types i = types.getD i.toNat 0 := if_pos ⟨h₀, h⟩

section

variable (h : Built registry stray opts gdef done g)
include h

/-- The edge of a link in range is valid. -/
theorem Built.edgeValid (hn : n < gdef.node.length) (hl : l ∈ links gdef n) (h₀ : 0 ≤ l.index)
    (hsrc : l.index < (signatureOf registry (gdef.nodeAt l.src)).outputTypes.length)
    (hdst : l.slot < (signatureOf registry (gdef.nodeAt l.dst)).inputTypes.length) :
    g.EdgeValid (l.edge done) := by
  have hindex : l.index ≠ -1 := by omega
  have hfits := h.fits n hn l hl hindex
  have htypes : readType stray _ l.index = _ := readType_of_lt h₀ hsrc
  have htypes' : readType stray _ (l.slot : ℤ) = _ :=
    readType_of_lt (Int.natCast_nonneg l.slot) (Int.ofNat_lt.2 hdst)
  simp only [Link.Fits, Fits, builtNode, htypes, htypes'] at hfits
  rw [Link.edge_of_ne hindex]
  refine ⟨_, _, h.findNodeId_eq (src_mem_of_mem_links h.known hn hl), h.findNodeId_eq ?_, h₀, hsrc,
    Int.natCast_nonneg _, Int.ofNat_lt.2 hdst, hfits⟩
  rw [dst_of_mem_links hl]
  exact hn

/-- A valid edge of a link is in range. -/
theorem Built.lt_of_edgeValid (hn : n < gdef.node.length) (hl : l ∈ links gdef n)
    (hindex : l.index ≠ -1) (hvalid : g.EdgeValid (l.edge done)) :
    0 ≤ l.index ∧ l.index < (signatureOf registry (gdef.nodeAt l.src)).outputTypes.length ∧
      l.slot < (signatureOf registry (gdef.nodeAt n)).inputTypes.length := by
  rw [Link.edge_of_ne hindex] at hvalid
  obtain ⟨src, dst, hsrc, hdst, h₀, hlt, -, hslot, -⟩ := hvalid
  have hsrc' := h.findNodeId_eq (src_mem_of_mem_links h.known hn hl)
  have hdst' := h.findNodeId_eq hn
  obtain rfl := Option.some.inj (hsrc'.symm.trans hsrc)
  rw [← dst_of_mem_links hl] at hdst'
  obtain rfl := Option.some.inj (hdst'.symm.trans hdst)
  rw [← dst_of_mem_links hl]
  exact ⟨h₀, hlt, Int.ofNat_lt.1 hslot⟩

/-- Conversely each input has its edge, in the slot of its position. -/
theorem Built.inputsMatch (hvalid : g.EdgesValid) : InputsMatch registry gdef := by
  obtain ⟨hedges, hslots⟩ := hvalid
  obtain ⟨extra, -, hmem⟩ := h.mem_edges_iff
  have hlink : ∀ n < gdef.node.length, ∀ l ∈ links gdef n, l.index ≠ -1 →
      0 ≤ l.index ∧ l.index < (signatureOf registry (gdef.nodeAt l.src)).outputTypes.length ∧
        l.slot < (signatureOf registry (gdef.nodeAt n)).inputTypes.length := by
    intro n hn l hl hindex
    refine h.lt_of_edgeValid hn hl hindex (hedges _ ((hmem _).2 (.inl ⟨n, hn, l, hl, rfl⟩)) ?_)
    rw [Link.isControlEdge_edge, decide_eq_false hindex]
  intro n hn i
  constructor
  · intro hi
    -- some edge feeds the input, and it is that of a link
    have hcount := hslots _ _ (h.findNodeId_eq hn) i hi
    rw [h.countP_eq] at hcount
    have hpos : 0 < (done.flatMap (links gdef)).countP
        fun l ↦ l.dst = n ∧ l.index ≠ -1 ∧ l.slot = i := by omega
    obtain ⟨l, hl, hfeeds⟩ := countP_pos_iff.1 hpos
    obtain ⟨hdst, hindex, hslot⟩ := of_decide_eq_true hfeeds
    obtain ⟨n', hn', hl⟩ := mem_flatMap.1 hl
    obtain rfl : n' = n := (dst_of_mem_links hl).symm.trans hdst
    obtain ⟨h₀, hlt, -⟩ := hlink n' hn l hl hindex
    obtain ⟨j, input, hinput, rfl⟩ := mem_links_iff.1 hl
    obtain rfl : j = i := hslot
    exact ⟨input, hinput, h₀, hlt⟩
  · intro hi input hinput
    by_contra hindex
    have hl := mem_links_iff.2 ⟨i, input, hinput, rfl⟩
    exact absurd (hlink n hn _ hl hindex).2.2 (Nat.not_lt.2 hi)

/-- Each edge comes from an input of its destination, whose match is checked against the ops. -/
theorem Built.edgesValid (hmatch : InputsMatch registry gdef) : g.EdgesValid := by
  obtain ⟨extra, hextra, hmem⟩ := h.mem_edges_iff
  constructor
  · intro e he hdata
    obtain ⟨n, hn, l, hl, rfl⟩ | he := (hmem e).1 he
    · rw [Link.isControlEdge_edge, decide_eq_false_iff_not] at hdata
      obtain ⟨i, input, hinput, rfl⟩ := mem_links_iff.1 hl
      obtain hi | hi := Nat.lt_or_ge i (signatureOf registry (gdef.nodeAt n)).inputTypes.length
      · obtain ⟨input', hinput', h₀, hlt⟩ := (hmatch n hn i).1 hi
        obtain rfl := Option.some.inj (hinput'.symm.trans hinput)
        exact h.edgeValid hn hl h₀ hlt hi
      · exact absurd ((hmatch n hn i).2 hi input hinput) hdata
    · have hcontrol : e.isControlEdge = true := decide_eq_true (hextra e he).srcOutput_eq
      rw [hcontrol] at hdata
      cases hdata
  · intro id node hnode i hi
    obtain ⟨n, hn, rfl, rfl⟩ := h.exists_of_findNodeId hnode (Nat.zero_lt_of_lt hi)
    obtain ⟨input, hinput, h₀, hlt⟩ := (hmatch n hn i).1 hi
    have hl := mem_links_iff.2 ⟨i, input, hinput, rfl⟩
    rw [h.countP_eq]
    refine countP_eq_one (nodup_flatMap_links h.nodup)
      (mem_flatMap.2 ⟨n, (h.mem_done n).2 hn, hl⟩) fun l hl' ↦ ?_
    rw [decide_eq_true_eq]
    constructor
    · rintro ⟨hdst, -, hslot⟩
      obtain ⟨n', -, hl'⟩ := mem_flatMap.1 hl'
      obtain rfl : n' = n := (dst_of_mem_links hl').symm.trans hdst
      obtain ⟨j, input', hinput', rfl⟩ := mem_links_iff.1 hl'
      obtain rfl : j = i := hslot
      obtain rfl := Option.some.inj (hinput'.symm.trans hinput)
      rfl
    · rintro rfl
      refine ⟨rfl, ?_, rfl⟩
      show linkIndex input ≠ -1
      omega

end

/-- The edges of an accepted graph are valid exactly if the inputs of its nodes match their ops. -/
theorem edgesValid_iff (registry : OpRegistry α) (stray : List DataType → ℤ → DataType)
    (opts : GraphConstructorOptions) (tfVersionString : ByteString) (gdef : GraphDef α)
    (g : Graph α) (h : convertGraphDefToGraph registry stray opts tfVersionString gdef = .ok g) :
    g.EdgesValid ↔ InputsMatch registry gdef := by
  obtain ⟨done, hbuilt⟩ := exists_built h
  exact ⟨hbuilt.inputsMatch, hbuilt.edgesValid⟩

/-- Four ops on floats. -/
def floatOps : OpRegistry Unit where
  signature op _ :=
    if op = ascii "Const" then .ok { inputTypes := [], outputTypes := [1] }
    else if op = ascii "Merge" then .ok { inputTypes := [1, 1], outputTypes := [1, 3] }
    else if op = ascii "Identity" ∨ op = ascii "NextIteration" then
      .ok { inputTypes := [1], outputTypes := [1] }
    else .error (.error .notFound [])

/-- A `GraphDef` of the current version. -/
def currentGraphDef (node : List (NodeDef Unit)) : GraphDef Unit :=
  ⟨node, { producer := graphDefVersion, minConsumer := 0 }⟩

/-- `Const -> Identity`. -/
def constIdentity : GraphDef Unit :=
  currentGraphDef [⟨ascii "b", ascii "Identity", [ascii "a"], [], ()⟩,
    ⟨ascii "a", ascii "Const", [], [], ()⟩]

/-- The edges of a small graph are valid exactly if its inputs match. -/
theorem edgesValid_iff_constIdentity :
    ∃ g, convertGraphDefToGraph floatOps (fun _ _ ↦ 0) {} [] constIdentity = .ok g ∧
      (g.EdgesValid ↔ InputsMatch floatOps constIdentity) :=
  ⟨_, rfl, edgesValid_iff floatOps (fun _ _ ↦ 0) {} [] constIdentity _ rfl⟩

/-- An `Identity` without its input. -/
def missingInput : GraphDef Unit :=
  currentGraphDef [⟨ascii "b", ascii "Identity", [], [], ()⟩]

/-- A loop whose back edge names the output 7 of a node with one output. -/
def backEdgeOutOfRange : GraphDef Unit :=
  currentGraphDef [⟨ascii "a", ascii "Const", [], [], ()⟩,
    ⟨ascii "m", ascii "Merge", [ascii "a", ascii "n:7"], [], ()⟩,
    ⟨ascii "n", ascii "NextIteration", [ascii "m"], [], ()⟩]

/-- Both are accepted (the second one if the read behind the end finds a float), with an input that
no edge feeds and with an edge from an output that does not exist. -/
theorem not_edgesValid_missingInput :
    (∃ g, convertGraphDefToGraph floatOps (fun _ _ ↦ 1) {} [] missingInput = .ok g ∧
      ¬g.EdgesValid) ∧
    ∃ g, convertGraphDefToGraph floatOps (fun _ _ ↦ 1) {} [] backEdgeOutOfRange = .ok g ∧
      ¬g.EdgesValid := by
  refine ⟨⟨_, rfl, fun hvalid ↦ ?_⟩, ⟨_, rfl, fun hvalid ↦ ?_⟩⟩
  · obtain ⟨done, hbuilt⟩ := exists_built (show convertGraphDefToGraph floatOps (fun _ _ ↦ 1) {} []
      missingInput = .ok _ from rfl)
    obtain ⟨input, hinput, -⟩ := (hbuilt.inputsMatch hvalid 0 (by decide) 0).1 (by decide)
    cases hinput
  · obtain ⟨done, hbuilt⟩ := exists_built (show convertGraphDefToGraph floatOps (fun _ _ ↦ 1) {} []
      backEdgeOutOfRange = .ok _ from rfl)
    obtain ⟨input, hinput, -, hlt⟩ := (hbuilt.inputsMatch hvalid 1 (by decide) 1).1 (by decide)
    obtain rfl : ascii "n:7" = input := Option.some.inj hinput
    exact absurd hlt (by decide)

end GraphConstructor

end TensorFlowCore
