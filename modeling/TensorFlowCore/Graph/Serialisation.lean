import TensorFlowCore.Graph.Acceptance
import TensorFlowCore.Graph.EdgeValidity

/-!
# `Graph::ToGraphDef`

`Graph::ToGraphDefSubRange` of `tensorflow/core/graph/graph.cc` from node 0 on: for each op node its
`NodeDef`, with the inputs written from the edges that end in it, the data inputs by slot and the
control inputs behind them.
-/

namespace TensorFlowCore

open Function List

namespace Graph

variable {α : Type} (g : Graph α)

/-- `Node::IsOp`. -/
def isOp (id : ℕ) : Bool := 1 < id

/-- The string that `AddInput` adds. -/
def inputString (srcName : ByteString) (srcSlot : ℤ) : ByteString :=
  if srcSlot = kControlSlot then 94 :: srcName
  else if srcSlot = 0 then srcName
  else srcName ++ 58 :: decimalInt srcSlot

/-- The loop over the edges that end in a node: the data edges by their slots, the control edges
behind. It stops (`none`) at a second edge for a slot, and at a slot that does not exist. -/
def placeEdges : List Edge → List (Option Edge) → Option (List (Option Edge))
  | [], inputs => some inputs
  | e :: es, inputs =>
    if e.isControlEdge then placeEdges es (inputs ++ [some e])
    else if 0 ≤ e.dstInput ∧ inputs[e.dstInput.toNat]? = some none then
      placeEdges es (inputs.set e.dstInput.toNat (some e))
    else none

/-- The input that is written for an entry: that of the `NodeDef` where no edge ends, and nothing
for an edge from source. -/
def writeInput (node : Node α) (p : Option Edge × ℕ) : Option ByteString :=
  match p.1 with
  | none => some (node.nodeDef.input.getD p.2 [])
  | some e =>
    if isOp e.src then (g.findNodeId e.src).map fun src ↦ inputString src.name e.srcOutput else none

/-- The device that is written: the assigned one, if any. -/
def writeDevice (node : Node α) : ByteString :=
  if node.assignedDeviceName ≠ [] then node.assignedDeviceName else node.nodeDef.device

/-- One round of `ToGraphDefSubRange`. -/
def writeNode (id : ℕ) (node : Node α) : Option (NodeDef α) := do
  let inputs ← placeEdges (g.inEdges id) (List.replicate node.numInputs none)
  return { node.nodeDef with
    device := writeDevice node
    input := inputs.zipIdx.filterMap (g.writeInput node) }

/-- The op nodes with their ids. -/
def opNodes : List (ℕ × Node α) :=
  (List.range g.numNodeIds).filterMap fun id ↦
    if isOp id then (g.findNodeId id).map fun node ↦ (id, node) else none

/-- `Graph::ToGraphDef`. -/
def toGraphDef : Option (GraphDef α) := do
  let node ← g.opNodes.mapM fun p ↦ g.writeNode p.1 p.2
  return ⟨node, g.versions⟩

variable {g}

/-- The op nodes are the nodes with the ids of op nodes. -/
theorem mem_opNodes {p : ℕ × Node α} :
    p ∈ g.opNodes ↔ isOp p.1 = true ∧ g.findNodeId p.1 = some p.2 := by
  rw [opNodes, mem_filterMap]
  constructor
  · rintro ⟨id, hid, heq⟩
    split at heq
    · rename_i hop
      obtain ⟨node, hnode, rfl⟩ := Option.map_eq_some_iff.1 heq
      exact ⟨hop, hnode⟩
    · cases heq
  · rintro ⟨hop, hnode⟩
    refine ⟨p.1, mem_range.2 ?_, ?_⟩
    · by_contra hle
      rw [findNodeId, getElem?_eq_none (Nat.not_lt.1 hle)] at hnode
      cases hnode
    · rw [if_pos hop, hnode]
      rfl

end Graph

/-!
## The `GraphDef` that is written for a graph

What `ToGraphDef` writes of a graph: for each op node its `NodeDef` with the edges that end in it as
inputs, the data edges by slot and the control edges behind. The inputs that are written are parsed
back to the edges they were written from.
-/

open GraphConstructor

namespace Graph

/-! ### Input strings -/

theorem ne_colon {c : UInt8} {allowInternalOps : Bool}
    (h : (if allowInternalOps then letterDigitDotUnderscore c else letterDigitDot c) = true) :
    c ≠ 58 ∧ c ≠ 94 := by
  constructor
  · rintro rfl
    revert h
    cases allowInternalOps <;> decide
  · rintro rfl
    revert h
    cases allowInternalOps <;> decide

section

variable {name : ByteString} {allowInternalOps : Bool}
  (h : isValidNodeName name allowInternalOps = true)
include h

/-- A valid name is not empty, has no colon and does not look like a control input. -/
theorem valid_name :
    name ≠ [] ∧ 58 ∉ name ∧ ∀ rest, consumeControl (name ++ rest) = (false, name ++ rest) := by
  cases name with
  | nil => cases h
  | cons c name =>
    rw [isValidNodeName, Bool.and_eq_true, all_eq_true] at h
    obtain ⟨hc, hrest⟩ := h
    obtain ⟨hcolon, hcaret⟩ := ne_colon hc
    refine ⟨cons_ne_nil _ _, ?_, fun rest ↦ ?_⟩
    · intro hmem
      obtain rfl | hmem := mem_cons.1 hmem
      · exact hcolon rfl
      · exact absurd (hrest 58 hmem) (by decide)
    · rw [cons_append, consumeControl, if_neg hcaret]

/-- The string of a data input is parsed back. -/
theorem inputId_inputString {slot : ℤ} (h₀ : 0 ≤ slot) (hlt : slot < 2 ^ 31) :
    isControl (inputString name slot) = false ∧ inputId (inputString name slot) = (name, slot) := by
  obtain ⟨hne, hcolon, hconsume⟩ := valid_name h
  have hslot : slot ≠ kControlSlot := by
    rw [kControlSlot]
    omega
  rw [inputString, if_neg hslot]
  split
  · rename_i hzero
    have hname := hconsume []
    rw [append_nil] at hname
    rw [isControl, inputId, hname, hzero]
    exact ⟨rfl, parseTensorName_of_notMem hcolon⟩
  · have hdecimal : decimalInt slot = decimal slot.natAbs := if_neg (Int.not_lt.2 h₀)
    rw [isControl, inputId, hconsume, hdecimal]
    refine ⟨rfl, ?_⟩
    show parseTensorName (name ++ 58 :: decimal slot.natAbs) = _
    rw [parseTensorName_decimal hne (by omega), Int.natAbs_of_nonneg h₀]

/-- The string of a control input is parsed back. -/
theorem inputId_control : isControl (inputString name kControlSlot) = true ∧
      (inputId (inputString name kControlSlot)).1 = name := by
  obtain ⟨-, hcolon, -⟩ := valid_name h
  have hconsume : consumeControl (inputString name kControlSlot) = (true, name) := rfl
  rw [isControl, inputId, hconsume]
  refine ⟨rfl, ?_⟩
  show (parseTensorName name).1 = name
  rw [parseTensorName_of_notMem hcolon]

end

/-! ### Placing the edges -/

/-- A data edge for a slot. -/
def isDataAt (i : ℕ) (e : Edge) : Bool := e.isControlEdge = false ∧ e.dstInput = i

/-- The entries when the edges have been placed. -/
theorem placeEdges_eq {m : ℕ} {es : List Edge} {d : ℕ → Option Edge} (controls : List (Option Edge))
    (hrange : ∀ e ∈ es, e.isControlEdge = false → ∃ i < m, e.dstInput = (i : ℤ) ∧ d i = none)
    (hdistinct : es.Pairwise fun e e' ↦ e.isControlEdge = false → e'.isControlEdge = false →
      e.dstInput ≠ e'.dstInput) :
    placeEdges es ((List.range m).map d ++ controls) =
      some ((List.range m).map (fun i ↦ (es.find? (isDataAt i)).or (d i)) ++
        (controls ++ (es.filter (·.isControlEdge)).map some)) := by
  induction es generalizing d controls with
  | nil => simp [placeEdges]
  | cons e es ih =>
    obtain ⟨hhead, htail⟩ := pairwise_cons.1 hdistinct
    obtain ⟨hrange₁, hrange₂⟩ := forall_mem_cons.1 hrange
    rw [placeEdges]
    cases hcontrol : e.isControlEdge with
    | true =>
      rw [if_pos rfl, append_assoc, ih _ hrange₂ htail]
      have hnot : ∀ i, isDataAt i e = false := fun i ↦ by simp [isDataAt, hcontrol]
      simp [hnot, hcontrol]
    | false =>
      obtain ⟨j, hj, hslot, hnone⟩ := hrange₁ hcontrol
      have hentry : ((range m).map d ++ controls)[j]? = some none := by
        rw [getElem?_append_left (by simpa using hj), getElem?_map, getElem?_range hj,
          Option.map_some, hnone]
      have hset : ((range m).map d ++ controls).set j (some e) =
          (range m).map (update d j (some e)) ++ controls := by
        rw [set_append_left _ _ (by simpa using hj)]
        congr 1
        refine ext_getElem (by simp) fun i hi _ ↦ ?_
        rw [getElem_set]
        by_cases hij : j = i
        · subst hij
          simp
        · simp [hij, update_of_ne (Ne.symm hij)]
      rw [if_neg (by simp), hslot, Int.toNat_natCast, if_pos ⟨Int.natCast_nonneg j, hentry⟩, hset,
        ih _ ?_ htail]
      · congr 2
        · refine map_congr_left fun i _ ↦ ?_
          rw [find?_cons]
          by_cases hij : i = j
          · subst hij
            have hnotFound : es.find? (isDataAt i) = none := by
              refine find?_eq_none.2 fun e' he' ↦ ?_
              simp only [isDataAt, decide_eq_true_eq, not_and]
              intro hdata hslot'
              exact hhead e' he' hcontrol hdata (hslot.trans hslot'.symm)
            have hhere : isDataAt i e = true := by simp [isDataAt, hcontrol, hslot]
            rw [hnotFound, hhere, update_self]
            rfl
          · have hnot : isDataAt i e = false := by
              simp only [isDataAt, hcontrol, hslot, true_and, decide_eq_false_iff_not]
              omega
            rw [hnot, update_of_ne hij]
        · simp [hcontrol]
      · intro e' he' hdata
        obtain ⟨i, hi, hslot', hnone'⟩ := hrange₂ e' he' hdata
        refine ⟨i, hi, hslot', ?_⟩
        rw [update_of_ne, hnone']
        rintro rfl
        exact hhead e' he' hcontrol hdata (hslot.trans hslot'.symm)

/-! ### Graphs that can be written -/

variable {α : Type} {registry : OpRegistry α} {opts : GraphConstructorOptions}
  {tfVersionString : ByteString} {g : Graph α} {p : ℕ × Node α} {e : Edge}

/-- Names are unique and valid, every data input is fed by exactly one edge, and this from an op
node and of a compatible type. The registered `Merge` has at least one input. -/
structure Serialisable (registry : OpRegistry α) (opts : GraphConstructorOptions)
    (tfVersionString : ByteString) (g : Graph α) : Prop where
  versions : checkVersions g.versions tfVersionString = .ok ()
  nodeOk : ∀ p ∈ g.opNodes, NodeOk opts { p.2.nodeDef with device := writeDevice p.2 }
  names_nodup : (g.opNodes.map (·.2.name)).Nodup
  signature : ∀ p ∈ g.opNodes, registry.signature p.2.nodeDef.op p.2.nodeDef.attr =
    .ok ⟨p.2.opDef, p.2.inputTypes, p.2.outputTypes⟩
  slots : ∀ p ∈ g.opNodes, ∀ i < p.2.numInputs,
    g.edges.countP (fun e : Edge ↦ e.dst = p.1 ∧ e.dstInput = (i : ℤ)) = 1
  data : ∀ e ∈ g.edges, e.isControlEdge = false →
    g.EdgeValid e ∧ isOp e.src = true ∧ isOp e.dst = true ∧ e.srcOutput < 2 ^ 31
  control : ∀ e ∈ g.edges, e.isControlEdge = true → e.dstInput = kControlSlot
  merge : ∀ p ∈ g.opNodes, isMerge p.2.nodeDef = true → 0 < p.2.numInputs
  src : ∀ e ∈ g.edges, (g.findNodeId e.src).isSome
  dst : ∀ e ∈ g.edges, (g.findNodeId e.dst).isSome

/-- The name of the node that an edge starts at. -/
def sourceName (g : Graph α) (e : Edge) : ByteString := ((g.findNodeId e.src).map Node.name).getD []

/-- The input that is written for an edge. -/
def edgeInput (g : Graph α) (e : Edge) : ByteString := inputString (g.sourceName e) e.srcOutput

/-- The edges from op nodes that end in a node, in the order in which they are written. -/
def orderedEdges (g : Graph α) (p : ℕ × Node α) : List Edge :=
  ((List.range p.2.numInputs).filterMap fun i ↦ (g.inEdges p.1).find? (isDataAt i)) ++
    (g.inEdges p.1).filter fun e ↦ e.isControlEdge && isOp e.src

/-- The `NodeDef` that is written for a node. -/
def written (g : Graph α) (p : ℕ × Node α) : NodeDef α :=
  { p.2.nodeDef with
    device := writeDevice p.2
    input := (g.orderedEdges p).map g.edgeInput }

theorem mem_inEdges {id : ℕ} : e ∈ g.inEdges id ↔ e ∈ g.edges ∧ e.dst = id := by
  rw [inEdges, mem_filter, decide_eq_true_eq]

section

variable (h : Serialisable registry opts tfVersionString g)

include h

/-- A data edge that ends in a node has a slot of the node. -/
theorem Serialisable.exists_slot (hp : p ∈ g.opNodes) (he : e ∈ g.inEdges p.1)
    (hdata : e.isControlEdge = false) : ∃ i < p.2.numInputs, e.dstInput = (i : ℤ) := by
  obtain ⟨hmem, hdst⟩ := mem_inEdges.1 he
  obtain ⟨⟨-, dst, -, hnode, -, -, h₀, hlt, -⟩, -⟩ := h.data e hmem hdata
  rw [hdst, (mem_opNodes.1 hp).2] at hnode
  cases hnode
  exact ⟨e.dstInput.toNat, by omega, (Int.toNat_of_nonneg h₀).symm⟩

omit h in
theorem pairwise_of_countP_le {es : List Edge} (hcount : ∀ e ∈ es, e.isControlEdge = false →
    es.countP (fun e' ↦ e'.isControlEdge = false ∧ e'.dstInput = e.dstInput) ≤ 1) :
    es.Pairwise fun e e' ↦ e.isControlEdge = false → e'.isControlEdge = false →
      e.dstInput ≠ e'.dstInput := by
  induction es with
  | nil => exact Pairwise.nil
  | cons e es ih =>
    refine pairwise_cons.2 ⟨fun e' he' hdata hdata' hslot ↦ ?_, ih fun e' he' hdata ↦ ?_⟩
    · have hle := hcount e mem_cons_self hdata
      have hpos : 0 < es.countP (fun e' ↦ e'.isControlEdge = false ∧ e'.dstInput = e.dstInput) :=
        countP_pos_iff.2 ⟨e', he', decide_eq_true ⟨hdata', hslot.symm⟩⟩
      rw [countP_cons_of_pos (by simp [hdata])] at hle
      omega
    · refine le_trans ?_ (hcount e' (mem_cons_of_mem _ he') hdata)
      exact (sublist_cons_self e es).countP_le

theorem Serialisable.pairwise_inEdges (hp : p ∈ g.opNodes) :
    (g.inEdges p.1).Pairwise fun e e' ↦ e.isControlEdge = false → e'.isControlEdge = false →
      e.dstInput ≠ e'.dstInput := by
  refine pairwise_of_countP_le fun e he hdata ↦ ?_
  obtain ⟨i, hi, hslot⟩ := h.exists_slot hp he hdata
  rw [← h.slots p hp i hi, inEdges, countP_filter]
  refine countP_mono_left fun e' _ he' ↦ ?_
  simp only [Bool.and_eq_true, decide_eq_true_eq] at he' ⊢
  exact ⟨he'.2, he'.1.2.trans hslot⟩

/-- Every slot of a node has its edge. -/
theorem Serialisable.exists_find? (hp : p ∈ g.opNodes) {i : ℕ} (hi : i < p.2.numInputs) :
    ∃ e, (g.inEdges p.1).find? (isDataAt i) = some e := by
  have hpos : 0 < g.edges.countP (fun e : Edge ↦ e.dst = p.1 ∧ e.dstInput = (i : ℤ)) := by
    rw [h.slots p hp i hi]
    exact Nat.one_pos
  obtain ⟨e, he, hfeeds⟩ := countP_pos_iff.1 hpos
  obtain ⟨hdst, hslot⟩ := of_decide_eq_true hfeeds
  refine Option.isSome_iff_exists.1 (find?_isSome.2 ⟨e, mem_inEdges.2 ⟨he, hdst⟩, ?_⟩)
  refine decide_eq_true ⟨?_, hslot⟩
  cases hcontrol : e.isControlEdge with
  | false => rfl
  | true =>
    have hminus : e.dstInput = -1 := h.control e he hcontrol
    omega

omit h in
/-- Skipping edges from source. -/
def writeEdge (g : Graph α) (e : Edge) : Option ByteString :=
  if isOp e.src then some (g.edgeInput e) else none

omit h in
theorem filterMap_writeEdge (es : List Edge) :
    es.filterMap g.writeEdge = (es.filter fun e ↦ isOp e.src).map g.edgeInput := by
  induction es with
  | nil => rfl
  | cons e es ih =>
    rw [filterMap_cons, filter_cons, ih, writeEdge]
    cases isOp e.src <;> rfl

theorem Serialisable.writeInput_some (he : e ∈ g.edges) (node : Node α) (i : ℕ) :
    g.writeInput node (some e, i) = g.writeEdge e := by
  obtain ⟨src, hsrc⟩ := Option.isSome_iff_exists.1 (h.src e he)
  simp only [writeInput, writeEdge, edgeInput, sourceName, hsrc, Option.map_some, Option.getD_some]

omit h in
theorem mem_of_find? {id i : ℕ} (hfind : (g.inEdges id).find? (isDataAt i) = some e) :
    e ∈ g.edges ∧ e.dst = id ∧ e.isControlEdge = false ∧ e.dstInput = (i : ℤ) := by
  obtain ⟨he, hdst⟩ := mem_inEdges.1 (mem_of_find?_eq_some hfind)
  have hat : isDataAt i e = true := find?_some hfind
  exact ⟨he, hdst, of_decide_eq_true hat⟩

/-- What is written for a node. -/
theorem Serialisable.writeNode_eq (hp : p ∈ g.opNodes) :
    g.writeNode p.1 p.2 = some (g.written p) := by
  have hplace := placeEdges_eq (m := p.2.numInputs) (d := fun _ ↦ none) []
    (fun e he hdata ↦ by
      obtain ⟨i, hi, hslot⟩ := h.exists_slot hp he hdata
      exact ⟨i, hi, hslot, rfl⟩) (h.pairwise_inEdges hp)
  have hnone : (range p.2.numInputs).map (fun _ ↦ (none : Option Edge)) ++ [] =
      replicate p.2.numInputs none := by
    rw [append_nil, map_const', length_range]
  simp only [hnone, Option.or_none, nil_append] at hplace
  rw [writeNode, hplace]
  set entries := (range p.2.numInputs).map (fun i ↦ (g.inEdges p.1).find? (isDataAt i)) ++
    ((g.inEdges p.1).filter (·.isControlEdge)).map some with hentries
  -- every entry is an edge of the graph
  have hedge : ∀ o ∈ entries, ∃ e ∈ g.edges, o = some e := by
    intro o ho
    obtain ho | ho := mem_append.1 ho
    · obtain ⟨i, hi, rfl⟩ := mem_map.1 ho
      obtain ⟨e, he⟩ := h.exists_find? hp (mem_range.1 hi)
      exact ⟨e, (mem_of_find? he).1, he⟩
    · obtain ⟨e, he, rfl⟩ := mem_map.1 ho
      exact ⟨e, (mem_inEdges.1 (mem_filter.1 he).1).1, rfl⟩
  have hwrite : entries.zipIdx.filterMap (g.writeInput p.2) =
      entries.filterMap fun o ↦ o.bind g.writeEdge := by
    rw [← zipIdx_map_fst 0 entries, filterMap_map, zipIdx_map_fst]
    refine filterMap_congr fun q hq ↦ ?_
    obtain ⟨e, he, hqe⟩ := hedge q.1 (fst_mem_of_mem_zipIdx hq)
    obtain ⟨o, i⟩ := q
    obtain rfl : o = some e := hqe
    exact h.writeInput_some he p.2 i
  have hdata : ((range p.2.numInputs).map
      (fun i ↦ (g.inEdges p.1).find? (isDataAt i))).filterMap (fun o ↦ o.bind g.writeEdge) =
        ((range p.2.numInputs).filterMap
          fun i ↦ (g.inEdges p.1).find? (isDataAt i)).map g.edgeInput := by
    rw [filterMap_map, map_filterMap]
    refine filterMap_congr fun i hi ↦ ?_
    obtain ⟨e, he⟩ := h.exists_find? hp (mem_range.1 hi)
    obtain ⟨hmem, -, hdata, -⟩ := mem_of_find? he
    simp only [comp_apply, he, Option.bind_some, Option.map_some, writeEdge,
      (h.data e hmem hdata).2.1, if_true]
  have hcontrols : (((g.inEdges p.1).filter (·.isControlEdge)).map some).filterMap
      (fun o ↦ o.bind g.writeEdge) =
        ((g.inEdges p.1).filter fun e ↦ e.isControlEdge && isOp e.src).map g.edgeInput := by
    rw [filterMap_map]
    show filterMap g.writeEdge _ = _
    rw [filterMap_writeEdge, filter_filter]
    congr 2
    funext e
    rw [Bool.and_comm]
  show some _ = some _
  rw [hwrite, hentries, filterMap_append, hdata, hcontrols, ← map_append]
  rfl

end

/-! ### What is written, as links -/

/-- The `GraphDef` that is written for a graph. -/
def graphDef (g : Graph α) : GraphDef α := ⟨g.opNodes.map g.written, g.versions⟩

/-- The index of an op node among the nodes that are written. -/
def opIndex (g : Graph α) (id : ℕ) : ℕ := (g.opNodes.map Prod.fst).idxOf id

theorem Serialisable.toGraphDef_eq (h : Serialisable registry opts tfVersionString g) :
    g.toGraphDef = some g.graphDef := by
  have hmapM : ∀ ps ⊆ g.opNodes, ps.mapM (fun p ↦ g.writeNode p.1 p.2) =
      some (ps.map g.written) := by
    intro ps
    induction ps with
    | nil => exact fun _ ↦ rfl
    | cons p ps ih =>
      intro hsub
      obtain ⟨hp, hps⟩ := cons_subset.1 hsub
      rw [mapM_cons, h.writeNode_eq hp, ih hps]
      rfl
  rw [toGraphDef, hmapM _ (Subset.refl _)]
  rfl

theorem nodup_opIds (g : Graph α) : (g.opNodes.map Prod.fst).Nodup := by
  refine Nodup.sublist ?_ (nodup_range (n := g.numNodeIds))
  rw [opNodes, map_filterMap]
  generalize range g.numNodeIds = ids
  induction ids with
  | nil => exact Sublist.refl _
  | cons id ids ih =>
    rw [filterMap_cons]
    split
    · exact ih.cons _
    · rename_i b heq
      have hb : b = id := by
        cases hop : isOp id with
        | false => simp [hop] at heq
        | true =>
          simp only [hop, if_true, Option.map_map, Option.map_eq_some_iff, comp_apply] at heq
          obtain ⟨node, -, rfl⟩ := heq
          rfl
      exact hb ▸ ih.cons_cons _

theorem opIndex_of_getElem {n : ℕ} (hn : n < g.opNodes.length) : g.opIndex g.opNodes[n].1 = n := by
  have hlt : n < (g.opNodes.map Prod.fst).length := by simpa using hn
  have heq : g.opNodes[n].1 = (g.opNodes.map Prod.fst)[n] := by simp
  rw [opIndex, heq, g.nodup_opIds.idxOf_getElem n hlt]

/-- An op node is found under its index. -/
theorem exists_opNodes (hop : isOp p.1 = true) (hnode : g.findNodeId p.1 = some p.2) :
    ∃ hlt : g.opIndex p.1 < g.opNodes.length, g.opNodes[g.opIndex p.1] = p := by
  obtain ⟨n, hn, heq⟩ := mem_iff_getElem.1 (mem_opNodes.2 ⟨hop, hnode⟩)
  have hindex : g.opIndex p.1 = n := by
    rw [← heq]
    exact opIndex_of_getElem hn
  subst hindex
  exact ⟨hn, heq⟩

variable [Inhabited α]

omit [Inhabited α] in
theorem length_graphDef : g.graphDef.node.length = g.opNodes.length := length_map _

theorem nodeAt_graphDef {n : ℕ} (hn : n < g.opNodes.length) :
    g.graphDef.nodeAt n = g.written g.opNodes[n] := by
  rw [nodeAt_of_lt (by rw [length_graphDef]; exact hn)]
  simp [graphDef]

omit [Inhabited α] in
/-- The name of an op node leads to its index. -/
theorem Serialisable.nameIndex_eq (h : Serialisable registry opts tfVersionString g)
    (hop : isOp p.1 = true) (hnode : g.findNodeId p.1 = some p.2) :
    g.graphDef.nameIndex p.2.name = some (g.opIndex p.1) := by
  obtain ⟨hlt, heq⟩ := exists_opNodes hop hnode
  refine findIdx?_eq_some_iff_getElem.2 ⟨by rw [length_graphDef]; exact hlt, ?_, ?_⟩
  · simp [graphDef, heq, written, Node.name]
  · intro j hj
    have hj' : j < g.opNodes.length := hj.trans hlt
    have hne := (pairwise_iff_getElem.1 h.names_nodup) j (g.opIndex p.1) (by simpa using hj')
      (by simpa using hlt) hj
    simp only [getElem_map, heq] at hne
    simpa [graphDef, written, Node.name] using hne

section

variable (h : Serialisable registry opts tfVersionString g)

include h

omit [Inhabited α] in
theorem Serialisable.valid_name (hop : isOp p.1 = true) (hnode : g.findNodeId p.1 = some p.2) :
    isValidNodeName p.2.name opts.allowInternalOps = true :=
  (h.nodeOk p (mem_opNodes.2 ⟨hop, hnode⟩)).valid

omit [Inhabited α] in
/-- The input that is written for an edge names the output that the edge starts at. -/
theorem Serialisable.edgeInput_spec (he : e ∈ g.edges) (hop : isOp e.src = true) :
    isControl (g.edgeInput e) = e.isControlEdge ∧ linkIndex (g.edgeInput e) = e.srcOutput ∧
      g.graphDef.nameIndex (inputId (g.edgeInput e)).1 = some (g.opIndex e.src) := by
  obtain ⟨src, hsrc⟩ := Option.isSome_iff_exists.1 (h.src e he)
  have hname : g.sourceName e = src.name := by rw [sourceName, hsrc]; rfl
  have hvalid := h.valid_name (p := (e.src, src)) hop hsrc
  have hindex := h.nameIndex_eq (p := (e.src, src)) hop hsrc
  rw [edgeInput, hname, linkIndex]
  cases hcontrol : e.isControlEdge with
  | true =>
    have hslot : e.srcOutput = kControlSlot := of_decide_eq_true hcontrol
    obtain ⟨hc, hid⟩ := inputId_control hvalid
    rw [hslot, hc, hid]
    exact ⟨rfl, rfl, hindex⟩
  | false =>
    obtain ⟨⟨-, -, -, -, h₀, -⟩, -, -, hlt⟩ := h.data e he hcontrol
    obtain ⟨hc, hid⟩ := inputId_inputString hvalid h₀ hlt
    rw [hc, hid]
    exact ⟨rfl, rfl, hindex⟩

omit [Inhabited α] in
theorem Serialisable.eq_of_slot (hp : p ∈ g.opNodes) {e' : Edge} (he : e ∈ g.inEdges p.1)
    (he' : e' ∈ g.inEdges p.1) (hdata : e.isControlEdge = false)
    (hdata' : e'.isControlEdge = false) (hslot : e.dstInput = e'.dstInput) : e = e' := by
  obtain ⟨i, hi, rfl⟩ := mem_iff_getElem.1 he
  obtain ⟨j, hj, rfl⟩ := mem_iff_getElem.1 he'
  have hpair := pairwise_iff_getElem.1 (h.pairwise_inEdges hp)
  obtain hij | hij | hij := Nat.lt_trichotomy i j
  · exact absurd hslot (hpair i j hi hj hij hdata hdata')
  · subst hij
    rfl
  · exact absurd hslot.symm (hpair j i hj hi hij hdata' hdata)

omit [Inhabited α] in
/-- The edges of the slots are the data edges that end in the node. -/
theorem Serialisable.slots_perm (hp : p ∈ g.opNodes) :
    ((List.range p.2.numInputs).filterMap fun i ↦ (g.inEdges p.1).find? (isDataAt i)).Perm
      ((g.inEdges p.1).filter fun e ↦ !e.isControlEdge) := by
  refine (perm_ext_iff_of_nodup ?_ ?_).2 fun e ↦ ?_
  · refine Nodup.filterMap (fun i j e hi hj ↦ ?_) nodup_range
    have hi' := (mem_of_find? hi).2.2.2
    have hj' := (mem_of_find? hj).2.2.2
    omega
  · refine Pairwise.imp_of_mem ?_ ((h.pairwise_inEdges hp).filter _)
    intro e e' he he' hslot heq
    obtain ⟨-, hdata⟩ := mem_filter.1 he
    obtain ⟨-, hdata'⟩ := mem_filter.1 he'
    exact hslot (by simpa using hdata) (by simpa using hdata') (congrArg _ heq)
  · rw [mem_filterMap, mem_filter]
    constructor
    · rintro ⟨i, -, hfind⟩
      obtain ⟨-, -, hdata, -⟩ := mem_of_find? hfind
      exact ⟨mem_of_find?_eq_some hfind, by simp [hdata]⟩
    · rintro ⟨he, hdata⟩
      have hdata' : e.isControlEdge = false := by simpa using hdata
      obtain ⟨i, hi, hslot⟩ := h.exists_slot hp he hdata'
      obtain ⟨e', he'⟩ := h.exists_find? hp hi
      obtain ⟨-, -, hdata'', hslot'⟩ := mem_of_find? he'
      have heq := h.eq_of_slot hp he (mem_of_find?_eq_some he') hdata' hdata''
        (hslot.trans hslot'.symm)
      exact ⟨i, mem_range.2 hi, heq ▸ he'⟩

omit [Inhabited α] in
/-- The edges that are written are those from op nodes that end in the node. -/
theorem Serialisable.orderedEdges_perm (hp : p ∈ g.opNodes) :
    (g.orderedEdges p).Perm ((g.inEdges p.1).filter fun e ↦ isOp e.src) := by
  have hdata : ((g.inEdges p.1).filter fun e ↦ isOp e.src).filter (fun e ↦ !e.isControlEdge) =
      (g.inEdges p.1).filter fun e ↦ !e.isControlEdge := by
    rw [filter_filter]
    refine filter_congr fun e he ↦ ?_
    cases hcontrol : e.isControlEdge with
    | true => rfl
    | false =>
      rw [(h.data e (mem_inEdges.1 he).1 hcontrol).2.1]
      rfl
  have hcontrol : ((g.inEdges p.1).filter fun e ↦ isOp e.src).filter (fun e ↦ !!e.isControlEdge) =
      (g.inEdges p.1).filter fun e ↦ e.isControlEdge && isOp e.src := by
    rw [filter_filter]
    refine filter_congr fun e _ ↦ ?_
    rw [Bool.not_not]
  refine Perm.trans ?_ (filter_append_perm (fun e : Edge ↦ !e.isControlEdge)
    ((g.inEdges p.1).filter fun e ↦ isOp e.src))
  rw [hdata, hcontrol]
  exact (h.slots_perm hp).append_right _

omit [Inhabited α] in
theorem Serialisable.mem_orderedEdges (hp : p ∈ g.opNodes) :
    e ∈ g.orderedEdges p ↔ e ∈ g.edges ∧ e.dst = p.1 ∧ isOp e.src = true := by
  rw [(h.orderedEdges_perm hp).mem_iff, mem_filter, mem_inEdges, and_assoc]

omit [Inhabited α] in
/-- A data edge stands at its slot, and the control edges stand behind. -/
theorem Serialisable.slot_eq (hp : p ∈ g.opNodes) {i : ℕ} (he : (g.orderedEdges p)[i]? = some e) :
    e.isControlEdge = false ∧ i < p.2.numInputs ∧ e.dstInput = (i : ℤ) ∨
      e.isControlEdge = true ∧ p.2.numInputs ≤ i := by
  have hslots : ((range p.2.numInputs).filterMap
      fun i ↦ (g.inEdges p.1).find? (isDataAt i)).map some =
        (range p.2.numInputs).map fun i ↦ (g.inEdges p.1).find? (isDataAt i) := by
    rw [map_filterMap, ← filterMap_eq_map]
    refine filterMap_congr fun j hj ↦ ?_
    obtain ⟨e', he'⟩ := h.exists_find? hp (mem_range.1 hj)
    simp only [comp_apply, he', Option.map_some]
  have hlength := congrArg length hslots
  rw [length_map, length_map, length_range] at hlength
  rw [orderedEdges] at he
  obtain hi | hi := Nat.lt_or_ge i p.2.numInputs
  · rw [getElem?_append_left (by rw [hlength]; exact hi)] at he
    have hfind : ((range p.2.numInputs).map
        fun i ↦ (g.inEdges p.1).find? (isDataAt i))[i]? = some (some e) := by
      rw [← hslots, getElem?_map, he]
      rfl
    rw [getElem?_map, getElem?_range hi] at hfind
    obtain ⟨-, -, hdata, hslot⟩ := mem_of_find? (Option.some.inj hfind)
    exact .inl ⟨hdata, hi, hslot⟩
  · rw [getElem?_append_right (by rw [hlength]; exact hi)] at he
    have hmem := (mem_filter.1 (mem_of_getElem? he)).2
    rw [Bool.and_eq_true] at hmem
    exact .inr ⟨hmem.1, hi⟩

end

end Graph

end TensorFlowCore
