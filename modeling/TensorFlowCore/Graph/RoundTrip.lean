import TensorFlowCore.Graph.Serialisation
import TensorFlowCore.Support.ClosedWalk

/-!
# Graphs through `GraphDef` and back

What `ToGraphDef` writes of a graph is converted to the same graph up to the ids of its nodes. The
conversion does not get stuck on a graph whose cycles are all entered through a `Merge`
(`CyclesEntered`): nodes that all wait for each other would have a closed walk that no edge from
another of them enters.
-/

namespace TensorFlowCore

open ClosedWalk GraphConstructor List Worklist

namespace Graph

variable {α : Type}

/-! ### Cycles -/

/-- A `Merge` node. -/
def isMergeAt (g : Graph α) (id : ℕ) : Bool :=
  ((g.findNodeId id).map fun node ↦ isMerge node.nodeDef).getD false

/-- A closed walk. It may visit a node more than once. -/
structure IsCycle (g : Graph α) (es : List Edge) : Prop where
  ne_nil : es ≠ []
  subset : es ⊆ g.edges
  closed : ∃ a, IsWalk Edge.src Edge.dst a es a

/-- A cycle passes through a data input of a `Merge` that has a data input from outside the
cycle. -/
def IsEntered (g : Graph α) (es : List Edge) : Prop :=
  ∃ e ∈ es, e.isControlEdge = false ∧ g.isMergeAt e.dst = true ∧
    ∃ e' ∈ g.edges, e'.isControlEdge = false ∧ e'.dst = e.dst ∧ e'.src ∉ es.map Edge.dst

/-- Every cycle is entered through a `Merge`. -/
def CyclesEntered (g : Graph α) : Prop := ∀ es, g.IsCycle es → g.IsEntered es

variable [Inhabited α] {registry : OpRegistry α} {stray : List DataType → ℤ → DataType}
  {opts : GraphConstructorOptions} {tfVersionString : ByteString} {g g' : Graph α}
  {p : ℕ × Node α} {e : Edge} {n : ℕ}

section

variable (h : Serialisable registry opts tfVersionString g)

include h

/-! ### The links of the written definition -/

/-- The written definition of an op node, under its index. -/
theorem Serialisable.nodeAt_opIndex (hp : p ∈ g.opNodes) :
    g.opIndex p.1 < g.graphDef.node.length ∧ g.graphDef.nodeAt (g.opIndex p.1) = g.written p ∧
      signatureOf registry (g.graphDef.nodeAt (g.opIndex p.1)) =
        ⟨p.2.opDef, p.2.inputTypes, p.2.outputTypes⟩ := by
  obtain ⟨hop, hnode⟩ := mem_opNodes.1 hp
  obtain ⟨hlt, heq⟩ := exists_opNodes hop hnode
  have hat : g.graphDef.nodeAt (g.opIndex p.1) = g.written p := by
    rw [nodeAt_graphDef hlt, heq]
  have hsig : registry.signature (g.written p).op (g.written p).attr = _ := h.signature _ hp
  refine ⟨by rw [length_graphDef]; exact hlt, hat, ?_⟩
  rw [hat, signatureOf, hsig]

theorem Serialisable.nodeAt_written (hn : n < g.graphDef.node.length) :
    ∃ p ∈ g.opNodes, g.opIndex p.1 = n ∧ g.graphDef.nodeAt n = g.written p ∧
      signatureOf registry (g.graphDef.nodeAt n) =
        ⟨p.2.opDef, p.2.inputTypes, p.2.outputTypes⟩ := by
  rw [length_graphDef] at hn
  obtain ⟨-, hat, hsig⟩ := h.nodeAt_opIndex (getElem_mem hn)
  rw [opIndex_of_getElem hn] at hat hsig
  exact ⟨g.opNodes[n], getElem_mem hn, opIndex_of_getElem hn, hat, hsig⟩

omit [Inhabited α] in
theorem Serialisable.srcIndex_eq (he : e ∈ g.edges) (hop : isOp e.src = true) :
    srcIndex g.graphDef (g.edgeInput e) = g.opIndex e.src := by
  rw [srcIndex, (h.edgeInput_spec he hop).2.2]
  rfl

/-- The inputs of a written definition are the edges that end in the node. -/
theorem Serialisable.links_eq (hp : p ∈ g.opNodes) :
    links g.graphDef (g.opIndex p.1) = (g.orderedEdges p).zipIdx.map fun q ↦
      ⟨g.opIndex q.1.src, q.1.srcOutput, g.opIndex p.1, q.2⟩ := by
  have hinput : (g.written p).input = (g.orderedEdges p).map g.edgeInput := rfl
  rw [links, (h.nodeAt_opIndex hp).2.1, hinput, zipIdx_map, map_map]
  refine map_congr_left fun q hq ↦ ?_
  obtain ⟨he, -, hop⟩ := (h.mem_orderedEdges hp).1 (fst_mem_of_mem_zipIdx hq)
  have hsrc := h.srcIndex_eq he hop
  have hindex := (h.edgeInput_spec he hop).2.1
  simp only [Function.comp_apply, Prod.map_fst, Prod.map_snd, hsrc, hindex, id_eq]

theorem Serialisable.preds_eq (hp : p ∈ g.opNodes) :
    preds g.graphDef (g.opIndex p.1) = (g.orderedEdges p).map fun e ↦ g.opIndex e.src := by
  rw [preds_eq_map_links, h.links_eq hp, map_map]
  show map ((fun e : Edge ↦ g.opIndex e.src) ∘ Prod.fst) _ = _
  rw [← map_map, zipIdx_map_fst]

/-- What a written definition waits for. -/
theorem Serialisable.need_eq (hp : p ∈ g.opNodes) :
    need g.graphDef (g.opIndex p.1) = if isMerge p.2.nodeDef then
      ((g.orderedEdges p).countP fun e ↦ e.isControlEdge : ℤ) +
        1 else (g.orderedEdges p).length := by
  have hmerge : isMerge (g.written p) = isMerge p.2.nodeDef := rfl
  have hinput : (g.written p).input = (g.orderedEdges p).map g.edgeInput := rfl
  rw [need, (h.nodeAt_opIndex hp).2.1, pendingCount, hmerge, hinput, length_map, countP_map]
  have hcount : (g.orderedEdges p).countP ((isControl ·) ∘ g.edgeInput) =
      (g.orderedEdges p).countP fun e ↦ e.isControlEdge := by
    refine countP_congr fun e he ↦ ?_
    obtain ⟨hmem, -, hop⟩ := (h.mem_orderedEdges hp).1 he
    rw [Function.comp_apply, (h.edgeInput_spec hmem hop).1]
  rw [hcount]

/-- What is written is as `GraphConstructor` asks. -/
theorem Serialisable.wellTyped : WellTyped registry opts tfVersionString g.graphDef where
  versions := h.versions
  nodeOk nodeDef hnodeDef := by
    obtain ⟨p, hp, rfl⟩ := mem_map.1 hnodeDef
    obtain ⟨hvalid, hop, hdevice⟩ := h.nodeOk p hp
    exact ⟨hvalid, hop, hdevice⟩
  names_nodup := by
    rw [graphDef, map_map]
    exact h.names_nodup
  hasSignature n hn := by
    obtain ⟨p, hp, rfl, hat, -⟩ := h.nodeAt_written hn
    exact ⟨_, by rw [hat]; exact h.signature p hp⟩
  known n hn input hinput := by
    obtain ⟨p, hp, rfl, hat, -⟩ := h.nodeAt_written hn
    rw [hat] at hinput
    obtain ⟨e, he, rfl⟩ := mem_map.1 hinput
    obtain ⟨hmem, -, hop⟩ := (h.mem_orderedEdges hp).1 he
    exact ⟨_, (h.edgeInput_spec hmem hop).2.2⟩
  controlsLast n hn := by
    obtain ⟨p, hp, rfl, hat, -⟩ := h.nodeAt_written hn
    rw [hat]
    refine pairwise_map.2 (pairwise_iff_getElem.2 fun i j hi hj hij hcontrol ↦ ?_)
    obtain ⟨hmemi, -, hopi⟩ := (h.mem_orderedEdges hp).1 (getElem_mem hi)
    obtain ⟨hmemj, -, hopj⟩ := (h.mem_orderedEdges hp).1 (getElem_mem hj)
    rw [(h.edgeInput_spec hmemi hopi).1] at hcontrol
    rw [(h.edgeInput_spec hmemj hopj).1]
    obtain ⟨hdata, -⟩ | ⟨-, hle⟩ := h.slot_eq hp (getElem?_eq_getElem hi)
    · rw [hcontrol] at hdata
      cases hdata
    · obtain ⟨-, hlt, -⟩ | ⟨hcontrol', -⟩ := h.slot_eq hp (getElem?_eq_getElem hj)
      · omega
      · exact hcontrol'
  data n hn i input hinput hcontrol := by
    obtain ⟨p, hp, rfl, hat, hsig⟩ := h.nodeAt_written hn
    have hmap : ((g.orderedEdges p).map g.edgeInput)[i]? = some input := by
      rw [hat] at hinput
      exact hinput
    rw [getElem?_map] at hmap
    obtain ⟨e, he, rfl⟩ := Option.map_eq_some_iff.1 hmap
    obtain ⟨hmem, hdst, hop⟩ := (h.mem_orderedEdges hp).1 (mem_of_getElem? he)
    obtain ⟨hc, hindex, -⟩ := h.edgeInput_spec hmem hop
    rw [linkIndex, hcontrol] at hindex
    have hdata : e.isControlEdge = false := hc.symm.trans hcontrol
    obtain ⟨-, hi, hslot⟩ | ⟨hcontrol', -⟩ := h.slot_eq hp he
    · obtain ⟨⟨src, dst, hsrc, hdst', h₀, hlt, -, -, htypes⟩, -⟩ := h.data e hmem hdata
      rw [hdst, (mem_opNodes.1 hp).2] at hdst'
      cases hdst'
      have hsig' := (h.nodeAt_opIndex (p := (e.src, src)) (mem_opNodes.2 ⟨hop, hsrc⟩)).2.2
      have hslot' : e.dstInput.toNat = i := by omega
      rw [hsig, h.srcIndex_eq hmem hop, hsig',
        show (inputId (g.edgeInput e)).2 = e.srcOutput from hindex]
      rw [hslot'] at htypes
      exact ⟨hi, h₀, hlt, htypes⟩
    · rw [hdata] at hcontrol'
      cases hcontrol'

/-! ### The conversion of what is written -/

omit [Inhabited α] h in
theorem countP_lt_countP {β : Type} {P Q : β → Bool} {l : List β} (hsub : ∀ b ∈ l, P b →
    Q b) {b : β}
    (hb : b ∈ l) (hP : P b = false) (hQ : Q b = true) : l.countP P < l.countP Q := by
  obtain ⟨l₁, l₂, rfl⟩ := append_of_mem hb
  have hle₁ : l₁.countP P ≤ l₁.countP Q :=
    countP_mono_left fun c hc ↦ hsub c (mem_append_left _ hc)
  have hle₂ : l₂.countP P ≤ l₂.countP Q :=
    countP_mono_left fun c hc ↦ hsub c (mem_append_right _ (mem_cons_of_mem _ hc))
  rw [countP_append, countP_append, countP_cons_of_neg (by simp [hP]), countP_cons_of_pos hQ]
  omega

/-- A node that waits has an edge from a node that waits, and if it is a `Merge` with a data input
from elsewhere, this is a control edge. -/
theorem Serialisable.exists_waiting {done : List ℕ} (hp : p ∈ g.opNodes)
    (hwaits : ¬Enabled (preds g.graphDef) (need g.graphDef) done (g.opIndex p.1)) :
    ∃ e ∈ g.edges, e.dst = p.1 ∧ isOp e.src = true ∧ g.opIndex e.src ∉ done ∧
      (e.isControlEdge = true ∨ isMerge p.2.nodeDef = false ∨ ∀ e' ∈ g.edges,
        e'.isControlEdge = false → e'.dst = p.1 → g.opIndex e'.src ∉ done) := by
  rw [Enabled, not_or, not_le, h.preds_eq hp, h.need_eq hp, countP_map] at hwaits
  obtain ⟨-, hlt⟩ := hwaits
  cases hmerge : isMerge p.2.nodeDef with
  | false =>
    rw [hmerge, if_neg Bool.false_ne_true] at hlt
    obtain ⟨e, he, hnot⟩ := countP_lt_length_iff.1 (Int.ofNat_lt.1 hlt)
    obtain ⟨hmem, hdst, hop⟩ := (h.mem_orderedEdges hp).1 he
    exact ⟨e, hmem, hdst, hop, by simpa using hnot, .inr (.inl rfl)⟩
  | true =>
    rw [hmerge, if_pos rfl] at hlt
    by_cases hall : ∀ e' ∈ g.edges, e'.isControlEdge = false → e'.dst = p.1 →
        g.opIndex e'.src ∉ done
    · obtain ⟨e, he⟩ := h.exists_find? hp (h.merge p hp hmerge)
      obtain ⟨hmem, hdst, hdata, -⟩ := mem_of_find? he
      exact ⟨e, hmem, hdst, (h.data e hmem hdata).2.1, hall e hmem hdata hdst, .inr (.inr hall)⟩
    · push Not at hall
      obtain ⟨e', hmem', hdata', hdst', hdone'⟩ := hall
      have he' := (h.mem_orderedEdges hp).2 ⟨hmem', hdst', (h.data e' hmem' hdata').2.1⟩
      by_contra hnone
      push Not at hnone
      -- the control edges come from nodes that are done, and so does one data edge
      have hcount : (g.orderedEdges p).countP (fun e ↦ e.isControlEdge) <
          (g.orderedEdges p).countP ((· ∈ done) ∘ fun e ↦ g.opIndex e.src) := by
        refine countP_lt_countP (fun e he hcontrol ↦ ?_) he' hdata' (by simpa using hdone')
        obtain ⟨hmem, hdst, hop⟩ := (h.mem_orderedEdges hp).1 he
        by_contra hdone
        exact (hnone e hmem hdst hop (by simpa using hdone)).1 hcontrol
      omega

/-- As long as some node is left, one of those left waits for nothing more. -/
theorem Serialisable.exists_enabled (hcycles : g.CyclesEntered) (done : List ℕ)
    (hleft : ∃ n < g.graphDef.node.length, n ∉ done) :
    ∃ n < g.graphDef.node.length, n ∉ done ∧
      Enabled (preds g.graphDef) (need g.graphDef) done n := by
  by_contra hnone
  push Not at hnone
  let S : Finset ℕ := ((g.opNodes.map Prod.fst).filter fun id ↦ g.opIndex id ∉ done).toFinset
  have hmemS : ∀ id, id ∈ S ↔ (∃ p ∈ g.opNodes, p.1 = id) ∧ g.opIndex id ∉ done := by
    intro id
    rw [mem_toFinset, mem_filter, mem_map, decide_eq_true_eq]
  -- the edges that hold a node up
  let P : Edge → Prop := fun e ↦ e ∈ g.edges ∧ e.src ∈ S ∧ e.dst ∈ S ∧
    (e.isControlEdge = true ∨ g.isMergeAt e.dst = false ∨ ∀ e' ∈ g.edges,
      e'.isControlEdge = false → e'.dst = e.dst → e'.src ∈ S)
  have hsrcS : ∀ e ∈ g.edges, isOp e.src = true → g.opIndex e.src ∉ done → e.src ∈ S := by
    intro e he hop hdone
    obtain ⟨src, hsrc⟩ := Option.isSome_iff_exists.1 (h.src e he)
    exact (hmemS _).2 ⟨⟨(e.src, src), mem_opNodes.2 ⟨hop, hsrc⟩, rfl⟩, hdone⟩
  have hne : S.Nonempty := by
    obtain ⟨n, hn, hdone⟩ := hleft
    obtain ⟨p, hp, rfl, -⟩ := h.nodeAt_written hn
    exact ⟨p.1, (hmemS _).2 ⟨⟨p, hp, rfl⟩, hdone⟩⟩
  have hin : ∀ b ∈ S, ∃ e, P e ∧ e.dst = b := by
    intro b hb
    obtain ⟨⟨p, hp, rfl⟩, hdone⟩ := (hmemS b).1 hb
    obtain ⟨e, he, hdst, hop, hsrc, hwhy⟩ :=
      h.exists_waiting hp (hnone _ (h.nodeAt_opIndex hp).1 hdone)
    refine ⟨e, ⟨he, hsrcS e he hop hsrc, hdst ▸ hb, ?_⟩, hdst⟩
    refine hwhy.imp_right (Or.imp (fun hmerge ↦ ?_) fun hall e' he' hdata hdst' ↦ ?_)
    · rw [hdst, isMergeAt, (mem_opNodes.1 hp).2]
      exact hmerge
    · exact hsrcS e' he' (h.data e' he' hdata).2.1 (hall e' he' hdata (hdst'.trans hdst))
  obtain ⟨a, es, hes, hwalk, hP, hclosed⟩ :=
    exists_closed_walk hne (fun e he ↦ ⟨he.2.1, he.2.2.1⟩) hin
  obtain ⟨e, he, hdata, hmerge, e', he', hdata', hdst, hout⟩ :=
    hcycles es ⟨hes, fun e he ↦ (hP e he).1, a, hwalk⟩
  obtain hcontrol | hmerge' | hall := (hP e he).2.2.2
  · rw [hdata] at hcontrol
    cases hcontrol
  · rw [hmerge] at hmerge'
    cases hmerge'
  · refine hout (hclosed e' ⟨he', hall e' he' hdata' hdst, ?_, .inr (.inr ?_)⟩ ?_)
    · rw [hdst]
      exact (hP e he).2.2.1
    · rw [hdst]
      exact hall
    · rw [hdst]
      exact mem_map_of_mem he

end

/-! ### The same graph by name -/

/-- The name of the node that an edge ends in. -/
def destName (g : Graph α) (e : Edge) : ByteString := ((g.findNodeId e.dst).map Node.name).getD []

/-- An edge by the names of its nodes. -/
def namedEdge (g : Graph α) (e : Edge) : ByteString × ℤ × ByteString × ℤ :=
  (g.sourceName e, e.srcOutput, g.destName e, e.dstInput)

/-- The edges between op nodes, by the names of the nodes. -/
def namedEdges (g : Graph α) : List (ByteString × ℤ × ByteString × ℤ) :=
  (g.edges.filter fun e ↦ isOp e.src && isOp e.dst).map g.namedEdge

/-- Two graphs have the same op nodes, up to what `key` forgets of their definitions, and the same
edges between op nodes. -/
structure SameByName (key : NodeDef α → NodeDef α) (g g' : Graph α) : Prop where
  nodes : (g'.opNodes.map fun p ↦ key p.2.nodeDef).Perm (g.opNodes.map fun p ↦ key p.2.nodeDef)
  edges : g'.namedEdges.Perm g.namedEdges

/-- A definition without its device. -/
def forgetDevice (nodeDef : NodeDef α) : NodeDef α := { nodeDef with device := [] }

/-- A definition without its device and its inputs, which the edges of a graph stand for. -/
def forgetPlacement (nodeDef : NodeDef α) : NodeDef α := { nodeDef with device := [], input := [] }

theorem count_filter_eq {β : Type} [DecidableEq β] (P : β → Bool) (l : List β) (b : β) :
    (l.filter P).count b = if P b then l.count b else 0 := by
  split
  · rename_i hP
    exact count_filter hP
  · rename_i hP
    exact count_eq_zero.2 fun hmem ↦ hP (mem_filter.1 hmem).2

/-- Grouping a list by a key. -/
theorem flatMap_filter_perm {β γ : Type} [DecidableEq β] [DecidableEq γ] {ks : List γ}
    (hks : ks.Nodup) (key : β → γ) (l : List β) :
    (ks.flatMap fun k ↦ l.filter fun b ↦ key b = k).Perm (l.filter fun b ↦ key b ∈ ks) := by
  refine perm_iff_count.2 fun b ↦ ?_
  induction ks with
  | nil => simp
  | cons k ks ih =>
    obtain ⟨hk, hks⟩ := nodup_cons.1 hks
    rw [flatMap_cons, count_append, ih hks, count_filter_eq, count_filter_eq, count_filter_eq]
    by_cases hkey : key b = k
    · simp [hkey, hk]
    · simp [hkey]

variable {gdef : GraphDef α} {done : List ℕ}

/-- The op nodes of a converted graph, in the order of the conversion. -/
theorem map_snd_opNodes (h : Built registry stray opts gdef done g) :
    g.opNodes.map Prod.snd = done.map fun n ↦ builtNode registry opts (gdef.nodeAt n) := by
  have hlength : g.numNodeIds = 2 + done.length := by
    rw [numNodeIds, h.nodes_eq, length_append, length_map]
    rfl
  have hnode : ∀ i (hi : i < done.length), g.findNodeId (2 + i) =
      some (builtNode registry opts (gdef.nodeAt done[i])) := by
    intro i hi
    have heq := h.findNodeId_eq ((h.mem_done _).1 (getElem_mem hi))
    rwa [nodeId, h.nodup.idxOf_getElem i hi] at heq
  rw [opNodes, hlength, range_add, filterMap_append, filterMap_map]
  have hnil : (range 2).filterMap (fun id ↦
      if isOp id then (g.findNodeId id).map fun node ↦ (id, node) else none) = [] := rfl
  rw [hnil, nil_append, map_filterMap]
  have hsome : ∀ i ∈ range done.length, Option.map Prod.snd (((fun id ↦
      if isOp id then (g.findNodeId id).map fun node ↦ (id, node) else none) ∘ fun i ↦ 2 + i) i) =
        some (builtNode registry opts (gdef.nodeAt (done.getD i 0))) := by
    intro i hi
    have hi' := mem_range.1 hi
    have hop : isOp (2 + i) = true := decide_eq_true (by omega)
    simp only [Function.comp_apply, hop, if_true, hnode i hi', Option.map_some,
      getD_eq_getElem _ _ hi']
  rw [filterMap_congr hsome]
  show filterMap (some ∘ fun i ↦ builtNode registry opts (gdef.nodeAt (done.getD i 0))) _ = _
  rw [filterMap_eq_map]
  refine ext_getElem (by simp) fun i hi hi' ↦ ?_
  have hlt : i < done.length := by simpa using hi'
  simp [getElem?_eq_getElem hlt]

section

variable (h : Serialisable registry opts tfVersionString g)
  (hbuilt : Built registry stray opts g.graphDef done g')

include h hbuilt

/-- A converted node has the name of the node that was written. -/
theorem Serialisable.name_eq (hop : isOp p.1 = true) (hnode : g.findNodeId p.1 = some p.2) :
    ((g'.findNodeId (nodeId done (g.opIndex p.1))).map Node.name).getD [] = p.2.name := by
  obtain ⟨hlt, hat, -⟩ := h.nodeAt_opIndex (mem_opNodes.2 ⟨hop, hnode⟩)
  rw [hbuilt.findNodeId_eq hlt, hat]
  rfl

/-- The edge that is made of an input is the edge that the input was written for. -/
theorem Serialisable.namedEdge_eq (hp : p ∈ g.opNodes) {i : ℕ}
    (he : (g.orderedEdges p)[i]? = some e) :
    g'.namedEdge (Link.edge done ⟨g.opIndex e.src, e.srcOutput, g.opIndex p.1, i⟩) =
      g.namedEdge e := by
  obtain ⟨hop, hnode⟩ := mem_opNodes.1 hp
  obtain ⟨hmem, hdst, hopSrc⟩ := (h.mem_orderedEdges hp).1 (mem_of_getElem? he)
  obtain ⟨src, hsrc⟩ := Option.isSome_iff_exists.1 (h.src e hmem)
  have hsrcName : g.sourceName e = src.name := by rw [sourceName, hsrc]; rfl
  have hdstName : g.destName e = p.2.name := by rw [destName, hdst, hnode]; rfl
  have hsrcName' := h.name_eq hbuilt (p := (e.src, src)) hopSrc hsrc
  have hdstName' := h.name_eq hbuilt hop hnode
  simp only [namedEdge, sourceName, destName, Link.src_edge, Link.dst_edge] at hsrcName hdstName ⊢
  rw [hsrcName, hdstName, hsrcName', hdstName']
  obtain ⟨hdata, -, hslot⟩ | ⟨hcontrol, -⟩ := h.slot_eq hp he
  · have hindex : e.srcOutput ≠ -1 := of_decide_eq_false hdata
    rw [Link.edge_of_ne hindex, hslot]
  · have hindex : e.srcOutput = -1 := of_decide_eq_true hcontrol
    rw [Link.edge, if_pos hindex, h.control e hmem hcontrol, hindex]
    rfl

theorem Serialisable.map_links_eq (hp : p ∈ g.opNodes) :
    (links g.graphDef (g.opIndex p.1)).map (fun l ↦ g'.namedEdge (l.edge done)) =
      (g.orderedEdges p).map g.namedEdge := by
  rw [h.links_eq hp, map_map, ← zipIdx_map_fst 0 (g.orderedEdges p), map_map, zipIdx_map_fst]
  refine map_congr_left fun q hq ↦ ?_
  exact h.namedEdge_eq hbuilt hp (mem_zipIdx_iff_getElem?.1 hq)

omit h in
/-- Between op nodes a converted graph has the edges of its links. -/
theorem namedEdges_perm_links :
    g'.namedEdges.Perm ((done.flatMap (links g.graphDef)).map fun l ↦ g'.namedEdge
      (l.edge done)) := by
  obtain ⟨extra, hextra, hperm⟩ := hbuilt.edges_perm
  have hnone : extra.filter (fun e ↦ isOp e.src && isOp e.dst) = [] := by
    refine filter_eq_nil_iff.2 fun e he ↦ ?_
    obtain ⟨hsrc, -⟩ | ⟨hdst, -⟩ := (hextra e he).endpoint
    · rw [hsrc]
      exact Bool.false_ne_true
    · rw [hdst, Bool.and_comm]
      exact Bool.false_ne_true
  have hall : ((done.flatMap (links g.graphDef)).map (Link.edge done)).filter
      (fun e ↦ isOp e.src && isOp e.dst) = (done.flatMap (links g.graphDef)).map
      (Link.edge done) := by
    refine filter_eq_self.2 fun e he ↦ ?_
    obtain ⟨l, -, rfl⟩ := mem_map.1 he
    have hop : ∀ n, isOp (nodeId done n) = true := fun n ↦ by
      rw [nodeId]
      exact decide_eq_true (by omega)
    rw [Link.src_edge, Link.dst_edge, hop, hop]
    rfl
  have hfilter := (hperm.filter fun e ↦ isOp e.src && isOp e.dst).map g'.namedEdge
  rw [filter_append, hnone, hall, append_nil, map_map] at hfilter
  exact hfilter

omit h in
theorem done_perm : done.Perm (g.opNodes.map fun p ↦ g.opIndex p.1) := by
  have hrange : (g.opNodes.map fun p ↦ g.opIndex p.1) = range g.opNodes.length := by
    refine ext_getElem (by simp) fun n hn _ ↦ ?_
    have hlt : n < g.opNodes.length := by simpa using hn
    rw [getElem_map, getElem_range, opIndex_of_getElem hlt]
  rw [hrange]
  refine (perm_ext_iff_of_nodup hbuilt.nodup nodup_range).2 fun n ↦ ?_
  rw [hbuilt.mem_done, length_graphDef, mem_range]

/-- What is written is converted to the same nodes. -/
theorem Serialisable.nodes_perm :
    (g'.opNodes.map fun p ↦ forgetPlacement p.2.nodeDef).Perm
      (g.opNodes.map fun p ↦ forgetPlacement p.2.nodeDef) := by
  have hnodes : (g'.opNodes.map fun p ↦ forgetPlacement p.2.nodeDef) =
      done.map fun n ↦ forgetPlacement (g.graphDef.nodeAt n) := by
    show map ((fun node : Node α ↦ forgetPlacement node.nodeDef) ∘ Prod.snd) _ = _
    rw [← map_map, map_snd_opNodes hbuilt, map_map]
    rfl
  rw [hnodes]
  refine ((done_perm hbuilt).map _).trans (Perm.of_eq ?_)
  rw [map_map]
  refine map_congr_left fun p hp ↦ ?_
  rw [Function.comp_apply, (h.nodeAt_opIndex hp).2.1]
  rfl

/-- What is written is converted to the same edges. -/
theorem Serialisable.edges_perm : g'.namedEdges.Perm g.namedEdges := by
  have hids : (g.edges.filter fun e ↦ isOp e.src).filter (fun e ↦ e.dst ∈ g.opNodes.map Prod.fst) =
      g.edges.filter fun e ↦ isOp e.src && isOp e.dst := by
    rw [filter_filter]
    refine filter_congr fun e he ↦ ?_
    obtain ⟨dst, hdst⟩ := Option.isSome_iff_exists.1 (h.dst e he)
    have hmem : e.dst ∈ g.opNodes.map Prod.fst ↔ isOp e.dst = true := by
      rw [mem_map]
      constructor
      · rintro ⟨p, hp, hpe⟩
        exact hpe ▸ (mem_opNodes.1 hp).1
      · intro hop
        exact ⟨(e.dst, dst), mem_opNodes.2 ⟨hop, hdst⟩, rfl⟩
    rw [Bool.and_comm]
    congr 1
    rw [Bool.eq_iff_iff, decide_eq_true_eq, hmem]
  have hgroups : (g.opNodes.flatMap fun p ↦ (g.inEdges p.1).filter fun e ↦ isOp e.src) =
      (g.opNodes.map Prod.fst).flatMap fun id ↦
        (g.edges.filter fun e ↦ isOp e.src).filter fun e ↦ e.dst = id := by
    rw [flatMap_map]
    refine flatMap_congr fun p _ ↦ ?_
    rw [inEdges, filter_filter, filter_filter]
    refine filter_congr fun e _ ↦ ?_
    rw [Bool.and_comm]
  calc g'.namedEdges
    _ |>.Perm ((done.flatMap (links g.graphDef)).map fun l ↦ g'.namedEdge (l.edge done)) :=
      namedEdges_perm_links hbuilt
    _ |>.Perm (((g.opNodes.map fun p ↦ g.opIndex p.1).flatMap (links g.graphDef)).map
        fun l ↦ g'.namedEdge (l.edge done)) :=
      ((done_perm hbuilt).flatMap_right _).map _
    _ = (g.opNodes.flatMap g.orderedEdges).map g.namedEdge := by
      rw [flatMap_map, map_flatMap, map_flatMap]
      exact flatMap_congr fun p hp ↦ h.map_links_eq hbuilt hp
    _ |>.Perm ((g.opNodes.flatMap fun p ↦ (g.inEdges p.1).filter fun e ↦ isOp e.src).map
        g.namedEdge) :=
      (Perm.flatMap_left _ fun p hp ↦ h.orderedEdges_perm hp).map _
    _ |>.Perm g.namedEdges := by
      rw [hgroups, namedEdges, ← hids]
      exact (flatMap_filter_perm g.nodup_opIds Edge.dst _).map _

end

/-- A graph is written, and what is written is converted to the same graph. -/
def RoundTrips (registry : OpRegistry α) (stray : List DataType → ℤ → DataType)
    (opts : GraphConstructorOptions) (tfVersionString : ByteString) (key : NodeDef α → NodeDef α)
    (g : Graph α) : Prop :=
  ∃ gdef g', g.toGraphDef = some gdef ∧
    convertGraphDefToGraph registry stray opts tfVersionString gdef = .ok g' ∧ SameByName key g g'

/-- A graph that can be written and whose cycles are all entered through a `Merge` is converted back
from what is written. -/
theorem roundTrips_of_cyclesEntered (registry : OpRegistry α) (stray : List DataType → ℤ → DataType)
    (opts : GraphConstructorOptions) (tfVersionString : ByteString) (g : Graph α)
    (h : Serialisable registry opts tfVersionString g) (hcycles : g.CyclesEntered) :
    RoundTrips registry stray opts tfVersionString forgetPlacement g := by
  obtain ⟨g', hconvert⟩ : ∃ g', convertGraphDefToGraph registry stray opts tfVersionString
      g.graphDef = .ok g' := h.wellTyped.exists_convert (h.exists_enabled hcycles)
  obtain ⟨done, hbuilt⟩ := exists_built hconvert
  exact ⟨g.graphDef, g', h.toGraphDef_eq, hconvert, h.nodes_perm hbuilt, h.edges_perm hbuilt⟩

/-! ### Small graphs -/

instance (g : Graph α) (e : Edge) : Decidable (g.EdgeValid e) :=
  match hsrc : g.findNodeId e.src, hdst : g.findNodeId e.dst with
  | some src, some dst =>
    decidable_of_iff (0 ≤ e.srcOutput ∧ e.srcOutput < src.numOutputs ∧ 0 ≤ e.dstInput ∧
      e.dstInput < dst.numInputs ∧ typesCompatible (dst.inputTypes.getD e.dstInput.toNat 0)
        (src.outputTypes.getD e.srcOutput.toNat 0) = true)
      ⟨fun h ↦ ⟨src, dst, hsrc, hdst, h⟩, fun ⟨_, _, hsrc', hdst', h⟩ ↦ by
        rw [hsrc] at hsrc'
        rw [hdst] at hdst'
        cases hsrc'
        cases hdst'
        exact h⟩
  | none, _ => isFalse fun ⟨_, _, hsrc', _⟩ ↦ by rw [hsrc] at hsrc'; cases hsrc'
  | _, none => isFalse fun ⟨_, _, _, hdst', _⟩ ↦ by rw [hdst] at hdst'; cases hdst'

/-- A node of one of the `floatOps`. -/
def floatNode (name op : ByteString) (input : List ByteString) : Node Unit :=
  builtNode floatOps {} ⟨name, op, input, [], ()⟩

/-- A graph of the current version. -/
def floatGraph (nodes : List (Node Unit)) (edges : List Edge) : Graph Unit where
  nodes := (Graph.new : Graph Unit).nodes ++ nodes.map some
  edges := (Graph.new : Graph Unit).edges ++ edges
  versions := { producer := graphDefVersion, minConsumer := 0 }

/-- What has to be checked of a graph of `floatOps`. -/
def SerialisableChecks (g : Graph Unit) : Prop :=
  checkVersions g.versions [] = .ok () ∧
    (∀ p ∈ g.opNodes, isValidNodeName p.2.name false = true ∧ p.2.nodeDef.op ≠ [] ∧
      floatOps.signature p.2.nodeDef.op p.2.nodeDef.attr =
        .ok ⟨p.2.opDef, p.2.inputTypes, p.2.outputTypes⟩ ∧
      (isMerge p.2.nodeDef = true → 0 < p.2.numInputs) ∧
      ∀ i < p.2.numInputs, g.edges.countP (fun e : Edge ↦ e.dst = p.1 ∧ e.dstInput = (i : ℤ)) = 1) ∧
    (g.opNodes.map (·.2.name)).Nodup ∧
    ∀ e ∈ g.edges, (g.findNodeId e.src).isSome ∧ (g.findNodeId e.dst).isSome ∧
      (e.isControlEdge = true → e.dstInput = kControlSlot) ∧
      (e.isControlEdge = false →
        g.EdgeValid e ∧ isOp e.src = true ∧ isOp e.dst = true ∧ e.srcOutput < 2 ^ 31)

instance (g : Graph Unit) : Decidable (SerialisableChecks g) :=
  inferInstanceAs (Decidable (_ ∧ _))

theorem serialisable_of_checks {g : Graph Unit} (h : SerialisableChecks g) :
    Serialisable floatOps {} [] g := by
  obtain ⟨hversions, hnodes, hnames, hedges⟩ := h
  refine ⟨hversions, fun p hp ↦ ⟨(hnodes p hp).1, (hnodes p hp).2.1, nofun⟩, hnames, ?_, ?_, ?_, ?_,
    ?_, ?_, ?_⟩
  · exact fun p hp ↦ (hnodes p hp).2.2.1
  · exact fun p hp ↦ (hnodes p hp).2.2.2.2
  · exact fun e he ↦ (hedges e he).2.2.2
  · exact fun e he ↦ (hedges e he).2.2.1
  · exact fun p hp ↦ (hnodes p hp).2.2.2.1
  · exact fun e he ↦ (hedges e he).1
  · exact fun e he ↦ (hedges e he).2.1

/-- The body of a loop: `m = Merge(a, n)` and `n = NextIteration(m)`. -/
def mergeLoop : Graph Unit :=
  floatGraph [floatNode (ascii "a") (ascii "Const") [],
    floatNode (ascii "m") (ascii "Merge") [ascii "a", ascii "n"],
    floatNode (ascii "n") (ascii "NextIteration") [ascii "m"]]
    [⟨2, 0, 3, 0⟩, ⟨4, 0, 3, 1⟩, ⟨3, 0, 4, 0⟩]

theorem serialisable_mergeLoop : Serialisable floatOps {} [] mergeLoop :=
  serialisable_of_checks (by decide)

theorem cyclesEntered_mergeLoop : mergeLoop.CyclesEntered := by
  rintro es ⟨hne, hsub, a, hclosed⟩
  have hout : 2 ∉ es.map Edge.dst := by
    intro hmem
    obtain ⟨e, he, hdst⟩ := mem_map.1 hmem
    exact absurd hdst ((by decide : ∀ e ∈ mergeLoop.edges, e.dst ≠ 2) e (hsub he))
  have hentry : ∀ e ∈ es, e.dst = 3 → mergeLoop.IsEntered es := by
    intro e he hdst
    obtain ⟨hdata, hmerge⟩ := (by decide : ∀ e ∈ mergeLoop.edges, e.dst = 3 →
      e.isControlEdge = false ∧ mergeLoop.isMergeAt e.dst = true) e (hsub he) hdst
    exact ⟨e, he, hdata, hmerge, ⟨2, 0, 3, 0⟩, by decide, rfl, hdst.symm, hout⟩
  -- a node of the cycle is left by an edge of the cycle, which ends in the `Merge` or starts there
  obtain ⟨e, he⟩ := exists_mem_of_ne_nil es hne
  obtain ⟨e', he', hsrc⟩ := hclosed.exists_src_eq_of_closed (mem_map_of_mem he)
  have hcases := (by decide : ∀ e ∈ mergeLoop.edges, ∀ e' ∈ mergeLoop.edges, e'.src = e.dst →
    e.dst = 3 ∨ e'.dst = 3) e (hsub he) e' (hsub he') hsrc
  obtain hdst | hdst := hcases
  · exact hentry e he hdst
  · exact hentry e' he' hdst

/-- A graph with a loop is converted back. -/
theorem roundTrips_mergeLoop :
    Serialisable floatOps {} [] mergeLoop ∧ mergeLoop.CyclesEntered ∧
      RoundTrips floatOps (fun _ _ ↦ 0) {} [] forgetPlacement mergeLoop :=
  ⟨serialisable_mergeLoop, cyclesEntered_mergeLoop,
    roundTrips_of_cyclesEntered floatOps (fun _ _ ↦ 0) {} [] mergeLoop serialisable_mergeLoop
      cyclesEntered_mergeLoop⟩

/-- `Const -> Identity`, where the `Identity` was defined with the input `a:0`. -/
def explicitOutput : Graph Unit :=
  floatGraph [floatNode (ascii "a") (ascii "Const") [],
    floatNode (ascii "b") (ascii "Identity") [ascii "a:0"]] [⟨2, 0, 3, 0⟩]

theorem serialisable_explicitOutput : Serialisable floatOps {} [] explicitOutput :=
  serialisable_of_checks (by decide)

theorem cyclesEntered_explicitOutput : explicitOutput.CyclesEntered := by
  rintro es ⟨hne, hsub, a, hclosed⟩
  have hlt : ∀ e ∈ es, e.src < e.dst := fun e he ↦
    (by decide : ∀ e ∈ explicitOutput.edges, e.src < e.dst) e (hsub he)
  exact absurd (hclosed.lt (f := id) hne hlt) (Nat.lt_irrefl a)

/-- Two `Merge` nodes, each of which merges a copy of itself with a copy of the other one:
`m = Merge(a, d)`, `n = Merge(c, b)`, where `a` and `b` copy `m`, and `c` and `d` copy `n`. -/
def mutualMerges : Graph Unit :=
  floatGraph [floatNode (ascii "m") (ascii "Merge") [ascii "a", ascii "d"],
    floatNode (ascii "n") (ascii "Merge") [ascii "c", ascii "b"],
    floatNode (ascii "a") (ascii "Identity") [ascii "m"],
    floatNode (ascii "b") (ascii "Identity") [ascii "m"],
    floatNode (ascii "c") (ascii "Identity") [ascii "n"],
    floatNode (ascii "d") (ascii "Identity") [ascii "n"]]
    [⟨4, 0, 2, 0⟩, ⟨7, 0, 2, 1⟩, ⟨6, 0, 3, 0⟩, ⟨5, 0, 3, 1⟩, ⟨2, 0, 4, 0⟩, ⟨2, 0, 5, 0⟩,
    ⟨3, 0, 6, 0⟩,
      ⟨3, 0, 7, 0⟩]

theorem serialisable_mutualMerges : Serialisable floatOps {} [] mutualMerges :=
  serialisable_of_checks (by decide)

/-- A simple cycle of it enters one of the `Merge` nodes through one of its inputs only. -/
theorem isEntered_mutualMerges {es : List Edge} (h : mutualMerges.IsCycle es)
    (hsimple : (es.map Edge.dst).Nodup) : mutualMerges.IsEntered es := by
  obtain ⟨hne, hsub, a, hclosed⟩ := h
  by_contra hnot
  have hinputs : ∀ e ∈ es, mutualMerges.isMergeAt e.dst = true → ∀ e' ∈ mutualMerges.edges,
      e'.dst = e.dst → e' ∈ es := by
    intro e he hmerge e' he' hdst
    have hdata := (by decide : ∀ e ∈ mutualMerges.edges, mutualMerges.isMergeAt e.dst = true →
      e.isControlEdge = false)
    have hsrc : e'.src ∈ es.map Edge.dst := by
      by_contra hout
      exact hnot ⟨e, he, hdata e (hsub he) hmerge, hmerge, e', he',
        hdata e' he' (hdst ▸ hmerge), hdst,
        hout⟩
    -- the only edge that leaves an input of a `Merge` ends in the `Merge`
    obtain ⟨e'', he'', hsrc''⟩ := hclosed.exists_src_eq_of_closed hsrc
    have hunique := (by decide : ∀ e' ∈ mutualMerges.edges, mutualMerges.isMergeAt e'.dst = true →
      ∀ e'' ∈ mutualMerges.edges, e''.src = e'.src → e'' = e')
    exact hunique e' he' (hdst ▸ hmerge) e'' (hsub he'') hsrc'' ▸ he''
  have hnoMerge : ∀ e ∈ es, mutualMerges.isMergeAt e.dst = false := by
    intro e he
    by_contra hmerge
    obtain ⟨e', he', hdst, hne'⟩ := (by decide : ∀ e ∈ mutualMerges.edges,
      mutualMerges.isMergeAt e.dst ≠ false → ∃ e' ∈ mutualMerges.edges, e'.dst = e.dst ∧ e' ≠ e)
        e (hsub he) hmerge
    have hmem := hinputs e he (by simpa using hmerge) e' he' hdst
    exact hne' (inj_on_of_nodup_map hsimple hmem he hdst)
  obtain ⟨e, he⟩ := exists_mem_of_ne_nil es hne
  obtain ⟨e', he', hsrc⟩ := hclosed.exists_src_eq_of_closed (mem_map_of_mem he)
  exact (by decide : ∀ e ∈ mutualMerges.edges, ∀ e' ∈ mutualMerges.edges, e'.src = e.dst →
    mutualMerges.isMergeAt e.dst = false → mutualMerges.isMergeAt e'.dst = false → False)
      e (hsub he) e' (hsub he') hsrc (hnoMerge e he) (hnoMerge e' he')

/-- The first graph is not accepted, although each of its simple cycles is entered, and in the
second one, which has no cycle, the input `a:0` comes back as `a`. -/
theorem not_roundTrips_mutualMerges :
    (Serialisable floatOps {} [] mutualMerges ∧
      (∀ es, mutualMerges.IsCycle es → (es.map Edge.dst).Nodup → mutualMerges.IsEntered es) ∧
      ¬RoundTrips floatOps (fun _ _ ↦ 0) {} [] forgetDevice mutualMerges) ∧
    Serialisable floatOps {} [] explicitOutput ∧ explicitOutput.CyclesEntered ∧
      ¬RoundTrips floatOps (fun _ _ ↦ 0) {} [] forgetDevice explicitOutput := by
  refine ⟨⟨serialisable_mutualMerges, fun _ ↦ isEntered_mutualMerges, ?_⟩,
    serialisable_explicitOutput, cyclesEntered_explicitOutput, ?_⟩
  · rintro ⟨gdef, g', hwritten, hconvert, -⟩
    rw [serialisable_mutualMerges.toGraphDef_eq] at hwritten
    cases hwritten
    have hfails : (convertGraphDefToGraph floatOps (fun _ _ ↦ 0) {} []
        mutualMerges.graphDef).isOk = false := rfl
    rw [hconvert] at hfails
    cases hfails
  · rintro ⟨gdef, g', hwritten, hconvert, hnodes, -⟩
    rw [serialisable_explicitOutput.toGraphDef_eq] at hwritten
    cases hwritten
    cases hconvert
    exact absurd hnodes (by decide)

end Graph

end TensorFlowCore
