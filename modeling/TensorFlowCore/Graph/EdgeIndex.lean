import Mathlib.Data.List.GetD
import TensorFlowCore.Graph.GraphConstructor

/-!
# The inputs of a `GraphDef` as links

What `BuildNodeIndex` and `InitFromEdges` find out about a `GraphDef`: that its names are valid and
distinct, that every input names a node, and which nodes wait for how many of their inputs.
-/

namespace TensorFlowCore.GraphConstructor

open List Worklist

variable {α : Type} [Inhabited α] {gdef : GraphDef α}

/-! ### Inputs as links between nodes -/

/-- The number of the output that an input names, or `-1` for a control dependence. -/
def linkIndex (input : ByteString) : ℤ := if isControl input then -1 else (inputId input).2

/-- The index of the node that an input names. -/
def srcIndex (gdef : GraphDef α) (input : ByteString) : ℕ :=
  (gdef.nameIndex (inputId input).1).getD 0

/-- An input of a node: the output `index` of the node `src` for the input `slot` of the node `dst`,
or a control dependence if `index` is `-1`. -/
structure Link where
  src : ℕ
  index : ℤ
  dst : ℕ
  slot : ℕ
  deriving DecidableEq

/-- The inputs of the `n`-th node. -/
def links (gdef : GraphDef α) (n : ℕ) : List Link :=
  (gdef.nodeAt n).input.zipIdx.map fun p ↦ ⟨srcIndex gdef p.1, linkIndex p.1, n, p.2⟩

/-- The nodes that the inputs of the `n`-th node name. -/
def preds (gdef : GraphDef α) (n : ℕ) : List ℕ := (gdef.nodeAt n).input.map (srcIndex gdef)

/-- How many inputs the `n`-th node waits for. -/
def need (gdef : GraphDef α) (n : ℕ) : ℤ := pendingCount (gdef.nodeAt n)

/-- The nodes that have the `o`-th node as an input, as often as they have. -/
def outputs (gdef : GraphDef α) (o : ℕ) : List ℕ :=
  (List.range gdef.node.length).flatMap fun n ↦ List.replicate ((preds gdef n).count o) n

/-- Every input names a node. -/
def Known (gdef : GraphDef α) : Prop :=
  ∀ n < gdef.node.length, ∀ input ∈ (gdef.nodeAt n).input,
    ∃ j, gdef.nameIndex (inputId input).1 = some j

theorem preds_eq_map_links (n : ℕ) : preds gdef n = (links gdef n).map Link.src := by
  rw [preds, links, map_map]
  show _ = map (srcIndex gdef ∘ Prod.fst) _
  rw [← map_map, zipIdx_map_fst]

theorem nodeAt_of_le (h : gdef.node.length ≤ n) : gdef.nodeAt n = default :=
  getD_eq_default _ _ h

theorem nodeAt_of_lt (h : n < gdef.node.length) : gdef.nodeAt n = gdef.node[n] :=
  getD_eq_getElem _ _ h

theorem preds_of_le (h : gdef.node.length ≤ n) : preds gdef n = [] := by
  rw [preds, nodeAt_of_le h]
  rfl

theorem need_of_le (h : gdef.node.length ≤ n) : need gdef n = 0 := by
  rw [need, nodeAt_of_le h]
  rfl

theorem nameIndex_eq_some {name : ByteString} {j : ℕ} (h : gdef.nameIndex name = some j) :
    j < gdef.node.length ∧ (gdef.nodeAt j).name = name := by
  obtain ⟨hj, hname, -⟩ := findIdx?_eq_some_iff_getElem.1 h
  refine ⟨hj, ?_⟩
  rw [nodeAt_of_lt hj]
  simpa using hname

/-! ### `BuildNodeIndex` -/

/-- What `BuildNodeIndex` asks of a node. -/
structure NodeOk (opts : GraphConstructorOptions) (nodeDef : NodeDef α) : Prop where
  valid : isValidNodeName nodeDef.name opts.allowInternalOps = true
  op_ne_nil : nodeDef.op ≠ []
  device_ne_nil : opts.expectDeviceSpec = true → nodeDef.device ≠ []

omit [Inhabited α] in
/-- `BuildNodeIndex` accepts exactly valid nodes with distinct names. -/
theorem buildNodeIndex_eq_ok_iff {opts : GraphConstructorOptions} {nodes : List (NodeDef α)}
    {names : List ByteString} (hnames : names.Nodup) :
    buildNodeIndex opts nodes names = .ok () ↔
      (∀ nodeDef ∈ nodes, NodeOk opts nodeDef) ∧ (names ++ nodes.map NodeDef.name).Nodup := by
  induction nodes generalizing names with
  | nil => simp [buildNodeIndex, hnames]
  | cons nodeDef nodes ih =>
    have hsplit : names ++ (nodeDef :: nodes).map NodeDef.name =
        names ++ [nodeDef.name] ++ nodes.map NodeDef.name := by simp
    rw [buildNodeIndex, hsplit]
    split
    · rename_i hvalid
      refine iff_of_false (by simp) fun h ↦ hvalid (h.1 nodeDef mem_cons_self).valid
    · rename_i hvalid
      split
      · rename_i hmem
        refine iff_of_false (by simp) fun h ↦ ?_
        have hdisjoint := (nodup_append.1 (nodup_append.1 h.2).1).2.2
        exact hdisjoint _ hmem _ (mem_singleton_self _) rfl
      · rename_i hmem
        have hnames' : (names ++ [nodeDef.name]).Nodup :=
          nodup_append.2 ⟨hnames, nodup_singleton _,
            fun a ha b hb hab ↦ hmem (mem_singleton.1 hb ▸ hab ▸ ha)⟩
        split
        · rename_i hop
          exact iff_of_false (by simp) fun h ↦ (h.1 nodeDef mem_cons_self).op_ne_nil hop
        · rename_i hop
          split
          · rename_i hdevice
            exact iff_of_false (by simp) fun h ↦
              (h.1 nodeDef mem_cons_self).device_ne_nil hdevice.1 hdevice.2
          · rename_i hdevice
            have hok : NodeOk opts nodeDef :=
              ⟨not_not.1 hvalid, hop, fun hexpect hnil ↦ hdevice ⟨hexpect, hnil⟩⟩
            rw [ih hnames', forall_mem_cons]
            exact and_congr_left fun _ ↦ (and_iff_right hok).symm

/-! ### `InitFromEdges` -/

/-- A node is an output of a source once for each input that names it. -/
theorem initInputs_eq (n : ℕ) {inputs : List ByteString}
    (hknown : ∀ input ∈ inputs, ∃ j, gdef.nameIndex (inputId input).1 = some j)
    (outs : ℕ → List ℕ) :
    inputs.foldlM (initInput gdef n) outs =
      .ok fun o ↦ outs o ++ List.replicate ((inputs.map (srcIndex gdef)).count o) n := by
  induction inputs generalizing outs with
  | nil =>
    simp only [foldlM_nil, map_nil, count_nil, replicate_zero, append_nil]
    rfl
  | cons input inputs ih =>
    obtain ⟨j, hj⟩ := hknown input mem_cons_self
    have hsrc : srcIndex gdef input = j := by rw [srcIndex, hj]; rfl
    have hstep : initInput gdef n outs input = .ok (Function.update outs j (outs j ++ [n])) := by
      rw [initInput, hj]
    rw [foldlM_cons, hstep]
    show foldlM (initInput gdef n) _ inputs = _
    rw [ih fun input' hinput' ↦ hknown input' (mem_cons_of_mem _ hinput')]
    congr 1
    funext o
    rw [map_cons, hsrc, count_cons]
    by_cases hjo : j = o
    · subst hjo
      rw [Function.update_self, append_assoc, singleton_append, ← replicate_succ]
      simp
    · rw [Function.update_of_ne (Ne.symm hjo)]
      simp [hjo]

theorem known_of_initInputs {inputs : List ByteString} {outs outs' : ℕ → List ℕ}
    (h : inputs.foldlM (initInput gdef n) outs = .ok outs') :
    ∀ input ∈ inputs, ∃ j, gdef.nameIndex (inputId input).1 = some j := by
  induction inputs generalizing outs with
  | nil => simp
  | cons input inputs ih =>
    rw [foldlM_cons, initInput] at h
    rcases hj : gdef.nameIndex (inputId input).1 with - | j
    · rw [hj] at h
      cases h
    · rw [hj] at h
      exact forall_mem_cons.2 ⟨⟨j, hj⟩, ih h⟩

/-- What `InitFromEdges` has prepared of the first nodes. -/
def edgeIndex (gdef : GraphDef α) (m : ℕ) : EdgeIndex where
  worklist := ⟨((List.range m).filter fun n ↦ (gdef.nodeAt n).input = []).reverse,
    fun n ↦ if n < m then need gdef n else 0⟩
  outputs := fun o ↦ (List.range m).flatMap fun n ↦ List.replicate ((preds gdef n).count o) n

/-- A node is entered as an output of each of its inputs' nodes. -/
theorem initNode_edgeIndex {m : ℕ}
    (hknown : ∀ input ∈ (gdef.nodeAt m).input, ∃ j, gdef.nameIndex (inputId input).1 = some j) :
    initNode gdef (edgeIndex gdef m) m = .ok (edgeIndex gdef (m + 1)) := by
  have hready : (edgeIndex gdef (m + 1)).worklist.ready =
      if (gdef.nodeAt m).input = [] then m :: (edgeIndex gdef m).worklist.ready
      else (edgeIndex gdef m).worklist.ready := by
    simp only [edgeIndex, range_succ, filter_append, reverse_append]
    split
    · rename_i hnil
      simp [hnil]
    · rename_i hnil
      simp [hnil]
  have hpending : (edgeIndex gdef (m + 1)).worklist.pending =
      Function.update (edgeIndex gdef m).worklist.pending m (pendingCount (gdef.nodeAt m)) := by
    funext n
    by_cases hn : n = m
    · subst hn
      simp [edgeIndex, need]
    · rw [Function.update_of_ne hn]
      simp only [edgeIndex, show n < m + 1 ↔ n < m by omega]
  have houtputs : (edgeIndex gdef (m + 1)).outputs = fun o ↦ (edgeIndex gdef m).outputs o ++
      replicate (((gdef.nodeAt m).input.map (srcIndex gdef)).count o) m := by
    funext o
    simp only [edgeIndex, range_succ, flatMap_append, flatMap_singleton]
    rfl
  have heta : edgeIndex gdef (m + 1) = ⟨⟨(edgeIndex gdef (m + 1)).worklist.ready,
      (edgeIndex gdef (m + 1)).worklist.pending⟩, (edgeIndex gdef (m + 1)).outputs⟩ := rfl
  rw [heta, hready, hpending, houtputs, initNode]
  split
  · rename_i hnil
    simp [hnil]
  · rw [initInputs_eq m hknown]
    rfl

theorem initFromEdges_range {m : ℕ} (hm : m ≤ gdef.node.length) (hknown : Known gdef) :
    (List.range m).foldlM (initNode gdef) {} = .ok (edgeIndex gdef m) := by
  induction m with
  | zero =>
    simp [edgeIndex]
    rfl
  | succ m ih =>
    rw [range_succ, foldlM_append, ih (Nat.le_of_succ_le hm)]
    show foldlM (initNode gdef) (edgeIndex gdef m) [m] = _
    rw [foldlM_cons, initNode_edgeIndex (hknown m hm)]
    rfl

/-- `InitFromEdges` prepares the counters and the outputs of all nodes. -/
theorem initFromEdges_eq (hknown : Known gdef) :
    initFromEdges gdef = .ok (edgeIndex gdef gdef.node.length) :=
  initFromEdges_range le_rfl hknown

theorem known_of_initNode {s s' : EdgeIndex} (h : initNode gdef s n = .ok s') :
    ∀ input ∈ (gdef.nodeAt n).input, ∃ j, gdef.nameIndex (inputId input).1 = some j := by
  rw [initNode] at h
  split at h
  · rename_i hnil
    simp [hnil]
  · cases houts : (gdef.nodeAt n).input.foldlM (initInput gdef n) s.outputs with
    | error e =>
      rw [houts] at h
      cases h
    | ok outs => exact known_of_initInputs houts

theorem known_of_foldlM {ns : List ℕ} {s s' : EdgeIndex}
    (h : ns.foldlM (initNode gdef) s = .ok s') :
    ∀ n ∈ ns, ∀ input ∈ (gdef.nodeAt n).input, ∃ j, gdef.nameIndex (inputId input).1 = some j := by
  induction ns generalizing s with
  | nil => simp
  | cons n ns ih =>
    rw [foldlM_cons] at h
    cases hstep : initNode gdef s n with
    | error e =>
      rw [hstep] at h
      cases h
    | ok s₁ =>
      rw [hstep] at h
      exact forall_mem_cons.2 ⟨known_of_initNode hstep, ih h⟩

/-- `InitFromEdges` accepts known inputs only. -/
theorem known_of_initFromEdges {index : EdgeIndex} (h : initFromEdges gdef = .ok index) :
    Known gdef := fun n hn ↦ known_of_foldlM h n (mem_range.2 hn)

theorem count_flatMap_replicate (f : ℕ → ℕ) (m n : ℕ) :
    ((List.range m).flatMap fun k ↦ List.replicate (f k) k).count n = if n < m then f n else 0 := by
  induction m with
  | zero => simp
  | succ m ih =>
    rw [range_succ, flatMap_append, flatMap_singleton, count_append, ih, count_replicate]
    by_cases hn : n = m
    · subst hn
      simp
    · simp only [show n < m + 1 ↔ n < m by omega, beq_iff_eq, Ne.symm hn, if_false, add_zero]

/-- The outputs are those of the inputs, and a node with inputs waits for at least one. -/
theorem adjacent (gdef : GraphDef α) :
    Adjacent (preds gdef) (outputs gdef) (need gdef) gdef.node.length where
  count_eq := by
    intro o ho n
    rw [outputs, count_flatMap_replicate]
    split
    · rfl
    · rename_i hn
      rw [preds_of_le (Nat.not_lt.1 hn), count_nil]
  lt := by
    intro o ho n hn
    obtain ⟨m, hm, hn⟩ := mem_flatMap.1 hn
    exact eq_of_mem_replicate hn ▸ mem_range.1 hm
  need_pos := by
    intro n hne
    rw [need, pendingCount]
    split
    · omega
    · have hinput : (gdef.nodeAt n).input ≠ [] := fun hnil ↦ hne (by rw [preds, hnil]; rfl)
      exact_mod_cast length_pos_iff.2 hinput

theorem preds_eq_nil_iff : preds gdef n = [] ↔ (gdef.nodeAt n).input = [] :=
  map_eq_nil_iff

/-- The worklist that `InitFromEdges` prepares. -/
theorem tracks_edgeIndex (gdef : GraphDef α) :
    Tracks (preds gdef) (need gdef) gdef.node.length []
    (edgeIndex gdef gdef.node.length).worklist := by
  have hpending : (fun n ↦ if n < gdef.node.length then need gdef n else 0) = need gdef := by
    funext n
    split
    · rfl
    · rename_i hn
      exact (need_of_le (Nat.not_lt.1 hn)).symm
  rw [edgeIndex, hpending]
  refine tracks_nil (adjacent gdef) ?_ fun n ↦ ?_
  · exact nodup_reverse.2 (nodup_range.filter _)
  · rw [mem_reverse, mem_filter, mem_range, decide_eq_true_eq, preds_eq_nil_iff]

end TensorFlowCore.GraphConstructor
