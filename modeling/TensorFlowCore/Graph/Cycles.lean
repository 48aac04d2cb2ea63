import TensorFlowCore.Graph.Acceptance
import TensorFlowCore.Graph.EdgeValidity

/-!
# Cycles of a converted graph

A `Merge` waits for as many inputs as it has control inputs and one more, and every input counts. So
with two or more data inputs it may be converted before its control inputs, and a cycle through one
of these is accepted; `loopsOnlyThroughMerge_iff` says that no other cycle is, apart from those
through data inputs of a `Merge`.
-/

namespace TensorFlowCore

open List Relation

namespace Graph

variable {α : Type}

/-- An edge other than a data edge that ends in a `Merge` node. -/
def Kept (g : Graph α) (e : Edge) : Prop :=
  e.isControlEdge = false → ∀ node, g.findNodeId e.dst = some node →
    GraphConstructor.isMerge node.nodeDef = false

/-- A node with an edge to another one, data edges that end in `Merge` nodes left out. -/
def KeptEdge (g : Graph α) (a b : ℕ) : Prop := ∃ e ∈ g.edges, e.src = a ∧ e.dst = b ∧ g.Kept e

/-- Without the data edges that end in `Merge` nodes the graph is acyclic. -/
def LoopsOnlyThroughMerge (g : Graph α) : Prop := ∀ id, ¬TransGen g.KeptEdge id id

end Graph

namespace GraphConstructor

open Worklist

variable {α : Type} [Inhabited α] {gdef : GraphDef α} {registry : OpRegistry α}
  {stray : List DataType → ℤ → DataType} {opts : GraphConstructorOptions} {done : List ℕ}
  {g : Graph α} {m n : ℕ}

/-- The number of regular dependencies of a node. -/
def numDataInputs (nodeDef : NodeDef α) : ℕ := nodeDef.input.countP fun input ↦ !isControl input

/-- An input that is not a data input of a `Merge`. -/
def KeptLink (gdef : GraphDef α) (l : Link) : Prop :=
  l.index ≠ -1 → isMerge (gdef.nodeAt l.dst) = false

/-- A node that is an input of another one, data inputs of `Merge` nodes left out. -/
def DependsOn (gdef : GraphDef α) (m n : ℕ) : Prop :=
  n < gdef.node.length ∧ ∃ l ∈ links gdef n, l.src = m ∧ KeptLink gdef l

/-- No cycle goes through a control dependence of a `Merge` with two or more data inputs. -/
def NoControlLoop (gdef : GraphDef α) : Prop :=
  ∀ n < gdef.node.length, isMerge (gdef.nodeAt n) = true → 2 ≤ numDataInputs (gdef.nodeAt n) →
    ∀ l ∈ links gdef n, l.index = -1 → ¬ReflTransGen (DependsOn gdef) n l.src

omit [Inhabited α] in
theorem length_input_eq (nodeDef : NodeDef α) :
    nodeDef.input.length = nodeDef.input.countP (isControl ·) + numDataInputs nodeDef := by
  rw [numDataInputs, length_eq_countP_add_countP (isControl ·)]
  congr 1
  exact countP_congr fun input _ ↦ by simp

section

variable (h : Built registry stray opts gdef done g)
include h

/-- An input that comes before its node, or the one kind that need not. -/
theorem Built.idxOf_lt (hn : n < gdef.node.length) {l : Link} (hl : l ∈ links gdef n)
    (hkept : KeptLink gdef l) : done.idxOf l.src < done.idxOf n ∨
      isMerge (gdef.nodeAt n) = true ∧ 2 ≤ numDataInputs (gdef.nodeAt n) ∧ l.index = -1 := by
  obtain ⟨before, after, hsplit⟩ := append_of_mem ((h.mem_done n).2 hn)
  have hnodup := h.nodup
  rw [hsplit] at hnodup
  have hnot : n ∉ before := fun hmem ↦
    (nodup_append.1 hnodup).2.2 n hmem n mem_cons_self rfl
  have hidx : ∀ k ∈ before, done.idxOf k < done.idxOf n := by
    intro k hk
    rw [hsplit, idxOf_append_of_mem hk, idxOf_append_of_notMem hnot, idxOf_cons_self]
    exact idxOf_lt_length_of_mem hk
  have hsrc : l.src ∈ preds gdef n := by
    rw [preds_eq_map_links]
    exact mem_map_of_mem hl
  have henabled := h.enabled hsplit
  cases hmerge : isMerge (gdef.nodeAt n) with
  | false => exact .inl (hidx _ (mem_of_enabled henabled hmerge _ hsrc))
  | true =>
    obtain hnil | hle := henabled
    · rw [hnil] at hsrc
      cases hsrc
    · have hlen : (preds gdef n).length = (gdef.nodeAt n).input.length := length_map _
      have hneed : need gdef n = (gdef.nodeAt n).input.countP (isControl ·) + 1 := by
        rw [need, pendingCount, if_pos hmerge]
      have hcount := length_input_eq (gdef.nodeAt n)
      have hcountP : (preds gdef n).countP (· ∈ before) ≤ (preds gdef n).length :=
        countP_le_length
      by_cases hdata : 2 ≤ numDataInputs (gdef.nodeAt n)
      · refine .inr ⟨rfl, hdata, ?_⟩
        by_contra hindex
        have hfalse := hkept hindex
        rw [dst_of_mem_links hl, hmerge] at hfalse
        cases hfalse
      · -- with one data input the node waits for all its inputs
        have hall := countP_eq_length.1
          (show (preds gdef n).countP (· ∈ before) = (preds gdef n).length by omega)
        exact .inl (hidx _ (of_decide_eq_true (hall _ hsrc)))

/-! ### From the graph to its definition -/

theorem Built.kept_iff (hn : n < gdef.node.length) {l : Link} (hl : l ∈ links gdef n) :
    g.Kept (l.edge done) ↔ KeptLink gdef l := by
  have hdst := dst_of_mem_links hl
  have hedge : (l.edge done).dst = nodeId done n := by
    rw [Link.edge, hdst]
    split <;> rfl
  rw [Graph.Kept, KeptLink, Link.isControlEdge_edge, decide_eq_false_iff_not, hedge,
    h.findNodeId_eq hn, hdst]
  constructor
  · intro hkept hindex
    exact hkept hindex _ rfl
  · intro hkept hindex node hnode
    rw [← Option.some.inj hnode]
    exact hkept hindex

theorem Built.keptEdge_of_dependsOn (hdep : DependsOn gdef m n) :
    g.KeptEdge (nodeId done m) (nodeId done n) := by
  obtain ⟨hn, l, hl, rfl, hkept⟩ := hdep
  obtain ⟨extra, -, hmem⟩ := h.mem_edges_iff
  refine ⟨l.edge done, (hmem _).2 (.inl ⟨n, hn, l, hl, rfl⟩), l.src_edge, ?_,
    (h.kept_iff hn hl).2 hkept⟩
  rw [l.dst_edge, dst_of_mem_links hl]

/-- An edge that neither starts at source nor ends at sink is that of an input. -/
theorem Built.exists_dependsOn {a b : ℕ} (hedge : g.KeptEdge a b) :
    a ≠ Graph.kSinkId ∧ b ≠ Graph.kSourceId ∧ (a ≠ Graph.kSourceId → b ≠ Graph.kSinkId →
      ∃ m n, a = nodeId done m ∧ b = nodeId done n ∧ DependsOn gdef m n) := by
  obtain ⟨e, he, rfl, rfl, hkept⟩ := hedge
  obtain ⟨extra, hextra, hmem⟩ := h.mem_edges_iff
  obtain ⟨n, hn, l, hl, rfl⟩ | he := (hmem e).1 he
  · refine ⟨?_, ?_, fun _ _ ↦ ⟨l.src, l.dst, l.src_edge, l.dst_edge, ?_⟩⟩
    · rw [l.src_edge, nodeId, Graph.kSinkId]
      omega
    · rw [l.dst_edge, nodeId, Graph.kSourceId]
      omega
    · rw [dst_of_mem_links hl]
      exact ⟨hn, l, hl, rfl, (h.kept_iff hn hl).1 hkept⟩
  · have hsource : Graph.kSourceId ≠ Graph.kSinkId := by decide
    obtain ⟨hsrc, hdst⟩ | ⟨hdst, hsrc⟩ := (hextra e he).endpoint
    · exact ⟨hsrc ▸ hsource, hdst, fun hne ↦ absurd hsrc hne⟩
    · exact ⟨hsrc, hdst ▸ hsource.symm, fun _ hne ↦ absurd hdst hne⟩

/-- A path between nodes that are neither source nor sink goes through inputs only. -/
theorem Built.transGen_dependsOn {a b : ℕ} (hpath : TransGen g.KeptEdge a b) :
    b ≠ Graph.kSourceId ∧ (a ≠ Graph.kSourceId → b ≠ Graph.kSinkId →
      ∃ m n, a = nodeId done m ∧ b = nodeId done n ∧ n < gdef.node.length ∧
        TransGen (DependsOn gdef) m n) := by
  induction hpath with
  | single hedge =>
    obtain ⟨-, hb, hdep⟩ := h.exists_dependsOn hedge
    refine ⟨hb, fun ha hb' ↦ ?_⟩
    obtain ⟨m, n, rfl, rfl, hmn⟩ := hdep ha hb'
    exact ⟨m, n, rfl, rfl, hmn.1, .single hmn⟩
  | tail _ hedge ih =>
    obtain ⟨hb, hc, hdep⟩ := h.exists_dependsOn hedge
    refine ⟨hc, fun ha hc' ↦ ?_⟩
    obtain ⟨m, n, rfl, rfl, hn, hpath⟩ := ih.2 ha hb
    obtain ⟨n', k, hn', rfl, hnk⟩ := hdep ih.1 hc'
    obtain rfl := nodeId_inj ((h.mem_done n).2 hn) hn'
    exact ⟨m, k, rfl, rfl, hnk.1, hpath.tail hnk⟩

/-- Along a path the position grows, unless the path goes through a control dependence of a `Merge`
with two or more data inputs. -/
theorem Built.idxOf_lt_of_transGen (hpath : TransGen (DependsOn gdef) m n) :
    done.idxOf m < done.idxOf n ∨
      ∃ k < gdef.node.length, isMerge (gdef.nodeAt k) = true ∧ 2 ≤ numDataInputs (gdef.nodeAt k) ∧
        ∃ l ∈ links gdef k, l.index = -1 ∧ ReflTransGen (DependsOn gdef) m l.src ∧
          ReflTransGen (DependsOn gdef) k n := by
  induction hpath with
  | single hdep =>
    obtain ⟨hn, l, hl, rfl, hkept⟩ := hdep
    obtain hlt | ⟨hmerge, hdata, hindex⟩ := h.idxOf_lt hn hl hkept
    · exact .inl hlt
    · exact .inr ⟨_, hn, hmerge, hdata, l, hl, hindex, .refl, .refl⟩
  | tail hpath hdep ih =>
    obtain hlt | ⟨k, hk, hmerge, hdata, l, hl, hindex, hml, hkn⟩ := ih
    · have hdep' := hdep
      obtain ⟨hn, l, hl, rfl, hkept⟩ := hdep'
      obtain hlt' | ⟨hmerge, hdata, hindex⟩ := h.idxOf_lt hn hl hkept
      · exact .inl (hlt.trans hlt')
      · exact .inr ⟨_, hn, hmerge, hdata, l, hl, hindex, hpath.to_reflTransGen, .refl⟩
    · exact .inr ⟨k, hk, hmerge, hdata, l, hl, hindex, hml, hkn.tail hdep⟩

theorem Built.loopsOnlyThroughMerge (hloop : NoControlLoop gdef) : g.LoopsOnlyThroughMerge := by
  intro id hcycle
  obtain ⟨hsource, hpath⟩ := h.transGen_dependsOn hcycle
  have hsink : id ≠ Graph.kSinkId := by
    obtain ⟨b, hedge, -⟩ := TransGen.head'_iff.1 hcycle
    exact (h.exists_dependsOn hedge).1
  obtain ⟨m, n, rfl, hmn, hn, hpath⟩ := hpath hsource hsink
  obtain rfl : n = m := nodeId_inj ((h.mem_done n).2 hn) hmn.symm
  obtain hlt | ⟨k, hk, hmerge, hdata, l, hl, hindex, hml, hkn⟩ := h.idxOf_lt_of_transGen hpath
  · exact absurd hlt (Nat.lt_irrefl _)
  · exact hloop k hk hmerge hdata l hl hindex (hkn.trans hml)

theorem Built.noControlLoop (hloops : g.LoopsOnlyThroughMerge) : NoControlLoop gdef := by
  intro n hn _ _ l hl hindex hpath
  have hdep : DependsOn gdef l.src n := ⟨hn, l, hl, rfl, fun hne ↦ absurd hindex hne⟩
  have hcycle : TransGen (DependsOn gdef) n n := .tail' hpath hdep
  exact hloops _ (hcycle.lift (nodeId done) fun _ _ hd ↦ h.keptEdge_of_dependsOn hd)

end

/-! ### Acyclic definitions -/

/-- No node depends on itself. -/
def AcyclicInputs (gdef : GraphDef α) : Prop :=
  ∀ n, ¬TransGen (fun m n ↦ n < gdef.node.length ∧ m ∈ preds gdef n) n n

/-- Every `Merge` with an input has a data input. -/
def MergesHaveData (gdef : GraphDef α) : Prop :=
  ∀ n < gdef.node.length, isMerge (gdef.nodeAt n) = true → (gdef.nodeAt n).input ≠ [] →
    0 < numDataInputs (gdef.nodeAt n)

theorem pred_lt (hknown : Known gdef) (hn : n < gdef.node.length) (hm : m ∈ preds gdef n) :
    m < gdef.node.length := by
  rw [preds_eq_map_links] at hm
  obtain ⟨l, hl, rfl⟩ := mem_map.1 hm
  exact src_mem_of_mem_links hknown hn hl

/-- A node all of whose inputs are converted is ready. -/
theorem enabled_of_forall_mem (hdata : MergesHaveData gdef) (hn : n < gdef.node.length)
    (hmem : ∀ m ∈ preds gdef n, m ∈ done) : Enabled (preds gdef) (need gdef) done n := by
  by_cases hnil : (gdef.nodeAt n).input = []
  · exact .inl (preds_eq_nil_iff.2 hnil)
  · have hcountP : (preds gdef n).countP (· ∈ done) = (gdef.nodeAt n).input.length := by
      rw [countP_eq_length.2 fun m hm ↦ decide_eq_true (hmem m hm), preds, length_map]
    right
    rw [hcountP, need, pendingCount]
    split
    · rename_i hmerge
      have hpos := hdata n hn hmerge hnil
      have hlen := length_input_eq (gdef.nodeAt n)
      omega
    · exact le_rfl

/-- Of the nodes that are left in an acyclic definition, one has all its inputs converted. -/
theorem exists_forall_mem (hknown : Known gdef) (hacyclic : AcyclicInputs gdef)
    (hleft : ∃ n < gdef.node.length, n ∉ done) :
    ∃ n < gdef.node.length, n ∉ done ∧ ∀ m ∈ preds gdef n, m ∈ done := by
  let r : Fin gdef.node.length → Fin gdef.node.length → Prop := fun a b ↦
    TransGen (fun m n ↦ n < gdef.node.length ∧ m ∈ preds gdef n) a b
  have : IsTrans _ r := ⟨fun _ _ _ hab hbc ↦ TransGen.trans hab hbc⟩
  have : Std.Irrefl r := ⟨fun a ↦ hacyclic a⟩
  have hwf : WellFounded r := Finite.wellFounded_of_trans_of_irrefl r
  obtain ⟨n₀, hn₀, hdone₀⟩ := hleft
  obtain ⟨n, hdone, hmin⟩ := hwf.has_min {n : Fin gdef.node.length | (n : ℕ) ∉ done}
    ⟨⟨n₀, hn₀⟩, hdone₀⟩
  refine ⟨n, n.2, hdone, fun m hm ↦ ?_⟩
  by_contra hnot
  exact hmin ⟨m, pred_lt hknown n.2 hm⟩ hnot (.single ⟨n.2, hm⟩)

theorem Built.mergesHaveData (h : Built registry stray opts gdef done g) : MergesHaveData gdef := by
  intro n hn hmerge hne
  obtain ⟨before, after, hsplit⟩ := append_of_mem ((h.mem_done n).2 hn)
  obtain hnil | hle := h.enabled hsplit
  · exact absurd (preds_eq_nil_iff.1 hnil) hne
  · have hneed : need gdef n = (gdef.nodeAt n).input.countP (isControl ·) + 1 := by
      rw [need, pendingCount, if_pos hmerge]
    have hlen : (preds gdef n).length = (gdef.nodeAt n).input.length := length_map _
    have hcount := length_input_eq (gdef.nodeAt n)
    have hcountP : (preds gdef n).countP (· ∈ before) ≤ (preds gdef n).length :=
      countP_le_length
    omega

/-- An accepted graph has loops only through data inputs of `Merge` nodes exactly if no cycle goes
through a control input of a `Merge` with two or more data inputs, and an acyclic well-typed
definition is accepted exactly if each of its `Merge` nodes with an input has a data input. -/
theorem loopsOnlyThroughMerge_iff (registry : OpRegistry α) (stray : List DataType → ℤ → DataType)
    (opts : GraphConstructorOptions) (tfVersionString : ByteString) (gdef : GraphDef α) :
    (∀ g, convertGraphDefToGraph registry stray opts tfVersionString gdef = .ok g →
      (g.LoopsOnlyThroughMerge ↔ NoControlLoop gdef)) ∧
    (WellTyped registry opts tfVersionString gdef → AcyclicInputs gdef →
      ((∃ g, convertGraphDefToGraph registry stray opts tfVersionString gdef = .ok g) ↔
        MergesHaveData gdef)) := by
  refine ⟨fun g hg ↦ ?_, fun htyped hacyclic ↦ ⟨?_, fun hdata ↦ ?_⟩⟩
  · obtain ⟨done, hbuilt⟩ := exists_built hg
    exact ⟨hbuilt.noControlLoop, hbuilt.loopsOnlyThroughMerge⟩
  · rintro ⟨g, hg⟩
    obtain ⟨done, hbuilt⟩ := exists_built hg
    exact hbuilt.mergesHaveData
  · refine htyped.exists_convert fun done hleft ↦ ?_
    obtain ⟨n, hn, hdone, hmem⟩ := exists_forall_mem htyped.known hacyclic hleft
    exact ⟨n, hn, hdone, enabled_of_forall_mem hdata hn hmem⟩

theorem acyclicInputs_of_lt {f : ℕ → ℕ}
    (h : ∀ n < gdef.node.length, ∀ m ∈ preds gdef n, f m < f n) : AcyclicInputs gdef := by
  intro n hcycle
  have hlt : TransGen (fun a b : ℕ ↦ a < b) (f n) (f n) :=
    hcycle.lift f fun m k hmk ↦ h k hmk.1 m hmk.2
  rw [transGen_eq_self] at hlt
  exact Nat.lt_irrefl _ hlt

/-- A loop through the second data input of a `Merge`. -/
def mergeLoop : GraphDef Unit :=
  currentGraphDef [⟨ascii "a", ascii "Const", [], [], ()⟩,
    ⟨ascii "m", ascii "Merge", [ascii "a", ascii "n"], [], ()⟩,
    ⟨ascii "n", ascii "NextIteration", [ascii "m"], [], ()⟩]

/-- A `Merge` in front of its inputs. -/
def constMerge : GraphDef Unit :=
  currentGraphDef [⟨ascii "m", ascii "Merge", [ascii "a", ascii "b"], [], ()⟩,
    ⟨ascii "a", ascii "Const", [], [], ()⟩, ⟨ascii "b", ascii "Const", [], [], ()⟩]

theorem wellTyped_constMerge : WellTyped floatOps {} [] constMerge where
  versions := rfl
  nodeOk := by
    refine forall_mem_cons.2 ⟨?_, forall_mem_cons.2 ⟨?_, forall_mem_singleton.2 ?_⟩⟩ <;>
      exact ⟨by decide, by decide, by decide⟩
  names_nodup := by decide
  hasSignature
    | 0, _ | 1, _ | 2, _ => ⟨_, rfl⟩
  known
    | 0, _ => forall_mem_cons.2 ⟨⟨1, rfl⟩, forall_mem_singleton.2 ⟨2, rfl⟩⟩
    | 1, _ | 2, _ => nofun
  controlsLast
    | 0, _ => pairwise_pair.2 (by decide)
    | 1, _ | 2, _ => Pairwise.nil
  data
    | 0, _, 0, input, hinput, _ => by
      obtain rfl : ascii "a" = input := Option.some.inj hinput
      decide
    | 0, _, 1, input, hinput, _ => by
      obtain rfl : ascii "b" = input := Option.some.inj hinput
      decide
    | 0, _, _ + 2, _, hinput, _ | 1, _, _, _, hinput, _ | 2, _, _, _, hinput, _ => nomatch hinput

/-- The first part on the loop, and the second part on the `Merge` of two constants. -/
theorem loopsOnlyThroughMerge_iff_mergeLoop :
    (∃ g, convertGraphDefToGraph floatOps (fun _ _ ↦ 0) {} [] mergeLoop = .ok g ∧
      ¬AcyclicInputs mergeLoop ∧ (g.LoopsOnlyThroughMerge ↔ NoControlLoop mergeLoop)) ∧
    WellTyped floatOps {} [] constMerge ∧ AcyclicInputs constMerge ∧
    ((∃ g, convertGraphDefToGraph floatOps (fun _ _ ↦ 0) {} [] constMerge = .ok g) ↔
      MergesHaveData constMerge) := by
  have hcyclic : ¬AcyclicInputs mergeLoop := fun h ↦
    h 1 (.tail (b := 2) (.single ⟨by decide, by decide⟩) ⟨by decide, by decide⟩)
  have hacyclic : AcyclicInputs constMerge :=
    acyclicInputs_of_lt (f := fun n ↦ 2 - n) fun n hn ↦ by
      match n, hn with
      | 0, _ | 1, _ | 2, _ => decide
  exact ⟨⟨_, rfl, hcyclic,
      (loopsOnlyThroughMerge_iff floatOps (fun _ _ ↦ 0) {} [] mergeLoop).1 _ rfl⟩,
    wellTyped_constMerge, hacyclic,
    (loopsOnlyThroughMerge_iff floatOps (fun _ _ ↦ 0) {} [] constMerge).2 wellTyped_constMerge
      hacyclic⟩

/-- A `Merge` whose control dependence depends on it. -/
def controlLoop : GraphDef Unit :=
  currentGraphDef [⟨ascii "a", ascii "Const", [], [], ()⟩, ⟨ascii "b", ascii "Const", [], [], ()⟩,
    ⟨ascii "m", ascii "Merge", [ascii "a", ascii "b", ascii "^c"], [], ()⟩,
    ⟨ascii "c", ascii "Identity", [ascii "m"], [], ()⟩]

/-- A `Merge` with a control dependence only. -/
def controlOnlyMerge : GraphDef Unit :=
  currentGraphDef [⟨ascii "a", ascii "Const", [], [], ()⟩,
    ⟨ascii "m", ascii "Merge", [ascii "^a"], [], ()⟩]

theorem wellTyped_controlOnlyMerge : WellTyped floatOps {} [] controlOnlyMerge where
  versions := rfl
  nodeOk := by
    refine forall_mem_cons.2 ⟨⟨by decide, by decide, by decide⟩, forall_mem_singleton.2 ?_⟩
    exact ⟨by decide, by decide, by decide⟩
  names_nodup := by decide
  hasSignature
    | 0, _ => ⟨_, rfl⟩
    | 1, _ => ⟨_, rfl⟩
  known
    | 0, _ => nofun
    | 1, _ => forall_mem_singleton.2 ⟨0, rfl⟩
  controlsLast
    | 0, _ => Pairwise.nil
    | 1, _ => pairwise_singleton _ _
  data
    | 0, _, _, _, hinput, _ => nomatch hinput
    | 1, _, _ + 1, _, hinput, _ => nomatch hinput
    | 1, _, 0, input, hinput, hcontrol => by
      obtain rfl : ascii "^a" = input := Option.some.inj hinput
      exact absurd hcontrol (by decide)

/-- The first one is accepted with its cycle, and the second one, which is acyclic, is not. -/
theorem not_loopsOnlyThroughMerge_controlLoop :
    (∃ g, convertGraphDefToGraph floatOps (fun _ _ ↦ 0) {} [] controlLoop = .ok g ∧
      ¬g.LoopsOnlyThroughMerge) ∧
    WellTyped floatOps {} [] controlOnlyMerge ∧ AcyclicInputs controlOnlyMerge ∧
    ¬∃ g, convertGraphDefToGraph floatOps (fun _ _ ↦ 0) {} [] controlOnlyMerge = .ok g := by
  refine ⟨⟨_, rfl, fun hloops ↦ ?_⟩, wellTyped_controlOnlyMerge, ?_, ?_⟩
  · obtain ⟨done, hbuilt⟩ := exists_built (show convertGraphDefToGraph floatOps (fun _ _ ↦ 0) {} []
      controlLoop = .ok _ from rfl)
    have hlink : (⟨2, 0, 3, 0⟩ : Link) ∈ links controlLoop 3 := by decide
    refine hbuilt.noControlLoop hloops 2 (by decide) (by decide) (by decide) ⟨3, -1, 2, 2⟩
      (by decide)
      rfl (.single ⟨by decide, _, hlink, rfl, fun _ ↦ by decide⟩)
  · refine acyclicInputs_of_lt (f := fun n ↦ n) fun n hn ↦ ?_
    match n, hn with
    | 0, _ => decide
    | 1, _ => decide
  · rintro ⟨g, hg⟩
    obtain ⟨done, hbuilt⟩ := exists_built hg
    exact absurd (hbuilt.mergesHaveData 1 (by decide) (by decide) (by decide)) (by decide)

end GraphConstructor

end TensorFlowCore
