import TensorFlowCore.Graph.Semantics

/-!
# Common subexpression elimination

`OptimizerCSE` of `tensorflow/core/graph/optimizer_cse.cc`. The attributes of a node are its names
with their serialised values. The hash functions, the addresses by which pointers to nodes are
sorted and `consider_fn` are parameters.
-/

namespace TensorFlowCore

open Function List

/-- `NodeDef::attr`: names with serialised values. -/
abbrev AttrMap := List (ByteString × ByteString)

namespace OptimizerCse

open TensorFlowCore.Graph GraphConstructor

/-- What the optimiser works with beside the graph. -/
structure Env where
  hash64 : ByteString → UInt64
  /-- `Hash32` with the seed of `NodeHash`. -/
  hash32 : ByteString → UInt32
  /-- The addresses of the nodes. -/
  address : ℕ → ℕ
  /-- `consider_fn`, which may be null. -/
  considerFn : Option (Graph AttrMap → ℕ → Bool)

variable (env : Env)

/-- An entry of `in`: what the last edge for the slot has written. -/
def slotSource (g : Graph AttrMap) (id i : ℕ) : Option (ℕ × ℤ) :=
  ((g.inEdges id).filter (isDataAt i)).getLast?.map fun e ↦ (e.src, e.srcOutput)

/-- The sources of the control edges into a node. -/
def controlSources (g : Graph AttrMap) (id : ℕ) : List ℕ :=
  ((g.inEdges id).filter (·.isControlEdge)).map Edge.src

/-- `FillInputs`: the control edges and the inputs, for commutative inputs in a canonical ordering.
An edge to an input that does not exist, and an input without an edge, which `NodeHash` reads,
fail. -/
def fillInputs (g : Graph AttrMap) (id : ℕ) (node : Node AttrMap) :
    Option (List ℕ × List (ℕ × ℤ)) :=
  if (g.inEdges id).all fun e ↦ e.isControlEdge ∨ 0 ≤ e.dstInput ∧ e.dstInput < node.numInputs then
    ((List.range node.numInputs).mapM (slotSource g id)).map fun ins ↦
      ((controlSources g id).insertionSort fun a b ↦ env.address a ≤ env.address b,
        if node.opDef.isCommutative then
          ins.insertionSort fun a b ↦
            env.address a.1 < env.address b.1 ∨ env.address a.1 = env.address b.1 ∧ a.2 ≤ b.2
        else ins)
  else none

/-- `NodeHash`. -/
def nodeHash (g : Graph AttrMap) (id : ℕ) (node : Node AttrMap) : Option UInt64 := do
  let (_, ins) ← fillInputs env g id node
  let h := env.hash64 (node.nodeDef.op ++ decimal node.numOutputs ++
    (node.outputTypes.map decimal).flatten ++ decimal node.numInputs ++
    (ins.map fun p ↦ decimal p.1 ++ decimalInt p.2).flatten)
  let h := (node.nodeDef.attr.map fun attr ↦ (env.hash32 (attr.1 ++ attr.2)).toUInt64).foldl
    (· + ·) h
  return if h = 0 then 1 else h

/-- `EqualAttrs`. -/
def equalAttrs (a b : AttrMap) : Bool :=
  a.length = b.length ∧ ∀ attr ∈ b, a.lookup attr.1 = some attr.2

/-- `HasRefInput`. -/
def hasRefInput (node : Node AttrMap) : Bool := node.inputTypes.any DataType.isRefType

/-- `Equivalent`. -/
def equivalent (g : Graph AttrMap) (a b : ℕ × Node AttrMap) : Option Bool := do
  let (aControl, aIn) ← fillInputs env g a.1 a.2
  let (bControl, bIn) ← fillInputs env g b.1 b.2
  return a.2.nodeDef.op = b.2.nodeDef.op ∧ ¬a.2.opDef.isStateful ∧
    ¬(hasRefInput a.2 ∨ hasRefInput b.2) ∧ equalAttrs a.2.nodeDef.attr b.2.nodeDef.attr ∧
    a.2.numInputs = b.2.numInputs ∧ aIn = bIn ∧ aControl = bControl

/-- Fix up the outgoing edges of `n` to come from `candidate`, then delete `n`. -/
def replaceNode (g : Graph AttrMap) (candidate n : ℕ) : Graph AttrMap :=
  ((g.outEdges n).foldl (fun g e ↦ g.addEdge candidate e.srcOutput e.dst e.dstInput) g).removeNode n

/-- The state of `Optimize`. -/
structure State where
  graph : Graph AttrMap
  /-- The candidate for each hash value. -/
  available : UInt64 → Option ℕ := fun _ ↦ none
  changed : Bool := false

/-- One round of `Optimize`. -/
def visit (s : State) (n : ℕ) : Option State := do
  let node ← s.graph.findNodeId n
  if ¬isOp n ∨ env.considerFn.any (fun considerFn ↦ ¬considerFn s.graph n) then some s
  else
    let h ← nodeHash env s.graph n node
    match s.available h with
    | none => some { s with available := Function.update s.available h (some n) }
    | some candidate =>
      let candidateNode ← s.graph.findNodeId candidate
      let same ← equivalent env s.graph (candidate, candidateNode) (n, node)
      some (if same then { s with graph := replaceNode s.graph candidate n, changed := true
      } else s)

/-- `OptimizeCSE`: the graph, and whether it has changed. -/
def optimizeCse (g : Graph AttrMap) : Option (Graph AttrMap × Bool) := do
  let order ← g.getReversePostOrder
  let s ← order.foldlM (visit env) { graph := g }
  return (s.graph, s.changed)

end OptimizerCse

/-!
## The graphs of common subexpression elimination

The graph that `OptimizeCSE` works on is the original one with some of its nodes merged: each node
has a representative, an edge comes from the representative of its source, and only the edges into
representatives are left (`Merged`). A node is merged into one that has the same op and attributes
and gets the same inputs, up to representatives (`Similar`), and that comes before it in the order
in which the nodes are visited.
-/

namespace OptimizerCse

open TensorFlowCore.Graph GraphConstructor Relation

/-! ### Merged graphs -/

/-- An edge from the representative of its source. -/
def redirect (rep : ℕ → ℕ) (e : Edge) : Edge := { e with src := rep e.src }

/-- A graph with its nodes merged into representatives. -/
structure Merged (g h : Graph AttrMap) (rep : ℕ → ℕ) : Prop where
  idem : ∀ id, rep (rep id) = rep id
  findNodeId_eq : ∀ id, h.findNodeId id = if rep id = id then g.findNodeId id else none
  edges : h.edges.Perm ((g.edges.filter fun e ↦ rep e.dst = e.dst).map (redirect rep))

variable {g h : Graph AttrMap} {rep : ℕ → ℕ} {id : ℕ} {node : Node AttrMap} {e : Edge}

theorem Merged.refl (g : Graph AttrMap) : Merged g g fun id ↦ id where
  idem _ := rfl
  findNodeId_eq id := by simp
  edges := by
    have hredirect : redirect (fun id ↦ id) = id := rfl
    simp [hredirect]

namespace Merged

variable (hm : Merged g h rep)
include hm

theorem mem_edges : e ∈ h.edges ↔ ∃ e' ∈ g.edges, rep e'.dst = e'.dst ∧ redirect rep e' = e := by
  rw [hm.edges.mem_iff]
  simp [and_assoc]

section

variable (hid : rep id = id)
include hid

/-- The edges into a node that is left. -/
theorem inEdges_perm : (h.inEdges id).Perm ((g.inEdges id).map (redirect rep)) := by
  refine (hm.edges.filter _).trans (Perm.of_eq ?_)
  rw [filter_map, filter_filter]
  refine congrArg (map (redirect rep)) (filter_congr fun e _ ↦ ?_)
  show (decide (e.dst = id) && decide (rep e.dst = e.dst)) = decide (e.dst = id)
  rw [← Bool.decide_and]
  refine decide_eq_decide.2 ⟨And.left, fun he ↦ ⟨he, ?_⟩⟩
  rw [he, hid]

/-- An input of a node that is left is fed from the representative. -/
theorem filter_isDataAt {i : ℕ} (he : (g.inEdges id).filter (isDataAt i) = [e]) :
    (h.inEdges id).filter (isDataAt i) = [redirect rep e] := by
  refine perm_singleton.1 (((hm.inEdges_perm hid).filter _).trans (Perm.of_eq ?_))
  rw [filter_map]
  exact congrArg (map (redirect rep)) he

theorem controlSources_perm : (controlSources h id).Perm ((controlSources g id).map rep) := by
  refine (((hm.inEdges_perm hid).filter _).map Edge.src).trans (List.Perm.of_eq ?_)
  rw [List.filter_map, controlSources, List.map_map, List.map_map]
  rfl

theorem slotSource_eq {i : ℕ} (he : (g.inEdges id).filter (isDataAt i) = [e]) :
    slotSource h id i = some (rep e.src, e.srcOutput) := by
  rw [slotSource, hm.filter_isDataAt hid he]
  rfl

theorem findNodeId_of_rep_eq : h.findNodeId id = g.findNodeId id := by
  rw [hm.findNodeId_eq, if_pos hid]

end

theorem rep_eq_of_isSome (hid : (h.findNodeId id).isSome = true) : rep id = id := by
  by_contra hne
  rw [hm.findNodeId_eq, if_neg hne] at hid
  cases hid

end Merged

/-! ### Equivalent nodes -/

/-- Where the inputs of a node come from, up to representatives. -/
def inputsFrom (g : Graph AttrMap) (rep : ℕ → ℕ) (id : ℕ) (node : Node AttrMap) :
    List (Option (ℕ × ℤ)) :=
  (List.range node.numInputs).map fun i ↦
    (g.inputEdge id i).map fun e ↦ (rep e.src, e.srcOutput)

/-- What a graph has to be for the optimiser: wired, without cycles, with all nodes reachable from
source, and with nodes that the registry knows. -/
structure Optimizable (lookUp : ByteString → OpDef) (g : Graph AttrMap) : Prop where
  wired : g.Wired
  acyclic : g.Acyclic
  source : (g.findNodeId kSourceId).isSome = true
  reachable : ∀ {id}, (g.findNodeId id).isSome = true → ReflTransGen g.Adjacent kSourceId id
  opDef : ∀ {id node}, g.findNodeId id = some node → node.opDef = lookUp node.nodeDef.op
  /-- Attributes are a map. -/
  keys : ∀ {id node}, g.findNodeId id = some node → (node.nodeDef.attr.map Prod.fst).Nodup

/-- Nodes that get the same inputs, up to representatives, and compute the same from them. -/
structure Similar (g : Graph AttrMap) (rep : ℕ → ℕ) (a b : ℕ × Node AttrMap) : Prop where
  op : a.2.nodeDef.op = b.2.nodeDef.op
  stateless : a.2.opDef.isStateful = false
  noRefInput : hasRefInput b.2 = false
  attrs : equalAttrs a.2.nodeDef.attr b.2.nodeDef.attr = true
  perm : (inputsFrom g rep a.1 a.2).Perm (inputsFrom g rep b.1 b.2)
  eq : a.2.opDef.isCommutative = false → inputsFrom g rep a.1 a.2 = inputsFrom g rep b.1 b.2
  control : ((controlSources g a.1).map rep).Perm ((controlSources g b.1).map rep)

theorem inputsFrom_comp (f : ℕ → ℕ) : inputsFrom g (f ∘ rep) id node =
    (inputsFrom g rep id node).map (Option.map fun p ↦ (f p.1, p.2)) := by
  rw [inputsFrom, inputsFrom, List.map_map]
  refine List.map_congr_left fun i _ ↦ ?_
  simp only [comp_apply, Option.map_map]
  rfl

/-- Nodes stay similar when representatives are merged. -/
theorem Similar.comp {a b : ℕ × Node AttrMap} (hs : Similar g rep a b) (f : ℕ → ℕ) :
    Similar g (f ∘ rep) a b where
  op := hs.op
  stateless := hs.stateless
  noRefInput := hs.noRefInput
  attrs := hs.attrs
  perm := by
    rw [inputsFrom_comp, inputsFrom_comp]
    exact hs.perm.map _
  eq hc := by rw [inputsFrom_comp, inputsFrom_comp, hs.eq hc]
  control := by
    rw [← List.map_map, ← List.map_map]
    exact hs.control.map f

variable (env : Env)

/-- What `FillInputs` finds at a node that is left. -/
theorem Merged.fillInputs_eq (hm : Merged g h rep) (hw : g.Wired) (hid : rep id = id)
    (hnode : g.findNodeId id = some node) :
    ∃ control ins, fillInputs env h id node = some (control, ins) ∧
      control.Perm ((controlSources g id).map rep) ∧
      (ins.map some).Perm (inputsFrom g rep id node) ∧
      (node.opDef.isCommutative = false → ins.map some = inputsFrom g rep id node) := by
  have hslot : ∀ i ∈ range node.numInputs, slotSource h id i =
      (g.inputEdge id i).map fun e ↦ (rep e.src, e.srcOutput) := fun i hi ↦ by
    obtain ⟨e, hfilter, hedge⟩ :=
      (hw.fedOnce hnode i (mem_range.1 hi)).exists_inputEdge
    rw [hm.slotSource_eq hid hfilter, hedge]
    rfl
  have hsome : ∀ i ∈ range node.numInputs, (slotSource h id i).isSome = true := fun i hi ↦ by
    obtain ⟨e, hfilter, -⟩ := (hw.fedOnce hnode i (mem_range.1 hi)).exists_inputEdge
    rw [hm.slotSource_eq hid hfilter]
    rfl
  obtain ⟨ins, hins, hmap⟩ := exists_mapM_eq_some hsome
  have hfrom : ins.map some = inputsFrom g rep id node := hmap.trans (map_congr_left hslot)
  have hrange : ((h.inEdges id).all fun e ↦
      e.isControlEdge ∨ 0 ≤ e.dstInput ∧ e.dstInput < node.numInputs) = true := by
    refine all_eq_true.2 fun e he ↦ decide_eq_true ?_
    obtain ⟨e', he', rfl⟩ := mem_map.1 ((hm.inEdges_perm hid).mem_iff.1 he)
    obtain ⟨hmem, hdst⟩ := mem_inEdges.1 he'
    cases hcontrol : e'.isControlEdge with
    | true => exact .inl hcontrol
    | false => exact .inr (hw.inRange e' hmem hcontrol (hdst ▸ hnode))
  rw [fillInputs, if_pos hrange, hins]
  refine ⟨_, _, rfl, (perm_insertionSort _ _).trans (hm.controlSources_perm hid), ?_, ?_⟩
  · rw [← hfrom]
    split
    · exact (perm_insertionSort _ _).map some
    · exact Perm.refl _
  · intro hcomm
    rw [hcomm]
    exact hfrom

/-- Nodes that `Equivalent` accepts are similar. -/
theorem Merged.exists_equivalent {lookUp : ByteString → OpDef} {a b : ℕ × Node AttrMap}
    (hm : Merged g h rep) (hg : Optimizable lookUp g) (ha : rep a.1 = a.1) (hb : rep b.1 = b.1)
    (hna : g.findNodeId a.1 = some a.2) (hnb : g.findNodeId b.1 = some b.2) :
    ∃ same, equivalent env h a b = some same ∧ (same = true → Similar g rep a b) := by
  obtain ⟨aControl, aIn, hafill, hac, hap, hae⟩ := hm.fillInputs_eq env hg.wired ha hna
  obtain ⟨bControl, bIn, hbfill, hbc, hbp, hbe⟩ := hm.fillInputs_eq env hg.wired hb hnb
  rw [equivalent, hafill, hbfill]
  refine ⟨_, rfl, fun hsame ↦ ?_⟩
  obtain ⟨hop, hstateful, href, hattrs, -, hin, hcontrol⟩ := of_decide_eq_true hsame
  have hopDef : a.2.opDef = b.2.opDef := by rw [hg.opDef hna, hg.opDef hnb, hop]
  subst hin hcontrol
  refine ⟨hop, Bool.eq_false_iff.2 hstateful, ?_, hattrs, hap.symm.trans hbp, fun hc ↦ ?_,
    hac.symm.trans hbc⟩
  · exact Bool.eq_false_iff.2 fun h ↦ href (.inr h)
  · rw [← hae hc, hbe (hopDef ▸ hc)]

/-! ### Replacing a node -/

/-- The representatives after one more node has been replaced. -/
def retarget (candidate n id : ℕ) : ℕ := if id = n then candidate else id

theorem retarget_of_ne (hid : id ≠ n) : retarget candidate n id = id := if_neg hid

theorem retarget_self : retarget candidate n n = candidate := if_pos rfl

theorem foldl_addEdge_edges (candidate : ℕ) (es : List Edge) (g : Graph AttrMap) :
    es.foldl (fun g e ↦ g.addEdge candidate e.srcOutput e.dst e.dstInput) g =
      { g with edges := g.edges ++ es.map ({ · with src := candidate }) } := by
  induction es generalizing g with
  | nil => simp
  | cons e es ih =>
    rw [foldl_cons, ih]
    simp [addEdge]

/-- The edges after a node has been replaced. -/
theorem replaceNode_edges_perm (hne : candidate ≠ n) : (replaceNode h candidate n).edges.Perm
      ((h.edges.filter fun e ↦ e.dst ≠ n).map (redirect (retarget candidate n))) := by
  have hmap : (h.edges.filter fun e ↦ e.dst ≠ n).map (redirect (retarget candidate n)) =
      (h.edges.filter fun e ↦ e.dst ≠ n).map
        fun e ↦ if decide (e.src = n) then { e with src := candidate } else e := by
    refine map_congr_left fun e _ ↦ ?_
    by_cases hsrc : e.src = n
    · simp [redirect, retarget, hsrc]
    · simp [redirect, retarget, hsrc]
  rw [hmap]
  refine Perm.trans (Perm.of_eq ?_) (map_ite_perm _ _ _).symm
  rw [replaceNode, foldl_addEdge_edges, removeNode]
  dsimp only
  rw [filter_append, filter_map, filter_filter, filter_filter, outEdges, filter_filter]
  congr 1
  · refine filter_congr fun e _ ↦ ?_
    by_cases hsrc : e.src = n <;> simp [hsrc]
  · refine congrArg _ (filter_congr fun e _ ↦ ?_)
    by_cases hsrc : e.src = n <;> simp [hsrc, hne]

theorem findNodeId_replaceNode :
    (replaceNode h candidate n).findNodeId id = if id = n then none else h.findNodeId id := by
  rw [replaceNode, foldl_addEdge_edges, removeNode, findNodeId, findNodeId]
  rw [getElem?_set]
  by_cases hid : n = id
  · subst hid
    rw [if_pos rfl, if_pos rfl]
    split <;> rfl
  · rw [if_neg hid, if_neg (Ne.symm hid)]

/-- Replacing a node that is its own and no other representative merges it into the candidate. -/
theorem Merged.replaceNode {candidate n : ℕ} (hm : Merged g h rep)
    (hcandidate : rep candidate = candidate) (hne : candidate ≠ n)
    (hn : ∀ id, rep id = n → id = n) :
    Merged g (replaceNode h candidate n) (retarget candidate n ∘ rep) where
  idem id := by
    simp only [comp_apply]
    by_cases hid : rep id = n
    · rw [hid, retarget_self, hcandidate, retarget_of_ne hne]
    · rw [retarget_of_ne hid, hm.idem, retarget_of_ne hid]
  findNodeId_eq id := by
    rw [findNodeId_replaceNode, hm.findNodeId_eq, comp_apply]
    by_cases hid : id = n
    · subst hid
      rw [if_pos rfl, if_neg]
      by_cases hrep : rep id = id
      · rw [hrep, retarget_self]
        exact hne
      · rw [retarget_of_ne hrep]
        exact hrep
    · have hrep : rep id ≠ n := fun h ↦ hid (hn id h)
      rw [if_neg hid, retarget_of_ne hrep]
  edges := by
    refine (replaceNode_edges_perm hne).trans ?_
    refine ((hm.edges.filter _).map _).trans (List.Perm.of_eq ?_)
    rw [List.filter_map, List.filter_filter, List.map_map]
    refine congrArg (List.map _) (List.filter_congr fun e _ ↦ ?_)
    show (decide (e.dst ≠ n) && decide (rep e.dst = e.dst)) =
      decide (retarget candidate n (rep e.dst) = e.dst)
    rw [← Bool.decide_and]
    refine decide_eq_decide.2 ⟨fun he ↦ ?_, fun he ↦ ?_⟩
    · rw [he.2, retarget_of_ne he.1]
    · have hrep : rep e.dst ≠ n := fun hrep ↦ by
        rw [hrep, retarget_self] at he
        rw [← he, hcandidate] at hrep
        exact hne hrep
      rw [retarget_of_ne hrep] at he
      exact ⟨he ▸ hrep, he⟩

/-! ### The loop -/

/-- What holds when the nodes of `visited`, which come first in `order`, have been visited. -/
structure Visited (g : Graph AttrMap) (order visited : List ℕ) (s : State) (rep : ℕ → ℕ) :
    Prop where
  merged : Merged g s.graph rep
  similar : ∀ {id}, rep id ≠ id → ∃ a b, g.findNodeId (rep id) = some a ∧
    g.findNodeId id = some b ∧ Similar g rep (rep id, a) (id, b)
  isOp : ∀ {id}, rep id ≠ id → isOp id = true
  mem : ∀ {id}, rep id ≠ id → id ∈ visited ∧ rep id ∈ visited
  earlier : ∀ {id}, rep id ≠ id → order.idxOf (rep id) < order.idxOf id
  available : ∀ {h candidate}, s.available h = some candidate →
    candidate ∈ visited ∧ rep candidate = candidate

namespace Visited

variable {lookUp : ByteString → OpDef} {order visited : List ℕ} {s : State} {n : ℕ}

theorem start (order : List ℕ) : Visited g order [] { graph := g } fun id ↦ id where
  merged := Merged.refl g
  similar h := absurd rfl h
  isOp h := absurd rfl h
  mem h := absurd rfl h
  earlier h := absurd rfl h
  available h := by cases h

section

variable (hv : Visited g order visited s rep)
include hv

/-- A node has been passed over. -/
theorem skip : Visited g order (visited ++ [n]) s rep where
  merged := hv.merged
  similar := hv.similar
  isOp := hv.isOp
  mem h := (hv.mem h).imp (mem_append_left _) (mem_append_left _)
  earlier := hv.earlier
  available h := (hv.available h).imp_left (mem_append_left _)

/-- A node that has not been visited is its own representative. -/
theorem rep_eq (hn : n ∉ visited) : rep n = n := by
  by_contra hne
  exact hn (hv.mem hne).1

/-- A node that has not been visited represents no other. -/
theorem eq_of_rep_eq (hn : n ∉ visited) (hid : rep id = n) : id = n := by
  by_contra hne
  have hmoved : rep id ≠ id := fun h ↦ hne (h.symm.trans hid)
  exact hn (hid ▸ (hv.mem hmoved).2)

/-- A node has become a candidate. -/
theorem insert (hn : n ∉ visited) (h : UInt64) :
    Visited g order (visited ++ [n]) { s with available := Function.update s.available h (some n) }
      rep :=
  { hv.skip with
    available := fun {h' candidate} hcandidate ↦ by
      dsimp only at hcandidate
      by_cases hh : h' = h
      · subst hh
        rw [update_self] at hcandidate
        cases hcandidate
        exact ⟨mem_append_right _ mem_cons_self, hv.rep_eq hn⟩
      · rw [update_of_ne hh] at hcandidate
        exact hv.skip.available hcandidate }

/-- A node has been replaced by a candidate. -/
theorem replace {candidate : ℕ} {a b : Node AttrMap} (hn : n ∉ visited)
    (hcandidate : candidate ∈ visited) (hrep : rep candidate = candidate)
    (hearlier : order.idxOf candidate < order.idxOf n) (hop : Graph.isOp n = true)
    (ha : g.findNodeId candidate = some a) (hb : g.findNodeId n = some b)
    (hsimilar : Similar g rep (candidate, a) (n, b)) : Visited g order (visited ++ [n])
      { s with graph := replaceNode s.graph candidate n, changed := true }
      (retarget candidate n ∘ rep) := by
  have hne : candidate ≠ n := fun h ↦ hn (h ▸ hcandidate)
  have hself : (retarget candidate n ∘ rep) n = candidate := by
    rw [comp_apply, hv.rep_eq hn, retarget_self]
  have hother : ∀ {id}, id ≠ n → (retarget candidate n ∘ rep) id = rep id := fun hid ↦
    retarget_of_ne fun h ↦ hid (hv.eq_of_rep_eq hn h)
  -- the node itself has moved to the candidate, any other one stays with its representative
  have hcases : ∀ {id}, (retarget candidate n ∘ rep) id ≠ id → id = n ∨ id ≠ n ∧ rep id ≠ id := by
    intro id hmoved
    by_cases hid : id = n
    · exact .inl hid
    · exact .inr ⟨hid, hother hid ▸ hmoved⟩
  refine ⟨hv.merged.replaceNode hrep hne fun id ↦ hv.eq_of_rep_eq hn, fun {id} hmoved ↦ ?_,
    fun {id} hmoved ↦ ?_, fun {id} hmoved ↦ ?_, fun {id} hmoved ↦ ?_, fun {h c} hc ↦ ?_⟩
  · obtain rfl | ⟨hid, hmoved⟩ := hcases hmoved
    · rw [hself]
      exact ⟨a, b, ha, hb, hsimilar.comp _⟩
    · obtain ⟨a', b', ha', hb', hsimilar'⟩ := hv.similar hmoved
      rw [hother hid]
      exact ⟨a', b', ha', hb', hsimilar'.comp _⟩
  · obtain rfl | ⟨-, hmoved⟩ := hcases hmoved
    · exact hop
    · exact hv.isOp hmoved
  · obtain rfl | ⟨hid, hmoved⟩ := hcases hmoved
    · rw [hself]
      exact ⟨mem_append_right _ mem_cons_self, mem_append_left _ hcandidate⟩
    · rw [hother hid]
      exact hv.skip.mem hmoved
  · obtain rfl | ⟨hid, hmoved⟩ := hcases hmoved
    · rw [hself]
      exact hearlier
    · rw [hother hid]
      exact hv.earlier hmoved
  · obtain ⟨hmem, hc⟩ := hv.available hc
    have hid : c ≠ n := fun h ↦ hn (h ▸ hmem)
    exact ⟨mem_append_left _ hmem, (hother hid).trans hc⟩

end

/-- A round of the loop. -/
theorem exists_visit (hg : Optimizable lookUp g) (hv : Visited g order visited s rep)
    (hn : n ∉ visited) (hnode : (g.findNodeId n).isSome = true)
    (hvisited : ∀ c ∈ visited, (g.findNodeId c).isSome = true ∧ order.idxOf c < order.idxOf n) :
    ∃ s' rep', visit env s n = some s' ∧ Visited g order (visited ++ [n]) s' rep' := by
  obtain ⟨node, hnode⟩ := Option.isSome_iff_exists.1 hnode
  have hfind : s.graph.findNodeId n = some node := by
    rw [hv.merged.findNodeId_of_rep_eq (hv.rep_eq hn), hnode]
  obtain ⟨control, ins, hfill, -⟩ := hv.merged.fillInputs_eq env hg.wired (hv.rep_eq hn) hnode
  obtain ⟨h, hhash⟩ : ∃ h, nodeHash env s.graph n node = some h := by
    rw [nodeHash, hfill]
    exact ⟨_, rfl⟩
  simp only [visit, hfind, hhash, Option.bind_eq_bind, Option.bind_some]
  split
  · exact ⟨s, rep, rfl, hv.skip⟩
  · rename_i hconsider
    have hop : Graph.isOp n = true := by
      by_contra hop
      exact hconsider (.inl hop)
    cases havailable : s.available h with
    | none => exact ⟨_, rep, rfl, hv.insert hn h⟩
    | some candidate =>
      obtain ⟨hmem, hrep⟩ := hv.available havailable
      obtain ⟨hsome, hearlier⟩ := hvisited candidate hmem
      obtain ⟨a, ha⟩ := Option.isSome_iff_exists.1 hsome
      have hfindCandidate : s.graph.findNodeId candidate = some a := by
        rw [hv.merged.findNodeId_of_rep_eq hrep, ha]
      obtain ⟨same, hsame, hsimilar⟩ := hv.merged.exists_equivalent env (a := (candidate, a))
        (b := (n, node)) hg hrep (hv.rep_eq hn) ha hnode
      simp only [hfindCandidate, hsame, Option.bind_some]
      cases same with
      | false => exact ⟨s, rep, rfl, hv.skip⟩
      | true =>
        exact ⟨_, _, rfl, hv.replace hn hmem hrep hearlier hop ha hnode (hsimilar rfl)⟩

/-- The whole loop. -/
theorem exists_foldlM (hg : Optimizable lookUp g) {rest : List ℕ} (horder : order = visited ++ rest)
    (hnodup : order.Nodup) (hnodes : ∀ id ∈ order, (g.findNodeId id).isSome = true)
    (hv : Visited g order visited s rep) :
    ∃ s' rep', rest.foldlM (visit env) s = some s' ∧ Visited g order order s' rep' := by
  induction rest generalizing visited s rep with
  | nil =>
    rw [append_nil] at horder
    exact ⟨s, rep, rfl, horder ▸ hv⟩
  | cons n rest ih =>
    have hn : n ∉ visited := by
      rw [horder, nodup_append] at hnodup
      exact fun hmem ↦ hnodup.2.2 n hmem n mem_cons_self rfl
    have hvisited : ∀ c ∈ visited,
        (g.findNodeId c).isSome = true ∧ order.idxOf c < order.idxOf n := fun c hc ↦ by
      refine ⟨hnodes c (horder ▸ mem_append_left _ hc), ?_⟩
      rw [horder, idxOf_append_of_mem hc, idxOf_append_of_notMem hn, idxOf_cons_self]
      exact idxOf_lt_length_of_mem hc
    obtain ⟨s', rep', hvisit, hv'⟩ := exists_visit env hg hv hn
      (hnodes n (horder ▸ mem_append_right _ mem_cons_self)) hvisited
    obtain ⟨s'', rep'', hrest, hv''⟩ := ih (by rw [horder]; simp) hv'
    refine ⟨s'', rep'', ?_, hv''⟩
    rw [foldlM_cons, hvisit]
    exact hrest

end Visited

end OptimizerCse

end TensorFlowCore
