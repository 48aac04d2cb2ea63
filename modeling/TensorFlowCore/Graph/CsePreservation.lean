import TensorFlowCore.Graph.CseMerging

/-!
# Common subexpression elimination keeps what a graph computes

A node and its representative compute the same values, by induction on the order in which the nodes
are visited. With that the graph `OptimizeCSE` leaves computes at each of its nodes what the
original one computes there (`exists_optimizeCse`).
-/

namespace TensorFlowCore

open List

namespace OptimizerCse

open TensorFlowCore.Graph GraphConstructor Relation

/-! ### Attributes -/

theorem lookup_eq_some_of_mem {attrs : AttrMap} (hkeys : (attrs.map Prod.fst).Nodup)
    {attr : ByteString × ByteString} (hattr : attr ∈ attrs) :
    attrs.lookup attr.1 = some attr.2 := by
  induction attrs with
  | nil => cases hattr
  | cons attr' attrs ih =>
    obtain ⟨hnot, hkeys⟩ := nodup_cons.1 hkeys
    rw [lookup_cons]
    obtain rfl | hmem := mem_cons.1 hattr
    · rw [beq_self_eq_true]
    · have hne : attr.1 ≠ attr'.1 := fun h ↦ hnot (h ▸ mem_map_of_mem hmem)
      rw [beq_false_of_ne hne]
      exact ih hkeys hmem

theorem lookup_eq_none_of_notMem {attrs : AttrMap} {name : ByteString}
    (hname : name ∉ attrs.map Prod.fst) : attrs.lookup name = none := by
  refine lookup_eq_none_iff.2 fun attr hattr ↦ bne_iff_ne.2 fun h ↦ hname ?_
  exact h ▸ mem_map_of_mem hattr

/-- Attributes that `EqualAttrs` accepts are the same map. -/
theorem lookup_eq_of_equalAttrs {a b : AttrMap} (hb : (b.map Prod.fst).Nodup)
    (heq : equalAttrs a b = true) (name : ByteString) : a.lookup name = b.lookup name := by
  obtain ⟨hlength, hlookup⟩ := of_decide_eq_true heq
  by_cases hname : name ∈ b.map Prod.fst
  · obtain ⟨attr, hattr, rfl⟩ := mem_map.1 hname
    rw [hlookup attr hattr, lookup_eq_some_of_mem hb hattr]
  · have hsub : b.map Prod.fst ⊆ a.map Prod.fst := fun k hk ↦ by
      obtain ⟨attr, hattr, rfl⟩ := mem_map.1 hk
      by_contra hnot
      have hnone := lookup_eq_none_of_notMem hnot
      rw [hlookup attr hattr] at hnone
      cases hnone
    have hperm : (b.map Prod.fst).Perm (a.map Prod.fst) :=
      (hb.subperm hsub).perm_of_length_le (by simp [hlength])
    have hname' : name ∉ a.map Prod.fst := fun h ↦ hname (hperm.mem_iff.2 h)
    rw [lookup_eq_none_of_notMem hname, lookup_eq_none_of_notMem hname']

/-! ### Values -/

/-- An interpretation makes a stateless op a function of its attributes, which are a map, and of its
inputs, in any order for a commutative op. -/
structure Lawful {V : Type} (lookUp : ByteString → OpDef) (I : Interpretation V AttrMap) :
    Prop where
  attrs : ∀ op {a b : AttrMap}, (∀ name, a.lookup name = b.lookup name) →
    I.stateless op a = I.stateless op b
  commutative : ∀ op a {ins ins' : List (Option V)}, (lookUp op).isCommutative = true →
    ins.Perm ins' → I.stateless op a ins = I.stateless op a ins'

variable {V : Type} {lookUp : ByteString → OpDef} {I : Interpretation V AttrMap} {g : Graph AttrMap}
  {rep : ℕ → ℕ} {val : ℕ → ℤ → V} {order : List ℕ} {s : State} {id : ℕ} {node : Node AttrMap}

/-- The values at the inputs of a node, by way of the representatives of their sources. -/
theorem inputValues_eq_map (hrep : ∀ a, g.Adjacent a id → ∀ o, val (rep a) o = val a o) :
    g.inputValues val id node =
      (inputsFrom g rep id node).map (Option.map fun p ↦ val p.1 p.2) := by
  rw [inputsFrom, List.map_map, inputValues]
  refine List.map_congr_left fun i _ ↦ ?_
  rw [Function.comp_apply, Option.map_map]
  cases hedge : g.inputEdge id i with
  | none => rfl
  | some e =>
    obtain ⟨he, hdst, -⟩ := mem_of_find? hedge
    exact congrArg some (hrep e.src ⟨e, he, rfl, hdst⟩ e.srcOutput).symm

/-- Similar nodes compute the same from inputs that are the same up to representatives. -/
theorem Similar.val_eq {a b : ℕ × Node AttrMap} (hs : Similar g rep a b) (hg : Optimizable lookUp g)
    (hI : Lawful lookUp I) (hval : IsValuation I g val) (ha : g.findNodeId a.1 = some a.2)
    (hb : g.findNodeId b.1 = some b.2)
    (hrepa : ∀ c, g.Adjacent c a.1 → ∀ o, val (rep c) o = val c o)
    (hrepb : ∀ c, g.Adjacent c b.1 → ∀ o, val (rep c) o = val c o) (o : ℤ) :
    val a.1 o = val b.1 o := by
  have hopDef : a.2.opDef = b.2.opDef := by rw [hg.opDef ha, hg.opDef hb, hs.op]
  have hattrs : I.stateless a.2.nodeDef.op a.2.nodeDef.attr =
      I.stateless b.2.nodeDef.op b.2.nodeDef.attr := by
    rw [hs.op]
    exact hI.attrs _ (lookup_eq_of_equalAttrs (hg.keys hb) hs.attrs)
  rw [hval _ _ ha, hval _ _ hb, inputValues_eq_map hrepa, inputValues_eq_map hrepb,
    Interpretation.compute, Interpretation.compute, if_neg (by simp [hs.stateless]),
    if_neg (by simp [← hopDef, hs.stateless]), hattrs]
  cases hcomm : a.2.opDef.isCommutative with
  | false => rw [hs.eq hcomm]
  | true =>
    have hcommutative : (lookUp b.2.nodeDef.op).isCommutative = true := by
      rw [← hg.opDef hb, ← hopDef, hcomm]
    exact congrFun (hI.commutative _ _ hcommutative (hs.perm.map _)) o

/-- A node and its representative compute the same. -/
theorem Visited.val_rep (hv : Visited g order order s rep) (hg : Optimizable lookUp g)
    (horder : ∀ a b, g.Adjacent a b → order.idxOf a < order.idxOf b) (hI : Lawful lookUp I)
    (hval : IsValuation I g val) (id : ℕ) (o : ℤ) : val (rep id) o = val id o := by
  induction hn : order.idxOf id using Nat.strong_induction_on generalizing id o with
  | _ n ih =>
    by_cases hmoved : rep id = id
    · rw [hmoved]
    · obtain ⟨a, b, ha, hb, hsimilar⟩ := hv.similar hmoved
      -- the sources of the inputs of both come before the node
      have hearlier := hv.earlier hmoved
      refine hsimilar.val_eq hg hI hval ha hb (fun c hc o ↦ ?_) (fun c hc o ↦ ?_) o
      · exact ih _ (hn ▸ (horder c _ hc).trans hearlier) c o rfl
      · exact ih _ (hn ▸ horder c _ hc) c o rfl

/-! ### The optimised graph -/

/-- The second graph computes what the first one does, with `rep id` in the place of a node `id` of
the first. -/
structure Preserves (lookUp : ByteString → OpDef) (g g' : Graph AttrMap) (rep : ℕ → ℕ) : Prop where
  /-- A node that is left is unchanged. -/
  node : ∀ {id node}, g'.findNodeId id = some node → g.findNodeId id = some node
  fedOnce : ∀ {id node}, g'.findNodeId id = some node → ∀ i < node.numInputs, g'.FedOnce id i
  values : ∀ {V : Type} {I : Interpretation V AttrMap}, Lawful lookUp I → ∀ {val val'},
    IsValuation I g val → IsValuation I g' val' →
      ∀ {id}, (g'.findNodeId id).isSome = true → ∀ o, val' id o = val id o
  /-- A representative is left in the graph, and is the node itself if that is left. -/
  rep_isSome : ∀ {id}, (g.findNodeId id).isSome = true → (g'.findNodeId (rep id)).isSome = true
  rep_eq : ∀ {id}, (g'.findNodeId id).isSome = true → rep id = id
  /-- A representative has the op of the node and computes the same. -/
  rep_op : ∀ {id node}, g.findNodeId id = some node →
    (g'.findNodeId (rep id)).map (·.nodeDef.op) = some node.nodeDef.op
  rep_value : ∀ {V : Type} {I : Interpretation V AttrMap}, Lawful lookUp I → ∀ {val},
    IsValuation I g val → ∀ id o, val (rep id) o = val id o
  /-- Control edges lead from representatives to representatives. -/
  control : ∀ e ∈ g.edges, e.isControlEdge = true →
    ∃ e' ∈ g'.edges, e'.isControlEdge = true ∧ e'.src = rep e.src ∧ e'.dst = rep e.dst
  /-- Source and sink, stateful nodes and nodes with a ref input are left. -/
  kept : ∀ {id node}, g.findNodeId id = some node →
    isOp id = false ∨ node.opDef.isStateful = true ∨ hasRefInput node = true →
      g'.findNodeId id = some node
  edgesExist : g'.EdgesExist
  acyclic : g'.Acyclic

section Result

variable (hv : Visited g order order s rep)
include hv

theorem Visited.isSome_rep (hid : (g.findNodeId id).isSome = true) :
    (g.findNodeId (rep id)).isSome = true := by
  by_cases hmoved : rep id = id
  · rw [hmoved, hid]
  · obtain ⟨a, b, ha, -⟩ := hv.similar hmoved
    rw [ha]
    rfl

theorem Visited.findNodeId_rep (id : ℕ) : s.graph.findNodeId (rep id) = g.findNodeId (rep id) :=
  hv.merged.findNodeId_of_rep_eq (hv.merged.idem id)

theorem Visited.rep_op (hnode : g.findNodeId id = some node) :
    (s.graph.findNodeId (rep id)).map (·.nodeDef.op) = some node.nodeDef.op := by
  rw [hv.findNodeId_rep]
  by_cases hmoved : rep id = id
  · rw [hmoved, hnode]
    rfl
  · obtain ⟨a, b, ha, hb, hsimilar⟩ := hv.similar hmoved
    obtain rfl : node = b := Option.some.inj (hnode.symm.trans hb)
    rw [ha]
    exact congrArg some hsimilar.op

/-- The representatives of the ends of a control edge have a control edge. -/
theorem Visited.control {e : Edge} (he : e ∈ g.edges) (hcontrol : e.isControlEdge = true) :
    ∃ e' ∈ s.graph.edges, e'.isControlEdge = true ∧ e'.src = rep e.src ∧ e'.dst = rep e.dst := by
  have hmem : e.src ∈ controlSources g e.dst :=
    mem_map_of_mem (mem_filter.2 ⟨mem_inEdges.2 ⟨he, rfl⟩, hcontrol⟩)
  have hsource : rep e.src ∈ (controlSources g (rep e.dst)).map rep := by
    by_cases hmoved : rep e.dst = e.dst
    · rw [hmoved]
      exact mem_map_of_mem hmem
    · obtain ⟨a, b, -, -, hsimilar⟩ := hv.similar hmoved
      exact hsimilar.control.mem_iff.2 (mem_map_of_mem hmem)
  obtain ⟨src, hsrc, hrep⟩ := mem_map.1 hsource
  obtain ⟨e', he', rfl⟩ := mem_map.1 hsrc
  obtain ⟨hin, hcontrol'⟩ := mem_filter.1 he'
  obtain ⟨he', hdst⟩ := mem_inEdges.1 hin
  refine ⟨redirect rep e', hv.merged.mem_edges.2 ⟨e', he', ?_, rfl⟩, hcontrol', hrep, hdst⟩
  rw [hdst, hv.merged.idem]

variable (horder : ∀ a b, g.Adjacent a b → order.idxOf a < order.idxOf b)

include horder in
theorem Visited.acyclic : s.graph.Acyclic := by
  refine acyclic_of_rank order.idxOf fun e he ↦ ?_
  obtain ⟨e', he', -, rfl⟩ := hv.merged.mem_edges.1 he
  have hlt := horder e'.src e'.dst ⟨e', he', rfl, rfl⟩
  show order.idxOf (rep e'.src) < order.idxOf e'.dst
  by_cases hmoved : rep e'.src = e'.src
  · rw [hmoved]
    exact hlt
  · exact (hv.earlier hmoved).trans hlt

variable (hg : Optimizable lookUp g)
include hg

theorem Visited.edgesExist : s.graph.EdgesExist := by
  intro e he
  obtain ⟨e', he', hdst, rfl⟩ := hv.merged.mem_edges.1 he
  obtain ⟨hsome₁, hsome₂⟩ := hg.wired.edgesExist e' he'
  refine ⟨?_, ?_⟩
  · show (s.graph.findNodeId (rep e'.src)).isSome = true
    rw [hv.findNodeId_rep]
    exact hv.isSome_rep hsome₁
  · show (s.graph.findNodeId e'.dst).isSome = true
    rw [hv.merged.findNodeId_of_rep_eq hdst]
    exact hsome₂

theorem Visited.fedOnce (hnode : s.graph.findNodeId id = some node) {i : ℕ}
    (hi : i < node.numInputs) :
    ∃ e, g.inputEdge id i = some e ∧ (s.graph.inEdges id).filter (isDataAt i) =
      [redirect rep e] := by
  have hid : rep id = id := hv.merged.rep_eq_of_isSome (by rw [hnode]; rfl)
  rw [hv.merged.findNodeId_of_rep_eq hid] at hnode
  obtain ⟨e, hfilter, hedge⟩ := (hg.wired.fedOnce hnode i hi).exists_inputEdge
  exact ⟨e, hedge, hv.merged.filter_isDataAt hid hfilter⟩

include horder in
/-- The original values are values of the graph that is left. -/
theorem Visited.isValuation (hI : Lawful lookUp I) (hval : IsValuation I g val) :
    IsValuation I s.graph val := by
  intro id node hnode o
  have hid : rep id = id := hv.merged.rep_eq_of_isSome (by rw [hnode]; rfl)
  have hinputs : s.graph.inputValues val id node = g.inputValues val id node := by
    refine map_congr_left fun i hi ↦ ?_
    obtain ⟨e, hedge, hfilter⟩ := hv.fedOnce hg hnode (mem_range.1 hi)
    rw [FedOnce.inputEdge_eq hfilter, hedge]
    exact congrArg some (hv.val_rep hg horder hI hval e.src e.srcOutput)
  rw [hv.merged.findNodeId_of_rep_eq hid] at hnode
  rw [hinputs]
  exact hval id node hnode o

/-- A node that has been removed is a stateless op without a ref input. -/
theorem Visited.kept (hnode : g.findNodeId id = some node)
    (hkept : Graph.isOp id = false ∨ node.opDef.isStateful = true ∨ hasRefInput node = true) :
    rep id = id := by
  by_contra hmoved
  obtain ⟨a, b, ha, hb, hsimilar⟩ := hv.similar hmoved
  obtain rfl : node = b := Option.some.inj (hnode.symm.trans hb)
  have hopDef : a.opDef = node.opDef := by rw [hg.opDef ha, hg.opDef hb, hsimilar.op]
  have hstateless := hsimilar.stateless
  have href := hsimilar.noRefInput
  rw [hopDef] at hstateless
  obtain hop | hstateful | hrefInput := hkept
  · rw [hv.isOp hmoved] at hop
    cases hop
  · rw [hstateless] at hstateful
    cases hstateful
  · rw [href] at hrefInput
    cases hrefInput

include horder in
theorem Visited.preserves : Preserves lookUp g s.graph rep where
  node {id node} hnode := by
    have hid : rep id = id := hv.merged.rep_eq_of_isSome (by rw [hnode]; rfl)
    rw [← hv.merged.findNodeId_of_rep_eq hid, hnode]
  fedOnce hnode i hi := by
    obtain ⟨e, -, hfilter⟩ := hv.fedOnce hg hnode hi
    rw [FedOnce, hfilter]
    rfl
  values hI _ _ hval hval' _ hid o :=
    hval'.eq (hv.edgesExist hg) (wellFounded_feeds (hv.edgesExist hg) (hv.acyclic horder))
      (hv.isValuation horder hg hI hval) hid o
  rep_isSome {id} hid := by
    rw [hv.findNodeId_rep]
    exact hv.isSome_rep hid
  rep_eq hid := hv.merged.rep_eq_of_isSome hid
  rep_op hnode := hv.rep_op hnode
  rep_value hI _ hval id o := hv.val_rep hg horder hI hval id o
  control e he hcontrol := hv.control he hcontrol
  kept {id node} hnode hkept := by
    rw [hv.merged.findNodeId_of_rep_eq (hv.kept hg hnode hkept), hnode]
  edgesExist := hv.edgesExist hg
  acyclic := hv.acyclic horder

end Result

/-- In the order in which the nodes are visited edges lead to later nodes. -/
theorem Optimizable.exists_order (hg : Optimizable lookUp g) :
    ∃ order, g.getReversePostOrder = some order ∧ order.Nodup ∧
      (∀ id ∈ order, (g.findNodeId id).isSome = true) ∧
      ∀ a b, g.Adjacent a b → order.idxOf a < order.idxOf b := by
  obtain ⟨order, horder, hnodup, hmem, hlater⟩ :=
    exists_reversePostOrder hg.wired.edgesExist hg.acyclic (lt_of_isSome hg.source)
  refine ⟨order, horder, hnodup, fun id hid ↦ ?_, ?_⟩
  · obtain rfl | ⟨b, -, e, he, -, rfl⟩ := ReflTransGen.cases_tail ((hmem id).1 hid)
    · exact hg.source
    · exact (hg.wired.edgesExist e he).2
  · rintro a b ⟨e, he, rfl, rfl⟩
    have hsrc : e.src ∈ order := (hmem _).2 (hg.reachable (hg.wired.edgesExist e he).1)
    obtain ⟨before, after, hsplit⟩ := append_of_mem hsrc
    have hafter : e.dst ∈ after :=
      hlater hsplit e.dst (mem_map_of_mem (mem_filter.2 ⟨he, decide_eq_true rfl⟩))
    rw [hsplit, nodup_append] at hnodup
    obtain ⟨-, hnodup, hdisjoint⟩ := hnodup
    have hsrc' : e.src ∉ before := fun h ↦ hdisjoint _ h _ mem_cons_self rfl
    have hdst' : e.dst ∉ before := fun h ↦
      hdisjoint _ h _ (mem_cons_of_mem _ hafter) rfl
    have hne : e.dst ≠ e.src := fun h ↦ (nodup_cons.1 hnodup).1 (h ▸ hafter)
    rw [hsplit, idxOf_append_of_notMem hsrc', idxOf_append_of_notMem hdst', idxOf_cons_self,
      idxOf_cons_ne _ hne.symm]
    omega

/-- `OptimizeCSE` returns a graph that computes what the original one does, for any hash functions,
any addresses and any `consider_fn`. -/
theorem exists_optimizeCse (env : Env) (lookUp : ByteString → OpDef) (g : Graph AttrMap)
    (hg : Optimizable lookUp g) :
    ∃ g' changed rep, optimizeCse env g = some (g', changed) ∧ Preserves lookUp g g' rep := by
  obtain ⟨order, horder, hnodup, hnodes, hlt⟩ := hg.exists_order
  obtain ⟨s, rep, hloop, hv⟩ :=
    Visited.exists_foldlM env hg (nil_append order).symm hnodup hnodes (Visited.start order)
  refine ⟨s.graph, s.changed, rep, ?_, hv.preserves hlt hg⟩
  rw [optimizeCse, horder]
  simp only [Option.bind_eq_bind, Option.bind_some, hloop]
  rfl

/-- The sum of two constants that are the same. -/
def sumOfConsts : Graph AttrMap where
  nodes := [some (endpoint (ascii "_SOURCE")), some (endpoint (ascii "_SINK")),
    some ⟨⟨ascii "a", ascii "Const", [], [], [(ascii "value", ascii "1")]⟩, {}, [], [1], []⟩,
    some ⟨⟨ascii "b", ascii "Const", [], [], [(ascii "value", ascii "1")]⟩, {}, [], [1], []⟩,
    some ⟨⟨ascii "c", ascii "Add", [], [], []⟩, { isCommutative := true }, [1, 1], [1], []⟩]
  edges := [⟨0, -1, 1, -1⟩, ⟨0, -1, 2, -1⟩, ⟨0, -1, 3, -1⟩, ⟨2, 0, 4, 0⟩, ⟨3, 0, 4, 1⟩,
    ⟨4, -1, 1, -1⟩]
  versions := { producer := graphDefVersion, minConsumer := graphDefVersionMinConsumer }

/-- Of the ops of `sumOfConsts` addition is commutative. -/
def additionCommutes (op : ByteString) : OpDef := { isCommutative := op = ascii "Add" }

theorem optimizable_sumOfConsts : Optimizable additionCommutes sumOfConsts := by
  have hlt : ∀ {id}, (sumOfConsts.findNodeId id).isSome = true → id < 5 := fun h ↦ lt_of_isSome h
  have hnode : ∀ {id node}, sumOfConsts.findNodeId id = some node → id < 5 := fun h ↦
    hlt (by rw [h]; rfl)
  have hsource : ∀ id, (⟨0, -1, id, -1⟩ : Edge) ∈ sumOfConsts.edges →
      ReflTransGen sumOfConsts.Adjacent kSourceId id := fun id he ↦ .single ⟨_, he, rfl, rfl⟩
  refine ⟨⟨by unfold EdgesExist; decide, fun {id node} hfind ↦ ?_, fun e he hdata node hfind ↦ ?_⟩,
    acyclic_of_rank (fun id ↦ if id = 1 then 5 else id) (by decide), rfl, fun {id} hid ↦ ?_,
    fun {id node} hfind ↦ ?_, fun {id node} hfind ↦ ?_⟩
  · have hid := hnode hfind
    interval_cases id <;> cases hfind <;> unfold FedOnce <;> decide
  · have hall : ∀ e ∈ sumOfConsts.edges, e.isControlEdge = false →
        (sumOfConsts.findNodeId e.dst).all fun node ↦
          0 ≤ e.dstInput ∧ e.dstInput < node.numInputs := by decide
    simpa [hfind] using hall e he hdata
  · have hid := hlt hid
    interval_cases id
    · exact .refl
    · exact hsource 1 (by decide)
    · exact hsource 2 (by decide)
    · exact hsource 3 (by decide)
    · exact (hsource 2 (by decide)).tail ⟨⟨2, 0, 4, 0⟩, by decide, rfl, rfl⟩
  · have hid := hnode hfind
    interval_cases id <;> cases hfind <;> decide
  · have hid := hnode hfind
    interval_cases id <;> cases hfind <;> decide

theorem exists_optimizeCse_sumOfConsts :
    Optimizable additionCommutes sumOfConsts ∧
      ∃ g' changed rep, optimizeCse ⟨fun _ ↦ 0, fun _ ↦ 0, fun id ↦ id, none⟩ sumOfConsts =
        some (g', changed) ∧ Preserves additionCommutes sumOfConsts g' rep :=
  ⟨optimizable_sumOfConsts, exists_optimizeCse _ _ _ optimizable_sumOfConsts⟩

end OptimizerCse

end TensorFlowCore
