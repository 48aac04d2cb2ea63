import TensorFlowCore.Graph.Serialisation

/-!
# `BuildControlFlowInfo`

The walk of `tensorflow/core/graph/graph_partition.cc` that assigns a frame to each node. It goes
breadth first from source, labels a node when it first comes to it, and compares the frame names
when it comes to it again. The vector `info` is a function on ids here, and the edges out of a node
come in any order. That the walk also moves some control flow nodes to the device of what consumes
them (`OptimizeControlFlowColocation`) is left out: no label depends on a device.
-/

namespace TensorFlowCore

open Function List

/-- `ControlFlowInfo`. The frames are the ids of nodes, and a null pointer where there is none. -/
structure ControlFlowInfo where
  frame : Option ℕ := none
  parentFrame : Option ℕ := none
  frameName : ByteString := []
  iterLevel : ℤ := -1
  deriving DecidableEq

namespace ControlFlowInfo

variable {α : Type}

/-- How the walk ends before it is through: with a status, or at a null pointer. Without fuel it
ends so, too. -/
inductive Fault where
  | status (s : Status)
  | crash
  deriving DecidableEq

/-- `Node::class_` of the node with an id. -/
def nodeClassOf (g : Graph α) (id : ℕ) : Node.NodeClass :=
  ((g.findNodeId id).map Node.nodeClass).getD .other

/-- The walk: `info` and the queue `ready`. -/
structure Walk where
  info : ℕ → ControlFlowInfo
  ready : List ℕ

/-- Set the info of a node, and add it to the ready queue. -/
def Walk.label (s : Walk) (id : ℕ) (i : ControlFlowInfo) : Walk where
  info := Function.update s.info id i
  ready := s.ready ++ [id]

/-- The frame name of a node that a pointer points to. -/
def nameOf (info : ℕ → ControlFlowInfo) (id : Option ℕ) : Except Fault ByteString :=
  match id with
  | none => .error .crash
  | some id => .ok (info id).frameName

def notSameFrame (node : Node α) : Fault :=
  .status (invalidArgument [ascii "All inputs to node ", node.name,
    ascii " must be from the same frame."])

def noFrameName (node : Node α) : Fault :=
  .status (invalidArgument [ascii "The Enter node ", node.name, ascii " must have a frame name."])

/-- The info for the outputs of a node: an Exit exits to the parent frame. -/
def outputInfo (g : Graph α) (info : ℕ → ControlFlowInfo) (id : ℕ) : Except Fault ControlFlowInfo :=
  if nodeClassOf g id = .exit then
    match (info id).parentFrame with
    | none => .error .crash
    | some parent => .ok (info parent)
  else .ok (info id)

variable (getFrameName : α → Except Status ByteString) (g : Graph α)

/-- The end of an edge, from a node whose outputs have the info `curr`. `getFrameName` is
`GetNodeAttr` of the attribute `frame_name`. -/
def visit (curr : ControlFlowInfo) (s : Walk) (e : Edge) : Except Fault Walk :=
  let out := s.info e.dst
  if !Graph.isOp e.dst then .ok s
  else match g.findNodeId e.dst with
  | none => .error .crash
  | some node =>
    if node.nodeClass = .enter then
      if out.iterLevel ≠ -1 then do
        let parentName ← nameOf s.info out.parentFrame
        if parentName ≠ curr.frameName ∨
          curr.iterLevel ≠ out.iterLevel then .error (notSameFrame node)
        else .ok s
      else match getFrameName node.nodeDef.attr with
        | .error status => .error (.status status)
        | .ok frameName =>
          if frameName = [] then .error (noFrameName node)
          else .ok (s.label e.dst ⟨some e.dst, curr.frame, frameName, 0⟩)
    else if node.nodeClass = .nextIteration then
      if out.iterLevel ≠ -1 then
        if out.frameName ≠ curr.frameName then .error (notSameFrame node) else .ok s
      else .ok (s.label e.dst { curr with iterLevel := curr.iterLevel + 1 })
    else if out.iterLevel ≠ -1 then
      if out.frameName ≠ curr.frameName then .error (notSameFrame node) else .ok s
    else .ok (s.label e.dst curr)

/-- The loop, which goes through the edges `outEdges` out of a node in their order. -/
def walk (outEdges : ℕ → List Edge) : ℕ → Walk → Except Fault (ℕ → ControlFlowInfo)
  | fuel, s =>
    match s.ready, fuel with
    | [], _ => .ok s.info
    | _ :: _, 0 => .error .crash
    | id :: ready, fuel + 1 => do
      let curr ← outputInfo g s.info id
      let s ← (outEdges id).foldlM (visit getFrameName g curr) { s with ready }
      walk outEdges fuel s

/-- The source is its own frame. -/
def sourceInfo : ControlFlowInfo := ⟨some Graph.kSourceId, some Graph.kSourceId, [], 0⟩

/-- `BuildControlFlowInfo`. Each node is in the queue once at most. -/
def buildControlFlowInfo (outEdges : ℕ → List Edge) : Except Fault (ℕ → ControlFlowInfo) :=
  walk getFrameName g outEdges (g.numNodeIds + 1)
    { info := Function.update (fun _ ↦ {}) Graph.kSourceId sourceInfo, ready := [Graph.kSourceId] }

/-! ### Frames -/

variable (info : ℕ → ControlFlowInfo)

/-- `InputFrame`. -/
def inputFrame (id : ℕ) : Option ℕ :=
  if nodeClassOf g id ≠ .enter then some id else (info id).parentFrame

/-- `OutputFrame`. -/
def outputFrame (id : ℕ) : Option ℕ :=
  if nodeClassOf g id ≠ .exit then some id else (info id).parentFrame

/-- The name of a frame. -/
def frameNameOf (frame : Option ℕ) : Option ByteString := frame.map fun id ↦ (info id).frameName

/-- The edge stays in a frame: the output frame of its source and the input frame of its destination
have the same name. -/
def SameFrame (e : Edge) : Prop :=
  ∃ name, frameNameOf info (outputFrame g info e.src) = some name ∧
    frameNameOf info (inputFrame g info e.dst) = some name

/-- The node can be reached from source by way of op nodes. -/
def Reachable (id : ℕ) : Prop :=
  Relation.ReflTransGen (fun u v ↦ Graph.isOp v = true ∧ ∃ e ∈ g.edges, e.src = u ∧
    e.dst = v) Graph.kSourceId id

/-- A frame is the source or an Enter, and its own frame. -/
def IsFrame (f : ℕ) : Prop :=
  (info f).frame = some f ∧ (f = Graph.kSourceId ∨
    Graph.isOp f = true ∧ ∃ node, g.findNodeId f = some node ∧ node.nodeClass = .enter)

/-- The label has the name and the parent frame of its frame. -/
structure FramedBy (i : ControlFlowInfo) (f p : ℕ) : Prop where
  frame : i.frame = some f
  isFrame : IsFrame g info f
  name : (info f).frameName = i.frameName
  parentFrame : i.parentFrame = some p
  isFrame_parent : IsFrame g info p
  parentFrame_eq : (info f).parentFrame = some p

/-- Each op node has a label, which is that of a frame; an Enter begins a frame under its own frame
name; and the edges stay in a frame. -/
structure IsLabelling : Prop where
  labelled : ∀ id node, g.findNodeId id = some node → Graph.isOp id = true →
    (info id).iterLevel ≠ -1 ∧ ∃ f p, FramedBy g info (info id) f p
  source : info Graph.kSourceId = sourceInfo
  enter : ∀ id node, g.findNodeId id = some node → Graph.isOp id = true → node.nodeClass = .enter →
    (info id).frame = some id ∧ getFrameName node.nodeDef.attr = .ok (info id).frameName ∧
    (info id).frameName ≠ []
  edge : ∀ e ∈ g.edges, e.src ≠ Graph.kSinkId → Graph.isOp e.dst = true → SameFrame g info e

end ControlFlowInfo

end TensorFlowCore

/-!
## The frame check of `BuildControlFlowInfo`

If the walk returns, each node that can be reached has a label, and each edge stays in one frame
(`buildControlFlowInfo_sound`). The labels are never changed (`Extends`), so what the walk has
compared stays equal: its invariant says that the edges out of the nodes that have left the queue
have been compared.
-/

namespace TensorFlowCore.ControlFlowInfo

open ExceptPost Function List

variable {α : Type} {getFrameName : α → Except Status ByteString} {g : Graph α}
  {info info' info'' : ℕ → ControlFlowInfo} {i curr : ControlFlowInfo} {s s' s'' : Walk} {v : ℕ}
    {e : Edge}

/-! ### Labels -/

/-- The node has a label. -/
def Visited (info : ℕ → ControlFlowInfo) (v : ℕ) : Prop := (info v).iterLevel ≠ -1

/-- The labels of `info` are those of `info'`, which may have more. -/
def Extends (info info' : ℕ → ControlFlowInfo) : Prop := ∀ v, Visited info v → info' v = info v

theorem Extends.refl (info : ℕ → ControlFlowInfo) : Extends info info := fun _ _ ↦ rfl

theorem Extends.visited (h : Extends info info') (hv : Visited info v) : Visited info' v := by
  unfold Visited
  rwa [h v hv]

theorem Extends.trans (h : Extends info info') (h' : Extends info' info'') : Extends info info'' :=
  fun v hv ↦ (h' v (h.visited hv)).trans (h v hv)

theorem extends_update (hv : ¬ Visited info v) : Extends info (Function.update info v i) := by
  intro u hu
  refine update_of_ne ?_ ..
  rintro rfl
  exact hv hu

/-- A label whose frames are labelled. -/
structure WellFramed (g : Graph α) (info : ℕ → ControlFlowInfo) (i : ControlFlowInfo) : Prop where
  level : 0 ≤ i.iterLevel
  framedBy : ∃ f p, FramedBy g info i f p ∧ Visited info f ∧ Visited info p

theorem WellFramed.parent (h : WellFramed g info i) :
    ∃ p, i.parentFrame = some p ∧ Visited info p := by
  obtain ⟨_, p, hframed, -, hp⟩ := h.framedBy
  exact ⟨p, hframed.parentFrame, hp⟩

theorem WellFramed.extends (h : WellFramed g info i) (hext : Extends info info') :
    WellFramed g info' i := by
  obtain ⟨f, p, ⟨hframe, hf, hname, hparent, hp, heq⟩, hvisited, hvisited'⟩ := h.framedBy
  refine ⟨h.level, f, p, ⟨hframe, ?_, ?_, hparent, ?_, ?_⟩, hext.visited hvisited,
    hext.visited hvisited'⟩
  · rwa [IsFrame, hext f hvisited]
  · rwa [hext f hvisited]
  · rwa [IsFrame, hext p hvisited']
  · rwa [hext f hvisited]

/-- The labels of a walk. -/
structure Good (getFrameName : α → Except Status ByteString) (g : Graph α) (info : ℕ →
    ControlFlowInfo) : Prop where
  source : info Graph.kSourceId = sourceInfo
  wellFramed : ∀ v, Visited info v → WellFramed g info (info v)
  enter : ∀ v node, Visited info v → Graph.isOp v = true → g.findNodeId v = some node →
    node.nodeClass = .enter →
    (info v).frame = some v ∧ getFrameName node.nodeDef.attr = .ok (info v).frameName ∧
    (info v).frameName ≠ []

theorem Good.visited_source (h : Good getFrameName g info) : Visited info Graph.kSourceId := by
  unfold Visited
  rw [h.source]
  decide

/-- A new label. -/
theorem Good.update {node : Node α} (h : Good getFrameName g info) (hv : ¬ Visited info v)
    (hop : Graph.isOp v = true) (hnode : g.findNodeId v = some node)
    (hi : WellFramed g (Function.update info v i) i) (henter : node.nodeClass = .enter →
      i.frame = some v ∧ getFrameName node.nodeDef.attr = .ok i.frameName ∧ i.frameName ≠ []) :
    Good getFrameName g (Function.update info v i) := by
  have hext : Extends info (Function.update info v i) := extends_update hv
  refine ⟨?_, fun u hu ↦ ?_, fun u node' hu hop' hnode' henter' ↦ ?_⟩
  · rw [hext _ h.visited_source, h.source]
  · obtain rfl | hne := eq_or_ne u v
    · rwa [update_self]
    · have hu' : Visited info u := by
        unfold Visited at hu
        rwa [update_of_ne hne] at hu
      rw [update_of_ne hne]
      exact (h.wellFramed u hu').extends hext
  · obtain rfl | hne := eq_or_ne u v
    · rw [update_self]
      obtain rfl := Option.some.inj (hnode.symm.trans hnode')
      exact henter henter'
    · have hu' : Visited info u := by
        unfold Visited at hu
        rwa [update_of_ne hne] at hu
      rw [update_of_ne hne]
      exact h.enter u node' hu' hop' hnode' henter'

/-- The info for the outputs of a node. -/
theorem Good.outputInfo (h : Good getFrameName g info) (hv : Visited info v) :
    ∃ curr, outputInfo g info v = .ok curr ∧ WellFramed g info curr ∧
      frameNameOf info (outputFrame g info v) = some curr.frameName := by
  unfold ControlFlowInfo.outputInfo outputFrame
  by_cases hexit : nodeClassOf g v = .exit
  · obtain ⟨p, hp, hvisited⟩ := (h.wellFramed v hv).parent
    rw [if_pos hexit, if_neg (not_not.2 hexit), hp]
    exact ⟨info p, rfl, h.wellFramed p hvisited, rfl⟩
  · rw [if_neg hexit, if_pos hexit]
    exact ⟨info v, rfl, h.wellFramed v hv, rfl⟩

/-- The frames of a labelled node keep their names. -/
theorem Good.frameNameOf_inputFrame (h : Good getFrameName g info) (hext : Extends info info')
    (hv : Visited info v) :
    frameNameOf info' (inputFrame g info' v) = frameNameOf info (inputFrame g info v) := by
  unfold inputFrame
  rw [hext v hv]
  split
  · exact congrArg (some ·.frameName) (hext v hv)
  · obtain ⟨p, hp, hvisited⟩ := (h.wellFramed v hv).parent
    rw [hp]
    exact congrArg (some ·.frameName) (hext p hvisited)

theorem Good.frameNameOf_outputFrame (h : Good getFrameName g info) (hext : Extends info info')
    (hv : Visited info v) :
    frameNameOf info' (outputFrame g info' v) = frameNameOf info (outputFrame g info v) := by
  unfold outputFrame
  rw [hext v hv]
  split
  · exact congrArg (some ·.frameName) (hext v hv)
  · obtain ⟨p, hp, hvisited⟩ := (h.wellFramed v hv).parent
    rw [hp]
    exact congrArg (some ·.frameName) (hext p hvisited)

/-! ### One edge -/

theorem nodeClassOf_eq {node : Node α} (h : g.findNodeId v = some node) :
    nodeClassOf g v = node.nodeClass := by
  rw [nodeClassOf, h]
  rfl

/-- The number of nodes without a label. -/
def unvisited (g : Graph α) (info : ℕ → ControlFlowInfo) : ℕ :=
  ((Finset.range g.numNodeIds).filter fun v ↦ (info v).iterLevel = -1).card

/-- What part of the walk does: it labels nodes, and it adds them to the queue. -/
structure Grown (g : Graph α) (s s' : Walk) : Prop where
  extends_ : Extends s.info s'.info
  ready : s.ready ⊆ s'.ready
  labelled : ∀ v, Visited s'.info v → Visited s.info v ∨ v ∈ s'.ready
  queued : ∀ v ∈ s'.ready, v ∈ s.ready ∨ Visited s'.info v
  measure : s'.ready.length + unvisited g s'.info ≤ s.ready.length + unvisited g s.info

theorem Grown.refl (s : Walk) : Grown g s s :=
  ⟨.refl _, Subset.refl _, fun _ hv ↦ .inl hv, fun _ hv ↦ .inl hv, le_refl _⟩

theorem Grown.trans (h : Grown g s s') (h' : Grown g s' s'') : Grown g s s'' where
  extends_ := h.extends_.trans h'.extends_
  ready _ hv := h'.ready (h.ready hv)
  labelled v hv := by
    obtain hv | hv := h'.labelled v hv
    · exact (h.labelled v hv).imp_right fun hmem ↦ h'.ready hmem
    · exact .inr hv
  queued v hv := by
    obtain hv | hv := h'.queued v hv
    · exact (h.queued v hv).imp_right h'.extends_.visited
    · exact .inr hv
  measure := h'.measure.trans h.measure

/-- Labelling a node that has no label changes that of no other node. -/
theorem grown_label (hv : ¬ Visited s.info v) (hlt : v < g.numNodeIds) (hi : i.iterLevel ≠ -1) :
    Grown g s (s.label v i) where
  extends_ := extends_update hv
  ready := subset_append_left _ _
  labelled u hu := by
    obtain rfl | hne := eq_or_ne u v
    · exact .inr (mem_append_right _ mem_cons_self)
    · refine .inl ?_
      have hu' : (update s.info v i u).iterLevel ≠ -1 := hu
      rwa [update_of_ne hne] at hu'
  queued u hu := by
    refine (mem_append.1 hu).imp_right fun hmem ↦ ?_
    obtain rfl := mem_singleton.1 hmem
    show (update s.info u i u).iterLevel ≠ -1
    rwa [update_self]
  measure := by
    show (s.ready ++ [v]).length + unvisited g (update s.info v i) ≤ s.ready.length +
      unvisited g s.info
    have hmem : v ∈ (Finset.range g.numNodeIds).filter fun u ↦ (s.info u).iterLevel = -1 :=
      Finset.mem_filter.2 ⟨Finset.mem_range.2 hlt, not_not.1 hv⟩
    have hsub : ((Finset.range g.numNodeIds).filter fun u ↦ (update s.info v i u).iterLevel = -1) ⊆
        ((Finset.range g.numNodeIds).filter fun u ↦ (s.info u).iterLevel = -1).erase v := by
      intro u hu
      obtain ⟨hrange, hlevel⟩ := Finset.mem_filter.1 hu
      have hne : u ≠ v := by
        rintro rfl
        rw [update_self] at hlevel
        exact hi hlevel
      rw [update_of_ne hne] at hlevel
      exact Finset.mem_erase.2 ⟨hne, Finset.mem_filter.2 ⟨hrange, hlevel⟩⟩
    have hcard := Finset.card_le_card hsub
    have hpos := Finset.card_pos.2 ⟨v, hmem⟩
    rw [Finset.card_erase_of_mem hmem] at hcard
    rw [length_append, length_singleton]
    unfold unvisited
    omega

/-- The end of the edge has a label, and its input frame has the name `name`. -/
def Enters (g : Graph α) (info : ℕ → ControlFlowInfo) (name : ByteString) (e : Edge) : Prop :=
  Graph.isOp e.dst = true → Visited info e.dst ∧ frameNameOf info (inputFrame g info e.dst) =
    some name

theorem Enters.extends {name : ByteString} (h : Enters g info name e)
    (hgood : Good getFrameName g info) (hext : Extends info info') : Enters g info' name e := by
  intro hop
  obtain ⟨hv, hname⟩ := h hop
  exact ⟨hext.visited hv, (hgood.frameNameOf_inputFrame hext hv).trans hname⟩

/-- The error of a call that returns a status. -/
def IsStatus (f : Fault) : Prop := ∃ status, status ≠ Status.ok ∧ f = .status status

/-- A node gets its label. -/
theorem Good.label {node : Node α} (hgood : Good getFrameName g s.info)
    (hv : ¬ Visited s.info e.dst) (hop : Graph.isOp e.dst = true)
    (hnode : g.findNodeId e.dst = some node) {name : ByteString}
    (hi : WellFramed g (Function.update s.info e.dst i) i) (henter : node.nodeClass = .enter →
      i.frame = some e.dst ∧ getFrameName node.nodeDef.attr = .ok i.frameName ∧ i.frameName ≠ [])
    (hname : frameNameOf (Function.update s.info e.dst i)
      (if node.nodeClass ≠ .enter then some e.dst else i.parentFrame) = some name) :
    Good getFrameName g (s.label e.dst i).info ∧ Grown g s (s.label e.dst i) ∧
      Enters g (s.label e.dst i).info name e := by
  have hlevel : i.iterLevel ≠ -1 := by
    have := hi.level
    omega
  have hlt : e.dst < g.numNodeIds := by
    by_contra hge
    rw [Graph.findNodeId, getElem?_eq_none (not_lt.1 hge)] at hnode
    cases hnode
  refine ⟨hgood.update hv hop hnode hi henter, grown_label hv hlt hlevel, fun _ ↦ ⟨?_, ?_⟩⟩
  · show (Function.update s.info e.dst i e.dst).iterLevel ≠ -1
    rwa [update_self]
  · show frameNameOf (Function.update s.info e.dst i)
      (inputFrame g (Function.update s.info e.dst i) e.dst) = _
    rw [inputFrame, nodeClassOf_eq hnode, update_self]
    exact hname

/-- A node that has a label already is compared. -/
theorem post_compare {node : Node α} (hgood : Good getFrameName g s.info)
    (hv : Visited s.info e.dst) (hnode : g.findNodeId e.dst = some node)
    (hclass : node.nodeClass ≠ .enter) :
    Post (if (s.info e.dst).frameName ≠ curr.frameName then Except.error
      (notSameFrame node) else .ok s)
      (fun s' ↦ Good getFrameName g s'.info ∧ Grown g s s' ∧ Enters g s'.info curr.frameName e)
      IsStatus := by
  split
  · exact post_error.2 ⟨_, invalidArgument_ne_ok _, rfl⟩
  · rename_i hname
    refine post_ok.2 ⟨hgood, .refl s, fun _ ↦ ⟨hv, ?_⟩⟩
    rw [inputFrame, nodeClassOf_eq hnode, if_pos hclass]
    exact congrArg some (not_not.1 hname)

/-- A node that is not an Enter gets the label of the frame that the edge comes from. -/
theorem Good.label_curr {node : Node α} (hgood : Good getFrameName g s.info)
    (hcurr : WellFramed g s.info curr) (hv : ¬ Visited s.info e.dst) (hop : Graph.isOp e.dst = true)
    (hnode : g.findNodeId e.dst = some node) (hclass : node.nodeClass ≠ .enter) {level : ℤ}
    (hlevel : 0 ≤ level) :
    Good getFrameName g (s.label e.dst { curr with iterLevel := level }).info ∧
      Grown g s (s.label e.dst { curr with iterLevel := level }) ∧
      Enters g (s.label e.dst { curr with iterLevel := level }).info curr.frameName e := by
  have hframed := hcurr.extends (extends_update (i := { curr with iterLevel := level }) hv)
  obtain ⟨f, p, ⟨hframe, hf, hname, hparent, hp, heq⟩, hvisited⟩ := hframed.framedBy
  refine hgood.label hv hop hnode ⟨hlevel, f, p, ⟨hframe, hf, hname, hparent, hp, heq⟩, hvisited⟩
    (fun h ↦ (hclass h).elim) ?_
  rw [if_pos hclass]
  show some (Function.update s.info e.dst _ e.dst).frameName = _
  rw [update_self]

/-- An edge labels its destination, or finds there the label that it would give. -/
theorem post_visit (hget : ∀ a, getFrameName a ≠ .error .ok) (hgood : Good getFrameName g s.info)
    (hcurr : WellFramed g s.info curr)
    (hdst : Graph.isOp e.dst = true → ∃ node, g.findNodeId e.dst = some node) :
    Post (visit getFrameName g curr s e)
      (fun s' ↦ Good getFrameName g s'.info ∧ Grown g s s' ∧ Enters g s'.info curr.frameName e)
      IsStatus := by
  unfold visit
  cases hop : Graph.isOp e.dst with
  | false => exact post_ok.2 ⟨hgood, .refl s, fun h ↦ (Bool.false_ne_true (hop.symm.trans h)).elim⟩
  | true =>
    obtain ⟨node, hnode⟩ := hdst hop
    rw [hnode]
    simp only [Bool.not_true, Bool.false_eq_true, if_false]
    by_cases hclass : node.nodeClass = .enter
    · rw [if_pos hclass]
      by_cases hv : (s.info e.dst).iterLevel ≠ -1
      · -- the input frame of an Enter is its parent frame
        obtain ⟨p, hp, -⟩ := (hgood.wellFramed _ hv).parent
        rw [if_pos hv, hp]
        show Post (if (s.info p).frameName ≠ curr.frameName ∨
          curr.iterLevel ≠ (s.info e.dst).iterLevel then
          Except.error (notSameFrame node) else .ok s) _ _
        split
        · exact post_error.2 ⟨_, invalidArgument_ne_ok _, rfl⟩
        · rename_i hname
          rw [not_or, not_not] at hname
          refine post_ok.2 ⟨hgood, .refl s, fun _ ↦ ⟨hv, ?_⟩⟩
          rw [inputFrame, nodeClassOf_eq hnode, if_neg (not_not.2 hclass), hp]
          exact congrArg some hname.1
      · rw [if_neg hv]
        cases hattr : getFrameName node.nodeDef.attr with
        | error status =>
          refine post_error.2 ⟨status, ?_, rfl⟩
          rintro rfl
          exact hget _ hattr
        | ok name =>
          show Post (if name = [] then Except.error (noFrameName node) else .ok _) _ _
          split
          · exact post_error.2 ⟨_, invalidArgument_ne_ok _, rfl⟩
          · rename_i hne
            obtain ⟨f, p, hframed, hvisited, -⟩ := hcurr.framedBy
            have hext := extends_update (i := ⟨some e.dst, curr.frame, name, 0⟩) hv
            have hself : update s.info e.dst ⟨some e.dst, curr.frame, name, 0⟩ e.dst =
              ⟨some e.dst, curr.frame, name, 0⟩ := update_self ..
            -- the Enter is its own frame, and the frame that it is entered from its parent
            refine post_ok.2
              (hgood.label hv hop hnode ⟨le_refl 0, e.dst, f,
              ⟨rfl, ?_, ?_, hframed.frame, ?_, ?_⟩, ?_,
              hext.visited hvisited⟩ (fun _ ↦ ⟨rfl, hattr, hne⟩) ?_)
            · rw [IsFrame, hself]
              exact ⟨rfl, .inr ⟨hop, node, hnode, hclass⟩⟩
            · rw [hself]
            · rw [IsFrame, hext f hvisited]
              exact hframed.isFrame
            · rw [hself]
              exact hframed.frame
            · unfold Visited
              rw [hself]
              show (0 : ℤ) ≠ -1
              decide
            · rw [if_neg (not_not.2 hclass)]
              exact (congrArg (frameNameOf _) hframed.frame).trans
                (congrArg some ((congrArg frameName (hext f hvisited)).trans hframed.name))
    · rw [if_neg hclass]
      by_cases hv : (s.info e.dst).iterLevel ≠ -1
      · rw [if_pos hv, if_pos hv, ite_self]
        exact post_compare hgood hv hnode hclass
      · rw [if_neg hv, if_neg hv]
        have hlevel := hcurr.level
        split
        · exact post_ok.2 (hgood.label_curr hcurr hv hop hnode hclass (by omega))
        · exact post_ok.2 (hgood.label_curr hcurr hv hop hnode hclass hlevel)

/-! ### The walk -/

theorem post_foldlM_visit (hget : ∀ a, getFrameName a ≠ .error .ok) {es : List Edge}
    (hes : ∀ e ∈ es, Graph.isOp e.dst = true → ∃ node, g.findNodeId e.dst = some node)
    (hgood : Good getFrameName g s.info) (hcurr : WellFramed g s.info curr) :
    Post (es.foldlM (visit getFrameName g curr) s)
      (fun s' ↦ Good getFrameName g s'.info ∧ Grown g s s' ∧
        ∀ e ∈ es, Enters g s'.info curr.frameName e)
      IsStatus := by
  induction es generalizing s with
  | nil => exact post_ok.2 ⟨hgood, .refl s, forall_mem_nil _⟩
  | cons e es ih =>
    obtain ⟨he, hes⟩ := forall_mem_cons.1 hes
    rw [foldlM_cons]
    refine (post_visit hget hgood hcurr he).bind fun s' ⟨hgood', hgrown, henters⟩ ↦ ?_
    refine (ih hes hgood' (hcurr.extends hgrown.extends_)).mono
      (fun s'' ⟨hgood'', hgrown', hall⟩ ↦ ?_) fun _ ↦ id
    exact ⟨hgood'', hgrown.trans hgrown',
      forall_mem_cons.2 ⟨henters.extends hgood' hgrown'.extends_, hall⟩⟩

/-- The edges out of the node have been compared. -/
def Checked (g : Graph α) (outEdges : ℕ → List Edge) (info : ℕ → ControlFlowInfo) (v : ℕ) : Prop :=
  ∀ e ∈ outEdges v, Graph.isOp e.dst = true → Visited info e.dst ∧
    ∃ name, frameNameOf info (outputFrame g info v) = some name ∧
      frameNameOf info (inputFrame g info e.dst) = some name

theorem Checked.extends {outEdges : ℕ → List Edge} (h : Checked g outEdges info v)
    (hgood : Good getFrameName g info) (hv : Visited info v) (hext : Extends info info') :
    Checked g outEdges info' v := by
  intro e he hop
  obtain ⟨hvisited, name, hout, hin⟩ := h e he hop
  exact ⟨hext.visited hvisited, name, (hgood.frameNameOf_outputFrame hext hv).trans hout,
    (hgood.frameNameOf_inputFrame hext hvisited).trans hin⟩

/-- The invariant of the walk: a labelled node that has left the queue is checked. -/
structure Inv (getFrameName : α → Except Status ByteString) (g : Graph α) (outEdges : ℕ →
    List Edge) (s : Walk) :
    Prop where
  good : Good getFrameName g s.info
  queued : ∀ v ∈ s.ready, Visited s.info v
  checked : ∀ v, Visited s.info v → v ∈ s.ready ∨ Checked g outEdges s.info v

/-- The walk labels what it reaches, and checks every edge of what it has labelled. -/
theorem post_walk (hget : ∀ a, getFrameName a ≠ .error .ok) {outEdges : ℕ → List Edge}
    (hedges : ∀ v, ∀ e ∈ outEdges v, Graph.isOp e.dst = true →
      ∃ node, g.findNodeId e.dst = some node) {fuel : ℕ} (h : Inv getFrameName g outEdges s)
    (hfuel : s.ready.length + unvisited g s.info ≤ fuel) :
    Post (walk getFrameName g outEdges fuel s)
      (fun info ↦ Good getFrameName g info ∧ ∀ v, Visited info v → Checked g outEdges info v)
      IsStatus := by
  induction fuel generalizing s with
  | zero =>
    obtain ⟨info, ready⟩ := s
    obtain - | ⟨v, ready⟩ := ready
    · exact post_ok.2 ⟨h.good, fun v hv ↦ (h.checked v hv).resolve_left not_mem_nil⟩
    · have hlength : (v :: ready).length ≤ 0 := (Nat.le_add_right _ _).trans hfuel
      cases hlength
  | succ fuel ih =>
    obtain ⟨info, ready⟩ := s
    obtain - | ⟨v, ready⟩ := ready
    · exact post_ok.2 ⟨h.good, fun v hv ↦ (h.checked v hv).resolve_left not_mem_nil⟩
    · have hv : Visited info v := h.queued v mem_cons_self
      obtain ⟨curr, hcurr, hframed, hname⟩ := h.good.outputInfo hv
      show Post (outputInfo g info v >>= fun curr ↦
        (outEdges v).foldlM (visit getFrameName g curr) ⟨info, ready⟩ >>= walk getFrameName g
          outEdges fuel) _ _
      rw [hcurr, ok_bind]
      refine (post_foldlM_visit (s := ⟨info, ready⟩) hget (hedges v) h.good hframed).bind
        fun s' ⟨hgood, hgrown, henters⟩ ↦ ih ⟨hgood, fun u hu ↦ ?_, fun u hu ↦ ?_⟩ ?_
      · obtain hu | hu := hgrown.queued u hu
        · exact hgrown.extends_.visited (h.queued u (mem_cons_of_mem v hu))
        · exact hu
      · obtain hu | hu := hgrown.labelled u hu
        · obtain hmem | hchecked := h.checked u hu
          · obtain rfl | hmem := mem_cons.1 hmem
            · -- the node whose edges have just been compared
              refine .inr fun e he hop ↦ ?_
              obtain ⟨hvisited, hin⟩ := henters e he hop
              exact ⟨hvisited, curr.frameName,
                (h.good.frameNameOf_outputFrame hgrown.extends_ hv).trans hname, hin⟩
            · exact .inl (hgrown.ready hmem)
          · exact .inr (hchecked.extends h.good hu hgrown.extends_)
        · exact .inl hu
      · have hmeasure : s'.ready.length + unvisited g s'.info ≤ ready.length + unvisited g info :=
          hgrown.measure
        have hlength : (v :: ready).length + unvisited g info ≤ fuel + 1 := hfuel
        rw [length_cons] at hlength
        omega

theorem inv_init (outEdges : ℕ → List Edge) : Inv getFrameName g outEdges
    { info := Function.update (fun _ ↦ {}) Graph.kSourceId sourceInfo,
      ready := [Graph.kSourceId] } := by
  have hvisited : ∀ v, Visited (update (fun _ ↦ {}) Graph.kSourceId sourceInfo) v →
      v = Graph.kSourceId := by
    intro v hv
    by_contra hne
    unfold Visited at hv
    rw [update_of_ne hne] at hv
    exact hv rfl
  have hsource : update (fun _ ↦ ({} : ControlFlowInfo)) Graph.kSourceId sourceInfo
    Graph.kSourceId =
    sourceInfo := update_self ..
  have hlevel : Visited (update (fun _ ↦ {}) Graph.kSourceId sourceInfo) Graph.kSourceId := by
    unfold Visited
    rw [hsource]
    decide
  refine ⟨⟨hsource, fun v hv ↦ ?_, fun v node hv hop ↦ ?_⟩, fun v hv ↦ ?_, fun v hv ↦ .inl ?_⟩
  · obtain rfl := hvisited v hv
    refine Eq.subst (motive := WellFramed g _) hsource.symm ?_
    have hframe : IsFrame g (update (fun _ ↦ {}) Graph.kSourceId sourceInfo) Graph.kSourceId :=
      ⟨congrArg frame hsource, .inl rfl⟩
    exact ⟨le_refl 0, _, _, ⟨rfl, hframe, congrArg frameName hsource, rfl, hframe,
      congrArg parentFrame hsource⟩,
      hlevel, hlevel⟩
  · obtain rfl := hvisited v hv
    cases hop
  · obtain rfl := mem_singleton.1 hv
    exact hlevel
  · exact mem_singleton.2 (hvisited v hv)

/-- **The frame check is sound.** If the walk returns, its labels are a labelling of the graph, and
it returns an error if there is none. It does not matter in which order it goes through the edges
out of a node. -/
theorem buildControlFlowInfo_sound (getFrameName : α → Except Status ByteString) (g : Graph α)
    (outEdges : ℕ → List Edge) (hget : ∀ a, getFrameName a ≠ .error .ok)
    (hnodes : ∀ e ∈ g.edges, (∃ node, g.findNodeId e.src = some node) ∧
      ∃ node, g.findNodeId e.dst = some node)
    (hreach : ∀ id node, g.findNodeId id = some node → Graph.isOp id = true → Reachable g id)
    (horder : ∀ id, (outEdges id).Perm (g.outEdges id)) :
    (∀ info, buildControlFlowInfo getFrameName g outEdges = .ok info →
      IsLabelling getFrameName g info) ∧
      ((¬ ∃ info, IsLabelling getFrameName g info) →
        ∃ status, status ≠ Status.ok ∧ buildControlFlowInfo getFrameName g outEdges =
          .error (.status status)) := by
  have hmem : ∀ id e, e ∈ outEdges id ↔ e ∈ g.edges ∧ e.src = id := by
    intro id e
    rw [(horder id).mem_iff, Graph.outEdges, mem_filter, decide_eq_true_eq]
  have hpost : Post (buildControlFlowInfo getFrameName g outEdges)
      (fun info ↦ Good getFrameName g info ∧ ∀ v, Visited info v → Checked g outEdges info v)
      IsStatus := by
    refine post_walk hget (fun id e he _ ↦ (hnodes e ((hmem id e).1 he).1).2) (inv_init outEdges) ?_
    refine (Nat.add_comm 1 _).trans_le (Nat.add_le_add_right ?_ 1)
    exact (Finset.card_filter_le _ _).trans_eq (Finset.card_range _)
  have hlabelling : ∀ info, buildControlFlowInfo getFrameName g outEdges = .ok info →
      IsLabelling getFrameName g info := by
    intro info hok
    obtain ⟨hgood, hchecked⟩ := hpost.of_ok hok
    have hvisited : ∀ id, Reachable g id → Visited info id := by
      intro id hid
      induction hid with
      | refl => exact hgood.visited_source
      | tail _ hstep ih =>
        obtain ⟨hop, e, he, rfl, rfl⟩ := hstep
        exact (hchecked _ ih e ((hmem _ e).2 ⟨he, rfl⟩) hop).1
    refine ⟨fun id node hnode hop ↦ ?_, hgood.source,
      fun id node hnode hop ↦ hgood.enter id node (hvisited id (hreach id node hnode hop))
      hop hnode,
      fun e he hsrc hop ↦ ?_⟩
    · have hv := hvisited id (hreach id node hnode hop)
      obtain ⟨f, p, hframed, -⟩ := (hgood.wellFramed id hv).framedBy
      exact ⟨hv, f, p, hframed⟩
    have hv : Visited info e.src := by
      obtain ⟨node, hnode⟩ := (hnodes e he).1
      obtain hzero | hpos := Nat.eq_zero_or_pos e.src
      · exact hzero ▸ hgood.visited_source
      · refine hvisited _ (hreach _ node hnode (decide_eq_true ?_))
        exact Nat.lt_of_le_of_ne hpos (Ne.symm hsrc)
    exact (hchecked _ hv e ((hmem _ e).2 ⟨he, rfl⟩) hop).2
  refine ⟨hlabelling, fun hnone ↦ ?_⟩
  cases hbuild : buildControlFlowInfo getFrameName g outEdges with
  | ok info => exact (hnone ⟨info, hlabelling info hbuild⟩).elim
  | error f =>
    obtain ⟨status, hstatus, rfl⟩ := hpost.of_error hbuild
    exact ⟨status, hstatus, rfl⟩

/-- An Enter, an op in its frame and an Exit; the attribute of a node is its frame name. -/
def enterExit : Graph ByteString where
  nodes := [some (Graph.endpoint (ascii "_SOURCE")), some (Graph.endpoint (ascii "_SINK"))] ++
    ["Enter", "Add", "Exit"].map fun op ↦ some
      { nodeDef := { name := ascii op, op := ascii op, attr := ascii "while" }, inputTypes := [1],
        outputTypes := [1] }
  edges := [⟨0, -1, 2, -1⟩, ⟨2, 0, 3, 0⟩, ⟨3, 0, 4, 0⟩, ⟨4, -1, 1, -1⟩]
  versions := { producer := graphDefVersion, minConsumer := graphDefVersionMinConsumer }

theorem reachable_enterExit (id : ℕ) (h : id < 5) (hop : Graph.isOp id = true) :
    Reachable enterExit id := by
  have hstep : ∀ {u v : ℕ}, Reachable enterExit u →
      (Graph.isOp v = true ∧ ∃ e ∈ enterExit.edges, e.src = u ∧ e.dst = v) →
        Reachable enterExit v :=
    fun hu hv ↦ hu.tail hv
  have h2 : Reachable enterExit 2 := hstep .refl ⟨rfl, _, mem_cons_self, rfl, rfl⟩
  have h3 : Reachable enterExit 3 := hstep h2 ⟨rfl, ⟨2, 0, 3, 0⟩, by decide, rfl, rfl⟩
  have h4 : Reachable enterExit 4 := hstep h3 ⟨rfl, ⟨3, 0, 4, 0⟩, by decide, rfl, rfl⟩
  match id, h, hop with
  | 2, _, _ => exact h2
  | 3, _, _ => exact h3
  | 4, _, _ => exact h4

theorem buildControlFlowInfo_sound_enterExit :
    (∀ info, buildControlFlowInfo (Except.ok (ε := Status)) enterExit enterExit.outEdges =
      .ok info →
      IsLabelling .ok enterExit info) ∧
      ((¬ ∃ info, IsLabelling .ok enterExit info) → ∃ status, status ≠ Status.ok ∧
        buildControlFlowInfo .ok enterExit enterExit.outEdges = .error (.status status)) := by
  refine buildControlFlowInfo_sound .ok enterExit enterExit.outEdges nofun
    ?_ (fun id node hnode hop ↦ ?_)
    fun _ ↦ .refl _
  · have hsome : ∀ id < 5, ∃ node, enterExit.findNodeId id = some node := by
      intro id h
      refine Option.isSome_iff_exists.1 ?_
      revert id
      decide
    have hlt : ∀ e ∈ enterExit.edges, e.src < 5 ∧ e.dst < 5 := by decide
    exact fun e he ↦ ⟨hsome _ (hlt e he).1, hsome _ (hlt e he).2⟩
  · refine reachable_enterExit id ?_ hop
    by_contra hge
    have hlength : enterExit.nodes.length = 5 := rfl
    rw [Graph.findNodeId, getElem?_eq_none (hlength ▸ not_lt.1 hge)] at hnode
    cases hnode

end TensorFlowCore.ControlFlowInfo
