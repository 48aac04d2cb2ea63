import Mathlib.Data.Finset.Sort
import TensorFlowCore.Graph.Algorithm

/-!
# Imports into a graph

`GraphConstructor::Construct` of `tensorflow/core/graph/graph_constructor.cc` as `ImportGraphDef`
runs it as well: into a graph that may have nodes already, with a prefix for the names of the nodes,
with defaults for their attributes, and with shapes inferred while the nodes are added. An import
works on the graph itself, so a step that fails leaves what the steps before it did; `Undo` takes it
back.
-/

namespace TensorFlowCore

namespace GraphConstructor

/-- `GraphConstructor::Options`. -/
structure Options extends GraphConstructorOptions where
  namePrefix : ByteString := []
  importing : Bool := false

/-- The options of `ImportGraphDef`. -/
def importOptions (namePrefix : ByteString) : Options where
  namePrefix :=
    if namePrefix = [] ∨ [47].isSuffixOf namePrefix then namePrefix else namePrefix ++ [47]
  importing := true

/-- What an import uses of the op registry, where `ω` are the op defs, and of the attributes. -/
structure ImportRegistry (α ω σ : Type) extends OpRegistry α where
  lookUpOpDef : ByteString → Except Status ω
  addDefaultsToNodeDef : ω → NodeDef α → NodeDef α
  validateNodeDef : NodeDef α → ω → Except Status Unit
  checkOpDeprecation : ω → ℤ → Except Status Unit
  /-- The list of strings `_class`. -/
  colocationGroups : α → Option (List ByteString)
  setColocationGroups : List ByteString → α → α
  /-- The list of shapes `_output_shapes`. -/
  outputShapes : α → Option (List σ)
  clearOutputShapes : α → α

/-- `ShapeRefiner`, with its state `ρ`. The shape protos are `σ` and the shape handles `η`. -/
structure ShapeRefiner (α σ η ρ : Type) where
  addNode : Graph α → ℕ → ρ → Except Status Unit × ρ
  makeShapeFromShapeProto : ℕ → σ → ρ → Except Status η × ρ
  setShape : ℕ → ℕ → η → ρ → Except Status Unit × ρ

/-- `GraphConstructor`, with the shape refiner that it works with. -/
structure ImportState (α ρ : Type) extends ConvertState α where
  refiner : ρ

/-- A step of an import. What it did stays if it fails. -/
abbrev Import (α ρ : Type) := ExceptT Status (StateM (ImportState α ρ))

/-- `kColocationGroupPrefix`. -/
def kColocationGroupPrefix : ByteString := ascii "loc:@"

/-- `s.Consume(x)`, if `s` starts with `x`. -/
def consume (x s : ByteString) : Option ByteString :=
  if x.isPrefixOf s then some (s.drop x.length) else none

variable {α ω σ η ρ : Type}

/-! ### The definitions of the nodes -/

section

variable (registry : ImportRegistry α ω σ) (opts : Options)

/-- `EnsureNoNameCollisions`. -/
def ensureNoNameCollisions (gdef : GraphDef α) (g : Graph α) : Except Status Unit :=
  let names := g.nodes.filterMap (·.map Node.name)
  if opts.namePrefix = [] then
    if opts.importing then
      match gdef.node.find? fun nodeDef ↦ names.contains nodeDef.name with
      | some nodeDef =>
        .error (invalidArgument [ascii "Node '", nodeDef.name,
          ascii "' already exists in the Graph"])
      | none => .ok ()
    else .ok ()
  -- Importing nodes with a prefix. No nodes should exist with the same prefix.
  else if ¬isValidNodeName opts.namePrefix.dropLast false then
    .error (invalidArgument [ascii "Imported node name prefix '", opts.namePrefix,
      ascii "' would lead to invalid node names"])
  else
    match names.find? (opts.namePrefix.isPrefixOf ·) with
    | some name =>
      .error (invalidArgument
        [ascii "Import node name prefix conflicts with names of nodes already in ",
        ascii "the Graph, such as '", name, ascii "'"])
    | none => .ok ()

/-- `ValidateColocationConstraints`. -/
def validateColocationConstraints (gdef : GraphDef α) (nodeDef : NodeDef α) : Except Status Unit :=
  if opts.importing then
    (((registry.colocationGroups nodeDef.attr).getD []).filterMap
      (consume kColocationGroupPrefix)).forM
      fun s ↦
        if gdef.nameIndex s = none then
          .error (invalidArgument [ascii "Node '", nodeDef.name,
            ascii "' expects to be colocated with unknown node '", s, ascii "'"])
        else .ok ()
  else .ok ()

/-- The input `input` of a node of a graph def with a prefix. -/
def prefixInput (input : ByteString) : ByteString :=
  let (control, name) := consumeControl input
  if control then 94 :: (opts.namePrefix ++ name) else opts.namePrefix ++ name

/-- `AddPrefixToNodeDef`. -/
def addPrefixToNodeDef (nodeDef : NodeDef α) : NodeDef α :=
  if opts.namePrefix = [] then nodeDef
  else { nodeDef with
    name := opts.namePrefix ++ nodeDef.name
    input := nodeDef.input.map (prefixInput opts)
    attr :=
      match registry.colocationGroups nodeDef.attr with
      | none => nodeDef.attr
      | some groups => registry.setColocationGroups (groups.map fun s ↦
          match consume kColocationGroupPrefix s with
          | some v => kColocationGroupPrefix ++ opts.namePrefix ++ v
          | none => s) nodeDef.attr }

/-- `ModifyNodeDefForImport`. -/
def modifyNodeDefForImport (nodeDef : NodeDef α) : Except Status (NodeDef α) := do
  let opDef ← registry.lookUpOpDef nodeDef.op
  let nodeDef := registry.addDefaultsToNodeDef opDef nodeDef
  registry.validateNodeDef nodeDef opDef
  registry.checkOpDeprecation opDef graphDefVersion
  return nodeDef

/-- The definition that the node gets. -/
def importedNodeDef (nodeDef : NodeDef α) : Except Status (NodeDef α) :=
  if opts.importing then modifyNodeDefForImport registry (addPrefixToNodeDef registry opts nodeDef)
  else .ok nodeDef

end

/-! ### Shapes -/

section

variable (registry : ImportRegistry α ω σ) (refiner : ShapeRefiner α σ η ρ) (opts : Options)

/-- The ops whose shape functions may disagree with a shape in a serialized graph. -/
def shapeWhitelist : List ByteString :=
  ["RandomShuffleQueue", "PaddingFIFOQueue", "FIFOQueue", "PriorityQueue", "QueueSize", "Stack",
    "Barrier", "BarrierReadySize", "BarrierIncompleteSize", "HashTable", "MutableHashTable",
    "MutableHashTableOfTensors", "Mutex", "CuckooTable", "IndexTable", "WholeFileReader",
    "TextLineReader", "FixedLengthRecordReader", "TFRecordReader", "IdentityReader", "RefSwitch",
    "RefEnter", "RefNextIteration", "RefMerge", "RefIdentity"].map ascii

/-- A call to the shape refiner. -/
def callRefiner {β : Type} (f : ρ → β × ρ) : Import α ρ β := do
  let s ← get
  let (b, refiner) := f s.refiner
  set { s with refiner := refiner }
  return b

/-- A round of the loop of `ValidateShape`, for the `i`-th output. -/
def validateOutputShape (id : ℕ) (node : Node α) (p : σ × ℕ) : Import α ρ Unit := do
  match ← callRefiner (refiner.makeShapeFromShapeProto id p.1) with
  | .error s => throw (invalidArgument [ascii "Node '", node.name, ascii " has an invalid ",
      ascii "_output_shapes", ascii " attribute (shape #", decimal p.2, ascii " error:'",
      s.errorMessage,
      ascii "'"])
  | .ok h =>
    match ← callRefiner (refiner.setShape id p.2 h) with
    | .error s =>
      if ¬shapeWhitelist.contains node.nodeDef.op then
        throw (invalidArgument [ascii "Node '", node.name, ascii "' has an ",
          ascii "_output_shapes",
          ascii " attribute inconsistent with the GraphDef for output #", decimal p.2, ascii ": ",
          s.errorMessage])
    | .ok () => pure ()

/-- `Node::ClearAttr`, of the shapes. -/
def clearOutputShapes (g : Graph α) (id : ℕ) : Graph α :=
  { g with nodes := g.nodes.modify id (·.map fun node ↦
      { node with nodeDef.attr := registry.clearOutputShapes node.nodeDef.attr }) }

/-- `ValidateShape`. -/
def validateShape (id : ℕ) : Import α ρ Unit := do
  if opts.importing then
    let s ← get
    MonadExcept.ofExcept (← callRefiner (refiner.addNode s.graph id))
    match s.graph.findNodeId id with
    | none => pure ()
    | some node =>
      match registry.outputShapes node.nodeDef.attr with
      | none => pure ()
      | some shapes =>
        if shapes.length ≠ node.numOutputs then
          throw (invalidArgument [ascii "Node '", node.name, ascii "' has ",
            decimal node.numOutputs,
            ascii " outputs but the ", ascii "_output_shapes",
            ascii " attribute specifies shapes for ",
            decimal shapes.length, ascii " outputs"])
        shapes.zipIdx.forM (validateOutputShape refiner id node)
        modify fun s ↦ { s with graph := clearOutputShapes registry s.graph id }

end

/-! ### The import -/

section

variable [Inhabited α] (registry : ImportRegistry α ω σ) (refiner : ShapeRefiner α σ η ρ)
  (stray : List DataType → ℤ → DataType) (opts : Options)

/-- A change of the graph that can fail before it has changed anything. -/
def changeGraph (f : Graph α → Except Status (Graph α)) : Import α ρ Unit := do
  let s ← get
  let g ← MonadExcept.ofExcept (f s.graph)
  set { s with graph := g }

/-- `MakeNode` of the `o`-th node, and its entry in `name_index_`. -/
def createNode (o : ℕ) (nodeDef : NodeDef α) : Import α ρ ℕ := do
  let s ← get
  let (g, id) ← MonadExcept.ofExcept
    (makeNode registry.toOpRegistry opts.toGraphConstructorOptions s.graph nodeDef)
  set { s with graph := g, node := Function.update s.node o (some id) }
  return id

/-- A round of the loop of `Convert` that adds the edges of a node, for the `i`-th input. -/
def importEdge (id : ℕ) (p : InputInfo × ℕ) : Import α ρ Unit :=
  match p.1.node with
  | none => modify fun s ↦ { s with backEdges := s.backEdges ++ [⟨p.1.name, p.1.index, id, p.2⟩] }
  | some src =>
    if p.1.index = -1 then changeGraph fun g ↦ .ok (g.addControlEdge src id)
    else changeGraph fun g ↦ makeEdge stray g src p.1.index id p.2

/-- One round of `Convert`, for the node taken from `ready_`. -/
def importNode (gdef : GraphDef α) (outputs : ℕ → List ℕ) (o : ℕ) : Import α ρ Unit := do
  let nodeDef := gdef.nodeAt o
  MonadExcept.ofExcept (validateColocationConstraints registry opts gdef nodeDef)
  let (inputs, hasDataBackEdge) ← MonadExcept.ofExcept
    (resolveInputs gdef (← get).toConvertState nodeDef nodeDef.input false)
  if hasDataBackEdge ∧ ¬isMerge nodeDef then
    throw (invalidArgument [ascii "Node '", nodeDef.name,
      ascii "' had a back edge, but only Merge nodes can have back edges."])
  let imported ← MonadExcept.ofExcept (importedNodeDef registry opts nodeDef)
  let id ← createNode registry opts o imported
  inputs.zipIdx.forM (importEdge stray id)
  validateShape registry refiner opts id
  modify fun s ↦ { s with worklist := Worklist.release (outputs o) s.worklist }

/-- The loop of `Convert`, for at most the given number of nodes. -/
def importLoop (gdef : GraphDef α) (outputs : ℕ → List ℕ) : ℕ → Import α ρ Unit
  | 0 => pure ()
  | fuel + 1 => do
    let s ← get
    match s.worklist.ready with
    | [] => pure ()
    | o :: ready =>
      set { s with worklist := ⟨ready, s.worklist.pending⟩, processed := s.processed + 1 }
      importNode registry refiner stray opts gdef outputs o
      importLoop gdef outputs fuel

/-- `Convert`. -/
def importNodes (gdef : GraphDef α) (outputs : ℕ → List ℕ) : Import α ρ Unit := do
  importLoop registry refiner stray opts gdef outputs gdef.node.length
  let s ← get
  if s.processed < gdef.node.length then
    throw (invalidArgument [decimal (gdef.node.length - s.processed), ascii " nodes in a cycle"])

/-- `AddBackEdges`. -/
def importBackEdges (gdef : GraphDef α) : Import α ρ Unit := do
  let s ← get
  s.backEdges.forM fun e ↦ changeGraph fun g ↦ addBackEdge stray gdef s.toConvertState g e

/-- `UpdateVersionDef`. -/
def updateVersionDef (gdef : GraphDef α) (versions : VersionDef) : VersionDef :=
  if opts.importing then
    { producer := graphDefVersion
      minConsumer := max versions.minConsumer gdef.versions.minConsumer
      badConsumers :=
        if gdef.versions.badConsumers = [] then versions.badConsumers
        else (versions.badConsumers ++ gdef.versions.badConsumers).toFinset.sort (· ≤ ·) }
  else gdef.versions

/-- `TryImport`. -/
def tryImport (gdef : GraphDef α) : Import α ρ Unit := do
  MonadExcept.ofExcept (ensureNoNameCollisions opts gdef (← get).graph)
  MonadExcept.ofExcept (buildNodeIndex opts.toGraphConstructorOptions gdef.node [])
  let index ← MonadExcept.ofExcept (initFromEdges gdef)
  modify fun s ↦ { s with worklist := index.worklist }
  importNodes registry refiner stray opts gdef index.outputs
  importBackEdges stray gdef
  modify fun s ↦ { s with graph :=
    { s.graph with versions := updateVersionDef opts gdef s.graph.versions }.fixupSourceAndSinkEdges
      }

/-- The order in which a hash table enumerates its entries. -/
structure HashOrder where
  order : List ℕ → List ℕ
  perm : ∀ entries, (order entries).Perm entries

/-- `Undo`. -/
def undo (hash : HashOrder) (gdef : GraphDef α) (originalVersions : VersionDef)
    (s : ImportState α ρ) :
    Graph α :=
  let nodes := (hash.order (List.range gdef.node.length)).filterMap s.node
  { nodes.foldl Graph.removeNode s.graph with versions := originalVersions }

/-- `Construct`: its status, and the graph and the shape refiner that it leaves. -/
def construct (hash : HashOrder) (tfVersionString : ByteString) (gdef : GraphDef α) (g : Graph α)
    (r : ρ) : Except Status Unit × Graph α × ρ :=
  match checkVersions gdef.versions tfVersionString with
  | .error status => (.error status, g, r)
  | .ok () =>
    match tryImport registry refiner stray opts gdef
      { graph := g, worklist := ⟨[], fun _ ↦ 0⟩, refiner := r } with
    | (.error status, s) => (.error status, undo hash gdef g.versions s, s.refiner)
    | (.ok (), s) => (.ok (), s.graph, s.refiner)

end

end GraphConstructor

end TensorFlowCore
