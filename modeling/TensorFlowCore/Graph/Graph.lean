import TensorFlowCore.Framework.Types

/-!
# Graphs

`NodeDef` and `GraphDef` of `tensorflow/core/framework` and `Graph` of
`tensorflow/core/graph/graph.h`. Attributes are data that only the op registry looks into, so their
type is a parameter.

A `Graph` holds the vector `nodes_`, in which a removed node leaves a null pointer, and its edges.
The sets `in_edges()` and `out_edges()` of a node have no order a client can rely on; here they come
in the order of the list of edges, which is any order.
-/

namespace TensorFlowCore

/-! ### Definitions -/

/-- `NodeDef`. -/
structure NodeDef (α : Type) where
  name : ByteString
  op : ByteString
  input : List ByteString := []
  device : ByteString := []
  attr : α
  deriving Inhabited, DecidableEq

/-- `VersionDef`. -/
structure VersionDef where
  producer : ℤ
  minConsumer : ℤ
  badConsumers : List ℤ := []
  deriving DecidableEq

/-- `TF_GRAPH_DEF_VERSION`. -/
def graphDefVersion : ℤ := 15

/-- `TF_GRAPH_DEF_VERSION_MIN_PRODUCER`. -/
def graphDefVersionMinProducer : ℤ := 0

/-- `TF_GRAPH_DEF_VERSION_MIN_CONSUMER`. -/
def graphDefVersionMinConsumer : ℤ := 0

/-- `GraphDef`. -/
structure GraphDef (α : Type) where
  node : List (NodeDef α)
  versions : VersionDef

/-- `OpDef`, with the fields that passes over graphs read. -/
structure OpDef where
  isCommutative : Bool := false
  isStateful : Bool := false
  deriving DecidableEq

/-- The op of a node with the types of the inputs and of the outputs of the node. -/
structure Signature where
  opDef : OpDef := {}
  inputTypes : List DataType
  outputTypes : List DataType
  deriving DecidableEq

/-- The op registry, as a graph uses it: `LookUpOpDef` followed by `InOutTypesForNode`, which read
the op and the attributes of a node. -/
structure OpRegistry (α : Type) where
  signature : ByteString → α → Except Status Signature

/-! ### Graphs -/

/-- `Node`. The id of a node is its index in `nodes_`. -/
structure Node (α : Type) where
  nodeDef : NodeDef α
  opDef : OpDef := {}
  inputTypes : List DataType
  outputTypes : List DataType
  assignedDeviceName : ByteString := []
  deriving DecidableEq

namespace Node

variable {α : Type}

/-- `Node::num_inputs`. -/
def numInputs (n : Node α) : ℕ := n.inputTypes.length

/-- `Node::num_outputs`. -/
def numOutputs (n : Node α) : ℕ := n.outputTypes.length

/-- `Node::name`. -/
def name (n : Node α) : ByteString := n.nodeDef.name

/-- `NodeClass`. -/
inductive NodeClass
  | switch | merge | enter | exit | nextIteration | loopCond | controlTrigger | send | hostSend
  | recv | hostRecv | constant | variable | identity | getSessionHandle | getSessionTensor
  | deleteSessionTensor | other
  deriving DecidableEq

/-- The ops that `Node::Initialize` knows. -/
def nodeClasses : List (ByteString × NodeClass) :=
  [("Switch", .switch), ("RefSwitch", .switch), ("Merge", .merge), ("RefMerge", .merge),
    ("Enter", .enter), ("RefEnter", .enter), ("Exit", .exit), ("RefExit", .exit),
    ("NextIteration", .nextIteration), ("RefNextIteration", .nextIteration),
    ("LoopCond", .loopCond), ("ControlTrigger", .controlTrigger), ("_Send", .send),
    ("_HostSend", .hostSend), ("_Recv", .recv), ("_HostRecv", .hostRecv), ("Const", .constant),
    ("HostConst", .constant), ("Variable", .variable), ("Identity", .identity),
    ("RefIdentity", .identity), ("GetSessionHandle", .getSessionHandle),
    ("GetSessionTensor", .getSessionTensor),
    ("DeleteSessionTensor", NodeClass.deleteSessionTensor)].map fun p ↦ (ascii p.1, p.2)

/-- `Node::class_`. -/
def nodeClass (n : Node α) : NodeClass := (nodeClasses.lookup n.nodeDef.op).getD .other

/-- `Node::IsSend`. -/
def isSend (n : Node α) : Bool := n.nodeClass = .send ∨ n.nodeClass = .hostSend

/-- `Node::IsRecv`. -/
def isRecv (n : Node α) : Bool := n.nodeClass = .recv ∨ n.nodeClass = .hostRecv

/-- `Node::IsConstant`. -/
def isConstant (n : Node α) : Bool := n.nodeClass = .constant

/-- `Node::IsControlFlow`. -/
def isControlFlow (n : Node α) : Bool :=
  n.nodeClass ∈ [NodeClass.switch, .merge, .enter, .exit, .nextIteration]

end Node

/-- `Graph::kControlSlot`. -/
def kControlSlot : ℤ := -1

/-- `Edge`. -/
structure Edge where
  src : ℕ
  srcOutput : ℤ
  dst : ℕ
  dstInput : ℤ
  deriving DecidableEq

/-- `Edge::IsControlEdge`. -/
def Edge.isControlEdge (e : Edge) : Bool := e.srcOutput = kControlSlot

/-- `Graph`. -/
structure Graph (α : Type) where
  nodes : List (Option (Node α))
  edges : List Edge
  versions : VersionDef

namespace Graph

variable {α : Type} (g : Graph α)

/-- `Graph::kSourceId`. -/
def kSourceId : ℕ := 0

/-- `Graph::kSinkId`. -/
def kSinkId : ℕ := 1

/-- `Graph::FindNodeId`, of an id in range. -/
def findNodeId (id : ℕ) : Option (Node α) := (g.nodes[id]?).join

/-- `Graph::num_node_ids`. -/
def numNodeIds : ℕ := g.nodes.length

/-- `Node::in_edges`. -/
def inEdges (id : ℕ) : List Edge := g.edges.filter fun e ↦ e.dst = id

/-- `Node::out_edges`. -/
def outEdges (id : ℕ) : List Edge := g.edges.filter fun e ↦ e.src = id

/-- `Graph::AddNode`: the graph and the id of the node. -/
def addNode (registry : OpRegistry α) (nodeDef : NodeDef α) : Except Status (Graph α × ℕ) :=
  match registry.signature nodeDef.op nodeDef.attr with
  | .error s => .error s
  | .ok ⟨opDef, inputs, outputs⟩ =>
    .ok ({ g with nodes := g.nodes ++ [some ⟨nodeDef, opDef, inputs, outputs, []⟩] }, g.numNodeIds)

/-- `Graph::AddEdge`. -/
def addEdge (src : ℕ) (x : ℤ) (dst : ℕ) (y : ℤ) : Graph α :=
  { g with edges := g.edges ++ [⟨src, x, dst, y⟩] }

/-- `Graph::RemoveEdge`. -/
def removeEdge (e : Edge) : Graph α := { g with edges := g.edges.erase e }

/-- `Graph::CopyNode`: the graph and the id of the copy. -/
def copyNode (node : Node α) : Graph α × ℕ :=
  ({ g with nodes := g.nodes ++ [some node] }, g.numNodeIds)

/-- `Graph::AddControlEdge`. -/
def addControlEdge (src dst : ℕ) : Graph α := g.addEdge src kControlSlot dst kControlSlot

/-- `Node::set_assigned_device_name`. -/
def setAssignedDeviceName (id : ℕ) (deviceName : ByteString) : Graph α :=
  { g with nodes := g.nodes.modify id (·.map ({ · with assignedDeviceName := deviceName })) }

/-- The nodes that every graph starts with have no inputs and no outputs. -/
def endpoint [Inhabited α] (name : ByteString) : Node α :=
  { nodeDef := { name := name, op := ascii "NoOp", attr := default },
    inputTypes := [], outputTypes := [] }

/-- `Graph::Graph`. -/
def new [Inhabited α] : Graph α where
  nodes := [some (endpoint (ascii "_SOURCE")), some (endpoint (ascii "_SINK"))]
  edges := [⟨kSourceId, kControlSlot, kSinkId, kControlSlot⟩]
  versions := { producer := graphDefVersion, minConsumer := graphDefVersionMinConsumer }

/-- One round of `FixupSourceAndSinkEdges`. -/
def fixupNode (id : ℕ) : Graph α :=
  let g :=
    if id ≠ kSourceId ∧ g.inEdges id = [] then g.addControlEdge kSourceId id else g
  if id ≠ kSinkId ∧ g.outEdges id = [] then g.addControlEdge id kSinkId else g

/-- `FixupSourceAndSinkEdges`: connect all nodes with no incoming edges to source and all nodes with
no outgoing edges to sink. -/
def fixupSourceAndSinkEdges : Graph α :=
  (List.range g.numNodeIds).foldl
    (fun g id ↦ if (g.findNodeId id).isSome then g.fixupNode id else g) g

end Graph

end TensorFlowCore
