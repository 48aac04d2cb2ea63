import TensorFlowCore.Graph.Semantics

/-!
# Constant folding

`DoConstantFolding` of `tensorflow/core/common_runtime/constant_folding.cc`. The type of tensors,
the options, the function library, the registries of ops and of kernels, the addresses of nodes, by
which a map orders them, and `GraphRunner::Run` are parameters.
-/

namespace TensorFlowCore

namespace ConstantFolding

open TensorFlowCore.Graph GraphConstructor

variable {V α : Type}

/-- `MemoryType`. -/
inductive MemoryType
  | deviceMemory
  | hostMemory
  deriving DecidableEq

/-- `partition_device`. -/
structure Device where
  name : ByteString
  deviceType : ByteString

/-- `DEVICE_CPU`. -/
def deviceCpu : ByteString := ascii "CPU"

/-- `DT_INT32`. -/
def dtInt32 : DataType := 3

/-- What constant folding works with beside the graph. -/
structure Env (V α : Type) where
  /-- `ConstantFoldingOptions::consider`, which may be null. -/
  consider : Option (Graph α → ℕ → Bool)
  /-- `FunctionLibraryDefinition::Find`. -/
  isFunction : ByteString → Bool
  registry : OpRegistry α
  partitionDevice : Option Device
  /-- `MemoryTypeForOutput`, which may fail. -/
  memoryTypeForOutput : ByteString → Node α → ℤ → Option MemoryType
  /-- `Tensor::TotalBytes`. -/
  totalBytes : V → ℕ
  /-- The attributes `dtype` and `value` of a tensor. -/
  constAttr : V → α
  /-- `NodeDefBuilder::Finalize` returns `OK`. -/
  finalizes : NodeDef α → Bool
  /-- `FindKernelDef` returns `OK`. -/
  hasKernel : ByteString → NodeDef α → Bool
  /-- `ValidateNodeDef` and `CheckOpDeprecation`, for the producer of the graph, return `OK`. -/
  validates : NodeDef α → ℤ → Bool
  /-- The addresses of the nodes of the constant graph. -/
  address : ℕ → ℕ
  /-- `GraphRunner::Run` with the names of the tensors to fetch. -/
  run : Graph α → List ByteString → Option (List V)

variable (env : Env V α)

/-! ### Finding nodes -/

/-- `IsConstantFoldable`. -/
def isConstantFoldable (g : Graph α) (id : ℕ) (node : Node α) : Bool :=
  ¬node.opDef.isStateful ∧ ¬env.consider.any (fun consider ↦ ¬consider g id) ∧
    ¬(node.isControlFlow ∨ node.isSend ∨ node.isRecv) ∧
    node.nodeClass ∉ [.getSessionHandle, .getSessionTensor, .deleteSessionTensor] ∧
    id ≠ kSourceId ∧ id ≠ kSinkId ∧ ¬env.isFunction node.nodeDef.op

/-- The variables of `FindConstantFoldableNodes`. -/
structure Found where
  nodes : List ℕ := []
  internalNodeInserted : Bool := false

/-- What `FindConstantFoldableNodes` does on leaving a node. -/
def leaveNode (g : Graph α) (found : Found) (id : ℕ) : Option Found :=
  (g.findNodeId id).map fun node ↦
    if node.isConstant then
      -- no control inputs, except from source
      if (g.inEdges id).length = 0 ∨ (g.inEdges id).map Edge.src = [kSourceId] then
        { found with nodes := found.nodes ++ [id] }
      else found
    else if isConstantFoldable env g id node then
      if (g.inNodes id).all fun parent ↦ parent ∈ found.nodes ∨ parent = kSourceId then
        ⟨found.nodes ++ [id], true⟩
      else found
    else found

/-- `FindConstantFoldableNodes`. -/
def findConstantFoldableNodes (g : Graph α) : Option (List ℕ) := do
  let order ← g.reversePostOrderFromSink
  let found ← order.foldlM (leaveNode env g) {}
  return if found.internalNodeInserted then found.nodes else []

/-! ### The constant graph -/

/-- `constant_graph` with `node_map`. -/
structure ConstantGraph (α : Type) where
  graph : Graph α
  nodeMap : List (ℕ × ℕ)

/-- Copying an edge. The source has to have a copy; with that it has been added. -/
def copyEdge (added : ℕ) (c : ConstantGraph α) (e : Edge) : Option (ConstantGraph α) :=
  (c.nodeMap.lookup e.src).map fun src ↦
    { c with graph := c.graph.addEdge src e.srcOutput added e.dstInput }

/-- Copying a node with the edges into it. -/
def copyInto (g : Graph α) (c : ConstantGraph α) (id : ℕ) : Option (ConstantGraph α) := do
  let node ← g.findNodeId id
  let (graph, added) := c.graph.copyNode node
  (g.inEdges id).foldlM (copyEdge added) ⟨graph, (id, added) :: c.nodeMap⟩

/-- An entry of `tensors_to_fetch`: the copy of a node, the number of an output, and the node. -/
abbrev Fetch := (ℕ × ℤ) × ℕ

/-- `tensors_to_fetch`, in the order of a map. -/
def tensorsToFetch (g : Graph α) (nodeMap : List (ℕ × ℕ)) : List Fetch :=
  ((nodeMap.flatMap fun p ↦
    ((g.outEdges p.1).filter fun e ↦ e.dst ∉ nodeMap.map Prod.fst ∧ ¬e.isControlEdge).map fun e ↦
      ((p.2, e.srcOutput), p.1)).dedup).insertionSort fun a b ↦
        env.address a.1.1 < env.address b.1.1 ∨
          env.address a.1.1 = env.address b.1.1 ∧ a.1.2 ≤ b.1.2

/-- `GetConstantGraph`. -/
def getConstantGraph [Inhabited α] (g : Graph α) (nodes : List ℕ) :
    Option (Graph α × List Fetch) := do
  let c ← nodes.foldlM (copyInto g) ⟨Graph.new, [(kSourceId, kSourceId), (kSinkId, kSinkId)]⟩
  return (c.graph, tensorsToFetch env g c.nodeMap)

/-! ### Replacing tensors -/

/-- The graph with its name counter, and the counter of `UniqueConstantId`. -/
structure State (α : Type) where
  graph : Graph α
  nameCounter : ℕ
  constantId : ℕ

/-- `MemoryTypeForOutput` allows to replace the output. -/
def memoryTypeFits (node : Node α) (output : ℤ) : Bool :=
  match env.partitionDevice with
  | none => true
  | some device =>
    if device.deviceType = deviceCpu then true
    else
      match env.memoryTypeForOutput device.deviceType node output with
      | none => false
      | some memoryType =>
        decide (memoryType = .hostMemory ↔ node.outputTypes[output.toNat]? = some dtInt32)

/-- The definition of the constant that takes the place of an output of a node. -/
def constantDef (s : State α) (node : Node α) (constant : V) : NodeDef α where
  name := node.name ++ ascii "/_" ++ decimal s.nameCounter ++ ascii "__cf__" ++ decimal s.constantId
  op := ascii "Const"
  device := (env.partitionDevice.map Device.name).getD []
  attr := env.constAttr constant

/-- The edges from an output come from output 0 of the constant. -/
def rewire (g : Graph α) (tensor : ℕ × ℤ) (constantNode : ℕ) : Graph α :=
  ((g.outEdges tensor.1).filter fun e ↦ e.srcOutput = tensor.2).foldl
    (fun g e ↦ (g.addEdge constantNode 0 e.dst e.dstInput).removeEdge e) g

/-- The assignment of a device to the constant. -/
def placeConstant (g : Graph α) (constantNode : ℕ) : Graph α :=
  match env.partitionDevice with
  | none => g
  | some device => g.setAssignedDeviceName constantNode device.name

/-- `ReplaceTensorWithConstant`: the state and whether the replacement was successful. -/
def replaceTensorWithConstant (s : State α) (tensor : ℕ × ℤ) (constant : V) :
    Option (State α × Bool) :=
  (s.graph.findNodeId tensor.1).map fun node ↦
    if node.isConstant ∨ ¬memoryTypeFits env node tensor.2 ∨
        10 * 1024 * 1024 < env.totalBytes constant then (s, false)
    else
      let nodeDef := constantDef env s node constant
      let s := { s with nameCounter := s.nameCounter + 1, constantId := s.constantId + 1 }
      if ¬env.finalizes nodeDef ∨
          ¬env.hasKernel ((env.partitionDevice.map Device.deviceType).getD deviceCpu) nodeDef ∨
          ¬env.validates nodeDef s.graph.versions.producer then (s, false)
      else
        match s.graph.addNode env.registry nodeDef with
        | .error _ => (s, false)
        | .ok (graph, constantNode) =>
          ({ s with
            graph := placeConstant env
              ((rewire graph tensor constantNode).addEdge kSourceId kControlSlot constantNode
                kControlSlot) constantNode }, true)

/-- The name of a tensor to fetch. -/
def tensorName (g : Graph α) (tensor : Fetch) : Option ByteString :=
  (g.findNodeId tensor.1.1).map fun node ↦ node.name ++ ascii ":" ++ decimalInt tensor.1.2

/-- One round of the loop over the outputs. -/
def replaceOutput (r : State α × ℕ) (output : Fetch × V) : Option (State α × ℕ) :=
  (replaceTensorWithConstant env r.1 (output.1.2, output.1.1.2) output.2).map fun r' ↦
    (r'.1, if r'.2 then r.2 + 1 else r.2)

/-- `DoConstantFolding`: the state and the result. More outputs than tensors to replace would be
read past the end. -/
def doConstantFolding [Inhabited α] (s : State α) : Option (State α × Bool) := do
  let nodes ← findConstantFoldableNodes env s.graph
  if nodes = [] then some (s, false)
  else
    let (constantGraph, fetch) ← getConstantGraph env s.graph nodes
    if fetch = [] then some (s, false)
    else
      let names ← fetch.mapM (tensorName constantGraph)
      match env.run constantGraph names with
      | none => some (s, false)
      | some outputs =>
        if fetch.length < outputs.length then none
        else
          let r ← (fetch.zip outputs).foldlM (replaceOutput env) (s, 0)
          return (r.1, 0 < r.2)

end ConstantFolding

end TensorFlowCore
