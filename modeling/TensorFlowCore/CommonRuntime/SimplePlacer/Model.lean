import TensorFlowCore.Graph.Serialisation
import TensorFlowCore.Support.UnionFind
import TensorFlowCore.Util.DeviceNameUtils

/-!
# Device sets

`DeviceSet` of `tensorflow/core/common_runtime/device_set.cc`, with what the placer reads of a
`Device`.
-/

namespace TensorFlowCore

open DeviceNameUtils

/-- `Device`: its name, its type, and its name as parsed. -/
structure Device where
  name : ByteString
  deviceType : ByteString
  parsedName : ParsedName
  deriving DecidableEq

/-- `DeviceSet`: the devices in the order in which they were added. -/
abbrev DeviceSet := List Device

namespace DeviceSet

/-- `FindMatchingDevices`. A device whose name is not complete fails a check (`none`). -/
def findMatchingDevices (devices : DeviceSet) (spec : ParsedName) : Option (List Device) :=
  if devices.all fun d ↦ isComplete d.parsedName then
    some (devices.filter fun d ↦ isSpecification spec d.parsedName)
  else none

/-- `FindDeviceByName`. The first device of a name stands in the map. -/
def findDeviceByName (devices : DeviceSet) (name : ByteString) : Option Device :=
  devices.find? fun d ↦ d.name = name

/-- `DeviceTypeOrder`. -/
def deviceTypeOrder (type : ByteString) : ℕ :=
  if type = ascii "CPU" then 3 else if type = ascii "GPU" then 2 else 1

/-- Pairs of a `DeviceTypeOrder` and a string, as `std::make_pair` compares them. -/
def pairLe (a b : ℕ × ByteString) : Prop := a.1 < b.1 ∨ a.1 = b.1 ∧ ¬b.2 < a.2

instance : DecidableRel pairLe := fun a b ↦
  inferInstanceAs (Decidable (a.1 < b.1 ∨ a.1 = b.1 ∧ ¬b.2 < a.2))

/-- `PrioritizedDeviceTypeList`. -/
def prioritizedDeviceTypeList (devices : DeviceSet) : List ByteString :=
  (devices.map Device.deviceType).dedup.insertionSort fun a b ↦
    pairLe (deviceTypeOrder a, a) (deviceTypeOrder b, b)

end DeviceSet

end TensorFlowCore

/-!
## The simple placer

`ColocationGraph` and `SimplePlacer` of `tensorflow/core/common_runtime/simple_placer.cc`. The
vector `members_` is split into the forest of the union-find algorithm and the constraints of the
members. Messages come without `AttachDef` and without the debugging info on colocation groups.
-/

namespace TensorFlowCore.SimplePlacer

open DeviceNameUtils GraphConstructor UnionFind

/-- What stops the placer. -/
inductive Fault where
  /-- The status that `Run` returns. -/
  | status (s : Status)
  /-- A failed check, a null pointer or an element that does not exist. -/
  | crash
  deriving DecidableEq

/-- `SessionOptions`, with what the placer reads. -/
structure SessionOptions where
  allowSoftPlacement : Bool

/-- What the placer works with beside the graph. The kernels and the attributes are parameters. -/
structure Env (α : Type) where
  devices : DeviceSet
  /-- `options_`, which may be null. -/
  options : Option SessionOptions
  /-- `SupportedDeviceTypesForNode`. -/
  supportedDeviceTypesForNode : List ByteString → NodeDef α → Except Status (List ByteString)
  /-- `KernelsRegisteredForOp`. -/
  kernelsRegisteredForOp : ByteString → ByteString
  /-- `GetNodeAttr` of `kColocationAttrName`, if there is such a list. -/
  classSpecs : α → Option (List ByteString)

variable {α : Type} (env : Env α)

/-- Null options are treated as allowing soft placement. -/
def Env.softPlacement : Bool := env.options.all (·.allowSoftPlacement)

/-- `errors::Internal`. -/
def internal (parts : List ByteString) : Fault := .status (.error .internal parts.flatten)

/-- `errors::InvalidArgument`. -/
def invalid (parts : List ByteString) : Fault := .status (invalidArgument parts)

/-- `Status::error_message`. -/
def errorMessage : Status → ByteString
  | .ok => []
  | .error _ msg => msg

/-- `FilterSupportedDevices`. -/
def filterSupportedDevices (devices : List Device) (supported : List ByteString) : List Device :=
  (supported.flatMap fun type ↦ devices.filter fun d ↦ d.deviceType = type).insertionSort
    fun a b ↦ DeviceSet.pairLe (DeviceSet.deviceTypeOrder a.deviceType, a.name)
      (DeviceSet.deviceTypeOrder b.deviceType, b.name)

/-- `kColocationGroupPrefix`. -/
def colocationGroupPrefix : ByteString := ascii "loc:@"

/-- `ColocationGroups`. -/
def colocationGroups (node : Node α) : List ByteString :=
  match env.classSpecs node.nodeDef.attr with
  | none => [colocationGroupPrefix ++ node.name]
  | some specs =>
    match specs.filter fun spec ↦ (consumePrefix colocationGroupPrefix spec).isSome with
    | [] => [colocationGroupPrefix ++ node.name]
    | groups => groups

/-! ### `ColocationGraph` -/

/-- The constraints of a `Member` and, once they are computed, the devices for its group. -/
structure Member where
  supportedDeviceTypes : List ByteString := []
  deviceName : ParsedName := {}
  possibleDevices : List Device := []

/-- `ColocationGraph`. -/
structure ColocationGraph where
  /-- The size of `members_`. -/
  size : ℕ := 0
  forest : Forest := fun _ ↦ none
  members : ℕ → Member := fun _ ↦ {}
  colocationGroupRoot : ByteString → Option (ℕ × ByteString) := fun _ ↦ none

namespace ColocationGraph

/-- `FindRoot`. -/
def findRoot (cg : ColocationGraph) (id : ℕ) : Except Fault (ℕ × ColocationGraph) :=
  match UnionFind.findRoot cg.size cg.forest id with
  | none => .error .crash
  | some (root, forest) => .ok (root, { cg with forest := forest })

/-- `InitializeMember`. -/
def initializeMember (node : Node α) : Except Fault Member :=
  match env.supportedDeviceTypesForNode (DeviceSet.prioritizedDeviceTypeList env.devices)
      node.nodeDef with
  | .error s => .error (.status s)
  | .ok types =>
    if node.assignedDeviceName ≠ [] then
      -- the runtime has assigned this node, so errors are internal
      match parseFullName node.assignedDeviceName with
      | none => .error (internal [ascii "Malformed assigned device '", node.assignedDeviceName,
          ascii "'"])
      | some name =>
        match DeviceSet.findDeviceByName env.devices node.assignedDeviceName with
        | none => .error (internal [ascii "Assigned device '", node.assignedDeviceName,
            ascii "' does not match any device"])
        | some d =>
          if types.contains d.deviceType then .ok
            { supportedDeviceTypes := types, deviceName := name }
          else .error (internal [ascii "Assigned device '", node.assignedDeviceName,
            ascii "' does not have registered OpKernel support for ", node.nodeDef.op])
    else if types = [] then
      .error (invalid [ascii "No OpKernel was registered to support Op '", node.nodeDef.op,
        ascii "' with these attrs.  Registered kernels:\n",
        env.kernelsRegisteredForOp node.nodeDef.op])
    else if node.nodeDef.device ≠ [] then
      match parseFullName node.nodeDef.device with
      | none => .error (invalid [ascii "Malformed device specification '", node.nodeDef.device,
          ascii "'"])
      | some name => .ok { supportedDeviceTypes := types, deviceName := name }
    else .ok { supportedDeviceTypes := types }

/-- `MergeSupportedDevices`. -/
def mergeSupportedDevices (target other : List ByteString) : List ByteString :=
  target.filter other.contains

/-- `ColocateNodes`, of two nodes with their names. -/
def colocateNodes (cg : ColocationGraph) (x y : ℕ × ByteString) : Except Fault ColocationGraph := do
  let (xRoot, cg) ← cg.findRoot x.1
  let (yRoot, cg) ← cg.findRoot y.1
  if xRoot = yRoot then return cg
  match cg.forest xRoot, cg.forest yRoot with
  | some cx, some cy =>
    let (newRoot, oldRoot, forest) := link cg.forest xRoot yRoot cx cy
    match mergeDevNames (cg.members newRoot).deviceName (cg.members oldRoot).deviceName
        env.softPlacement with
    | .error s => throw (invalid [ascii "Cannot colocate nodes '", x.2, ascii "' and '", y.2,
        ascii ": ", errorMessage s])
    | .ok name =>
      let types := mergeSupportedDevices (cg.members newRoot).supportedDeviceTypes
        (cg.members oldRoot).supportedDeviceTypes
      if types = [] then
        throw (invalid [ascii "Cannot colocate nodes '", x.2, ascii "' and '", y.2,
          ascii "' because no device type supports both of those nodes ",
          ascii "and the other nodes colocated with them."])
      return { cg with
        forest := forest
        members := Function.update cg.members newRoot
          { cg.members newRoot with supportedDeviceTypes := types, deviceName := name } }
  | _, _ => throw .crash

/-- One group of a node that is added. -/
def joinGroup (x : ℕ × ByteString) (cg : ColocationGraph) (group : ByteString) :
    Except Fault ColocationGraph :=
  match cg.colocationGroupRoot group with
  | none => .ok { cg with
      colocationGroupRoot := Function.update cg.colocationGroupRoot group (some x) }
  | some y => cg.colocateNodes env x y

/-- `AddNode`. -/
def addNode (cg : ColocationGraph) (p : ℕ × Node α) : Except Fault ColocationGraph := do
  let member ← initializeMember env p.2
  (colocationGroups env p.2).foldlM (joinGroup env (p.1, p.2.name)) { cg with
    size := p.1 + 1
    forest := Function.update cg.forest p.1 (some ⟨p.1, 0⟩)
    members := Function.update cg.members p.1 member }

/-- `SetDeviceForNode`. -/
def setDeviceForNode (cg : ColocationGraph) (id : ℕ) (device : ParsedName) :
    Except Fault ColocationGraph := do
  let (root, cg) ← cg.findRoot id
  return { cg with
    members := Function.update cg.members root { cg.members root with deviceName := device } }

/-- `DeviceForNode`. -/
def deviceForNode (cg : ColocationGraph) (id : ℕ) :
    Except Fault (ParsedName × ColocationGraph) := do
  let (root, cg) ← cg.findRoot id
  return ((cg.members root).deviceName, cg)

/-- The devices of a specification whose types are supported. -/
def matchingDevices (member : Member) (spec : ParsedName) : Except Fault (List Device) :=
  match DeviceSet.findMatchingDevices env.devices spec with
  | none => .error .crash
  | some devices => .ok (filterSupportedDevices devices member.supportedDeviceTypes)

/-- The same device name without a type and an id. -/
def softDeviceName (name : ParsedName) : ParsedName := { name with type := none, id := none }

/-- The error when no device conforms to the device name of a root. -/
def cannotSatisfy (node : Node α) (name : ParsedName) : Fault :=
  let device := node.nodeDef.device
  if parseFullName device = some name then
    if (DeviceSet.findMatchingDevices env.devices name).getD [] = [] then
      invalid [ascii "Could not satisfy explicit device specification '", device,
        ascii "' because no devices matching that specification are registered in this process; ",
        ascii "available devices: ",
        ((env.devices.map Device.name).insertionSort fun a b ↦ ¬b < a).intersperse (ascii ", ")
          |>.flatten]
    else
      match name.type with
      | some type => invalid [ascii "Could not satisfy explicit device specification '", device,
          ascii "' because no supported kernel for ", type, ascii " devices is available."]
      | none => invalid [ascii "Could not satisfy explicit device specification '", device]
  else invalid [ascii "Could not satisfy explicit device specification '", device,
    ascii "' because the node was colocated with a group of nodes that required incompatible ",
    ascii "device '", parsedNameToString name, ascii "'"]

/-- The devices that conform to the device name of a root or, where soft placement is allowed, to
this name without a type and an id. -/
def specifiedDevices (member : Member) : Except Fault (List Device) := do
  let devices ← matchingDevices env member member.deviceName
  if devices = [] ∧ env.softPlacement then
    matchingDevices env member (softDeviceName member.deviceName)
  else return devices

/-- An error unless there are devices. -/
def nonemptyOr (fault : Fault) (devices : List Device) : Except Fault (List Device) :=
  if devices = [] then .error fault else .ok devices

/-- The devices for the group of a root, as `GetDevicesForNode` computes them. -/
def computeDevices (node : Node α) (member : Member) : Except Fault (List Device) :=
  if hasSomeDetails member.deviceName then do
    let devices ← specifiedDevices env member
    nonemptyOr (cannotSatisfy env node member.deviceName) devices
  else if env.devices = [] then .error (internal [ascii "No devices are registered"])
  else
    nonemptyOr (invalid [ascii "Node had no OpKernel registered to support this operation: ",
        ascii "Operation was ", node.nodeDef.op, ascii " and inputs were ",
        ((node.inputTypes.map DataType.toByteString).intersperse (ascii ", ")).flatten])
      (filterSupportedDevices env.devices member.supportedDeviceTypes)

/-- `GetDevicesForNode`. -/
def getDevicesForNode (cg : ColocationGraph) (p : ℕ × Node α) :
    Except Fault (List Device × ColocationGraph) := do
  let (root, cg) ← cg.findRoot p.1
  if (cg.members root).possibleDevices ≠ [] then return ((cg.members root).possibleDevices, cg)
  let devices ← computeDevices env p.2 (cg.members root)
  return (devices, { cg with
    members := Function.update cg.members root
      { cg.members root with possibleDevices := devices } })

end ColocationGraph

/-! ### `SimplePlacer` -/

open ColocationGraph

/-- Step 1 of `Run`: add all of the nodes. -/
def addNodes (g : Graph α) : Except Fault ColocationGraph :=
  g.opNodes.foldlM (ColocationGraph.addNode env) {}

/-- `IsRefType(node->input_type(edge->dst_input()))`. -/
def isRefInput (node : Node α) (e : Edge) : Except Fault Bool :=
  if 0 ≤ e.dstInput ∧ e.dstInput < node.numInputs then
    .ok (DataType.isRefType (node.inputTypes.getD e.dstInput.toNat 0))
  else .error .crash

/-- Which of two device names a reference edge keeps if both have details. -/
def resolveDevices (cg : ColocationGraph) (src dst : ℕ) (srcName dstName : ParsedName) :
    Except Fault ColocationGraph :=
  if hasSomeDetails srcName ∧ hasSomeDetails dstName then
    if ¬areCompatibleDevNames srcName dstName then cg.setDeviceForNode dst srcName
    else if isSpecification srcName dstName ∧ ¬isSpecification dstName srcName then
      cg.setDeviceForNode src dstName
    else cg.setDeviceForNode dst srcName
  else .ok cg

/-- `status` of `ColocateNodes`, as `Run` passes it on. -/
def refConnectionError : Fault → Fault
  | .status s =>
    invalid [ascii "Nodes were connected by a reference connection (requiring them to ",
      ascii "be on the same device), but the two nodes were assigned two different devices: ",
      errorMessage s]
  | .crash => .crash

/-- The name of a node of a graph. -/
def nodeName (g : Graph α) (id : ℕ) : ByteString := ((g.findNodeId id).map Node.name).getD []

/-- A reference edge into a node colocates the two nodes. -/
def addRefEdge (g : Graph α) (p : ℕ × Node α) (cg : ColocationGraph) (e : Edge) :
    Except Fault ColocationGraph := do
  if e.isControlEdge then return cg
  if ← isRefInput p.2 e then
    let (srcName, cg) ← cg.deviceForNode e.src
    let (dstName, cg) ← cg.deviceForNode p.1
    let cg ← resolveDevices cg e.src p.1 srcName dstName
    (cg.colocateNodes env (e.src, nodeName g e.src) (p.1, p.2.name)).mapError refConnectionError
  else return cg

/-- Step 2 of `Run`: enumerate the constraint edges. -/
def addRefEdges (g : Graph α) (cg : ColocationGraph) : Except Fault ColocationGraph :=
  g.opNodes.foldlM (fun cg p ↦ (g.inEdges p.1).foldlM (addRefEdge env g p) cg) cg

/-- `IsMetadataNode`. -/
def isMetadataNode (node : Node α) : Bool :=
  node.nodeDef.op = ascii "Size" ∨ node.nodeDef.op = ascii "Shape" ∨ node.nodeDef.op = ascii "Rank"

/-- `IsGeneratorNode`. -/
def isGeneratorNode (g : Graph α) (p : ℕ × Node α) : Bool :=
  p.2.numInputs = 0 ∧ p.2.numOutputs = 1 ∧ (g.outEdges p.1).length = 1 ∧
    ¬DataType.isRefType (p.2.outputTypes.getD 0 0)

/-- The two passes over the nodes without a device. -/
inductive Pass where
  | first
  | second
  deriving DecidableEq

/-- A node that a pass takes up. -/
abbrev Turn (α : Type) := Pass × ℕ × Node α

/-- The nodes in the order in which they get their devices: generators are skipped during the first
pass. -/
def turns (g : Graph α) : List (Turn α) :=
  let nodes := g.opNodes.filter fun p ↦ p.2.assignedDeviceName = []
  (nodes.filter fun p ↦ ¬isGeneratorNode g p).map (Pass.first, ·) ++
    (nodes.filter fun p ↦ isGeneratorNode g p).map (Pass.second, ·)

/-- `assigned_device_name` of a node. -/
def assignedDeviceName (g : Graph α) (id : ℕ) : ByteString :=
  ((g.findNodeId id).map Node.assignedDeviceName).getD []

/-- The node that a heuristic prefers to be placed with: the input of a metadata node in the first
pass, the consumer of a generator in the second one. -/
def neighbour (g : Graph α) (turn : Turn α) : Except Fault (Option ℕ) :=
  match turn.1 with
  | .first =>
    if isMetadataNode turn.2.2 then
      match g.inEdges turn.2.1 with
      | [] => .error .crash
      | e :: _ => .ok (some e.src)
    else .ok none
  | .second =>
    if isGeneratorNode g turn.2 then
      match g.outEdges turn.2.1 with
      | [] => .error .crash
      | e :: _ => .ok (some e.dst)
    else .ok none

/-- `CanAssignToDevice`. -/
def canAssignToDevice (candidate : ByteString) (devices : List Device) : Except Fault Bool :=
  if candidate = [] then .ok false
  else
    match DeviceSet.findDeviceByName env.devices candidate with
    | none => .error .crash
    | some other => .ok (devices.any fun d ↦ d.deviceType = other.deviceType)

/-- The device of the neighbour, if there is a neighbour and its device passes the test. -/
def preferredDevice (g : Graph α) (turn : Turn α) (devices : List Device) :
    Except Fault (Option ByteString) := do
  match ← neighbour g turn with
  | none => return none
  | some id =>
    let candidate := assignedDeviceName g id
    return if ← canAssignToDevice env candidate devices then some candidate else none

/-- The state of the passes. -/
structure Placement (α : Type) where
  colocationGraph : ColocationGraph
  graph : Graph α

/-- The error for a node that no device is found for. -/
def cannotAssign (node : Node α) : Fault → Fault
  | .status s => invalid [ascii "Cannot assign a device to node '", node.name, ascii "': ",
      errorMessage s]
  | .crash => .crash

/-- One node gets its device. -/
def assignDevice (s : Placement α) (turn : Turn α) : Except Fault (Placement α) := do
  let (devices, cg) ← (s.colocationGraph.getDevicesForNode env turn.2).mapError
    (cannotAssign turn.2.2)
  match devices with
  | [] => throw .crash
  | d :: _ =>
    let preferred ← preferredDevice env s.graph turn devices
    return ⟨cg, s.graph.setAssignedDeviceName turn.2.1 (preferred.getD d.name)⟩

/-- The constraints that steps 1 and 2 of `Run` gather. -/
def colocate (g : Graph α) : Except Fault ColocationGraph := do
  let cg ← addNodes env g
  addRefEdges env g cg

/-- `SimplePlacer::Run`. -/
def run (g : Graph α) : Except Fault (Graph α) := do
  if env.devices = [] then
    throw (.status (.error .failedPrecondition (ascii "No devices are registered")))
  let cg ← colocate env g
  let s ← (turns g).foldlM (assignDevice env) ⟨cg, g⟩
  return s.graph

end TensorFlowCore.SimplePlacer
