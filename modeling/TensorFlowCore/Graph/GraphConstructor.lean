import TensorFlowCore.Graph.Graph
import TensorFlowCore.Graph.TensorId
import TensorFlowCore.Support.ExceptPost
import TensorFlowCore.Support.Worklist

/-!
# `GraphConstructor`

`ConvertGraphDefToGraph` of `tensorflow/core/graph/graph_constructor.cc`. The nodes of a `GraphDef`
are converted in an order that `InitFromEdges` prepares: `pending_count_` says how many inputs a
node waits for, and a `Merge`, which may be the target of a back edge, waits for its control inputs
and one more. An input that is not converted when its node is becomes a back edge, added at the end.

The paths that only `ImportGraphDef` takes (shape inference, prefixes, defaults of attributes) are
not modelled. A read behind the end of a vector of types is not checked in a release build; `stray`
is what it finds.
-/

namespace TensorFlowCore

/-- `GraphConstructorOptions`. -/
structure GraphConstructorOptions where
  allowInternalOps : Bool := false
  expectDeviceSpec : Bool := false

/-- `CheckVersions(versions, TF_GRAPH_DEF_VERSION, TF_GRAPH_DEF_VERSION_MIN_PRODUCER, "GraphDef",
"graph")`. -/
def checkVersions (versions : VersionDef) (tfVersionString : ByteString) : Except Status Unit :=
  if versions.producer < graphDefVersionMinProducer then
    .error (invalidArgument [ascii "GraphDef producer version ", decimalInt versions.producer,
      ascii " below min producer ", decimalInt graphDefVersionMinProducer,
      ascii " supported by TensorFlow ", tfVersionString, ascii ".  Please regenerate your graph."])
  else if versions.minConsumer > graphDefVersion then
    .error (invalidArgument [ascii "GraphDef min consumer version ",
      decimalInt versions.minConsumer,
      ascii " above current version ", decimalInt graphDefVersion, ascii " for TensorFlow ",
      tfVersionString, ascii ".  Please upgrade TensorFlow."])
  else if graphDefVersion ∈ versions.badConsumers then
    .error (invalidArgument [ascii "GraphDef disallows consumer version ",
      decimalInt graphDefVersion,
      ascii ".  Please upgrade TensorFlow: this version is likely buggy."])
  else .ok ()

namespace GraphConstructor

/-! ### Names and inputs -/

/-- `Scanner::LETTER_DIGIT_DOT`. -/
def letterDigitDot (c : UInt8) : Bool :=
  65 ≤ c ∧ c ≤ 90 ∨ 97 ≤ c ∧ c ≤ 122 ∨ isDigit c ∨ c = 46

/-- `Scanner::LETTER_DIGIT_DOT_UNDERSCORE`. -/
def letterDigitDotUnderscore (c : UInt8) : Bool := letterDigitDot c ∨ c = 95

/-- `Scanner::LETTER_DIGIT_DASH_DOT_SLASH_UNDERSCORE`. -/
def letterDigitDashDotSlashUnderscore (c : UInt8) : Bool :=
  letterDigitDotUnderscore c ∨ c = 45 ∨ c = 47

/-- `IsValidNodeName`. -/
def isValidNodeName (s : ByteString) (allowInternalOps : Bool) : Bool :=
  match s with
  | [] => false
  | c :: rest =>
    (if allowInternalOps then letterDigitDotUnderscore c else letterDigitDot c) &&
      rest.all letterDigitDashDotSlashUnderscore

/-- `input.Consume("^")`: whether the input is a control dependence, and the rest of it. -/
def consumeControl : ByteString → Bool × ByteString
  | [] => (false, [])
  | c :: rest => if c = 94 then (true, rest) else (false, c :: rest)

/-- The node and the output that an input names. -/
def inputId (input : ByteString) : ByteString × ℤ := parseTensorName (consumeControl input).2

/-- `input_name.starts_with("^")`. -/
def isControl (input : ByteString) : Bool := (consumeControl input).1

section

variable {α : Type}

/-- `IsMerge`. -/
def isMerge (nodeDef : NodeDef α) : Bool :=
  nodeDef.op = ascii "Merge" ∨ nodeDef.op = ascii "RefMerge"

/-- `BuildNodeIndex`, for the nodes behind those with the given names. -/
def buildNodeIndex (opts : GraphConstructorOptions) :
    List (NodeDef α) → List ByteString → Except Status Unit
  | [], _ => .ok ()
  | nodeDef :: nodes, names =>
    if ¬isValidNodeName nodeDef.name opts.allowInternalOps then
      .error (invalidArgument [ascii "Node '", nodeDef.name,
        ascii "': Node name contains invalid characters"])
    else if nodeDef.name ∈ names then
      .error (invalidArgument [ascii "Node '", nodeDef.name, ascii "' is not unique"])
    else if nodeDef.op = [] then
      .error (invalidArgument [ascii "Node '", nodeDef.name,
        ascii "' does not specify an operation"])
    else if opts.expectDeviceSpec ∧ nodeDef.device = [] then
      .error (invalidArgument [ascii "Node '", nodeDef.name,
        ascii "' is missing a device specification"])
    else buildNodeIndex opts nodes (names ++ [nodeDef.name])

end

end GraphConstructor

namespace GraphDef

variable {α : Type}

/-- `name_index_`: the index of the node with a name. -/
def nameIndex (gdef : GraphDef α) (name : ByteString) : Option ℕ :=
  gdef.node.findIdx? fun nodeDef ↦ nodeDef.name = name

/-- The node at an index. -/
def nodeAt [Inhabited α] (gdef : GraphDef α) (n : ℕ) : NodeDef α := gdef.node.getD n default

end GraphDef

namespace GraphConstructor

/-- `InputInfo`. -/
structure InputInfo where
  name : ByteString
  node : Option ℕ
  index : ℤ

/-- `EdgeInfo`: an edge from the node with a name. -/
structure EdgeInfo where
  srcName : ByteString
  srcIndex : ℤ
  dstNode : ℕ
  dstIndex : ℤ

variable {α : Type} [Inhabited α]

/-! ### `InitFromEdges` -/

/-- The initial `pending_count_` of a node: for merge only wait for one non-control input. -/
def pendingCount (nodeDef : NodeDef α) : ℤ :=
  if isMerge nodeDef then nodeDef.input.countP (isControl ·) + 1 else nodeDef.input.length

/-- What `InitFromEdges` prepares: `ready_`, `pending_count_` and `outputs_`. -/
structure EdgeIndex where
  worklist : Worklist.State := ⟨[], fun _ ↦ 0⟩
  outputs : ℕ → List ℕ := fun _ ↦ []

/-- One input of the `n`-th node. -/
def initInput (gdef : GraphDef α) (n : ℕ) (outputs : ℕ → List ℕ) (input : ByteString) :
    Except Status (ℕ → List ℕ) :=
  match gdef.nameIndex (inputId input).1 with
  | none =>
    .error (invalidArgument [ascii "Node '", (gdef.nodeAt n).name,
      ascii "': Unknown input node '", input, ascii "'"])
  | some j => .ok (Function.update outputs j (outputs j ++ [n]))

/-- One round of `InitFromEdges`. -/
def initNode (gdef : GraphDef α) (s : EdgeIndex) (n : ℕ) : Except Status EdgeIndex :=
  let nodeDef := gdef.nodeAt n
  let pending := Function.update s.worklist.pending n (pendingCount nodeDef)
  if nodeDef.input = [] then
    .ok { s with worklist := ⟨n :: s.worklist.ready, pending⟩ }
  else do
    let outputs ← nodeDef.input.foldlM (initInput gdef n) s.outputs
    return ⟨⟨s.worklist.ready, pending⟩, outputs⟩

/-- `InitFromEdges`. -/
def initFromEdges (gdef : GraphDef α) : Except Status EdgeIndex :=
  (List.range gdef.node.length).foldlM (initNode gdef) {}

/-! ### `Convert` -/

/-- The state of a `GraphConstructor` while it converts nodes. -/
structure ConvertState (α : Type) where
  graph : Graph α
  /-- `NodeInfo::node`, by index. -/
  node : ℕ → Option ℕ := fun _ ↦ none
  worklist : Worklist.State
  backEdges : List EdgeInfo := []
  processed : ℕ := 0

/-- The converted node with a name. -/
def ConvertState.nodeNamed (s : ConvertState α) (gdef : GraphDef α) (name : ByteString) :
    Option ℕ :=
  (gdef.nameIndex name).bind s.node

/-- The loop of `Convert` over the inputs of a node: `inputs` and `has_data_back_edge`. -/
def resolveInputs (gdef : GraphDef α) (s : ConvertState α) (nodeDef : NodeDef α) :
    List ByteString → Bool → Except Status (List InputInfo × Bool)
  | [], _ => .ok ([], false)
  | input :: rest, inControlDependence =>
    if isControl input then do
      let (inputs, hasDataBackEdge) ← resolveInputs gdef s nodeDef rest true
      let id := inputId input
      return (⟨id.1, s.nodeNamed gdef id.1, -1⟩ :: inputs, hasDataBackEdge)
    else if inControlDependence then
      .error (invalidArgument [ascii "Node '", nodeDef.name,
        ascii "': Control dependencies must come after regular dependencies"])
    else
      let id := inputId input
      match s.nodeNamed gdef id.1 with
      | none => do
        let (inputs, _) ← resolveInputs gdef s nodeDef rest false
        return (⟨id.1, none, id.2⟩ :: inputs, true)
      | some src =>
        let numOutputs := ((s.graph.findNodeId src).map Node.numOutputs).getD 0
        if id.2 ≥ numOutputs then
          .error (invalidArgument [ascii "Node '", nodeDef.name,
            ascii "': Connecting to invalid output ", decimalInt id.2,
            ascii " of source node ", id.1,
            ascii " which has ", decimal numOutputs, ascii " outputs"])
        else do
          let (inputs, hasDataBackEdge) ← resolveInputs gdef s nodeDef rest false
          return (⟨id.1, some src, id.2⟩ :: inputs, hasDataBackEdge)

section

variable (registry : OpRegistry α) (stray : List DataType → ℤ → DataType)
  (opts : GraphConstructorOptions)

/-- `MakeNode`. -/
def makeNode (g : Graph α) (nodeDef : NodeDef α) : Except Status (Graph α × ℕ) := do
  let (g, node) ← g.addNode registry nodeDef
  return (if opts.expectDeviceSpec then g.setAssignedDeviceName node nodeDef.device else g, node)

/-- `types[i]`, unchecked. -/
def readType (types : List DataType) (i : ℤ) : DataType :=
  if 0 ≤ i ∧ i < types.length then types.getD i.toNat 0 else stray types i

/-- `MakeEdge`. -/
def makeEdge (g : Graph α) (src : ℕ) (outputIndex : ℤ) (dst : ℕ) (inputIndex : ℤ) :
    Except Status (Graph α) :=
  match g.findNodeId src, g.findNodeId dst with
  | some srcNode, some dstNode =>
    let srcOut := readType stray srcNode.outputTypes outputIndex
    let dstIn := readType stray dstNode.inputTypes inputIndex
    if ¬typesCompatible dstIn srcOut then
      .error (invalidArgument [ascii "Input ", decimalInt inputIndex, ascii " of node ",
        dstNode.name, ascii " was passed ", DataType.toByteString srcOut, ascii " from ",
        srcNode.name,
        ascii ":", decimalInt outputIndex, ascii " incompatible with expected ",
        DataType.toByteString dstIn, ascii "."])
    else .ok (g.addEdge src outputIndex dst inputIndex)
  | _, _ => .ok g

/-- The loop of `Convert` that adds the edges of a node, from the `i`-th input on. -/
def addInputEdges (node : ℕ) : List InputInfo → ℕ → Graph α → List EdgeInfo →
    Except Status (Graph α × List EdgeInfo)
  | [], _, g, backEdges => .ok (g, backEdges)
  | input :: inputs, i, g, backEdges =>
    match input.node with
    | none =>
      addInputEdges node inputs (i + 1) g (backEdges ++ [⟨input.name, input.index, node, i⟩])
    | some src =>
      if input.index = -1 then
        addInputEdges node inputs (i + 1) (g.addControlEdge src node) backEdges
      else do
        let g ← makeEdge stray g src input.index node i
        addInputEdges node inputs (i + 1) g backEdges

/-- One round of `Convert`, for the node taken from `ready_`. -/
def convertNode (gdef : GraphDef α) (outputs : ℕ → List ℕ) (s : ConvertState α) (o : ℕ) :
    Except Status (ConvertState α) := do
  let nodeDef := gdef.nodeAt o
  let (inputs, hasDataBackEdge) ← resolveInputs gdef s nodeDef nodeDef.input false
  if hasDataBackEdge ∧ ¬isMerge nodeDef then
    .error (invalidArgument [ascii "Node '", nodeDef.name,
      ascii "' had a back edge, but only Merge nodes can have back edges."])
  else
    let (g, node) ← makeNode registry opts s.graph nodeDef
    let (g, backEdges) ← addInputEdges stray node inputs 0 g s.backEdges
    return {
      graph := g
      node := Function.update s.node o (some node)
      worklist := Worklist.release (outputs o) s.worklist
      backEdges := backEdges
      processed := s.processed + 1 }

/-- The loop of `Convert`, for at most the given number of nodes. -/
def convertLoop (gdef : GraphDef α) (outputs : ℕ → List ℕ) :
    ℕ → ConvertState α → Except Status (ConvertState α)
  | 0, s => .ok s
  | fuel + 1, s =>
    match s.worklist.ready with
    | [] => .ok s
    | o :: ready => do
      let s ← convertNode registry stray opts gdef outputs
        { s with worklist := ⟨ready, s.worklist.pending⟩ } o
      convertLoop gdef outputs fuel s

/-- `Convert`, from an empty graph. -/
def convert (gdef : GraphDef α) (index : EdgeIndex) : Except Status (ConvertState α) := do
  let s ← convertLoop registry stray opts gdef index.outputs gdef.node.length
    { graph := Graph.new, worklist := index.worklist }
  if s.processed < gdef.node.length then
    .error (invalidArgument [decimal (gdef.node.length - s.processed), ascii " nodes in a cycle"])
  else return s

/-! ### `AddBackEdges` -/

/-- One round of `AddBackEdges`. Every node has been converted. -/
def addBackEdge (gdef : GraphDef α) (s : ConvertState α) (g : Graph α) (e : EdgeInfo) :
    Except Status (Graph α) :=
  match s.nodeNamed gdef e.srcName with
  | none => .ok g
  | some src =>
    if e.srcIndex = -1 then .ok (g.addControlEdge src e.dstNode)
    else makeEdge stray g src e.srcIndex e.dstNode e.dstIndex

/-- `AddBackEdges`. -/
def addBackEdges (gdef : GraphDef α) (s : ConvertState α) : Except Status (Graph α) :=
  s.backEdges.foldlM (addBackEdge stray gdef s) s.graph

/-- `ConvertGraphDefToGraph`, into an empty graph. -/
def convertGraphDefToGraph (tfVersionString : ByteString) (gdef : GraphDef α) :
    Except Status (Graph α) := do
  checkVersions gdef.versions tfVersionString
  buildNodeIndex opts gdef.node []
  let index ← initFromEdges gdef
  let s ← convert registry stray opts gdef index
  let g ← addBackEdges stray gdef s
  return { g with versions := gdef.versions }.fixupSourceAndSinkEdges

end

end GraphConstructor

end TensorFlowCore
