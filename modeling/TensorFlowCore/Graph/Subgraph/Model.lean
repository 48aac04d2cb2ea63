import TensorFlowCore.Graph.Algorithm
import TensorFlowCore.Support.BreadthFirst

/-!
# `RewriteGraphForExecution`

The rewriting of `tensorflow/core/graph/subgraph.cc`. A tensor that is fed is replaced by the output
of a `_Recv` node, a tensor that is fetched gets a `_Send` node, and the nodes that no target needs
are removed. Tensors are given by names: the checks for tensors that are fed twice or both fed and
fetched compare the names, the rewriting parses them.
-/

namespace TensorFlowCore.Subgraph

open GraphConstructor List

/-- The attributes of a `_Send` or a `_Recv`. -/
structure TransferAttrs where
  type : DataType
  tensorName : ByteString
  sendDevice : ByteString
  recvDevice : ByteString
  sendDeviceIncarnation : ℤ
  clientTerminated : Bool
  deriving DecidableEq

/-- What `NodeBuilder` uses of the op registry, and `DeviceAttributes`. -/
structure Env (α : Type) where
  /-- The attributes, under the names that an op gives them. -/
  transferAttr : ByteString → TransferAttrs → α
  validateNodeDef : NodeDef α → Except Status Unit
  checkOpDeprecation : ByteString → ℤ → Except Status Unit
  summarizeOpDef : ByteString → ByteString
  /-- What a read of a type behind the end of a vector finds. -/
  stray : List DataType → ℤ → DataType
  deviceName : ByteString
  deviceIncarnation : ℤ

/-- An output of a node, and the node that was added for it. -/
structure Transfer where
  node : ℕ
  index : ℤ
  added : ℕ
  deriving DecidableEq

/-- The graph with `NameIndex`. What was fed and what was fetched is recorded in order;
`fetch_nodes` are the nodes that were added for the fetched outputs. -/
structure Rewriting (α : Type) where
  graph : Graph α
  nameIndex : ByteString → Option ℕ
  fed : List Transfer := []
  fetched : List Transfer := []

variable {α : Type}

/-- The index of a graph: of nodes with the same name, the last one. -/
def nameIndex (g : Graph α) : ByteString → Option ℕ :=
  (List.range g.numNodeIds).foldl
    (fun index id ↦
      match g.findNodeId id with
      | some n => Function.update index n.name (some id)
      | none => index) fun _ ↦ none

section

variable (env : Env α)

/-- The attributes that both nodes get. -/
def transferAttrs (type : DataType) (tensorName : ByteString) : TransferAttrs where
  type := type
  tensorName := tensorName
  sendDevice := env.deviceName
  recvDevice := env.deviceName
  sendDeviceIncarnation := env.deviceIncarnation
  clientTerminated := true

/-- `NodeBuilder::Finalize` for a node of an op that is registered, up to the edges. -/
def finalize (g : Graph α) (node : Node α) : Except Status (Graph α × ℕ) := do
  env.validateNodeDef node.nodeDef
  env.checkOpDeprecation node.nodeDef.op g.versions.producer
  return ({ g with nodes := g.nodes ++ [some node] }, g.numNodeIds)

/-! ### `FeedInputs` -/

/-- An edge out of a node moves to the `_Recv` that replaces the output. -/
def moveEdge (recv : ℕ) (index : ℤ) (g : Graph α) (e : Edge) : Graph α :=
  (if e.srcOutput = index then g.addEdge recv 0 e.dst e.dstInput
    else g.addControlEdge recv e.dst).removeEdge e

/-- The edges that move: those from the output, and with a `Placeholder` the control edges. -/
def movingEdges (g : Graph α) (n : ℕ) (node : Node α) (index : ℤ) : List Edge :=
  (g.outEdges n).filter fun e ↦
    e.srcOutput = index ∨ e.srcOutput = kControlSlot ∧ node.nodeDef.op = ascii "Placeholder"

/-- `_recv_name_index`. -/
def recvName (id : ByteString × ℤ) : ByteString := ascii "_recv_" ++ id.1 ++ 95 :: decimalInt id.2

/-- The `_Recv` for a tensor, on the device. -/
def recvNode (id : ByteString × ℤ) (type : DataType) (t : ByteString) : Node α where
  nodeDef := {
    name := recvName id
    op := ascii "_Recv"
    attr := env.transferAttr (ascii "_Recv") (transferAttrs env type t) }
  opDef := { isStateful := true }
  inputTypes := []
  outputTypes := [type]
  assignedDeviceName := env.deviceName

/-- A round of `FeedInputs`. -/
def feedInput (s : Rewriting α) (t : ByteString) : Except Status (Rewriting α) :=
  let id := parseTensorName t
  match s.nameIndex id.1 with
  | none => .error (.error .notFound (ascii "FeedInputs: unable to find feed output " ++ t))
  | some n =>
    match s.graph.findNodeId n with
    | none => .ok s
    | some node =>
      if id.2 ≥ node.numOutputs then
        .error (invalidArgument [ascii "FeedInputs: ", t, ascii " should have output index < ",
          decimal node.numOutputs])
      else do
        let type := DataType.baseType (readType env.stray node.outputTypes id.2)
        let (g, recv) ← finalize env s.graph (recvNode env id type t)
        let g := g.addControlEdge Graph.kSourceId recv
        return { s with
          graph := (movingEdges g n node id.2).foldl (moveEdge recv id.2) g
          nameIndex := Function.update s.nameIndex (recvName id) (some recv)
          fed := s.fed ++ [⟨n, id.2, recv⟩] }

/-- `FeedInputs`. -/
def feedInputs (s : Rewriting α) (fedOutputs : List ByteString) : Except Status (Rewriting α) :=
  fedOutputs.foldlM (feedInput env) s

/-! ### `FetchOutputs` -/

/-- `_send_name_index`. -/
def sendName (id : ByteString × ℤ) : ByteString := ascii "_send_" ++ id.1 ++ 95 :: decimalInt id.2

/-- `NodeDefBuilder::AddInput`: the input, or what is wrong with it. -/
def addInput (name : ByteString) (index : ℤ) : Except ByteString ByteString :=
  if name = [] then .error (ascii "Empty input node name")
  else if isControl name then .error (ascii "Non-control input starting with ^: " ++ name)
  else .ok (if 0 < index then name ++ 58 :: decimalInt index else name)

/-- The `_Send` for a tensor, on the device. -/
def sendNode (id : ByteString × ℤ) (type : DataType) (t input : ByteString) : Node α where
  nodeDef := {
    name := sendName id
    op := ascii "_Send"
    input := [input]
    attr := env.transferAttr (ascii "_Send") (transferAttrs env type t) }
  opDef := { isStateful := true }
  inputTypes := [type]
  outputTypes := []
  assignedDeviceName := env.deviceName

/-- A round of `FetchOutputs`. -/
def fetchOutput (s : Rewriting α) (t : ByteString) : Except Status (Rewriting α) :=
  let id := parseTensorName t
  match s.nameIndex id.1 with
  | none => .error (.error .notFound (ascii "FetchOutputs node " ++ t ++ ascii ": not found"))
  | some n =>
    match s.graph.findNodeId n with
    | none => .ok s
    | some node =>
      if node.numOutputs = 0 then
        .error (invalidArgument [ascii "Tried to fetch data for '", t,
          ascii "', which produces no output.  To run to a node but not fetch any ",
          ascii "data, pass '", t,
          ascii "' as an argument to the 'target_node_names' argument of the ",
          ascii "Session::Run API."])
      else if id.2 ≥ node.numOutputs then
        .error (invalidArgument [ascii "FetchOutputs ", t,
          ascii ": output index too large, must be < ", decimal node.numOutputs])
      else if id.2 < 0 then
        .error (invalidArgument [ascii "Attempt to add output ", decimalInt id.2, ascii " of ",
          node.name, ascii " not in range [0, ", decimal node.numOutputs,
          ascii ") to node with type ", ascii "_Send"])
      else
        match addInput node.name id.2 with
        | .error msg =>
          .error (invalidArgument [msg, ascii " while building NodeDef '", sendName id,
            ascii "' using ",
            env.summarizeOpDef (ascii "_Send")])
        | .ok input => do
          let type := DataType.baseType (readType env.stray node.outputTypes id.2)
          let (g, send) ← finalize env s.graph (sendNode env id type t input)
          return { s with
            graph := (g.addEdge n id.2 send 0).addControlEdge send Graph.kSinkId
            nameIndex := Function.update s.nameIndex (sendName id) (some send)
            fetched := s.fetched ++ [⟨n, id.2, send⟩] }

/-- `FetchOutputs`. -/
def fetchOutputs (s : Rewriting α) (fetches : List ByteString) : Except Status (Rewriting α) :=
  fetches.foldlM (fetchOutput env) s

end

/-! ### `PruneForTargets` -/

/-- `AddNodeToTargets`: the node that is added, if there is one. -/
def targetNode (s : Rewriting α) (name : ByteString) : Option ℕ :=
  match s.nameIndex (parseTensorName name).1 with
  | none => none
  | some n => if (s.graph.findNodeId n).map Node.name = some name then some n else none

/-- `PruneForReverseReachability`. -/
def pruneForReverseReachability (g : Graph α) (targets : List ℕ) : Graph α :=
  let visited := BreadthFirst.search g.inNodes g.numNodeIds targets targets
  ((List.range g.numNodeIds).filter fun id ↦
    (g.findNodeId id).isSome ∧ id ∉ visited ∧ id ≠ Graph.kSourceId ∧ id ≠ Graph.kSinkId).foldl
    Graph.removeNode g

/-- The names of the targets: those of the fetch nodes, and those given. -/
def targetNames (s : Rewriting α) (targetNodes : List ByteString) : List ByteString :=
  s.fetched.filterMap (fun f ↦ (s.graph.findNodeId f.added).map Node.name) ++ targetNodes

/-- The targets. -/
def targets (s : Rewriting α) (targetNodes : List ByteString) : List ℕ :=
  ((targetNames s targetNodes).filterMap (targetNode s)).dedup

/-- `PruneForTargets`. -/
def pruneForTargets (s : Rewriting α) (targetNodes : List ByteString) : Except Status (Graph α) :=
  let notFound := (targetNames s targetNodes).filter fun name ↦ (targetNode s name).isNone
  if notFound ≠ [] then
    .error (.error .notFound (ascii "PruneForTargets: Some target nodes not found: " ++
      notFound.flatMap fun name ↦ name ++ ascii " "))
  else
    .ok (pruneForReverseReachability s.graph (targets s targetNodes)).fixupSourceAndSinkEdges

/-! ### `RewriteGraphForExecution` -/

/-- The check for endpoints that are fed more than once, behind those already seen. -/
def checkFedOnce : List ByteString → List ByteString → Except Status Unit
  | [], _ => .ok ()
  | name :: names, endpoints =>
    if endpoints.contains name then
      .error (invalidArgument [ascii "Endpoint \"", name, ascii "\" fed more than once."])
    else checkFedOnce names (endpoints ++ [name])

/-- The check for endpoints that are both fed and fetched. -/
def checkNotFetched (fedOutputs : List ByteString) : List ByteString → Except Status Unit
  | [] => .ok ()
  | fetch :: fetches =>
    if fedOutputs.contains fetch then .error
      (invalidArgument [fetch, ascii " is both fed and fetched."])
    else checkNotFetched fedOutputs fetches

/-- The graph with the nodes for what is fed and what is fetched. -/
def feedAndFetch (env : Env α) (g : Graph α) (fedOutputs fetches : List ByteString) :
    Except Status (Rewriting α) := do
  let s ← feedInputs env { graph := g, nameIndex := nameIndex g } fedOutputs
  fetchOutputs env s fetches

/-- `RewriteGraphForExecution`. -/
def rewriteGraphForExecution (env : Env α) (g : Graph α)
    (fedOutputs fetches targetNodes : List ByteString) : Except Status (Graph α) :=
  if fetches = [] ∧ targetNodes = [] then
    .error (invalidArgument [ascii "Must specify at least one target to fetch or execute."])
  else do
    checkFedOnce fedOutputs []
    checkNotFetched fedOutputs fetches
    let s ← feedAndFetch env g fedOutputs fetches
    pruneForTargets s targetNodes

end TensorFlowCore.Subgraph

/-!
## Endpoints that are fed and fetched

The checks at the start of `RewriteGraphForExecution` compare names, and two names can denote the
same endpoint: `a` and `a:0` do. Where they pass, the endpoints are distinct exactly if no endpoint
is named in two ways (`distinctEndpoints_iff`).
-/

namespace TensorFlowCore.Subgraph

open ExceptPost List

variable {α : Type} {feeds fetches : List ByteString}

/-- No two feeds denote the same endpoint, and no fetch denotes one that is fed. -/
def DistinctEndpoints (feeds fetches : List ByteString) : Prop :=
  (feeds.map parseTensorName).Nodup ∧ ∀ t ∈ fetches, parseTensorName t ∉ feeds.map parseTensorName

/-- Every endpoint that is fed has one name only, among the feeds and the fetches. -/
def SpelledAlike (feeds fetches : List ByteString) : Prop :=
  ∀ t ∈ feeds, ∀ t' ∈ feeds ++ fetches, parseTensorName t = parseTensorName t' → t = t'

theorem checkFedOnce_eq_ok_iff {names endpoints : List ByteString} :
    checkFedOnce names endpoints = .ok () ↔ names.Nodup ∧ ∀ name ∈ names, name ∉ endpoints := by
  induction names generalizing endpoints with
  | nil => simp [checkFedOnce]
  | cons name names ih =>
    rw [checkFedOnce]
    split
    · rename_i hmem
      exact iff_of_false nofun fun h ↦ h.2 name mem_cons_self (contains_iff_mem.1 hmem)
    · rename_i hmem
      rw [contains_iff_mem] at hmem
      rw [ih, nodup_cons]
      simp only [mem_append, mem_singleton, not_or, forall_mem_cons]
      constructor
      · rintro ⟨hnodup, hall⟩
        exact ⟨⟨fun h ↦ (hall name h).2 rfl, hnodup⟩, hmem, fun n hn ↦ (hall n hn).1⟩
      · rintro ⟨⟨hname, hnodup⟩, -, hall⟩
        refine ⟨hnodup, fun n hn ↦ ⟨hall n hn, ?_⟩⟩
        rintro rfl
        exact hname hn

theorem checkNotFetched_eq_ok_iff :
    checkNotFetched feeds fetches = .ok () ↔ ∀ fetch ∈ fetches, fetch ∉ feeds := by
  induction fetches with
  | nil => simp [checkNotFetched]
  | cons fetch fetches ih =>
    rw [checkNotFetched, forall_mem_cons]
    split
    · rename_i hmem
      exact iff_of_false nofun fun h ↦ h.1 (contains_iff_mem.1 hmem)
    · rename_i hmem
      rw [contains_iff_mem] at hmem
      rw [ih, and_iff_right hmem]

/-- The four parts of a rewriting that succeeds. -/
theorem rewriteGraphForExecution_eq_ok_iff {env : Env α} {g g' : Graph α}
    {targetNodes : List ByteString} :
    rewriteGraphForExecution env g feeds fetches targetNodes = .ok g' ↔
      ¬(fetches = [] ∧ targetNodes = []) ∧ feeds.Nodup ∧ (∀ fetch ∈ fetches, fetch ∉ feeds) ∧
        ∃ s, feedAndFetch env g feeds fetches = .ok s ∧ pruneForTargets s targetNodes = .ok g' := by
  rw [rewriteGraphForExecution]
  split
  · rename_i hempty
    exact iff_of_false nofun fun h ↦ h.1 hempty
  · rename_i hempty
    have hseen : ∀ name ∈ feeds, name ∉ ([] : List ByteString) := fun _ _ ↦ not_mem_nil
    rw [and_iff_right hempty, check_eq_ok_iff, check_eq_ok_iff, bind_eq_ok_iff,
      checkFedOnce_eq_ok_iff, checkNotFetched_eq_ok_iff, and_iff_left hseen]

theorem distinctEndpoints_of_spelledAlike (h : SpelledAlike feeds fetches) (hnodup : feeds.Nodup)
    (hfetched : ∀ fetch ∈ fetches, fetch ∉ feeds) : DistinctEndpoints feeds fetches := by
  refine ⟨hnodup.map_on fun t ht t' ht' heq ↦ h t ht t' (mem_append_left _ ht') heq,
    fun t ht hmem ↦ ?_⟩
  obtain ⟨t', ht', heq⟩ := mem_map.1 hmem
  obtain rfl := h t' ht' t (mem_append_right _ ht) heq
  exact hfetched t' ht ht'

theorem spelledAlike_of_distinctEndpoints (h : DistinctEndpoints feeds fetches) :
    SpelledAlike feeds fetches := by
  intro t ht t' ht' heq
  rcases mem_append.1 ht' with ht' | ht'
  · exact inj_on_of_nodup_map h.1 ht ht' heq
  · exact absurd (heq ▸ mem_map_of_mem ht) (h.2 t' ht')

/-- In a rewriting that succeeds the endpoints are distinct exactly if none is named in two ways. -/
theorem distinctEndpoints_iff (env : Env α) (g g' : Graph α)
    (feeds fetches targetNodes : List ByteString)
    (h : rewriteGraphForExecution env g feeds fetches targetNodes = .ok g') :
    DistinctEndpoints feeds fetches ↔ SpelledAlike feeds fetches := by
  obtain ⟨-, hnodup, hfetched, -⟩ := rewriteGraphForExecution_eq_ok_iff.1 h
  exact ⟨spelledAlike_of_distinctEndpoints,
    fun h ↦ distinctEndpoints_of_spelledAlike h hnodup hfetched⟩

/-! ### A tensor with two names -/

/-- One CPU, and attributes that nothing looks at. -/
def cpuEnv : Env Unit where
  transferAttr _ _ := ()
  validateNodeDef _ := .ok ()
  checkOpDeprecation _ _ := .ok ()
  summarizeOpDef op := op
  stray _ _ := 0
  deviceName := ascii "/job:a/replica:0/task:0/cpu:0"
  deviceIncarnation := 1

/-- An op without inputs, and one that takes its output. -/
def chain : Graph Unit where
  nodes := (Graph.new : Graph Unit).nodes ++
    [some ⟨⟨ascii "a", ascii "Const", [], [], ()⟩, {}, [], [1], []⟩,
      some ⟨⟨ascii "b", ascii "Neg", [ascii "a"], [], ()⟩, {}, [1], [1], []⟩]
  edges := (Graph.new : Graph Unit).edges ++ [⟨Graph.kSourceId, kControlSlot, 2, kControlSlot⟩,
    ⟨2, 0, 3, 0⟩, ⟨3, kControlSlot, Graph.kSinkId, kControlSlot⟩]
  versions := (Graph.new : Graph Unit).versions

theorem distinctEndpoints_iff_chain :
    DistinctEndpoints [ascii "a"] [ascii "b"] ↔ SpelledAlike [ascii "a"] [ascii "b"] :=
  distinctEndpoints_iff cpuEnv chain _ [ascii "a"] [ascii "b"] [] rfl

/-- `a` and `a:0` can be fed together, and one of them can be fetched while the other one is fed. -/
theorem not_distinctEndpoints :
    (¬ ∀ (env : Env Unit) (g g' : Graph Unit) (feeds fetches targetNodes : List ByteString),
      rewriteGraphForExecution env g feeds fetches targetNodes = .ok g' →
        (feeds.map parseTensorName).Nodup) ∧
    ¬ ∀ (env : Env Unit) (g g' : Graph Unit) (feeds fetches targetNodes : List ByteString),
      rewriteGraphForExecution env g feeds fetches targetNodes = .ok g' →
        ∀ t ∈ fetches, parseTensorName t ∉ feeds.map parseTensorName := by
  refine ⟨fun h ↦ ?_, fun h ↦ ?_⟩
  · have hfed := h cpuEnv chain _ [ascii "a", ascii "a:0"] [ascii "b"] [] rfl
    exact absurd hfed (by decide)
  · have hfetched := h cpuEnv chain _ [ascii "a"] [ascii "a:0"] [] rfl
    exact hfetched (ascii "a:0") mem_cons_self (by decide)

end TensorFlowCore.Subgraph
