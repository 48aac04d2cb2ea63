import TensorFlowCore.CommonRuntime.PendingCounts
import TensorFlowCore.Support.GuardedRun

/-!
# The executor

How `tensorflow/core/common_runtime/executor.cc` propagates the outputs of a node: frames and their
iterations, pending and dead counts, and the nodes that become ready. Functions have the source's
names; what the source passes as `ready` is the list that a function returns.

* A `FrameState*` is the number of a frame, in the order of their creation, and `frames` gives the
  frames that have not been deleted. `outstanding_frames_` holds exactly these, under their names,
  so it is not a component of its own.
* The input entries of a node are indexed by node and slot, not by `input_start + slot`.
* An entry is the value in it, if any: `has_value` is `Option.isSome`.
* Dereferencing a null pointer is a `Fault`. So is running out of `fuel`, which the two loops of
  `CleanupFramesIterations` need; it is proved not to happen.
* `IterationState.iter` is a ghost: no function reads it.

A `Machine` adds the nodes that are ready, those whose kernels run, and those that have been
processed. An action starts a ready node, or finishes a running one with the outputs its kernel
computed, or lets its kernel fail; so a run is any interleaving of the threads. Statistics, logging
(but not the marks that `vlog_` sets) and the reference counts of tensors are left out.
-/

namespace TensorFlowCore.Executor

/-! ### Graphs -/

abbrev NodeId := ℕ

abbrev FrameId := ℕ

/-- The kinds of nodes that the executor tells apart, with the attributes it reads. -/
inductive NodeKind where
  | switch
  | merge
  | enter (frameName : String) (isConstant : Bool) (parallelIterations : ℕ)
  | exit
  | nextIteration
  | controlTrigger
  | send
  | recv
  | other
  deriving DecidableEq

structure Node where
  kind : NodeKind
  numInputs : ℕ
  numOutputs : ℕ

/-- An edge. The slot `none` is the control slot. -/
structure Edge where
  id : ℕ
  src : NodeId
  srcOutput : Option ℕ
  dst : NodeId
  dstInput : ℕ
  deriving DecidableEq

structure Graph where
  nodes : List NodeId
  node : NodeId → Node
  edges : List Edge

def Node.isEnter (n : Node) : Bool :=
  match n.kind with
  | .enter .. => true
  | _ => false

def Node.isMerge (n : Node) : Bool := n.kind = .merge

def Node.isControlTrigger (n : Node) : Bool := n.kind = .controlTrigger

def Edge.isControlEdge (e : Edge) : Bool := e.srcOutput.isNone

namespace Graph

variable (g : Graph)

def outEdges (v : NodeId) : List Edge := g.edges.filter fun e ↦ e.src = v

def inEdges (v : NodeId) : List Edge := g.edges.filter fun e ↦ e.dst = v

/-- `ExecutorImpl::InitializePending`. -/
def initialCounts (v : NodeId) : Counts :=
  let inEdges := g.inEdges v
  if (g.node v).isMerge then
    .setInitialCount (1 + 2 * inEdges.countP Edge.isControlEdge) inEdges.length
  else .setInitialCount inEdges.length inEdges.length

/-- `frame_input_count_`. -/
def frameInputCount (name : String) : ℕ :=
  g.nodes.countP fun v ↦
    match (g.node v).kind with
    | .enter frameName _ _ => frameName = name
    | _ => false

/-- `root_nodes_`. -/
def rootNodes : List NodeId := g.nodes.filter fun v ↦ (g.inEdges v).isEmpty

end Graph

/-! ### Iterations -/

/-- `ExecutorState::Entry`. -/
abbrev Entry (τ : Type) := Option τ

/-- `ExecutorState::TaggedNode`. -/
structure TaggedNode where
  node : NodeId
  inputFrame : FrameId
  inputIter : ℕ
  isDead : Bool
  deriving DecidableEq

/-- `ExecutorState::IterationState`. -/
structure IterationState (τ : Type) where
  /-- The iteration that this state was made for. -/
  iter : ℕ
  inputTensors : NodeId → ℕ → Entry τ := fun _ _ ↦ none
  outstandingOps : ℤ := 0
  outstandingFrameCount : ℤ := 0
  counts : NodeId → Counts

variable {τ : Type}

/-- `new IterationState(impl)`. -/
def IterationState.new (g : Graph) (iter : ℕ) : IterationState τ where
  iter := iter
  counts := g.initialCounts

/-- What the arrival of an input does to the counts of a node, and the flags that the code sets on
the way. -/
structure Arrival where
  counts : Counts
  dstDead : Bool
  dstReady : Bool
  dstNeedInput : Bool

/-- A control edge arrives at a Merge. -/
def Node.arriveControlAtMerge (dst : Node) (c : Counts) : Arrival :=
  let c := c.decrementPending 2
  let dead := c.deadCount = dst.numInputs
  { counts := c, dstDead := dead, dstReady := c.pending = 0 ∨ (c.pending = 1 ∧ dead)
    dstNeedInput := false }

/-- The body of the loop of `ActivateNode` up to the writes: an edge arrives, from a node that is an
Enter or not and dead or not, with a value or not. -/
def Node.arrive (dst : Node) (fromEnter isDead isControlEdge hasValue : Bool) (c : Counts) :
    Arrival :=
  if dst.isMerge then
    if isControlEdge then dst.arriveControlAtMerge c
    else if hasValue then
      -- The lowest bit is set as long as no live input has been used.
      { counts := c.markLive, dstDead := false, dstReady := c.pending = 1
        dstNeedInput := c.pending % 2 = 1 }
    else
      let c := c.incrementDeadCount
      let dead := c.deadCount = dst.numInputs ∨ fromEnter
      { counts := c, dstDead := dead, dstReady := c.pending = 1 ∧ dead, dstNeedInput := false }
  else
    let c := if isDead || (!isControlEdge && !hasValue) then c.incrementDeadCount else c
    let dead := 0 < c.deadCount
    let c := c.decrementPending 1
    { counts := c, dstDead := dead, dstReady := c.rawPending = 0, dstNeedInput := !isControlEdge }

/-- The value that an edge carries. -/
def Edge.entry (e : Edge) (outputs : List (Entry τ)) : Entry τ :=
  e.srcOutput.bind fun slot ↦ outputs.getD slot none

/-- `ready->push_back(..)` and `outstanding_ops++`, for a node that has become ready. -/
def pushReady (dst : NodeId) (dead ready : Bool)
    (x : IterationState τ × List (NodeId × Bool)) : IterationState τ × List (NodeId × Bool) :=
  if ready then
    ({ x.1 with outstandingOps := x.1.outstandingOps + 1 }, x.2 ++ [(dst, dead)])
  else x

/-- The loop body of `ActivateNode`. The list is the nodes that became ready, with `is_dead`. -/
def activateEdge (g : Graph) (fromEnter isDead : Bool) (outputs : List (Entry τ))
    (x : IterationState τ × List (NodeId × Bool)) (e : Edge) :
    IterationState τ × List (NodeId × Bool) :=
  let (it, ready) := x
  let dst := g.node e.dst
  let a := dst.arrive fromEnter isDead e.isControlEdge (e.entry outputs).isSome (it.counts e.dst)
  let inputs := if a.dstNeedInput then
      Function.update (it.inputTensors e.dst) e.dstInput (e.entry outputs)
    else it.inputTensors e.dst
  let it := { it with
    counts := Function.update it.counts e.dst a.counts
    inputTensors := Function.update it.inputTensors e.dst inputs }
  pushReady e.dst (a.dstDead && !dst.isControlTrigger) a.dstReady (it, ready)

/-- `ActivateNode`, in the state of the output iteration. -/
def activateNode (g : Graph) (v : NodeId) (isDead : Bool) (outputs : List (Entry τ))
    (it : IterationState τ) : IterationState τ × List (NodeId × Bool) :=
  (g.outEdges v).foldl (activateEdge g (g.node v).isEnter isDead outputs) (it, [])

/-- The arrival of an edge of a dead Exit, as `CleanupFramesIterations` writes it out. -/
def Node.arriveFromDeadExit (dst : Node) (isControlEdge : Bool) (c : Counts) : Arrival :=
  if dst.isMerge then
    if isControlEdge then dst.arriveControlAtMerge c
    else
      let c := c.incrementDeadCount
      let dead := c.deadCount = dst.numInputs
      { counts := c, dstDead := dead, dstReady := c.pending = 1 ∧ dead, dstNeedInput := false }
  else
    let c := c.incrementDeadCount.decrementPending 1
    { counts := c, dstDead := true, dstReady := c.rawPending = 0, dstNeedInput := false }

/-- The loop body of the propagation of dead exits. -/
def deadExitEdge (g : Graph) (x : IterationState τ × List (NodeId × Bool)) (e : Edge) :
    IterationState τ × List (NodeId × Bool) :=
  let (it, ready) := x
  let a := (g.node e.dst).arriveFromDeadExit e.isControlEdge (it.counts e.dst)
  let it := { it with counts := Function.update it.counts e.dst a.counts }
  pushReady e.dst a.dstDead a.dstReady (it, ready)

/-- The two loops that propagate the dead exits of a frame to the parent iteration. -/
def propagateDeadExits (g : Graph) (deadExits : List NodeId) (it : IterationState τ) :
    IterationState τ × List (NodeId × Bool) :=
  deadExits.foldl (fun x v ↦ (g.outEdges v).foldl (deadExitEdge g) x) (it, [])

/-! ### Frames -/

/-- Why a step does not return. -/
inductive Fault where
  | nullDeref
  | outOfFuel
  deriving DecidableEq

/-- The object that a pointer points to. -/
def deref {α : Type} : Option α → Except Fault α
  | some x => .ok x
  | none => .error .nullDeref

/-- `ExecutorState::FrameState`. -/
structure FrameState (τ : Type) where
  frameName : String
  /-- `parent_frame` and `parent_iter`. -/
  parent : Option (FrameId × ℕ)
  iterationCount : ℕ := 0
  numPendingInputs : ℤ
  numOutstandingIterations : ℤ := 1
  maxParallelIterations : ℕ
  /-- `iterations.size()`. -/
  bufferSize : ℕ
  iterations : ℕ → Option (IterationState τ)
  nextIterRoots : List (NodeId × Entry τ) := []
  invValues : List (NodeId × Entry τ) := []
  deadExits : List NodeId := []

/-- The nodes that became ready in an iteration. -/
def tag (fid : FrameId) (iter : ℕ) (ready : List (NodeId × Bool)) : List TaggedNode :=
  ready.map fun (v, dead) ↦ ⟨v, fid, iter, dead⟩

namespace FrameState

/-- `GetIteration`. -/
def getIteration (f : FrameState τ) (iter : ℕ) : Option (IterationState τ) :=
  f.iterations (iter % f.bufferSize)

/-- `SetIteration`. -/
def setIteration (f : FrameState τ) (iter : ℕ) (state : Option (IterationState τ)) : FrameState τ :=
  { f with iterations := Function.update f.iterations (iter % f.bufferSize) state }

/-- `ActivateNode`, for an iteration of the frame. -/
def activateNode (g : Graph) (fid : FrameId) (f : FrameState τ) (v : NodeId) (isDead : Bool)
    (iter : ℕ) (outputs : List (Entry τ)) : Except Fault (FrameState τ × List TaggedNode) := do
  let it ← deref (f.getIteration iter)
  let (it, ready) := Executor.activateNode g v isDead outputs it
  return (f.setIteration iter (some it), tag fid iter ready)

/-- The loop of `ActivateNexts` and `ActivateLoopInvs`. -/
def activateEach (g : Graph) (fid : FrameId) (iter : ℕ) :
    FrameState τ → List (NodeId × Entry τ) → Except Fault (FrameState τ × List TaggedNode)
  | f, [] => .ok (f, [])
  | f, (v, entry) :: rest => do
    let (f, ready) ← f.activateNode g fid v entry.isNone iter [entry]
    let (f, ready') ← activateEach g fid iter f rest
    return (f, ready ++ ready')

/-- `ActivateNexts`. -/
def activateNexts (g : Graph) (fid : FrameId) (f : FrameState τ) (iter : ℕ) :
    Except Fault (FrameState τ × List TaggedNode) := do
  let (f, ready) ← activateEach g fid iter f f.nextIterRoots
  return ({ f with nextIterRoots := [] }, ready)

/-- `ActivateLoopInvs`. -/
def activateLoopInvs (g : Graph) (fid : FrameId) (f : FrameState τ) (iter : ℕ) :
    Except Fault (FrameState τ × List TaggedNode) :=
  activateEach g fid iter f f.invValues

/-- The loop of `AddLoopInv`. -/
def activateIterations (g : Graph) (fid : FrameId) (v : NodeId) (entry : Entry τ) :
    FrameState τ → List ℕ → Except Fault (FrameState τ × List TaggedNode)
  | f, [] => .ok (f, [])
  | f, i :: rest => do
    let (f, ready) ← f.activateNode g fid v entry.isNone i [entry]
    let (f, ready') ← activateIterations g fid v entry f rest
    return (f, ready ++ ready')

/-- `AddLoopInv`. -/
def addLoopInv (g : Graph) (fid : FrameId) (f : FrameState τ) (v : NodeId) (entry : Entry τ) :
    Except Fault (FrameState τ × List TaggedNode) :=
  activateIterations g fid v entry { f with invValues := f.invValues ++ [(v, entry)] }
    (List.range' 1 f.iterationCount)

/-- What `FindOrCreateOutputFrameIter` does with an Enter that may be a loop invariant. -/
def enterLoopInv (g : Graph) (fid : FrameId) (f : FrameState τ) (isConstant : Bool) (v : NodeId)
    (entry : Entry τ) : Except Fault (FrameState τ × List TaggedNode) :=
  if isConstant then f.addLoopInv g fid v entry else .ok (f, [])

/-- `IncrementIteration`, up to the activations: the new iteration. -/
def newIteration (g : Graph) (f : FrameState τ) : FrameState τ :=
  { f.setIteration (f.iterationCount + 1) (some (.new g (f.iterationCount + 1))) with
    iterationCount := f.iterationCount + 1
    numOutstandingIterations := f.numOutstandingIterations + 1
    deadExits := [] }

/-- `IncrementIteration`. -/
def incrementIteration (g : Graph) (fid : FrameId) (f : FrameState τ) :
    Except Fault (FrameState τ × List TaggedNode) := do
  let nextIter := f.iterationCount + 1
  let (f, ready) ← (f.newIteration g).activateNexts g fid nextIter
  let (f, ready') ← f.activateLoopInvs g fid nextIter
  return (f, ready ++ ready')

/-- `IsFrameDone`. -/
def isFrameDone (f : FrameState τ) : Bool :=
  f.numPendingInputs = 0 ∧ f.numOutstandingIterations = 0

/-- `IsIterationDone`. -/
def isIterationDone (f : FrameState τ) (iter : ℕ) : Except Fault Bool := do
  let it ← deref (f.getIteration iter)
  if it.outstandingOps = 0 ∧ it.outstandingFrameCount = 0 then
    if iter = 0 then return decide (f.numPendingInputs = 0)
    else return (f.getIteration (iter - 1)).isNone
  else return false

/-- The deletion of an iteration. -/
def deleteIteration (f : FrameState τ) (iter : ℕ) : FrameState τ :=
  { f.setIteration iter none with numOutstandingIterations := f.numOutstandingIterations - 1 }

/-- The loop of `CleanupFramesIterations`. -/
def cleanupIterations (g : Graph) (fid : FrameId) :
    ℕ → FrameState τ → ℕ → Except Fault (FrameState τ × List TaggedNode)
  | 0, _, _ => .error .outOfFuel
  | fuel + 1, f, currIter => do
    if currIter ≤ f.iterationCount then
      if ← f.isIterationDone currIter then
        let f := f.deleteIteration currIter
        -- If there is a deferred iteration, start it.
        let (f, ready) ← if f.nextIterRoots.isEmpty then .ok (f, []) else f.incrementIteration g fid
        let (f, ready') ← cleanupIterations g fid fuel f (currIter + 1)
        return (f, ready ++ ready')
      else return (f, [])
    else return (f, [])

end FrameState

/-! ### The executor -/

/-- The frames that have not been deleted. -/
structure State (τ : Type) where
  frames : FrameId → Option (FrameState τ)
  numFrames : ℕ

namespace State

def setFrame (s : State τ) (fid : FrameId) (f : Option (FrameState τ)) : State τ :=
  { s with frames := Function.update s.frames fid f }

/-- `outstanding_frames_.find(name)`. -/
def findFrame (s : State τ) (name : String) : Option FrameId :=
  (List.range s.numFrames).find? fun k ↦ (s.frames k).any fun f ↦ f.frameName = name

/-- `MakeFrameName`. -/
def makeFrameName (f : FrameState τ) (iter : ℕ) (name : String) : String :=
  f.frameName ++ ";" ++ toString iter ++ ";" ++ name

/-- `FindOrCreateChildFrame`. -/
def findOrCreateChildFrame (g : Graph) (s : State τ) (fid : FrameId) (iter : ℕ)
    (enterName : String) (parallelIterations : ℕ) : Except Fault (State τ × FrameId) := do
  let f ← deref (s.frames fid)
  let childName := makeFrameName f iter enterName
  match s.findFrame childName with
  | some child => return (s, child)
  | none =>
    let child : FrameState τ :=
      { frameName := childName
        parent := some (fid, iter)
        numPendingInputs := g.frameInputCount enterName
        maxParallelIterations := parallelIterations
        bufferSize := parallelIterations + 1
        iterations := fun i ↦ if i = 0 then some (.new g 0) else none }
    let it ← deref (f.getIteration iter)
    let f := f.setIteration iter
      (some { it with outstandingFrameCount := it.outstandingFrameCount + 1 })
    return ({ (s.setFrame fid (some f)).setFrame s.numFrames (some child) with
      numFrames := s.numFrames + 1 }, s.numFrames)

/-- `FindOrCreateOutputFrameIter`. The pair is `output_frame` and `output_iter`. -/
def findOrCreateOutputFrameIter (g : Graph) (s : State τ) (t : TaggedNode)
    (outputs : List (Entry τ)) :
    Except Fault (State τ × Option (FrameId × ℕ) × List TaggedNode) := do
  match (g.node t.node).kind with
  | .nextIteration =>
    if t.isDead then
      -- Stop the deadness propagation.
      return (s, none, [])
    else
      let f ← deref (s.frames t.inputFrame)
      if t.inputIter = f.iterationCount then
        if f.numOutstandingIterations = f.maxParallelIterations then
          let f := { f with nextIterRoots := f.nextIterRoots ++ [(t.node, outputs.getD 0 none)] }
          return (s.setFrame t.inputFrame (some f), none, [])
        else
          let (f, ready) ← f.incrementIteration g t.inputFrame
          return (s.setFrame t.inputFrame (some f), some (t.inputFrame, t.inputIter + 1), ready)
      else return (s, some (t.inputFrame, t.inputIter + 1), [])
  | .exit =>
    let f ← deref (s.frames t.inputFrame)
    if t.isDead then
      -- Stop and remember this node if it is a dead exit.
      if t.inputIter = f.iterationCount then
        let f := { f with deadExits := f.deadExits ++ [t.node] }
        return (s.setFrame t.inputFrame (some f), none, [])
      else return (s, none, [])
    else return (s, f.parent, [])
  | .enter frameName isConstant parallelIterations =>
    let (s, child) ←
      s.findOrCreateChildFrame g t.inputFrame t.inputIter frameName parallelIterations
    let f ← deref (s.frames child)
    let (f, ready) ← f.enterLoopInv g child isConstant t.node (outputs.getD 0 none)
    let f := { f with numPendingInputs := f.numPendingInputs - 1 }
    return (s.setFrame child (some f), some (child, 0), ready)
  | _ => return (s, some (t.inputFrame, t.inputIter), [])

/-- `CleanupFramesIterations`. A frame is created after its parent, so the recursion needs no more
fuel than the number of the frame. -/
def cleanupFramesIterations (g : Graph) :
    ℕ → State τ → FrameId → ℕ → Except Fault (State τ × List TaggedNode)
  | 0, _, _, _ => .error .outOfFuel
  | fuel + 1, s, fid, iter => do
    let f ← deref (s.frames fid)
    let (f, ready) ← f.cleanupIterations g fid (f.iterationCount + 3) iter
    let s := s.setFrame fid (some f)
    if f.isFrameDone then
      match f.parent with
      | none =>
        -- The root frame; a dead exit would be propagated to a null frame.
        if f.deadExits.isEmpty then return (s.setFrame fid none, ready)
        else .error .nullDeref
      | some (parentFrame, parentIter) =>
        let p ← deref (s.frames parentFrame)
        let it ← deref (p.getIteration parentIter)
        let (it, readyExits) := propagateDeadExits g f.deadExits it
        let it := { it with outstandingFrameCount := it.outstandingFrameCount - 1 }
        let s := (s.setFrame parentFrame (some (p.setIteration parentIter (some it)))).setFrame
          fid none
        let (s, ready') ← cleanupFramesIterations g fuel s parentFrame parentIter
        return (s, ready ++ tag parentFrame parentIter readyExits ++ ready')
    else return (s, ready)

/-- The activation of the successors in the output frame, if there is one. -/
def activateOutput (g : Graph) (s : State τ) (t : TaggedNode) (outputs : List (Entry τ)) :
    Option (FrameId × ℕ) → Except Fault (State τ × List TaggedNode)
  | none => .ok (s, [])
  | some (fid, iter) => do
    let f ← deref (s.frames fid)
    let (f, ready) ← f.activateNode g fid t.node t.isDead iter outputs
    return (s.setFrame fid (some f), ready)

/-- `outstanding_ops--`, and the clean-up of the frame of a node that is completely done. -/
def finishNode (g : Graph) (s : State τ) (t : TaggedNode) :
    Except Fault (State τ × List TaggedNode) := do
  let f ← deref (s.frames t.inputFrame)
  let it ← deref (f.getIteration t.inputIter)
  let f := f.setIteration t.inputIter (some { it with outstandingOps := it.outstandingOps - 1 })
  (s.setFrame t.inputFrame (some f)).cleanupFramesIterations g (t.inputFrame + 1) t.inputFrame
    t.inputIter

/-- The clean-up of the frame that an Enter has entered: it may be complete now. -/
def cleanupEntered (g : Graph) (s : State τ) (t : TaggedNode) :
    Option (FrameId × ℕ) → Except Fault (State τ × List TaggedNode)
  | none => .ok (s, [])
  | some (fid, iter) =>
    if (g.node t.node).isEnter then s.cleanupFramesIterations g (fid + 1) fid iter
    else .ok (s, [])

/-- `PropagateOutputs`. -/
def propagateOutputs (g : Graph) (s : State τ) (t : TaggedNode) (outputs : List (Entry τ)) :
    Except Fault (State τ × List TaggedNode) := do
  let (s, output, ready₁) ← s.findOrCreateOutputFrameIter g t outputs
  let (s, ready₂) ← s.activateOutput g t outputs output
  let (s, ready₃) ← s.finishNode g t
  let (s, ready₄) ← s.cleanupEntered g t output
  return (s, ready₁ ++ ready₂ ++ ready₃ ++ ready₄)

/-- The constructor and the start of `RunAsync`: the root frame, with the root nodes outstanding. -/
def init (g : Graph) : State τ where
  frames := fun fid ↦ if fid = 0 then some
      { frameName := "_root"
        parent := none
        numPendingInputs := 0
        maxParallelIterations := 1
        bufferSize := 1
        iterations := fun i ↦ if i = 0 then
            some { IterationState.new g 0 with outstandingOps := g.rootNodes.length }
          else none }
    else none
  numFrames := 1

/-- A mark on the counts of a node, which the code makes when `vlog_` is set. -/
def mark (vlog : Bool) (f : Counts → Counts) (s : State τ) (t : TaggedNode) :
    Except Fault (State τ) :=
  if vlog then do
    let frame ← deref (s.frames t.inputFrame)
    let it ← deref (frame.getIteration t.inputIter)
    let it := { it with counts := Function.update it.counts t.node (f (it.counts t.node)) }
    return s.setFrame t.inputFrame (some (frame.setIteration t.inputIter (some it)))
  else .ok s

/-- The input entries of a node, as `Process` finds them. -/
def inputEntries (s : State τ) (t : TaggedNode) : Except Fault (ℕ → Entry τ) := do
  let f ← deref (s.frames t.inputFrame)
  let it ← deref (f.getIteration t.inputIter)
  return it.inputTensors t.node

end State

/-! ### Runs -/

/-- A node that is being processed, with its input entries. -/
structure Task (τ : Type) where
  tagged : TaggedNode
  inputs : ℕ → Entry τ

structure Machine (τ : Type) where
  state : State τ
  ready : List TaggedNode
  running : List (Task τ)
  processed : List (Task τ)

/-- What happens next: a thread takes the ready node at a position, or a kernel ends. -/
inductive Action (τ : Type) where
  | start (k : ℕ)
  | finish (k : ℕ) (outputs : List (Entry τ))
  | fail (k : ℕ)

namespace Machine

/-- `RunAsync`. -/
def init (g : Graph) : Machine τ where
  state := .init g
  ready := g.rootNodes.map fun v ↦ ⟨v, 0, 0, false⟩
  running := []
  processed := []

/-- The effect of an action that is enabled. -/
def exec (g : Graph) (vlog : Bool) (m : Machine τ) : Action τ → Option (Except Fault (Machine τ))
  | .start k => m.ready[k]?.map fun t ↦ do
    let state ← m.state.mark vlog .markStarted t
    let inputs ← state.inputEntries t
    return { m with
      state := state, ready := m.ready.eraseIdx k, running := m.running ++ [⟨t, inputs⟩] }
  | .finish k outputs => m.running[k]?.map fun task ↦ do
    let state ← m.state.mark vlog .markCompleted task.tagged
    let (state, ready) ← state.propagateOutputs g task.tagged outputs
    return { state := state, ready := m.ready ++ ready, running := m.running.eraseIdx k
             processed := m.processed ++ [task] }
  | .fail k => m.running[k]?.map fun task ↦ do
    let state ← m.state.mark vlog .markCompleted task.tagged
    return { m with
      state := state, running := m.running.eraseIdx k, processed := m.processed ++ [task] }

/-- An action that is enabled and does not end the process. -/
def step (g : Graph) (vlog : Bool) (m : Machine τ) (a : Action τ) : Option (Machine τ) :=
  (m.exec g vlog a).bind Except.toOption

end Machine

end TensorFlowCore.Executor
