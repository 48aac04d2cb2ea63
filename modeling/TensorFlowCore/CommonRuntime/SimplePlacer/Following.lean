import TensorFlowCore.CommonRuntime.SimplePlacer.Soundness

/-!
# Which devices can reach a node

A heuristic takes the device of a neighbour for a node whenever the type of this device occurs in
the list of the node. Along the neighbours a device can thus travel from the node that it was found
for to nodes that do not allow it. Where it can travel is a matter of the graph and of the lists
(`CanReach`), whatever the passes do: if every device that can reach a node that way is one of its
list, and does not take it away from its colocation set, then the placement is sound
(`placementSound_of_keepsToLists`).
-/

namespace TensorFlowCore.SimplePlacer

open ColocationGraph DeviceNameUtils ExceptPost List UnionFind

variable {α : Type} {env : Env α} {g g' : Graph α} {cg : ColocationGraph} {root : ℕ → ℕ}
  {turn : Turn α} {id : ℕ} {name : ByteString} {devices : List Device}

/-- The turns before the one of a node. -/
def turnsBefore (g : Graph α) (turn : Turn α) : List (Turn α) :=
  (turns g).takeWhile fun t ↦ t.2.1 ≠ turn.2.1

/-- A node looks at a neighbour that has a device by then: the graph came with it, or the neighbour
had its turn before. -/
def Follows (g : Graph α) (turn : Turn α) (id : ℕ) : Prop :=
  neighbour g turn = .ok (some id) ∧
    (assignedDeviceName g id ≠ [] ∨ id ∈ (turnsBefore g turn).map (·.2.1))

/-- The devices that can reach a node: the one it is assigned to, the first one of its list, and
each one that can reach the node it follows if the type occurs in its list. -/
inductive CanReach (env : Env α) (g : Graph α) (cg : ColocationGraph) : ByteString → ℕ → Prop where
  | assigned {id : ℕ} : assignedDeviceName g id ≠ [] →
      CanReach env g cg (assignedDeviceName g id) id
  | first {turn : Turn α} {d : Device} : turn ∈ turns g →
      (devicesFor env cg turn.2).head? = some d → CanReach env g cg d.name turn.2.1
  | moved {turn : Turn α} {id : ℕ} {name : ByteString} : turn ∈ turns g → Follows g turn id →
      CanReach env g cg name id →
      canAssignToDevice env name (devicesFor env cg turn.2) = .ok true →
      CanReach env g cg name turn.2.1

/-- A device that can reach the node that another one follows, and whose type occurs in the list of
the latter, is in this list. It is the first one there, or the other nodes of the set follow nodes
that only this device can reach. -/
def KeepsToLists (env : Env α) (g : Graph α) (cg : ColocationGraph) : Prop :=
  ∀ turn ∈ turns g, ∀ id name, Follows g turn id → CanReach env g cg name id →
    canAssignToDevice env name (devicesFor env cg turn.2) = .ok true →
    name ∈ (devicesFor env cg turn.2).map Device.name ∧
    ((devicesFor env cg turn.2).head?.map Device.name = some name ∨
      ∀ turn' ∈ turns g, SameSet cg turn.2.1 turn'.2.1 → turn' = turn ∨
        ∃ id', Follows g turn' id' ∧ ∀ name', CanReach env g cg name' id' → name' = name)

/-- Only one device can reach a node that another one follows. -/
def Unambiguous (env : Env α) (g : Graph α) (cg : ColocationGraph) : Prop :=
  ∀ turn ∈ turns g, ∀ id, Follows g turn id → ∀ name name', CanReach env g cg name id →
    CanReach env g cg name' id → name = name'

/-! ### The passes -/

theorem neighbour_congr (h : g'.edges = g.edges) : neighbour g' turn = neighbour g turn := by
  obtain ⟨nodes, edges, versions⟩ := g
  obtain ⟨nodes', edges', versions'⟩ := g'
  obtain rfl : edges' = edges := h
  rfl

theorem preferredDevice_eq_some_iff : preferredDevice env g turn devices = .ok (some name) ↔
    ∃ id, neighbour g turn = .ok (some id) ∧ assignedDeviceName g id = name ∧
      canAssignToDevice env name devices = .ok true := by
  constructor
  · intro h
    obtain ⟨found, hfound, h⟩ := bind_eq_ok_iff.1 h
    cases found with
    | none => cases h
    | some id =>
      obtain ⟨can, hcan, h⟩ := bind_eq_ok_iff.1 h
      cases can with
      | false => cases h
      | true =>
        obtain rfl : assignedDeviceName g id = name := by simpa using Except.ok.inj h
        exact ⟨id, hfound, rfl, hcan⟩
  · rintro ⟨id, hfound, rfl, hcan⟩
    exact bind_eq_ok_iff.2 ⟨_, hfound, bind_eq_ok_iff.2 ⟨_, hcan, rfl⟩⟩

/-- After some turns the nodes that had theirs are on devices that can reach them. -/
structure Reached (env : Env α) (g : Graph α) (cg : ColocationGraph) (done : List (Turn α))
    (g' : Graph α) : Prop where
  edges : g'.edges = g.edges
  others : ∀ id, id ∉ done.map (·.2.1) → assignedDeviceName g' id = assignedDeviceName g id
  done : ∀ id ∈ done.map (·.2.1), CanReach env g cg (assignedDeviceName g' id) id

theorem Reached.reaches {done : List (Turn α)} (h : Reached env g cg done g')
    (hid : assignedDeviceName g id ≠ [] ∨ id ∈ done.map (·.2.1)) :
    CanReach env g cg (assignedDeviceName g' id) id := by
  by_cases hdone : id ∈ done.map (·.2.1)
  · exact h.done id hdone
  · rw [h.others id hdone]
    exact .assigned (hid.resolve_right hdone)

/-- A node is moved to a device that can reach the node it follows. -/
theorem Reached.follows (h : Reached env g cg (turnsBefore g turn) g')
    (hpreferred : preferredDevice env g' turn devices = .ok (some name)) :
    ∃ id, Follows g turn id ∧ CanReach env g cg name id ∧
      canAssignToDevice env name devices = .ok true := by
  obtain ⟨id, hfound, rfl, hcan⟩ := preferredDevice_eq_some_iff.1 hpreferred
  have hne : assignedDeviceName g' id ≠ [] := by
    intro hnil
    rw [canAssignToDevice, if_pos hnil] at hcan
    cases hcan
  have hid : assignedDeviceName g id ≠ [] ∨ id ∈ (turnsBefore g turn).map (·.2.1) := by
    by_cases hdone : id ∈ (turnsBefore g turn).map (·.2.1)
    · exact .inr hdone
    · exact .inl (h.others id hdone ▸ hne)
  exact ⟨id, ⟨neighbour_congr h.edges ▸ hfound, hid⟩, h.reaches hid, hcan⟩

/-- A node that follows another one is moved to the only device that can reach this one, if it
passes the test. -/
theorem Reached.preferredDevice_eq (h : Reached env g cg (turnsBefore g turn) g')
    (hfollows : Follows g turn id) (honly : ∀ name', CanReach env g cg name' id → name' = name)
    (hcan : canAssignToDevice env name devices = .ok true) :
    preferredDevice env g' turn devices = .ok (some name) := by
  obtain rfl := honly _ (h.reaches hfollows.2)
  exact preferredDevice_eq_some_iff.2
    ⟨id, (neighbour_congr h.edges).trans hfollows.1, rfl, hcan⟩

/-- One more turn: its node gets the first device of its list, or follows another one. -/
theorem Constrained.reached (hcg : Constrained env g cg root) {done rest : List (Turn α)}
    {s : Placement α} (hsplit : turns g = done ++ rest)
    (hrun : done.foldlM (assignDevice env) ⟨cg, g⟩ = .ok s) :
    Reached env g cg done s.graph ∧ Passing env cg root s.colocationGraph := by
  induction done using reverseRecOn generalizing s rest with
  | nil =>
    cases hrun
    exact ⟨⟨rfl, fun _ _ ↦ rfl, nofun⟩, hcg.coherent.passing⟩
  | append_singleton done turn ih =>
    rw [append_assoc, singleton_append] at hsplit
    rw [foldlM_append] at hrun
    obtain ⟨s₁, hrun₁, hrun⟩ := bind_eq_ok_iff.1 hrun
    obtain ⟨s₂, hassign, hrun⟩ := bind_eq_ok_iff.1 hrun
    cases hrun
    obtain ⟨hreached, hpassing⟩ := ih hsplit hrun₁
    have hturn : turn ∈ turns g := hsplit ▸ mem_append_right _ mem_cons_self
    obtain ⟨-, hsome, -⟩ := hcg.coherent.passing.foldlM (fun t ht ↦
      isSome_findNodeId_of_mem_turns (hsplit ▸ mem_append_left _ ht)) hrun₁
    obtain ⟨d, ds, preferred, hcompute, hpreferred, hgraph, hpassing'⟩ :=
      hpassing.assignDevice hassign
    have hdevices := hcg.coherent.devicesFor_eq (hcg.isSome _ (mem_turns hturn).1) hcompute
    have hname (id : ℕ) : assignedDeviceName s.graph id =
        if id = turn.2.1 then preferred.getD d.name else assignedDeviceName s₁.graph id := by
      rw [hgraph, assignedDeviceName_set ((hsome _).trans (isSome_findNodeId_of_mem_turns hturn))]
    -- the device that the node gets can reach it
    have hnew : CanReach env g cg (preferred.getD d.name) turn.2.1 := by
      cases preferred with
      | none => exact .first hturn (by rw [hdevices]; rfl)
      | some name =>
        have hbefore : Reached env g cg (turnsBefore g turn) s₁.graph := by
          rw [turnsBefore, takeWhile_turns hsplit]
          exact hreached
        obtain ⟨id, hfollows, hreaches, hcan⟩ := hbefore.follows hpreferred
        exact .moved hturn hfollows hreaches (hdevices ▸ hcan)
    refine ⟨⟨?_, fun id hid ↦ ?_, fun id hid ↦ ?_⟩, hpassing'⟩
    · rw [hgraph]
      exact hreached.edges
    · rw [map_append, mem_append, not_or] at hid
      rw [hname, if_neg (by simpa using hid.2), hreached.others id hid.1]
    · rw [hname]
      split
      · rename_i heq
        rw [heq]
        exact hnew
      · rename_i hne
        rw [map_append, mem_append] at hid
        exact hreached.done id (hid.resolve_right (by simpa using hne))

section

variable {s : Placement α} (hcg : Constrained env g cg root)
  (hrun : (turns g).foldlM (assignDevice env) ⟨cg, g⟩ = .ok s) (hturn : turn ∈ turns g)
include hcg hrun hturn

/-- The state before a turn. -/
theorem Constrained.exists_reached :
    ∃ g₁, Reached env g cg (turnsBefore g turn) g₁ ∧ ∀ name, accepted env g cg turn = some name ↔
      preferredDevice env g₁ turn (devicesFor env cg turn.2) = .ok (some name) := by
  obtain ⟨before, after, hsplit⟩ := append_of_mem hturn
  rw [hsplit, foldlM_append] at hrun
  obtain ⟨s₁, hrun₁, -⟩ := bind_eq_ok_iff.1 hrun
  have hbefore := takeWhile_turns hsplit
  refine ⟨s₁.graph, ?_, fun name ↦ ?_⟩
  · rw [turnsBefore, hbefore]
    exact (hcg.reached hsplit hrun₁).1
  · rw [accepted, hbefore, hrun₁]
    dsimp only
    cases preferredDevice env s₁.graph turn (devicesFor env cg turn.2) with
    | error => simp
    | ok preferred => simp

/-- The nodes of a set with a turn have one list. -/
theorem Constrained.devicesFor_eq {turn' : Turn α} (hturn' : turn' ∈ turns g)
    (hset : SameSet cg turn.2.1 turn'.2.1) :
    devicesFor env cg turn'.2 = devicesFor env cg turn.2 := by
  obtain ⟨d, rest, hcompute, hdevices, -⟩ := assignedDeviceName_eq hcg hrun hturn
  obtain ⟨d', rest', hcompute', hdevices', -⟩ := assignedDeviceName_eq hcg hrun hturn'
  rw [hdevices, hdevices',
    hcg.computeDevices_eq (mem_turns hturn).1 (mem_turns hturn').1 hset hcompute hcompute']

end

/-- If the devices that can reach the nodes keep to the lists, so do the moves. -/
theorem KeepsToLists.movesTogether {s : Placement α} (hkeeps : KeepsToLists env g cg)
    (hcg : Constrained env g cg root)
    (hrun : (turns g).foldlM (assignDevice env) ⟨cg, g⟩ = .ok s) : MovesTogether env g cg := by
  intro turn hturn name haccepted
  obtain ⟨g₁, hreached, hiff⟩ := hcg.exists_reached hrun hturn
  obtain ⟨id, hfollows, hreaches, hcan⟩ := hreached.follows ((hiff name).1 haccepted)
  obtain ⟨hmem, hhead | hset⟩ := hkeeps turn hturn id name hfollows hreaches hcan
  · exact ⟨hmem, .inl hhead⟩
  · refine ⟨hmem, .inr fun turn' hturn' hsame ↦ ?_⟩
    obtain rfl | ⟨id', hfollows', honly⟩ := hset turn' hturn' hsame
    · exact haccepted
    · obtain ⟨g₂, hreached', hiff'⟩ := hcg.exists_reached hrun hturn'
      refine (hiff' name).2 (hreached'.preferredDevice_eq hfollows' honly ?_)
      rwa [hcg.devicesFor_eq hrun hturn hturn' hsame]

/-- Where only one device can reach a followed node, the moves are those that the lists tell. -/
theorem MovesTogether.keepsToLists {s : Placement α} (hmoves : MovesTogether env g cg)
    (hcg : Constrained env g cg root) (hrun : (turns g).foldlM (assignDevice env) ⟨cg, g⟩ = .ok s)
    (hone : Unambiguous env g cg) : KeepsToLists env g cg := by
  intro turn hturn id name hfollows hreaches hcan
  obtain ⟨g₁, hreached, hiff⟩ := hcg.exists_reached hrun hturn
  have haccepted := (hiff name).2 (hreached.preferredDevice_eq hfollows
    (fun name' h ↦ hone turn hturn id hfollows name' name h hreaches) hcan)
  obtain ⟨hmem, hhead | hall⟩ := hmoves turn hturn name haccepted
  · exact ⟨hmem, .inl hhead⟩
  · refine ⟨hmem, .inr fun turn' hturn' hsame ↦ .inr ?_⟩
    obtain ⟨g₂, hreached', hiff'⟩ := hcg.exists_reached hrun hturn'
    obtain ⟨id', hfollows', hreaches', -⟩ :=
      hreached'.follows ((hiff' name).1 (hall turn' hturn' hsame))
    exact ⟨id', hfollows', fun name' h ↦ hone turn' hturn' id' hfollows' name' name h hreaches'⟩

/-! ### Soundness -/

/-- When `Run` returns, the placement is sound if every device that can reach a node by its type
keeps to the lists. Where only one device can reach a node that another one follows, it is sound
only then. -/
theorem placementSound_of_keepsToLists (env : Env α) (g g' : Graph α) (h : run env g = .ok g') :
    ∃ cg, colocate env g = .ok cg ∧ GroupsTogether env g cg ∧
      (KeepsToLists env g cg → PlacementSound env g cg g') ∧
      (Unambiguous env g cg → PlacementSound env g cg g' → KeepsToLists env g cg) := by
  rw [run] at h
  split at h
  · cases h
  · obtain ⟨cg, hcolocate, h⟩ := bind_eq_ok_iff.1 h
    obtain ⟨s, hrun, h⟩ := bind_eq_ok_iff.1 h
    cases h
    obtain ⟨root, hcg⟩ := exists_constrained hcolocate
    refine ⟨cg, hcolocate, hcg.groupsTogether, fun hkeeps ↦ ?_, fun hone hsound ↦ ?_⟩
    · exact hcg.placementSound hrun (hkeeps.movesTogether hcg hrun)
    · exact (hcg.movesTogether hrun hsound).keepsToLists hcg hrun hone

/-! ### A constant and its consumer -/

/-- A process with two processors, where every op has a kernel. -/
def twoCpus : Env Unit where
  devices := [⟨ascii "/job:a/replica:0/task:0/cpu:0", ascii "CPU",
      ⟨some (ascii "a"), some 0, some 0, some (ascii "CPU"), some 0⟩⟩,
    ⟨ascii "/job:a/replica:0/task:0/cpu:1", ascii "CPU",
      ⟨some (ascii "a"), some 0, some 0, some (ascii "CPU"), some 1⟩⟩]
  options := none
  supportedDeviceTypesForNode types _ := .ok types
  kernelsRegisteredForOp _ := []
  classSpecs _ := none

/-- `Const -> Identity`, with a device specification for each. -/
def constOn (constDevice identityDevice : ByteString) : Graph Unit where
  nodes := (Graph.new : Graph Unit).nodes ++
    [some ⟨⟨ascii "a", ascii "Const", [], constDevice, ()⟩, {}, [], [1], []⟩,
      some ⟨⟨ascii "b", ascii "Identity", [ascii "a"], identityDevice, ()⟩, {}, [1], [1], []⟩]
  edges := (Graph.new : Graph Unit).edges ++ [⟨2, 0, 3, 0⟩]
  versions := { producer := graphDefVersion, minConsumer := 0 }

section

variable {cg : ColocationGraph} (hcg : colocate twoCpus (constOn [] (ascii "/cpu:1")) = .ok cg)
include hcg

/-- Only the second processor can reach the consumer, which the constant follows. -/
theorem reaches_constOn {turn : Turn Unit} (hturn : turn ∈ turns (constOn [] (ascii "/cpu:1")))
    (hfollows : Follows (constOn [] (ascii "/cpu:1")) turn id)
    (h : CanReach twoCpus (constOn [] (ascii "/cpu:1")) cg name id) :
    turn.1 = .second ∧ name = ascii "/job:a/replica:0/task:0/cpu:1" := by
  obtain rfl | hturn := mem_cons.1 hturn
  · cases hfollows.1
  · obtain rfl := mem_singleton.1 hturn
    cases hfollows.1
    refine ⟨rfl, ?_⟩
    generalize hid : 3 = id at h
    cases h with
    | assigned hne =>
      subst hid
      exact absurd rfl hne
    | first hturn hhead =>
      obtain rfl | hturn := mem_cons.1 hturn
      · cases hcg
        cases hhead
        rfl
      · obtain rfl := mem_singleton.1 hturn
        cases hid
    | moved hturn hfollows =>
      obtain rfl | hturn := mem_cons.1 hturn
      · cases hfollows.1
      · obtain rfl := mem_singleton.1 hturn
        cases hid

/-- The list of the constant has both processors, and the constant is alone in its set. -/
theorem keepsToLists_constOn : KeepsToLists twoCpus (constOn [] (ascii "/cpu:1")) cg := by
  intro turn hturn id name hfollows hreaches hcan
  obtain ⟨hpass, rfl⟩ := reaches_constOn hcg hturn hfollows hreaches
  obtain rfl | hturn := mem_cons.1 hturn
  · cases hpass
  · obtain rfl := mem_singleton.1 hturn
    cases hcg
    refine ⟨by decide, .inr fun turn' hturn' hset ↦ ?_⟩
    obtain rfl | hturn' := mem_cons.1 hturn'
    · exact absurd (Option.some.inj hset) (by decide)
    · exact .inl (mem_singleton.1 hturn')

end

/-- Without a specification for the constant it may move. -/
theorem placementSound_constOn :
    ∃ g' cg, run twoCpus (constOn [] (ascii "/cpu:1")) = .ok g' ∧
      colocate twoCpus (constOn [] (ascii "/cpu:1")) = .ok cg ∧
      PlacementSound twoCpus (constOn [] (ascii "/cpu:1")) cg g' ∧
      KeepsToLists twoCpus (constOn [] (ascii "/cpu:1")) cg ∧
      assignedDeviceName g' 2 = ascii "/job:a/replica:0/task:0/cpu:1" := by
  obtain ⟨g', hrun, hname⟩ : ∃ g', run twoCpus (constOn [] (ascii "/cpu:1")) = .ok g' ∧
      assignedDeviceName g' 2 = ascii "/job:a/replica:0/task:0/cpu:1" := ⟨_, rfl, rfl⟩
  obtain ⟨cg, hcg, -, hsound, hkeeps⟩ :=
    placementSound_of_keepsToLists twoCpus (constOn [] (ascii "/cpu:1")) g' hrun
  have hplaced := hsound (keepsToLists_constOn hcg)
  refine ⟨g', cg, hrun, hcg, hplaced,
    hkeeps (fun turn hturn id hfollows name name' h h' ↦ ?_) hplaced, hname⟩
  rw [(reaches_constOn hcg hturn hfollows h).2, (reaches_constOn hcg hturn hfollows h').2]

/-- A constant for the second processor is moved to the first one, on which its consumer is. -/
theorem not_placementSound_constOn :
    ∃ g' cg, run twoCpus (constOn (ascii "/cpu:1") (ascii "/cpu:0")) = .ok g' ∧
      colocate twoCpus (constOn (ascii "/cpu:1") (ascii "/cpu:0")) = .ok cg ∧
      ¬PlacementSound twoCpus (constOn (ascii "/cpu:1") (ascii "/cpu:0")) cg g' := by
  refine ⟨_, _, rfl, rfl, fun hsound ↦ ?_⟩
  obtain ⟨d, hallowed, hname⟩ := hsound.allowed (2, _) mem_cons_self rfl
  obtain rfl := mem_singleton.1 hallowed.mem_devicesFor
  exact absurd hname (by decide)


end TensorFlowCore.SimplePlacer
