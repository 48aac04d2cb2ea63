import TensorFlowCore.CommonRuntime.SimplePlacer.Colocation

/-!
# Which device a node gets

The devices for a colocation set are the same whichever node of the set asks for them and when. A
node gets the first of them unless a heuristic moves it to the device of a neighbour, of which
`CanAssignToDevice` compares the type only. If these moves stay among the devices of the set and the
nodes of a set move together (`MovesTogether`), the placement is sound, and only then.
-/

namespace TensorFlowCore.SimplePlacer

open ColocationGraph DeviceNameUtils ExceptPost Function List UnionFind

variable {α : Type} {env : Env α} {g g' : Graph α} {cg cg' : ColocationGraph} {root : ℕ → ℕ}
  {id r : ℕ} {p : ℕ × Node α} {devices : List Device} {d : Device}

/-! ### The devices for a set -/

/-- The root of the set of a node. -/
def rootOf (cg : ColocationGraph) (id : ℕ) : Option ℕ :=
  (UnionFind.findRoot cg.size cg.forest id).map Prod.fst

/-- Two nodes are in one colocation set. -/
def SameSet (cg : ColocationGraph) (u v : ℕ) : Prop := rootOf cg u = rootOf cg v

/-- The list that `GetDevicesForNode` computes for the set of a node. -/
def devicesFor (env : Env α) (cg : ColocationGraph) (p : ℕ × Node α) : List Device :=
  match cg.getDevicesForNode env p with
  | .error _ => []
  | .ok (devices, _) => devices

/-- A device conforms to a device name or, where soft placement is allowed and no device that does
is supported, to the name without a type and an id. -/
def Conforms (env : Env α) (member : Member) (d : Device) : Prop :=
  isSpecification member.deviceName d.parsedName = true ∨
    env.softPlacement = true ∧
      isSpecification (softDeviceName member.deviceName) d.parsedName = true ∧
      ∀ d' ∈ env.devices, isSpecification member.deviceName d'.parsedName = true →
        d'.deviceType ∉ member.supportedDeviceTypes

theorem mem_filterSupportedDevices {supported : List ByteString} :
    d ∈ filterSupportedDevices devices supported ↔ d ∈ devices ∧ d.deviceType ∈ supported := by
  rw [filterSupportedDevices, mem_insertionSort, mem_flatMap]
  constructor
  · rintro ⟨type, htype, hd⟩
    obtain ⟨hmem, rfl⟩ : d ∈ devices ∧ d.deviceType = type := by simpa using hd
    exact ⟨hmem, htype⟩
  · rintro ⟨hmem, htype⟩
    exact ⟨d.deviceType, htype, by simpa using hmem⟩

theorem mem_matchingDevices {member : Member} {spec : ParsedName}
    (h : matchingDevices env member spec = .ok devices) :
    d ∈ devices ↔ d ∈ env.devices ∧ isSpecification spec d.parsedName = true ∧
      d.deviceType ∈ member.supportedDeviceTypes := by
  rw [matchingDevices, DeviceSet.findMatchingDevices] at h
  split at h
  · cases h
  · rename_i ds hds
    split at hds
    · cases hds
      cases h
      rw [mem_filterSupportedDevices, mem_filter, and_assoc]
    · cases hds

theorem isSpecification_of_not_hasSomeDetails {name more : ParsedName}
    (h : ¬hasSomeDetails name = true) : isSpecification name more = true := by
  obtain ⟨job, replica, task, type, id⟩ := name
  simp only [hasSomeDetails, decide_eq_true_eq, not_or, Bool.not_eq_true,
    Option.isSome_eq_false_iff, Option.isNone_iff_eq_none] at h
  obtain ⟨rfl, rfl, rfl, rfl, rfl⟩ := h
  simp [isSpecification, grants]

theorem mem_specifiedDevices {member : Member} (h : specifiedDevices env member = .ok devices)
    (hd : d ∈ devices) :
    d ∈ env.devices ∧ Conforms env member d ∧ d.deviceType ∈ member.supportedDeviceTypes := by
  obtain ⟨exact, hexact, h⟩ := bind_eq_ok_iff.1 h
  split at h
  · rename_i hsoft
    obtain ⟨hmem, hspec, htype⟩ := (mem_matchingDevices h).1 hd
    refine ⟨hmem, .inr ⟨hsoft.2, hspec, fun d' hd' hspec' htype' ↦ ?_⟩, htype⟩
    have hmem' := (mem_matchingDevices hexact).2 ⟨hd', hspec', htype'⟩
    rw [hsoft.1] at hmem'
    cases hmem'
  · cases h
    obtain ⟨hmem, hspec, htype⟩ := (mem_matchingDevices hexact).1 hd
    exact ⟨hmem, .inl hspec, htype⟩

theorem nonemptyOr_eq_ok_iff {fault : Fault} {found : List Device} :
    nonemptyOr fault found = .ok devices ↔ found = devices ∧ devices ≠ [] := by
  rw [nonemptyOr]
  split
  · rename_i hnil
    exact iff_of_false nofun fun h ↦ h.2 (h.1 ▸ hnil)
  · rename_i hne
    exact ⟨fun h ↦ ⟨Except.ok.inj h, Except.ok.inj h ▸ hne⟩, fun h ↦ congrArg _ h.1⟩

section

variable {node : Node α} {member : Member} (h : computeDevices env node member = .ok devices)
include h

/-- The devices that are computed for a set conform to its device name and have a type that the set
supports. -/
theorem mem_computeDevices (hd : d ∈ devices) :
    d ∈ env.devices ∧ Conforms env member d ∧ d.deviceType ∈ member.supportedDeviceTypes := by
  rw [computeDevices] at h
  split at h
  · obtain ⟨found, hfound, h⟩ := bind_eq_ok_iff.1 h
    obtain ⟨rfl, -⟩ := nonemptyOr_eq_ok_iff.1 h
    exact mem_specifiedDevices hfound hd
  · rename_i hdetails
    split at h
    · cases h
    · obtain ⟨rfl, -⟩ := nonemptyOr_eq_ok_iff.1 h
      obtain ⟨hmem, htype⟩ := mem_filterSupportedDevices.1 hd
      exact ⟨hmem, .inl (isSpecification_of_not_hasSomeDetails hdetails), htype⟩

/-- The node matters for the errors only. -/
theorem computeDevices_congr (node' : Node α) : computeDevices env node' member = .ok devices := by
  rw [computeDevices] at h ⊢
  split at h
  · rename_i hdetails
    rw [if_pos hdetails]
    obtain ⟨found, hfound, h⟩ := bind_eq_ok_iff.1 h
    exact bind_eq_ok_iff.2 ⟨found, hfound, nonemptyOr_eq_ok_iff.2 (nonemptyOr_eq_ok_iff.1 h)⟩
  · rename_i hdetails
    rw [if_neg hdetails]
    split at h
    · cases h
    · rename_i hdevices
      rw [if_neg hdevices]
      exact nonemptyOr_eq_ok_iff.2 (nonemptyOr_eq_ok_iff.1 h)

end

/-! ### The state during the passes -/

/-- During the passes the sets and their constraints stay as they are, and the devices that are kept
for a set are those of its constraints. -/
structure Passing (env : Env α) (cg : ColocationGraph) (root : ℕ → ℕ) (cg' : ColocationGraph) :
    Prop where
  represents : Represents cg'.forest cg'.size root
  sameMembers : SameMembers cg cg'
  supportedDeviceTypes_eq : ∀ id,
    (cg'.members id).supportedDeviceTypes = (cg.members id).supportedDeviceTypes
  deviceName_eq : ∀ id, (cg'.members id).deviceName = (cg.members id).deviceName
  cache : ∀ id, (cg'.members id).possibleDevices ≠ [] → ∀ node : Node α,
    computeDevices env node (cg.members id) = .ok (cg'.members id).possibleDevices

theorem Coherent.passing (hcg : Coherent env g cg root) : Passing env cg root cg :=
  ⟨hcg.represents, ⟨rfl, fun _ ↦ rfl⟩, fun _ ↦ rfl, fun _ ↦ rfl,
    fun id hne ↦ absurd (hcg.cache id) hne⟩

theorem computeDevices_member {node : Node α} {member member' : Member}
    (htypes : member'.supportedDeviceTypes = member.supportedDeviceTypes)
    (hname : member'.deviceName = member.deviceName) :
    computeDevices env node member' = computeDevices env node member := by
  obtain ⟨types, name, _⟩ := member
  obtain ⟨types', name', _⟩ := member'
  obtain rfl : types' = types := htypes
  obtain rfl : name' = name := hname
  rfl

/-- `GetDevicesForNode` returns the devices of the set, whatever has been computed before. -/
theorem Passing.getDevicesForNode {cg'' : ColocationGraph} (h : Passing env cg root cg')
    (hget : cg'.getDevicesForNode env p = .ok (devices, cg'')) :
    computeDevices env p.2 (cg.members (root p.1)) = .ok devices ∧ Passing env cg root cg'' := by
  obtain ⟨⟨r, cg₁⟩, hfind, hget⟩ := bind_eq_ok_iff.1 hget
  obtain ⟨rfl, -, -, hrep, hsame, hmembers, -⟩ := findRoot_eq_ok h.represents hfind
  have hpassing : Passing env cg root cg₁ :=
    ⟨hrep, h.sameMembers.trans hsame, by rw [hmembers]; exact h.supportedDeviceTypes_eq,
      by rw [hmembers]; exact h.deviceName_eq, by rw [hmembers]; exact h.cache⟩
  dsimp only at hget
  split at hget
  · rename_i hne
    cases hget
    exact ⟨hpassing.cache _ hne p.2, hpassing⟩
  · obtain ⟨found, hfound, hget⟩ := bind_eq_ok_iff.1 hget
    cases hget
    rw [computeDevices_member (hpassing.supportedDeviceTypes_eq _) (hpassing.deviceName_eq _)]
      at hfound
    refine ⟨hfound, hrep, hpassing.sameMembers, fun id ↦ ?_, fun id ↦ ?_, fun id hne node ↦ ?_⟩
    · rw [← hpassing.supportedDeviceTypes_eq id]
      dsimp only
      by_cases hid : id = root p.1
      · subst hid
        rw [update_self]
      · rw [update_of_ne hid]
    · rw [← hpassing.deviceName_eq id]
      dsimp only
      by_cases hid : id = root p.1
      · subst hid
        rw [update_self]
      · rw [update_of_ne hid]
    · dsimp only at hne ⊢
      by_cases hid : id = root p.1
      · subst hid
        rw [update_self]
        exact computeDevices_congr hfound node
      · rw [update_of_ne hid] at hne ⊢
        exact hpassing.cache id hne node

/-- The list of a node is that of its set. -/
theorem Coherent.devicesFor_eq (hcg : Coherent env g cg root)
    (hmember : (cg.forest p.1).isSome = true)
    (h : computeDevices env p.2 (cg.members (root p.1)) = .ok devices) :
    devicesFor env cg p = devices := by
  obtain ⟨c, hc⟩ := Option.isSome_iff_exists.1 hmember
  obtain ⟨f', d, hfind, -⟩ := hcg.represents.findRoot_of_le hc le_rfl
  have hfind' : cg.findRoot p.1 = .ok (root p.1, { cg with forest := f' }) := by
    rw [ColocationGraph.findRoot, hfind]
  have hget : cg.getDevicesForNode env p = .ok (devices, { cg with
      forest := f'
      members := update cg.members (root p.1)
        { cg.members (root p.1) with possibleDevices := devices } }) := by
    refine bind_eq_ok_iff.2 ⟨_, hfind', ?_⟩
    dsimp only
    rw [if_neg (not_not.2 (hcg.cache _))]
    exact bind_eq_ok_iff.2 ⟨devices, h, rfl⟩
  rw [devicesFor, hget]

theorem Coherent.sameSet_iff (hcg : Coherent env g cg root) {u v : ℕ}
    (hu : (cg.forest u).isSome = true) (hv : (cg.forest v).isSome = true) :
    SameSet cg u v ↔ root u = root v := by
  obtain ⟨c, hc⟩ := Option.isSome_iff_exists.1 hu
  obtain ⟨c', hc'⟩ := Option.isSome_iff_exists.1 hv
  obtain ⟨f, d, hfind, -⟩ := hcg.represents.findRoot_of_le hc le_rfl
  obtain ⟨f', d', hfind', -⟩ := hcg.represents.findRoot_of_le hc' le_rfl
  rw [SameSet, rootOf, rootOf, hfind, hfind', Option.map_some, Option.map_some, Option.some_inj]

/-! ### The passes -/

theorem findNodeId_setAssignedDeviceName (name : ByteString) (id id' : ℕ) :
    (g.setAssignedDeviceName id name).findNodeId id' =
      if id' = id then (g.findNodeId id').map ({ · with assignedDeviceName := name })
      else g.findNodeId id' := by
  rw [Graph.findNodeId, Graph.findNodeId, Graph.setAssignedDeviceName, getElem?_modify]
  by_cases hid : id' = id
  · subst hid
    cases g.nodes[id']? with
    | none => simp
    | some entry => simp
  · simp [hid, Ne.symm hid]

theorem assignedDeviceName_set {name : ByteString} (hid : (g.findNodeId id).isSome = true)
    (id' : ℕ) :
    assignedDeviceName (g.setAssignedDeviceName id name) id' =
      if id' = id then name else assignedDeviceName g id' := by
  rw [assignedDeviceName, findNodeId_setAssignedDeviceName]
  split
  · rename_i heq
    obtain ⟨node, hnode⟩ := Option.isSome_iff_exists.1 hid
    rw [heq, hnode]
    rfl
  · rfl

theorem isSome_findNodeId_set {name : ByteString} (id' : ℕ) :
    ((g.setAssignedDeviceName id name).findNodeId id').isSome = (g.findNodeId id').isSome := by
  rw [findNodeId_setAssignedDeviceName]
  split
  · exact Option.isSome_map
  · rfl

/-- What a turn does: the node gets the first device of its set, or the one a heuristic prefers. -/
theorem Passing.assignDevice {s s' : Placement α} {turn : Turn α}
    (h : Passing env cg root s.colocationGraph) (hassign : assignDevice env s turn = .ok s') :
    ∃ d rest preferred,
      computeDevices env turn.2.2 (cg.members (root turn.2.1)) = .ok (d :: rest) ∧
      preferredDevice env s.graph turn (d :: rest) = .ok preferred ∧
      s'.graph = s.graph.setAssignedDeviceName turn.2.1 (preferred.getD d.name) ∧
      Passing env cg root s'.colocationGraph := by
  obtain ⟨⟨devices, cg₁⟩, hget, hassign⟩ := bind_eq_ok_iff.1 hassign
  obtain ⟨hcompute, hpassing⟩ := h.getDevicesForNode (mapError_eq_ok.1 hget)
  dsimp only at hassign
  split at hassign
  · cases hassign
  · rename_i d rest
    obtain ⟨preferred, hpreferred, hassign⟩ := bind_eq_ok_iff.1 hassign
    cases hassign
    exact ⟨d, rest, preferred, hcompute, hpreferred, rfl, hpassing⟩

/-- The turns of a pass change the devices of their own nodes only. -/
theorem Passing.foldlM {s s' : Placement α} {ts : List (Turn α)}
    (h : Passing env cg root s.colocationGraph)
    (hts : ∀ turn ∈ ts, (s.graph.findNodeId turn.2.1).isSome = true)
    (hrun : ts.foldlM (SimplePlacer.assignDevice env) s = .ok s') :
    Passing env cg root s'.colocationGraph ∧
      (∀ id, (s'.graph.findNodeId id).isSome = (s.graph.findNodeId id).isSome) ∧
      ∀ id, id ∉ ts.map (·.2.1) →
        assignedDeviceName s'.graph id = assignedDeviceName s.graph id := by
  induction ts generalizing s with
  | nil =>
    cases hrun
    exact ⟨h, fun _ ↦ rfl, fun _ _ ↦ rfl⟩
  | cons turn ts ih =>
    rw [foldlM_cons] at hrun
    obtain ⟨s₁, hassign, hrun⟩ := bind_eq_ok_iff.1 hrun
    obtain ⟨hturn, hts⟩ := forall_mem_cons.1 hts
    obtain ⟨d, rest, preferred, -, -, hgraph, hpassing⟩ := h.assignDevice hassign
    have hsome : ∀ id, (s₁.graph.findNodeId id).isSome = (s.graph.findNodeId id).isSome := by
      intro id
      rw [hgraph]
      exact isSome_findNodeId_set id
    obtain ⟨hpassing', hsome', hother⟩ := ih hpassing
      (fun turn' hturn' ↦ (hsome _).trans (hts turn' hturn')) hrun
    refine ⟨hpassing', fun id ↦ (hsome' id).trans (hsome id), fun id hid ↦ ?_⟩
    rw [map_cons, mem_cons, not_or] at hid
    rw [hother id hid.2, hgraph, assignedDeviceName_set hturn, if_neg hid.1]

/-- The device that a heuristic moves a node to, in the state before its turn. -/
def accepted (env : Env α) (g : Graph α) (cg : ColocationGraph) (turn : Turn α) :
    Option ByteString :=
  match ((turns g).takeWhile fun t ↦ t.2.1 ≠ turn.2.1).foldlM (assignDevice env) ⟨cg, g⟩ with
  | .error _ => none
  | .ok s =>
    match preferredDevice env s.graph turn (devicesFor env cg turn.2) with
    | .error _ => none
    | .ok preferred => preferred

theorem mem_turns {turn : Turn α} (h : turn ∈ turns g) :
    turn.2 ∈ g.opNodes ∧ turn.2.2.assignedDeviceName = [] := by
  rw [turns, mem_append, mem_map, mem_map] at h
  obtain ⟨p, hp, rfl⟩ | ⟨p, hp, rfl⟩ := h
  · simpa using (mem_filter.1 (mem_filter.1 hp).1)
  · simpa using (mem_filter.1 (mem_filter.1 hp).1)

/-- Every node without a device gets a turn. -/
theorem exists_turn (hp : p ∈ g.opNodes) (hnil : p.2.assignedDeviceName = []) :
    ∃ turn ∈ turns g, turn.2 = p := by
  have hmem : p ∈ g.opNodes.filter fun p ↦ p.2.assignedDeviceName = [] :=
    mem_filter.2 ⟨hp, by simpa using hnil⟩
  cases hgen : isGeneratorNode g p with
  | false =>
    refine ⟨(.first, p), mem_append_left _ (mem_map_of_mem ?_), rfl⟩
    exact mem_filter.2 ⟨hmem, by simp [hgen]⟩
  | true =>
    refine ⟨(.second, p), mem_append_right _ (mem_map_of_mem ?_), rfl⟩
    exact mem_filter.2 ⟨hmem, by simp [hgen]⟩

theorem nodup_turns (g : Graph α) : ((turns g).map (·.2.1)).Nodup := by
  let nodes := g.opNodes.filter fun p ↦ p.2.assignedDeviceName = []
  have hperm : ((turns g).map (·.2.1)).Perm (nodes.map Prod.fst) := by
    rw [turns, map_append, map_map, map_map]
    show (map Prod.fst _ ++ map Prod.fst _).Perm _
    rw [← map_append]
    refine Perm.map _ (perm_append_comm.trans ?_)
    convert filter_append_perm (fun p ↦ isGeneratorNode g p) nodes using 3
    simp
  rw [hperm.nodup_iff]
  exact pairwise_map.2 (((opNodes_sorted g).filter _).imp Nat.ne_of_lt)

/-- The turns before the one of a node. -/
theorem takeWhile_turns {turn : Turn α} {before after : List (Turn α)}
    (h : turns g = before ++ turn :: after) :
    (turns g).takeWhile (fun t ↦ t.2.1 ≠ turn.2.1) = before := by
  have hnodup := nodup_turns g
  rw [h, map_append, map_cons] at hnodup
  have hbefore : ∀ t ∈ before, t.2.1 ≠ turn.2.1 := fun t ht heq ↦
    (nodup_append.1 hnodup).2.2 _ (mem_map_of_mem ht) _ mem_cons_self heq
  rw [h, takeWhile_append_of_pos fun t ht ↦ decide_eq_true (hbefore t ht),
    takeWhile_cons_of_neg (by simp), append_nil]

theorem isSome_findNodeId_of_mem_turns {turn : Turn α} (h : turn ∈ turns g) :
    (g.findNodeId turn.2.1).isSome = true := by
  rw [(Graph.mem_opNodes.1 (mem_turns h).1).2]
  rfl

/-- A node with a turn ends up with the first device of its set, or with the one it is moved to. -/
theorem assignedDeviceName_eq {s : Placement α} {turn : Turn α} (hcg : Constrained env g cg root)
    (hrun : (turns g).foldlM (assignDevice env) ⟨cg, g⟩ = .ok s) (hturn : turn ∈ turns g) :
    ∃ d rest, computeDevices env turn.2.2 (cg.members (root turn.2.1)) = .ok (d :: rest) ∧
      devicesFor env cg turn.2 = d :: rest ∧
      assignedDeviceName s.graph turn.2.1 = (accepted env g cg turn).getD d.name := by
  obtain ⟨before, after, hsplit⟩ := append_of_mem hturn
  have hnodup := nodup_turns g
  rw [hsplit, map_append, map_cons] at hnodup
  have hafter : turn.2.1 ∉ after.map (·.2.1) :=
    (nodup_cons.1 (nodup_append.1 hnodup).2.1).1
  rw [hsplit, foldlM_append] at hrun
  obtain ⟨s₁, hrun₁, hrun⟩ := bind_eq_ok_iff.1 hrun
  rw [foldlM_cons] at hrun
  obtain ⟨s₂, hassign, hrun₂⟩ := bind_eq_ok_iff.1 hrun
  obtain ⟨hpassing₁, hsome₁, -⟩ := hcg.coherent.passing.foldlM (fun t ht ↦
    isSome_findNodeId_of_mem_turns (hsplit ▸ mem_append_left _ ht)) hrun₁
  obtain ⟨d, rest, preferred, hcompute, hpreferred, hgraph, hpassing₂⟩ :=
    hpassing₁.assignDevice hassign
  have hsome₂ : ∀ id, (s₂.graph.findNodeId id).isSome = (g.findNodeId id).isSome := fun id ↦ by
    rw [hgraph, isSome_findNodeId_set, hsome₁]
  obtain ⟨-, -, hother⟩ := hpassing₂.foldlM (fun t ht ↦ (hsome₂ _).trans
    (isSome_findNodeId_of_mem_turns
      (hsplit ▸ mem_append_right _ (mem_cons_of_mem _ ht)))) hrun₂
  have hdevices := hcg.coherent.devicesFor_eq (hcg.isSome _ (mem_turns hturn).1) hcompute
  refine ⟨d, rest, hcompute, hdevices, ?_⟩
  rw [hother _ hafter, hgraph,
    assignedDeviceName_set ((hsome₁ _).trans (isSome_findNodeId_of_mem_turns hturn)), if_pos rfl,
    accepted, takeWhile_turns hsplit, hrun₁]
  dsimp only
  rw [hdevices, hpreferred]

/-! ### Soundness -/

/-- The device of a node is one of those for its colocation set, it conforms to the device name of
the set, and its type is supported by every node of the set. -/
structure Allowed (env : Env α) (g : Graph α) (cg : ColocationGraph) (p : ℕ × Node α) (d : Device) :
    Prop where
  mem_devicesFor : d ∈ devicesFor env cg p
  mem_devices : d ∈ env.devices
  conforms : ∀ r, rootOf cg p.1 = some r → Conforms env (cg.members r) d
  supported : ∀ q ∈ g.opNodes, SameSet cg p.1 q.1 → SupportedBy env q.2 [d.deviceType]

/-- Every op node without a device gets one that is allowed, and those of a colocation set get the
same. -/
structure PlacementSound (env : Env α) (g : Graph α) (cg : ColocationGraph) (g' : Graph α) :
    Prop where
  allowed : ∀ p ∈ g.opNodes, p.2.assignedDeviceName = [] →
    ∃ d, Allowed env g cg p d ∧ assignedDeviceName g' p.1 = d.name
  same : ∀ p ∈ g.opNodes, ∀ q ∈ g.opNodes, p.2.assignedDeviceName = [] →
    q.2.assignedDeviceName = [] → SameSet cg p.1 q.1 →
      assignedDeviceName g' p.1 = assignedDeviceName g' q.1

/-- A heuristic moves a node to a device of its list only, and only to the first one unless the
whole colocation set moves to it. -/
def MovesTogether (env : Env α) (g : Graph α) (cg : ColocationGraph) : Prop :=
  ∀ turn ∈ turns g, ∀ name, accepted env g cg turn = some name →
    name ∈ (devicesFor env cg turn.2).map Device.name ∧
    ((devicesFor env cg turn.2).head?.map Device.name = some name ∨
      ∀ turn' ∈ turns g, SameSet cg turn.2.1 turn'.2.1 → accepted env g cg turn' = some name)

theorem Constrained.allowed (hcg : Constrained env g cg root) (hp : p ∈ g.opNodes)
    (h : computeDevices env p.2 (cg.members (root p.1)) = .ok devices) (hd : d ∈ devices) :
    Allowed env g cg p d := by
  obtain ⟨hmem, hconforms, htype⟩ := mem_computeDevices h hd
  have hmember := hcg.isSome p hp
  refine ⟨(hcg.coherent.devicesFor_eq hmember h) ▸ hd, hmem, fun r hr ↦ ?_, fun q hq hset ↦ ?_⟩
  · obtain ⟨c, hc⟩ := Option.isSome_iff_exists.1 hmember
    obtain ⟨f', d', hfind, -⟩ := hcg.coherent.represents.findRoot_of_le hc le_rfl
    rw [rootOf, hfind] at hr
    cases hr
    exact hconforms
  · have hmember' := hcg.isSome q hq
    obtain ⟨c, hc⟩ := Option.isSome_iff_exists.1 hmember'
    obtain ⟨types, htypes, hsub⟩ :=
      hcg.coherent.supported q.1 c q.2 hc (Graph.mem_opNodes.1 hq).2
    rw [← (hcg.coherent.sameSet_iff hmember hmember').1 hset] at hsub
    exact ⟨types, htypes, by simpa using hsub htype⟩

/-- Nodes that share a colocation group or are connected by a reference edge are in one set. -/
structure GroupsTogether (env : Env α) (g : Graph α) (cg : ColocationGraph) : Prop where
  group : ∀ p ∈ g.opNodes, ∀ q ∈ g.opNodes, ∀ group ∈ colocationGroups env p.2,
    group ∈ colocationGroups env q.2 → SameSet cg p.1 q.1
  refEdge : ∀ p ∈ g.opNodes, ∀ q ∈ g.opNodes, ∀ e ∈ g.inEdges p.1, e.src = q.1 → IsRefEdge p e →
    SameSet cg q.1 p.1

variable (hcg : Constrained env g cg root)
include hcg

theorem Constrained.groupsTogether : GroupsTogether env g cg where
  group p hp q hq group hgp hgq := by
    rw [hcg.coherent.sameSet_iff (hcg.isSome p hp) (hcg.isSome q hq)]
    exact hcg.group p hp q hq group hgp hgq
  refEdge p hp q hq e he hsrc href := by
    rw [hcg.coherent.sameSet_iff (hcg.isSome q hq) (hcg.isSome p hp), ← hsrc]
    exact hcg.refEdge p hp e he href

/-- The nodes of a set have one list. -/
theorem Constrained.computeDevices_eq {q : ℕ × Node α} {devices' : List Device} (hp : p ∈ g.opNodes)
    (hq : q ∈ g.opNodes) (hset : SameSet cg p.1 q.1)
    (h : computeDevices env p.2 (cg.members (root p.1)) = .ok devices)
    (h' : computeDevices env q.2 (cg.members (root q.1)) = .ok devices') : devices = devices' := by
  rw [(hcg.coherent.sameSet_iff (hcg.isSome p hp) (hcg.isSome q hq)).1 hset] at h
  exact Except.ok.inj ((computeDevices_congr h q.2).symm.trans h')

/-- A placement is sound if the moves stay in the lists and the nodes of a set move together. -/
theorem Constrained.placementSound {s : Placement α}
    (hrun : (turns g).foldlM (assignDevice env) ⟨cg, g⟩ = .ok s) (hmoves : MovesTogether env g cg) :
    PlacementSound env g cg s.graph where
  allowed p hp hnil := by
    obtain ⟨turn, hturn, rfl⟩ := exists_turn hp hnil
    obtain ⟨d, rest, hcompute, hdevices, hname⟩ := assignedDeviceName_eq hcg hrun hturn
    cases haccepted : accepted env g cg turn with
    | none =>
      rw [haccepted, Option.getD_none] at hname
      exact ⟨d, hcg.allowed hp hcompute mem_cons_self, hname⟩
    | some name =>
      rw [haccepted, Option.getD_some] at hname
      obtain ⟨d', hd', hd'name⟩ := mem_map.1 (hmoves turn hturn name haccepted).1
      exact ⟨d', hcg.allowed hp hcompute (hdevices ▸ hd'), hname.trans hd'name.symm⟩
  same p hp q hq hpnil hqnil hset := by
    obtain ⟨turn, hturn, rfl⟩ := exists_turn hp hpnil
    obtain ⟨turn', hturn', rfl⟩ := exists_turn hq hqnil
    obtain ⟨d, rest, hcompute, hdevices, hname⟩ := assignedDeviceName_eq hcg hrun hturn
    obtain ⟨d', rest', hcompute', hdevices', hname'⟩ := assignedDeviceName_eq hcg hrun hturn'
    obtain ⟨rfl, rfl⟩ := cons.inj (hcg.computeDevices_eq hp hq hset hcompute hcompute')
    -- a node that is not moved has the first device, and so has one that is moved with others
    have hfirst : ∀ t ∈ turns g, devicesFor env cg t.2 = d :: rest →
        (∀ t' ∈ turns g, SameSet cg t.2.1 t'.2.1 →
          accepted env g cg t' = accepted env g cg t) ∨
        (accepted env g cg t).getD d.name = d.name := by
      intro t ht hlist
      cases haccepted : accepted env g cg t with
      | none => exact .inr rfl
      | some name =>
        obtain hhead | hall := (hmoves t ht name haccepted).2
        · rw [hlist] at hhead
          exact .inr (Option.some.inj hhead).symm
        · exact .inl hall
    rw [hname, hname']
    obtain hall | hhead := hfirst turn hturn hdevices
    · rw [hall turn' hturn' hset]
    · obtain hall' | hhead' := hfirst turn' hturn' hdevices'
      · rw [hall' turn hturn hset.symm]
      · rw [hhead, hhead']

/-- If a placement is sound, the moves stay in the lists and the nodes of a set move together. -/
theorem Constrained.movesTogether {s : Placement α}
    (hrun : (turns g).foldlM (assignDevice env) ⟨cg, g⟩ = .ok s)
    (hsound : PlacementSound env g cg s.graph) : MovesTogether env g cg := by
  intro turn hturn name haccepted
  obtain ⟨hp, hnil⟩ := mem_turns hturn
  obtain ⟨d, rest, hcompute, hdevices, hname⟩ := assignedDeviceName_eq hcg hrun hturn
  rw [haccepted, Option.getD_some] at hname
  obtain ⟨d₁, hallowed, hname₁⟩ := hsound.allowed _ hp hnil
  refine ⟨?_, ?_⟩
  · rw [← hname, hname₁]
    exact mem_map_of_mem hallowed.mem_devicesFor
  · by_cases hhead : d.name = name
    · refine .inl ?_
      rw [hdevices, ← hhead]
      rfl
    · refine .inr fun turn' hturn' hset ↦ ?_
      obtain ⟨hq, hqnil⟩ := mem_turns hturn'
      obtain ⟨d', rest', hcompute', -, hname'⟩ := assignedDeviceName_eq hcg hrun hturn'
      obtain ⟨rfl, rfl⟩ := cons.inj (hcg.computeDevices_eq hp hq hset hcompute hcompute')
      have heq := hsound.same _ hp _ hq hnil hqnil hset
      rw [hname, hname'] at heq
      cases haccepted' : accepted env g cg turn' with
      | none =>
        rw [haccepted', Option.getD_none] at heq
        exact absurd heq.symm hhead
      | some name' =>
        rw [haccepted', Option.getD_some] at heq
        rw [heq]

end TensorFlowCore.SimplePlacer
