import TensorFlowCore.CommonRuntime.SimplePlacer.Model

/-!
# The constraints of a colocation set

However the nodes are added and colocated, the root of a colocation set keeps the device types that
every member of the set supports (`Coherent`).
-/

namespace TensorFlowCore.SimplePlacer

open ColocationGraph ExceptPost Function List Option UnionFind

variable {α : Type} {env : Env α} {g : Graph α} {cg cg' : ColocationGraph} {root : ℕ → ℕ}
  {id r : ℕ}

/-- Device types that a node supports. -/
def SupportedBy (env : Env α) (node : Node α) (types : List ByteString) : Prop :=
  ∃ supported, env.supportedDeviceTypesForNode (DeviceSet.prioritizedDeviceTypeList env.devices)
    node.nodeDef = .ok supported ∧ types ⊆ supported

/-- The members of `cg` are in the sets that `root` says, the root of a set keeps types that its
members support, and no devices have been computed. -/
structure Coherent (env : Env α) (g : Graph α) (cg : ColocationGraph) (root : ℕ → ℕ) : Prop where
  represents : Represents cg.forest cg.size root
  supported : ∀ id c node, cg.forest id = some c → g.findNodeId id = some node →
    SupportedBy env node (cg.members (root id)).supportedDeviceTypes
  cache : ∀ id, (cg.members id).possibleDevices = []

/-- Two graphs with the same members. -/
def SameMembers (cg cg' : ColocationGraph) : Prop :=
  cg'.size = cg.size ∧ ∀ id, (cg'.forest id).isSome = (cg.forest id).isSome

theorem SameMembers.trans {cg'' : ColocationGraph} (h : SameMembers cg cg')
    (h' : SameMembers cg' cg'') : SameMembers cg cg'' :=
  ⟨h'.1.trans h.1, fun id ↦ (h'.2 id).trans (h.2 id)⟩

/-- What `FindRoot` does to a forest, whatever the constraints. -/
theorem findRoot_eq_ok (hrep : Represents cg.forest cg.size root)
    (h : cg.findRoot id = .ok (r, cg')) :
    r = root id ∧ (∃ c, cg.forest id = some c) ∧
      (∃ c, cg'.forest r = some c ∧ c.parent = r) ∧
      Represents cg'.forest cg'.size root ∧ SameMembers cg cg' ∧ cg'.members = cg.members ∧
      cg'.colocationGroupRoot = cg.colocationGroupRoot := by
  rw [ColocationGraph.findRoot] at h
  cases hc : cg.forest id with
  | none =>
    have hnone : UnionFind.findRoot cg.size cg.forest id = none := by
      cases hsize : cg.size with
      | zero => rfl
      | succ n => simp only [UnionFind.findRoot, hc]
    rw [hnone] at h
    cases h
  | some c =>
    obtain ⟨f', d, hfind, hrep', hsame, hd, hself⟩ := hrep.findRoot_of_le hc le_rfl
    rw [hfind] at h
    cases h
    refine ⟨rfl, ⟨c, rfl⟩, ⟨d, hd, hself⟩, hrep', ⟨rfl, fun y ↦ ?_⟩, rfl, rfl⟩
    have hranks := congrArg isSome (hsame y)
    rwa [isSome_map, isSome_map] at hranks

/-- A graph with the members of another one and at most its types is coherent if the other one
is. -/
theorem Coherent.of_subset {root' : ℕ → ℕ} (hcg : Coherent env g cg root)
    (hrep : Represents cg'.forest cg'.size root')
    (hsome : ∀ id, (cg'.forest id).isSome = (cg.forest id).isSome)
    (htypes : ∀ id, (cg'.members (root' id)).supportedDeviceTypes ⊆
      (cg.members (root id)).supportedDeviceTypes)
    (hcache : ∀ id, (cg'.members id).possibleDevices = (cg.members id).possibleDevices) :
    Coherent env g cg' root' := by
  refine ⟨hrep, fun id c node hid hnode ↦ ?_, fun id ↦ (hcache id).trans (hcg.cache id)⟩
  have hsome' : (cg.forest id).isSome = true := by
    rw [← hsome id, hid]
    rfl
  obtain ⟨c', hc'⟩ := isSome_iff_exists.1 hsome'
  obtain ⟨types, heq, hsub⟩ := hcg.supported id c' node hc' hnode
  exact ⟨types, heq, Subset.trans (htypes id) hsub⟩

/-- Later the sets may be larger, and a group keeps its first node. -/
structure Later (env : Env α) (g : Graph α) (cg : ColocationGraph) (root : ℕ → ℕ)
    (cg' : ColocationGraph) (root' : ℕ → ℕ) : Prop where
  coherent : Coherent env g cg' root'
  sameMembers : SameMembers cg cg'
  coarser : ∀ u v, root u = root v → root' u = root' v
  groups : ∀ group y, cg.colocationGroupRoot group = some y → cg'.colocationGroupRoot group = some y

theorem Coherent.later (hcg : Coherent env g cg root) : Later env g cg root cg root :=
  ⟨hcg, ⟨rfl, fun _ ↦ rfl⟩, fun _ _ huv ↦ huv, fun _ _ hy ↦ hy⟩

theorem Later.trans {cg'' : ColocationGraph} {root' root'' : ℕ → ℕ}
    (h : Later env g cg root cg' root') (h' : Later env g cg' root' cg'' root'') :
    Later env g cg root cg'' root'' where
  coherent := h'.coherent
  sameMembers := h.sameMembers.trans h'.sameMembers
  coarser u v huv := h'.coarser u v (h.coarser u v huv)
  groups group y hy := h'.groups group y (h.groups group y hy)

section

variable (hcg : Coherent env g cg root)
include hcg

theorem Coherent.findRoot (h : cg.findRoot id = .ok (r, cg')) :
    r = root id ∧ (∃ c, cg'.forest r = some c ∧ c.parent = r) ∧ Later env g cg root cg' root := by
  obtain ⟨hr, -, hself, hrep, hsame, hmembers, hgroups⟩ := findRoot_eq_ok hcg.represents h
  refine ⟨hr, hself, hcg.of_subset hrep hsame.2 (fun id ↦ ?_) fun id ↦ ?_, hsame,
    fun _ _ huv ↦ huv, fun group y hy ↦ ?_⟩
  · rw [hmembers]
    exact Subset.refl _
  · rw [hmembers]
  · rw [hgroups, hy]

/-- Another device name changes no set. -/
theorem Coherent.setDeviceName (r : ℕ) (name : ParsedName) : Coherent env g { cg with
      members := Function.update cg.members r { cg.members r with deviceName := name } } root := by
  refine hcg.of_subset hcg.represents (fun _ ↦ rfl) (fun id ↦ ?_) fun id ↦ ?_
  · dsimp only
    by_cases hid : root id = r
    · subst hid
      rw [update_self]
      exact Subset.refl _
    · rw [update_of_ne hid]
      exact Subset.refl _
  · dsimp only
    by_cases hid : id = r
    · subst hid
      rw [update_self]
    · rw [update_of_ne hid]

theorem Coherent.setDeviceForNode {name : ParsedName} (h : cg.setDeviceForNode id name = .ok cg') :
    Later env g cg root cg' root := by
  obtain ⟨⟨r, cg₁⟩, hfind, h⟩ := bind_eq_ok_iff.1 h
  obtain ⟨-, -, hlater⟩ := hcg.findRoot hfind
  cases h
  exact ⟨hlater.coherent.setDeviceName r name, hlater.sameMembers, hlater.coarser, hlater.groups⟩

theorem Coherent.deviceForNode {name : ParsedName} (h : cg.deviceForNode id = .ok (name, cg')) :
    Later env g cg root cg' root := by
  obtain ⟨⟨r, cg₁⟩, hfind, h⟩ := bind_eq_ok_iff.1 h
  obtain ⟨-, -, hlater⟩ := hcg.findRoot hfind
  cases h
  exact hlater

end

theorem mergeSupportedDevices_subset (target other : List ByteString) :
    mergeSupportedDevices target other ⊆ target ∧ mergeSupportedDevices target other ⊆ other :=
  ⟨filter_subset_self _, fun _ h ↦ contains_iff_mem.1 (mem_filter.1 h).2⟩

/-- Merging two sets keeps the types that both support. -/
theorem Coherent.merge {new old : ℕ} {forest : Forest} {name : ParsedName}
    (hcg : Coherent env g cg root) (hrep : Represents forest cg.size (merged root new old))
    (hsome : ∀ id, (forest id).isSome = (cg.forest id).isSome) :
    Coherent env g { cg with
      forest := forest
      members := Function.update cg.members new { cg.members new with
        supportedDeviceTypes := mergeSupportedDevices (cg.members new).supportedDeviceTypes
          (cg.members old).supportedDeviceTypes
        deviceName := name } } (merged root new old) := by
  obtain ⟨hsub₁, hsub₂⟩ := mergeSupportedDevices_subset (cg.members new).supportedDeviceTypes
    (cg.members old).supportedDeviceTypes
  refine hcg.of_subset hrep hsome (fun id ↦ ?_) fun id ↦ ?_
  · dsimp only
    by_cases hold : root id = old
    · rw [merged, if_pos hold, update_self, hold]
      exact hsub₂
    · rw [merged, if_neg hold]
      by_cases hnew : root id = new
      · rw [hnew, update_self]
        exact hsub₁
      · rw [update_of_ne hnew]
        exact Subset.refl _
  · dsimp only
    by_cases hid : id = new
    · subst hid
      rw [update_self]
    · rw [update_of_ne hid]

/-- `ColocateNodes` merges the sets of its nodes and keeps the others. -/
theorem Coherent.colocateNodes {x y : ℕ × ByteString} (hcg : Coherent env g cg root)
    (h : cg.colocateNodes env x y = .ok cg') :
    ∃ root', Later env g cg root cg' root' ∧ root' x.1 = root' y.1 ∧
      (cg'.forest y.1).isSome = true := by
  obtain ⟨⟨xRoot, cg₁⟩, hx, h⟩ := bind_eq_ok_iff.1 h
  obtain ⟨⟨yRoot, cg₂⟩, hy, h⟩ := bind_eq_ok_iff.1 h
  obtain ⟨hxRoot, ⟨cx₁, hcx₁, hcx₁Self⟩, hlater₁⟩ := hcg.findRoot hx
  obtain ⟨hyRoot, ⟨cy, hcy, hcySelf⟩, hlater₂⟩ := hlater₁.coherent.findRoot hy
  have hlater := hlater₁.trans hlater₂
  have hyMember : (cg₂.forest y.1).isSome = true := by
    obtain ⟨-, ⟨c, hc⟩, -⟩ := findRoot_eq_ok hlater₁.coherent.represents hy
    rw [hlater₂.sameMembers.2 y.1, hc]
    rfl
  have hcg₂ := hlater.coherent
  dsimp only at h
  split at h
  · rename_i heq
    cases h
    refine ⟨root, hlater, ?_, hyMember⟩
    rw [← hxRoot, ← hyRoot]
    exact heq
  · rename_i hne
    split at h
    · rename_i cx cy' hcx hcy'
      obtain rfl := some.inj (hcy.symm.trans hcy')
      have hxSelf : root xRoot = xRoot := hlater₁.coherent.represents.root_eq hcx₁ hcx₁Self
      have hcxSelf := hcg₂.represents.parent_eq hcx hxSelf
      obtain ⟨new, old, forest, hlink, hpair, hrep, hsome⟩ :=
        hcg₂.represents.link hcx hcxSelf hcy hcySelf hne
      rw [hlink] at h
      split at h
      · cases h
      · split at h
        · cases h
        · cases h
          refine ⟨merged root new old, hlater.trans ⟨hcg₂.merge hrep hsome, ⟨rfl, hsome⟩,
            fun u v huv ↦ ?_, fun _ _ hgroup ↦ hgroup⟩, ?_, (hsome y.1).trans hyMember⟩
          · rw [merged, merged, huv]
          · rw [merged, merged, ← hxRoot, ← hyRoot]
            obtain ⟨rfl, rfl⟩ | ⟨rfl, rfl⟩ := hpair
            · rw [if_neg hne, if_pos rfl]
            · rw [if_pos rfl, if_neg (Ne.symm hne)]
    · cases h

/-! ### Adding the nodes -/

/-- The node is in the set of the first node of the group. -/
def InGroup (cg : ColocationGraph) (root : ℕ → ℕ) (id : ℕ) (group : ByteString) : Prop :=
  ∃ y, cg.colocationGroupRoot group = some y ∧ (cg.forest y.1).isSome = true ∧ root id = root y.1

theorem InGroup.later {root' : ℕ → ℕ} {group : ByteString} (h : InGroup cg root id group)
    (hlater : Later env g cg root cg' root') : InGroup cg' root' id group := by
  obtain ⟨y, hy, hmember, hroot⟩ := h
  exact ⟨y, hlater.groups group y hy, (hlater.sameMembers.2 y.1).trans hmember,
    hlater.coarser _ _ hroot⟩

section

variable {x : ℕ × ByteString} (hcg : Coherent env g cg root) (hx : (cg.forest x.1).isSome = true)
include hcg hx

theorem Coherent.joinGroup {group : ByteString} (h : joinGroup env x cg group = .ok cg') :
    ∃ root', Later env g cg root cg' root' ∧ InGroup cg' root' x.1 group := by
  rw [ColocationGraph.joinGroup] at h
  split at h
  · rename_i hnone
    cases h
    refine ⟨root, ⟨⟨hcg.represents, hcg.supported, hcg.cache⟩, ⟨rfl, fun _ ↦ rfl⟩,
      fun _ _ huv ↦ huv, fun group' y hy ↦ ?_⟩, x, update_self .., hx, rfl⟩
    have hne : group' ≠ group := by
      rintro rfl
      rw [hnone] at hy
      cases hy
    exact (update_of_ne hne ..).trans hy
  · rename_i y hy
    obtain ⟨root', hlater, hroot, hmember⟩ := hcg.colocateNodes h
    exact ⟨root', hlater, y, hlater.groups group y hy, hmember, hroot⟩

theorem Coherent.joinGroups {groups : List ByteString}
    (h : groups.foldlM (ColocationGraph.joinGroup env x) cg = .ok cg') :
    ∃ root', Later env g cg root cg' root' ∧ ∀ group ∈ groups, InGroup cg' root' x.1 group := by
  induction groups generalizing cg root with
  | nil =>
    cases h
    exact ⟨root, hcg.later, by simp⟩
  | cons group groups ih =>
    rw [foldlM_cons] at h
    obtain ⟨cg₁, hjoin, h⟩ := bind_eq_ok_iff.1 h
    obtain ⟨root₁, hlater₁, hgroup⟩ := hcg.joinGroup hx hjoin
    obtain ⟨root', hlater, hgroups⟩ :=
      ih hlater₁.coherent ((hlater₁.sameMembers.2 x.1).trans hx) h
    exact ⟨root', hlater₁.trans hlater, forall_mem_cons.2 ⟨hgroup.later hlater, hgroups⟩⟩

end

/-- A member starts with the device types of its own node, and no devices computed yet. -/
theorem initializeMember_eq_ok {node : Node α} {member : Member}
    (h : initializeMember env node = .ok member) :
    env.supportedDeviceTypesForNode (DeviceSet.prioritizedDeviceTypeList env.devices) node.nodeDef =
      .ok member.supportedDeviceTypes ∧ member.possibleDevices = [] := by
  rw [initializeMember] at h
  split at h
  · cases h
  · rename_i types htypes
    have hok : ∀ name, member = { supportedDeviceTypes := types, deviceName := name } →
        .ok types = Except.ok (ε := Status) member.supportedDeviceTypes ∧
        member.possibleDevices = [] := by
      rintro name rfl
      exact ⟨rfl, rfl⟩
    rw [htypes]
    split at h
    · split at h
      · cases h
      · split at h
        · cases h
        · split at h
          · exact hok _ (Except.ok.inj h).symm
          · cases h
    · split at h
      · cases h
      · split at h
        · split at h
          · cases h
          · exact hok _ (Except.ok.inj h).symm
        · exact hok _ (Except.ok.inj h).symm

/-- The members are the nodes that have been added, each in the sets of its groups. -/
structure Added (env : Env α) (g : Graph α) (cg : ColocationGraph) (root : ℕ → ℕ)
    (ps : List (ℕ × Node α)) : Prop where
  coherent : Coherent env g cg root
  isSome_iff : ∀ id, (cg.forest id).isSome = true ↔ id ∈ ps.map Prod.fst
  inGroup : ∀ p ∈ ps, ∀ group ∈ colocationGroups env p.2, InGroup cg root p.1 group

theorem Coherent.root_ne (hcg : Coherent env g cg root) {x : ℕ} (hx : cg.forest x = none)
    {c : Cell} (hid : cg.forest id = some c) : root id ≠ x := by
  rintro rfl
  obtain hself | ⟨d, hd, -⟩ := hcg.represents.exists_root hid
  · rw [hcg.represents.root_eq hid hself, hid] at hx
    cases hx
  · rw [hx] at hd
    cases hd

/-- A new member is a set of its own. -/
theorem Coherent.insert (hcg : Coherent env g cg root) {p : ℕ × Node α} (hp : p ∈ g.opNodes)
    (hsize : cg.size ≤ p.1) {member : Member} (h : initializeMember env p.2 = .ok member) :
    Coherent env g { cg with
      size := p.1 + 1
      forest := Function.update cg.forest p.1 (some ⟨p.1, 0⟩)
      members := Function.update cg.members p.1 member } (Function.update root p.1 p.1) := by
  obtain ⟨hsupported, hcache⟩ := initializeMember_eq_ok h
  have hnone : cg.forest p.1 = none := by
    by_contra hsome
    obtain ⟨c, hc⟩ := ne_none_iff_exists'.1 hsome
    exact absurd (hcg.represents.lt hc) (Nat.not_lt.2 hsize)
  refine ⟨hcg.represents.insert hnone (Nat.le_succ_of_le hsize) (Nat.lt_succ_self _),
    fun id c node hid hnode ↦ ?_,
    fun id ↦ ?_⟩
  · dsimp only at hid ⊢
    by_cases hidp : id = p.1
    · subst hidp
      obtain rfl := some.inj ((Graph.mem_opNodes.1 hp).2.symm.trans hnode)
      rw [update_self, update_self]
      exact ⟨_, hsupported, Subset.refl _⟩
    · rw [update_of_ne hidp] at hid ⊢
      rw [update_of_ne (hcg.root_ne hnone hid)]
      exact hcg.supported id c node hid hnode
  · dsimp only
    by_cases hidp : id = p.1
    · subst hidp
      rw [update_self, hcache]
    · rw [update_of_ne hidp]
      exact hcg.cache id

/-- `AddNode` puts a node into the sets of its groups. -/
theorem Added.addNode {ps : List (ℕ × Node α)} (hcg : Added env g cg root ps) {p : ℕ × Node α}
    (hp : p ∈ g.opNodes) (hsize : cg.size ≤ p.1) (h : cg.addNode env p = .ok cg') :
    ∃ root', Added env g cg' root' (ps ++ [p]) ∧ cg'.size = p.1 + 1 := by
  obtain ⟨member, hmember, h⟩ := bind_eq_ok_iff.1 h
  have hcg₀ := hcg.coherent.insert hp hsize hmember
  set cg₀ : ColocationGraph := { cg with
    size := p.1 + 1
    forest := update cg.forest p.1 (some ⟨p.1, 0⟩)
    members := update cg.members p.1 member } with hcg₀def
  have hself : (cg₀.forest p.1).isSome = true := by
    show (update cg.forest p.1 (some ⟨p.1, 0⟩) p.1).isSome = true
    rw [update_self]
    rfl
  have hother : ∀ id, id ≠ p.1 → cg₀.forest id = cg.forest id := fun id hid ↦
    update_of_ne hid ..
  have hnotMem : p.1 ∉ ps.map Prod.fst := by
    intro hmem
    obtain ⟨c, hc⟩ := isSome_iff_exists.1 ((hcg.isSome_iff p.1).2 hmem)
    exact absurd (hcg.coherent.represents.lt hc) (Nat.not_lt.2 hsize)
  obtain ⟨root', hlater, hgroups⟩ := hcg₀.joinGroups hself h
  refine ⟨root', ⟨hlater.coherent, fun id ↦ ?_, fun q hq group hgroup ↦ ?_⟩, hlater.sameMembers.1⟩
  · rw [hlater.sameMembers.2 id, map_append, mem_append, map_singleton, mem_singleton]
    by_cases hid : id = p.1
    · rw [hid]
      exact iff_of_true hself (.inr rfl)
    · rw [hother id hid, hcg.isSome_iff id]
      exact (or_iff_left hid).symm
  · obtain hq | hq := mem_append.1 hq
    · obtain ⟨y, hy, hmember', hroot⟩ := hcg.inGroup q hq group hgroup
      have hqp : q.1 ≠ p.1 := fun heq ↦ hnotMem (heq ▸ mem_map_of_mem hq)
      have hyp : y.1 ≠ p.1 := fun heq ↦ hnotMem (heq ▸ (hcg.isSome_iff y.1).1 hmember')
      have hin : InGroup cg₀ (update root p.1 p.1) q.1 group := by
        refine ⟨y, hy, ?_, ?_⟩
        · rw [hother y.1 hyp, hmember']
        · rw [update_of_ne hqp, update_of_ne hyp, hroot]
      exact hin.later hlater
    · obtain rfl := mem_singleton.1 hq
      exact hgroups group hgroup

theorem opNodes_sorted (g : Graph α) : g.opNodes.Pairwise fun p q ↦ p.1 < q.1 := by
  refine pairwise_filterMap.2 (pairwise_lt_range.imp fun {i j} hij p hp q hq ↦ ?_)
  have hfst : ∀ {k : ℕ} {p : ℕ × Node α},
      (if Graph.isOp k then (g.findNodeId k).map fun node ↦ (k, node) else none) = some p →
        p.1 = k := by
    intro k p hp
    split at hp
    · obtain ⟨node, -, rfl⟩ := map_eq_some_iff.1 hp
      rfl
    · cases hp
  rw [hfst hp, hfst hq]
  exact hij

theorem Added.addNodes {ps rest : List (ℕ × Node α)} (hcg : Added env g cg root ps)
    (hrest : rest ⊆ g.opNodes) (hsorted : rest.Pairwise fun p q ↦ p.1 < q.1)
    (hsize : ∀ p ∈ rest, cg.size ≤ p.1)
    (h : rest.foldlM (ColocationGraph.addNode env) cg = .ok cg') :
    ∃ root', Added env g cg' root' (ps ++ rest) := by
  induction rest generalizing cg root ps with
  | nil =>
    cases h
    exact ⟨root, by rwa [append_nil]⟩
  | cons p rest ih =>
    rw [foldlM_cons] at h
    obtain ⟨cg₁, hadd, h⟩ := bind_eq_ok_iff.1 h
    obtain ⟨hp, hrest⟩ := cons_subset.1 hrest
    obtain ⟨hlt, hsorted⟩ := pairwise_cons.1 hsorted
    obtain ⟨root₁, hcg₁, hsize₁⟩ := hcg.addNode hp (hsize p mem_cons_self) hadd
    rw [append_cons ps p rest]
    refine ih hcg₁ hrest hsorted (fun q hq ↦ ?_) h
    rw [hsize₁]
    exact hlt q hq

/-! ### Adding the reference edges -/

/-- A reference edge into a node. -/
def IsRefEdge (p : ℕ × Node α) (e : Edge) : Prop :=
  e.isControlEdge = false ∧ isRefInput p.2 e = .ok true

theorem Coherent.resolveDevices {src dst : ℕ} {srcName dstName : ParsedName}
    (hcg : Coherent env g cg root) (h : resolveDevices cg src dst srcName dstName = .ok cg') :
    Later env g cg root cg' root := by
  rw [SimplePlacer.resolveDevices] at h
  split at h
  · split at h
    · exact hcg.setDeviceForNode h
    · split at h
      · exact hcg.setDeviceForNode h
      · exact hcg.setDeviceForNode h
  · cases h
    exact hcg.later

theorem mapError_eq_ok {ε ε' β : Type} {x : Except ε β} {f : ε → ε'} {b : β} :
    x.mapError f = .ok b ↔ x = .ok b := by
  cases x with
  | error e => exact iff_of_false nofun nofun
  | ok b' => exact ⟨fun h ↦ congrArg _ (Except.ok.inj h), fun h ↦ congrArg _ (Except.ok.inj h)⟩

/-- A reference edge puts its nodes into one set. -/
theorem Coherent.addRefEdge {p : ℕ × Node α} {e : Edge} (hcg : Coherent env g cg root)
    (h : addRefEdge env g p cg e = .ok cg') :
    ∃ root', Later env g cg root cg' root' ∧ (IsRefEdge p e → root' e.src = root' p.1) := by
  rw [SimplePlacer.addRefEdge] at h
  split at h
  · rename_i hcontrol
    cases h
    refine ⟨root, hcg.later, fun href ↦ ?_⟩
    rw [href.1] at hcontrol
    cases hcontrol
  · obtain ⟨isRef, href, h⟩ := bind_eq_ok_iff.1 h
    split at h
    · obtain ⟨⟨srcName, cg₁⟩, h₁, h⟩ := bind_eq_ok_iff.1 h
      obtain ⟨⟨dstName, cg₂⟩, h₂, h⟩ := bind_eq_ok_iff.1 h
      obtain ⟨cg₃, h₃, h⟩ := bind_eq_ok_iff.1 h
      have hlater₁ := hcg.deviceForNode h₁
      have hlater₂ := hlater₁.trans (hlater₁.coherent.deviceForNode h₂)
      have hlater₃ := hlater₂.trans (hlater₂.coherent.resolveDevices h₃)
      obtain ⟨root', hlater, hroot, -⟩ := hlater₃.coherent.colocateNodes (mapError_eq_ok.1 h)
      exact ⟨root', hlater₃.trans hlater, fun _ ↦ hroot⟩
    · rename_i hfalse
      cases h
      refine ⟨root, hcg.later, fun href' ↦ ?_⟩
      obtain rfl := Except.ok.inj (href.symm.trans href'.2)
      exact absurd rfl hfalse

theorem Coherent.addRefEdges_node {p : ℕ × Node α} {es : List Edge} (hcg : Coherent env g cg root)
    (h : es.foldlM (SimplePlacer.addRefEdge env g p) cg = .ok cg') :
    ∃ root', Later env g cg root cg' root' ∧
      ∀ e ∈ es, IsRefEdge p e → root' e.src = root' p.1 := by
  induction es generalizing cg root with
  | nil =>
    cases h
    exact ⟨root, hcg.later, by simp⟩
  | cons e es ih =>
    rw [foldlM_cons] at h
    obtain ⟨cg₁, hadd, h⟩ := bind_eq_ok_iff.1 h
    obtain ⟨root₁, hlater₁, hroot₁⟩ := hcg.addRefEdge hadd
    obtain ⟨root', hlater, hroot⟩ := ih hlater₁.coherent h
    exact ⟨root', hlater₁.trans hlater, forall_mem_cons.2
      ⟨fun href ↦ hlater.coarser _ _ (hroot₁ href), hroot⟩⟩

theorem Coherent.addRefEdges {ps : List (ℕ × Node α)} (hcg : Coherent env g cg root)
    (h : ps.foldlM (fun cg p ↦ (g.inEdges p.1).foldlM (SimplePlacer.addRefEdge env g p) cg) cg =
      .ok cg') :
    ∃ root', Later env g cg root cg' root' ∧
      ∀ p ∈ ps, ∀ e ∈ g.inEdges p.1, IsRefEdge p e → root' e.src = root' p.1 := by
  induction ps generalizing cg root with
  | nil =>
    cases h
    exact ⟨root, hcg.later, by simp⟩
  | cons p ps ih =>
    rw [foldlM_cons] at h
    obtain ⟨cg₁, hadd, h⟩ := bind_eq_ok_iff.1 h
    obtain ⟨root₁, hlater₁, hroot₁⟩ := hcg.addRefEdges_node hadd
    obtain ⟨root', hlater, hroot⟩ := ih hlater₁.coherent h
    exact ⟨root', hlater₁.trans hlater, forall_mem_cons.2
      ⟨fun e he href ↦ hlater.coarser _ _ (hroot₁ e he href), hroot⟩⟩

/-- What steps 1 and 2 of `Run` leave: every op node is a member, the root of a set keeps types that
every node of the set supports, and nodes that share a group or are connected by a reference edge
are in one set. -/
structure Constrained (env : Env α) (g : Graph α) (cg : ColocationGraph) (root : ℕ → ℕ) : Prop where
  coherent : Coherent env g cg root
  isSome : ∀ p ∈ g.opNodes, (cg.forest p.1).isSome = true
  group : ∀ p ∈ g.opNodes, ∀ q ∈ g.opNodes, ∀ group ∈ colocationGroups env p.2,
    group ∈ colocationGroups env q.2 → root p.1 = root q.1
  refEdge : ∀ p ∈ g.opNodes, ∀ e ∈ g.inEdges p.1, IsRefEdge p e → root e.src = root p.1

theorem exists_constrained (h : colocate env g = .ok cg) : ∃ root, Constrained env g cg root := by
  obtain ⟨cg₁, hadd, h⟩ := bind_eq_ok_iff.1 h
  have hempty : Added env g {} (fun id ↦ id) [] :=
    ⟨⟨represents_empty _ _, nofun, fun _ ↦ rfl⟩, by simp, by simp⟩
  obtain ⟨root₁, hadded⟩ := hempty.addNodes (Subset.refl _) (opNodes_sorted g)
    (fun _ _ ↦ Nat.zero_le _) hadd
  rw [nil_append] at hadded
  obtain ⟨root, hlater, hroot⟩ := hadded.coherent.addRefEdges h
  refine ⟨root, hlater.coherent, fun p hp ↦ ?_, fun p hp q hq group hgp hgq ↦ ?_, hroot⟩
  · rw [hlater.sameMembers.2 p.1, hadded.isSome_iff]
    exact mem_map_of_mem hp
  · obtain ⟨y, hy, -, hpy⟩ := (hadded.inGroup p hp group hgp).later hlater
    obtain ⟨z, hz, -, hqz⟩ := (hadded.inGroup q hq group hgq).later hlater
    obtain rfl := some.inj (hy.symm.trans hz)
    exact hpy.trans hqz.symm

end TensorFlowCore.SimplePlacer
