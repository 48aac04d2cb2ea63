import TensorFlowCore.Graph.Serialisation
import TensorFlowCore.Support.DoublyLinked

/-!
# `AddControlEdges`

The pass of `tensorflow/core/graph/graph_partition.cc` that delays the `_Recv` nodes of a partition.
It divides the makespan into epochs, adds a `ControlTrigger` for each of them behind the nodes that
start before it, and lets a `_Recv` wait for the trigger six epochs before its own. The attributes,
the sort and the names of new nodes are parameters.
-/

namespace TensorFlowCore

open List

namespace AddControlEdges

/-- How the pass ends before it is through: with a status, or at an element that does not exist. -/
inductive Fault where
  | status (s : Status)
  | crash
  deriving DecidableEq

/-- What the pass works with beside the partitions. -/
structure Env (α : Type) where
  /-- `GetNodeAttr` of `_start_time`. -/
  getStartTime : α → Except Status ℤ
  /-- The attributes of a `ControlTrigger` with a start time. -/
  startTimeAttr : ℤ → α
  /-- The status of `NodeDefBuilder::Finalize`, which looks `ControlTrigger` up. -/
  finalize : Status
  /-- `opts.new_name`: the name that a call returns, by the number of the call and the prefix. -/
  newName : ℕ → ByteString → ByteString
  /-- `std::sort` by start time. -/
  sort : List (NodeDef α × ℤ) → List (NodeDef α × ℤ)

def numEpochs : ℕ := 100

def prefetch : ℕ := 6

variable {α : Type} (env : Env α)

/-- `GetNodeAttr` of the start time of a node. -/
def startTime (node : NodeDef α) : Except Fault ℤ :=
  match env.getStartTime node.attr with
  | .error s => .error (.status s)
  | .ok t => .ok t

/-- `AddInput` with `Graph::kControlSlot`. -/
def addControlInput (node : NodeDef α) (srcName : ByteString) : NodeDef α :=
  { node with input := node.input ++ [Graph.inputString srcName kControlSlot] }

/-- The control edge from `start_times[j - 1]`, if `j > 0`. -/
def addLastInput (last : Option (NodeDef α × ℤ)) (dummy : NodeDef α) : NodeDef α :=
  match last with
  | none => dummy
  | some t => addControlInput dummy t.1.name

/-- `AddControlTrigger`, which makes the `call`-th call of `new_name`. -/
def addControlTrigger (call : ℕ) (deviceName : ByteString) (epoch starttime : ℤ) :
    Except Fault (NodeDef α) :=
  if env.finalize = .ok then
    .ok
      { name := env.newName call (ascii "synch_" ++ decimalInt epoch)
        op := ascii "ControlTrigger"
        device := deviceName
        attr := env.startTimeAttr starttime }
  else .error (.status env.finalize)

/-- The sweep over the epochs `i` and the sorted start times. `last` is `start_times[j - 1]`, and
what is left begins with `start_times[j]`. -/
def sweep (call : ℕ) (deviceName : ByteString) (resolution : ℤ) (i : ℕ)
    (last : Option (NodeDef α × ℤ)) :
    List (NodeDef α × ℤ) → Except Fault (List (NodeDef α))
  | [] => .ok []
  | t :: rest =>
    if i < numEpochs then
      if t.2 < int64 (i * resolution) then sweep call deviceName resolution i (some t) rest
      else do
        let dummy ← addControlTrigger env (call + i) deviceName i (int64 (i * resolution))
        let dummys ← sweep call deviceName resolution (i + 1) last (t :: rest)
        return addLastInput last dummy :: dummys
    else .ok []
  termination_by rest => numEpochs - i + rest.length

/-- The control edge to a node, if it is a `_Recv` of a late epoch. -/
def addRecvEdge (resolution : ℤ) (dummys : List (NodeDef α)) (node : NodeDef α) :
    Except Fault (NodeDef α) :=
  if node.op = ascii "_Recv" then do
    let t ← startTime env node
    if resolution = 0 then .error .crash
    else
      let recvEpoch := int32 (t.tdiv resolution)
      if prefetch ≤ recvEpoch then
        match dummys[(recvEpoch - prefetch).toNat]? with
        | none => .error .crash
        | some dummy => .ok (addControlInput node dummy.name)
      else .ok node
  else .ok node

/-- One partition, before which there have been `calls` calls of `new_name`. -/
def addControlEdgesTo (calls : ℕ) (gdef : GraphDef α) : Except Fault (GraphDef α × ℕ) := do
  let times ← gdef.node.mapM (startTime env)
  let startTimes := env.sort (gdef.node.zip times)
  match gdef.node.head?, startTimes.getLast? with
  | some first, some back =>
    let resolution := int64 (back.2.tdiv numEpochs + 1)
    let dummys ← sweep env calls first.device resolution 0 none startTimes
    let node ← (gdef.node ++ dummys).mapM (addRecvEdge env resolution dummys)
    return ({ gdef with node }, calls + dummys.length)
  | _, _ => .error .crash

/-- `AddControlEdges`. -/
def addControlEdges : ℕ → List (ByteString × GraphDef α) →
    Except Fault (List (ByteString × GraphDef α))
  | _, [] => .ok []
  | calls, (loc, gdef) :: partitions => do
    let (gdef, calls) ← addControlEdgesTo env calls gdef
    let partitions ← addControlEdges calls partitions
    return (loc, gdef) :: partitions

end AddControlEdges

/-!
## `AddControlEdges` keeps partitions acyclic

Each new edge goes from an earlier node to a later one: a trigger starts after the nodes that it
waits for and before the `_Recv` nodes that wait for it. So no new cycle goes through a trigger
(`acyclic_of_potential`). The sweep reaches the epoch of the last node, which is why a `_Recv` finds
its trigger (`addControlEdges_acyclic`).
-/

open Relation ExceptPost

/-- Edges that make progress do not close a cycle, in a graph whose edges do not go back. -/
theorem acyclic_of_potential {V P : Type*} [Preorder P] {E E' : V → V → Prop} (φ : V → P)
    (hacyclic : ∀ a, ¬ TransGen E a a) (hmono : ∀ a b, E a b → φ a ≤ φ b)
    (hnew : ∀ a b, E' a b → E a b ∨ φ a < φ b) (a : V) : ¬ TransGen E' a a := by
  have hle : ∀ a b, TransGen E a b → φ a ≤ φ b := by
    intro a b h
    induction h with
    | single h => exact hmono _ _ h
    | tail _ h ih => exact ih.trans (hmono _ _ h)
  have hpath : ∀ b, TransGen E' a b → TransGen E a b ∨ φ a < φ b := by
    intro b h
    induction h with
    | single h => exact (hnew _ _ h).imp_left .single
    | tail _ h ih =>
      obtain ih | ih := ih
      · obtain h | h := hnew _ _ h
        · exact .inl (ih.tail h)
        · exact .inr ((hle _ _ ih).trans_lt h)
      · obtain h | h := hnew _ _ h
        · exact .inr (ih.trans_le (hmono _ _ h))
        · exact .inr (ih.trans h)
  intro h
  obtain h | h := hpath a h
  · exact hacyclic a h
  · exact lt_irrefl _ h

namespace GraphDef

variable {α : Type}

/-- The node named `a` is an input of the node named `b`. -/
def Feeds (gdef : GraphDef α) (a b : ByteString) : Prop :=
  ∃ node ∈ gdef.node, node.name = b ∧ ∃ input ∈ node.input, (GraphConstructor.inputId input).1 = a

/-- No node depends on itself. -/
def Acyclic (gdef : GraphDef α) : Prop := ∀ a, ¬ TransGen gdef.Feeds a a

end GraphDef

namespace AddControlEdges

variable {α : Type} {env : Env α} {gdef : GraphDef α} {node : NodeDef α} {res : ℤ} {call : ℕ}

/-- The parameters do what they are documented to do: the sort sorts, the attribute can be read, and
`new_name` returns a name that it has not returned before. -/
structure Env.IsLawful (env : Env α) : Prop where
  perm : ∀ l, (env.sort l).Perm l
  sorted : ∀ l, (env.sort l).Pairwise (·.2 ≤ ·.2)
  getStartTime : ∀ t, env.getStartTime (env.startTimeAttr t) = .ok t
  newName_injective : ∀ call call' p p', env.newName call p = env.newName call' p' → call = call'
  colon : ∀ call p, 58 ∉ p → 58 ∉ env.newName call p

/-- The start time of a node. -/
def timeOf (env : Env α) (node : NodeDef α) : ℤ := (env.getStartTime node.attr).toOption.getD 0

/-- A partition whose nodes have start times that do not decrease along its edges. The nodes have
distinct names that `new_name` does not return, and their inputs are nodes of the partition. -/
structure IsTimed (env : Env α) (gdef : GraphDef α) : Prop where
  nonempty : gdef.node ≠ []
  nodup : (gdef.node.map NodeDef.name).Nodup
  colon : ∀ n ∈ gdef.node, 58 ∉ n.name
  fresh : ∀ n ∈ gdef.node, ∀ call p, env.newName call p ≠ n.name
  inputs : ∀ a b, gdef.Feeds a b → ∃ n ∈ gdef.node, n.name = a
  startTime : ∀ n ∈ gdef.node, env.getStartTime n.attr = .ok (timeOf env n)
  nonneg : ∀ n ∈ gdef.node, 0 ≤ timeOf env n
  lt : ∀ n ∈ gdef.node, timeOf env n < 2 ^ 63
  mono : ∀ n ∈ gdef.node, ∀ m ∈ gdef.node, gdef.Feeds n.name m.name → timeOf env n ≤ timeOf env m
  acyclic : gdef.Acyclic

/-! ### Arithmetic -/

/-- The resolution for a makespan. -/
theorem resolution_spec {makespan : ℤ} (h₀ : 0 ≤ makespan) (h : makespan < 2 ^ 63) :
    ∃ res, int64 (makespan.tdiv numEpochs + 1) = res ∧ 0 < res ∧ makespan < 100 * res ∧
    99 * res < 2 ^ 63 := by
  rw [Int.tdiv_eq_ediv_of_nonneg h₀]
  have hepochs : (numEpochs : ℤ) = 100 := rfl
  rw [hepochs]
  refine ⟨_, int64_of_lt ?_ ?_, ?_, ?_, ?_⟩ <;> omega

theorem int64_epoch {i : ℕ} (hres : 0 < res) (hsmall : 99 * res < 2 ^ 63) (hi : i < numEpochs) :
    int64 (i * res) = i * res := by
  have hi' : (i : ℤ) ≤ 99 := Int.ofNat_le.2 (Nat.le_of_lt_succ hi)
  exact int64_of_lt (mul_nonneg (Int.natCast_nonneg i) hres.le)
    ((mul_le_mul_of_nonneg_right hi' hres.le).trans_lt hsmall)

/-! ### The sweep -/

/-- The trigger of an epoch: it waits for a node that starts before the epoch, or for none. -/
structure IsDummy (env : Env α) (call : ℕ) (res : ℤ) (times : List (NodeDef α × ℤ)) (i : ℕ)
    (d : NodeDef α) : Prop where
  name : ∃ p, 58 ∉ p ∧ d.name = env.newName (call + i) p
  op : d.op = ascii "ControlTrigger"
  attr : d.attr = env.startTimeAttr (i * res)
  input : d.input = [] ∨ ∃ t ∈ times, t.2 < i * res ∧
    d.input = [Graph.inputString t.1.name kControlSlot]

theorem colon_notMem_synch (i : ℕ) : (58 : UInt8) ∉ ascii "synch_" ++ decimalInt i := by
  rw [mem_append, not_or]
  refine ⟨by decide, fun hmem ↦ ?_⟩
  rw [decimalInt, if_neg (by omega)] at hmem
  have := (mem_decimal hmem).2
  exact absurd this (by decide)

/-- A status of `NodeDefBuilder::Finalize`. -/
def IsFinalizeError (env : Env α) (f : Fault) : Prop :=
  f = .status env.finalize ∧ env.finalize ≠ .ok

/-- The trigger of the epoch `i`, with its control input. -/
theorem post_dummy {times : List (NodeDef α × ℤ)} {last : Option (NodeDef α × ℤ)}
    {device : ByteString} {i : ℕ} (hlast : ∀ t, last = some t → t ∈ times ∧ t.2 < i * res) :
    Post (addControlTrigger env (call + i) device i (i * res))
      (fun dummy ↦ IsDummy env call res times i (addLastInput last dummy))
      (IsFinalizeError env) := by
  unfold addControlTrigger
  split
  · refine post_ok.2 ?_
    have hname : ∃ p, 58 ∉ p ∧ env.newName (call + i) (ascii "synch_" ++ decimalInt i) =
        env.newName (call + i) p :=
      ⟨_, colon_notMem_synch i, rfl⟩
    cases last with
    | none => exact ⟨hname, rfl, rfl, .inl rfl⟩
    | some t => exact ⟨hname, rfl, rfl, .inr ⟨t, (hlast t rfl).1, (hlast t rfl).2, rfl⟩⟩
  · exact post_error.2 ⟨rfl, ‹_›⟩

/-- The sweep adds a trigger for each epoch from `i` on that begins before the last node starts. -/
theorem post_sweep {times rest : List (NodeDef α × ℤ)} {last : Option (NodeDef α × ℤ)}
    {device : ByteString} {i : ℕ} (hres : 0 < res) (hsmall : 99 * res < 2 ^ 63)
    (hlast : ∀ t, last = some t → t ∈ times ∧ t.2 < i * res) (hrest : rest ⊆ times) :
    Post (sweep env call device res i last rest)
      (fun dummys ↦ (∀ k d, dummys[k]? = some d → IsDummy env call res times (i + k) d) ∧
        ∀ m : ℕ, i ≤ m → m < 100 → (∃ t ∈ rest, m * res ≤ t.2) → m < i + dummys.length)
        (IsFinalizeError env) := by
  induction i, last, rest using sweep.induct res with
  | case1 i last =>
    rw [sweep]
    exact post_ok.2 ⟨fun k d hd ↦ (nomatch hd), fun m _ _ ⟨t, ht, _⟩ ↦ (not_mem_nil ht).elim⟩
  | case2 i last t rest hi hlt ih =>
    rw [sweep, if_pos hi, if_pos hlt]
    rw [int64_epoch hres hsmall hi] at hlt
    have htimes : t ∈ times := hrest mem_cons_self
    refine (ih ?_ fun x hx ↦ hrest (mem_cons_of_mem t hx)).mono (fun dummys ⟨hdummys, hlong⟩ ↦ ?_)
      fun _ ↦ id
    · rintro _ ⟨⟩
      exact ⟨htimes, hlt⟩
    · refine ⟨hdummys, fun m him hm ⟨x, hx, hle⟩ ↦ hlong m him hm ⟨x, ?_, hle⟩⟩
      obtain rfl | hx := mem_cons.1 hx
      · have him' : (i : ℤ) * res ≤ m * res :=
          mul_le_mul_of_nonneg_right (Int.ofNat_le.2 him) hres.le
        exact absurd (hlt.trans_le (him'.trans hle)) (lt_irrefl _)
      · exact hx
  | case3 i last t rest hi hlt ih =>
    rw [sweep, if_pos hi, if_neg hlt, int64_epoch hres hsmall hi]
    refine (post_dummy hlast).bind fun dummy hdummy ↦ (ih (fun x hx ↦ ?_) hrest).bind fun dummys
      hdummys ↦ ?_
    · have hlater : (i : ℤ) * res ≤ (i + 1 : ℕ) * res :=
        mul_le_mul_of_nonneg_right (Int.ofNat_le.2 (Nat.le_succ i)) hres.le
      exact ⟨(hlast x hx).1, (hlast x hx).2.trans_le hlater⟩
    · obtain ⟨hspec, hlong⟩ := hdummys
      refine post_ok.2 ⟨fun k d hd ↦ ?_, fun m him hm hx ↦ ?_⟩
      · cases k with
        | zero =>
          cases hd
          exact hdummy
        | succ k =>
          rw [← Nat.add_assoc, Nat.add_right_comm]
          exact hspec k d hd
      · rw [length_cons]
        obtain rfl | hlt := Nat.eq_or_lt_of_le him
        · omega
        · have := hlong m hlt hm hx
          omega
  | case4 i last t rest hi =>
    rw [sweep, if_neg hi]
    refine post_ok.2 ⟨fun k d hd ↦ (nomatch hd), fun m him hm _ ↦ ?_⟩
    exact absurd (him.trans_lt hm) hi

/-! ### The `_Recv` nodes -/

/-- The node as it was, or a `_Recv` that waits for the trigger of an epoch that ends before it
starts. -/
def Waits (env : Env α) (res : ℤ) (dummys : List (NodeDef α)) (n n' : NodeDef α) : Prop :=
  n' = n ∨ n.op = ascii "_Recv" ∧ ∃ (k : ℕ) (d : NodeDef α), dummys[k]? = some d ∧
    (k + 6) * res ≤ timeOf env n ∧ n' = addControlInput n d.name

/-- A `_Recv` finds its trigger. -/
theorem post_addRecvEdge {dummys : List (NodeDef α)} {makespan : ℤ} (hres : 0 < res)
    (hlt : makespan < 100 * res) (hlong : ∀ m : ℕ, m < 100 → m * res ≤ makespan → m < dummys.length)
    (htime : node.op = ascii "_Recv" → env.getStartTime node.attr = .ok (timeOf env node) ∧
      0 ≤ timeOf env node ∧
      timeOf env node ≤ makespan) :
    Post (addRecvEdge env res dummys node) (Waits env res dummys node) (IsFinalizeError env) := by
  unfold addRecvEdge
  split
  · rename_i hop
    obtain ⟨hget, hnonneg, hle⟩ := htime hop
    have hstart : startTime env node = .ok (timeOf env node) := by rw [startTime, hget]
    rw [hstart, ok_bind, if_neg hres.ne']
    -- the epoch, as a natural number
    obtain ⟨e, he⟩ := Int.eq_ofNat_of_zero_le (Int.ediv_nonneg hnonneg hres.le)
    have hfloor : e * res ≤ timeOf env node := he ▸ Int.ediv_mul_le _ hres.ne'
    have hsmall : e < 100 := by
      have hmul : (e : ℤ) * res < 100 * res := hfloor.trans_lt (hle.trans_lt hlt)
      exact Int.ofNat_lt.1 (lt_of_mul_lt_mul_right hmul hres.le)
    rw [Int.tdiv_eq_ediv_of_nonneg hnonneg, he]
    rw [int32_of_lt (Int.natCast_nonneg e) (by omega)]
    show Post (if (prefetch : ℤ) ≤ (e : ℤ) then _ else _) _ _
    split
    · rename_i hprefetch
      have hindex : ((e : ℤ) - prefetch).toNat + 6 = e := by
        have : (prefetch : ℤ) = 6 := rfl
        omega
      have hin : ((e : ℤ) - prefetch).toNat < dummys.length := by
        have := hlong e hsmall (hfloor.trans hle)
        omega
      rw [getElem?_eq_getElem hin]
      refine post_ok.2 (Or.inr ⟨hop, _, _, getElem?_eq_getElem hin, ?_, rfl⟩)
      refine le_trans (le_of_eq ?_) hfloor
      exact congrArg (· * res) (by omega)
    · exact post_ok.2 (Or.inl rfl)
  · exact post_ok.2 (Or.inl rfl)

theorem post_mapM {β γ ε : Type} {f : β → Except ε γ} {Q : β → γ → Prop} {E : ε → Prop} {l : List β}
    (h : ∀ x ∈ l, Post (f x) (Q x) E) : Post (l.mapM f) (fun l' ↦ ∀ y ∈ l', ∃ x ∈ l, Q x y) E := by
  induction l with
  | nil => exact post_ok.2 (forall_mem_nil _)
  | cons x l ih =>
    obtain ⟨hx, hl⟩ := forall_mem_cons.1 h
    rw [mapM_cons]
    refine hx.bind fun y hy ↦ (ih hl).bind fun ys hys ↦
      post_ok.2 (forall_mem_cons.2 ⟨⟨x, mem_cons_self, hy⟩, ?_⟩)
    intro z hz
    obtain ⟨x', hx', hQ⟩ := hys z hz
    exact ⟨x', mem_cons_of_mem x hx', hQ⟩

theorem mapM_startTime {nodes : List (NodeDef α)}
    (h : ∀ n ∈ nodes, env.getStartTime n.attr = .ok (timeOf env n)) :
    nodes.mapM (startTime env) = .ok (nodes.map (timeOf env)) := by
  induction nodes with
  | nil => rfl
  | cons n nodes ih =>
    obtain ⟨hn, hnodes⟩ := forall_mem_cons.1 h
    rw [mapM_cons, startTime, hn, ih hnodes]
    rfl

/-! ### Acyclic partitions -/

theorem inputId_inputString {name : ByteString} (h : 58 ∉ name) :
    (GraphConstructor.inputId (Graph.inputString name kControlSlot)).1 = name :=
  congrArg Prod.fst (parseTensorName_of_notMem h)

variable {dummys nodes' : List (NodeDef α)} {times : List (NodeDef α × ℤ)}

theorem timeOf_dummy (henv : env.IsLawful) {k : ℕ} {d : NodeDef α}
    (hd : IsDummy env call res times k d) : timeOf env d = k * res := by
  rw [timeOf, hd.attr, henv.getStartTime]
  rfl

/-- The names of the nodes and of the triggers determine their start times. -/
theorem exists_timeOfName (henv : env.IsLawful) (hgdef : IsTimed env gdef)
    (hdummys : ∀ k d, dummys[k]? = some d → IsDummy env call res times k d) :
    ∃ φ : ByteString → ℤ, ∀ n ∈ gdef.node ++ dummys, φ n.name = timeOf env n := by
  have heq : ∀ n ∈ gdef.node ++ dummys, ∀ m ∈ gdef.node ++ dummys, n.name = m.name →
      timeOf env n = timeOf env m := by
    intro n hn m hm hname
    obtain hn | hn := mem_append.1 hn
    · obtain hm | hm := mem_append.1 hm
      · rw [inj_on_of_nodup_map hgdef.nodup hn hm hname]
      · obtain ⟨k, hk⟩ := mem_iff_getElem?.1 hm
        obtain ⟨p, -, hp⟩ := (hdummys k m hk).name
        exact (hgdef.fresh n hn _ p (hp.symm.trans hname.symm)).elim
    · obtain ⟨k, hk⟩ := mem_iff_getElem?.1 hn
      obtain ⟨p, -, hp⟩ := (hdummys k n hk).name
      obtain hm | hm := mem_append.1 hm
      · exact (hgdef.fresh m hm _ p (hp.symm.trans hname)).elim
      · obtain ⟨k', hk'⟩ := mem_iff_getElem?.1 hm
        obtain ⟨p', -, hp'⟩ := (hdummys k' m hk').name
        have hcall := henv.newName_injective _ _ p p' (hp.symm.trans (hname.trans hp'))
        obtain rfl : k = k' := Nat.add_left_cancel hcall
        rw [Option.some.inj (hk.symm.trans hk')]
  refine ⟨fun a ↦ (((gdef.node ++ dummys).find? (·.name = a)).map (timeOf env)).getD 0,
    fun n hn ↦ ?_⟩
  show (((gdef.node ++ dummys).find? (·.name = n.name)).map (timeOf env)).getD 0 = timeOf env n
  cases hfind : (gdef.node ++ dummys).find? (·.name = n.name) with
  | none => exact (find?_eq_none.1 hfind n hn (decide_eq_true rfl)).elim
  | some m =>
    have hname := find?_some hfind
    exact heq m (mem_of_find?_eq_some hfind) n hn (of_decide_eq_true hname)

/-- The triggers do not close a cycle. -/
theorem acyclic_of_waits (henv : env.IsLawful) (hgdef : IsTimed env gdef) (hres : 0 < res)
    (htimes : ∀ t ∈ times, t.1 ∈ gdef.node ∧ t.2 = timeOf env t.1)
    (hdummys : ∀ k d, dummys[k]? = some d → IsDummy env call res times k d)
    (hwaits : ∀ n' ∈ nodes', ∃ n ∈ gdef.node ++ dummys, Waits env res dummys n n') :
    ({ gdef with node := nodes' } : GraphDef α).Acyclic := by
  obtain ⟨φ, hφ⟩ := exists_timeOfName henv hgdef hdummys
  have hcolon : ∀ (k : ℕ) (d : NodeDef α), dummys[k]? = some d → 58 ∉ d.name := by
    intro k d hd
    obtain ⟨p, hp, hname⟩ := (hdummys k d hd).name
    exact hname ▸ henv.colon _ p hp
  refine acyclic_of_potential φ hgdef.acyclic (fun a b hab ↦ ?_) fun a b hab ↦ ?_
  · obtain ⟨n, hn, rfl⟩ := hgdef.inputs a b hab
    have ⟨m, hm, hname, _⟩ := hab
    obtain rfl := hname
    rw [hφ n (mem_append_left _ hn), hφ m (mem_append_left _ hm)]
    exact hgdef.mono n hn m hm hab
  · obtain ⟨n', hn', rfl, input, hinput, rfl⟩ := hab
    obtain ⟨n, hn, hwait⟩ := hwaits n' hn'
    -- an input that the node had before the last loop
    have hold : input ∈ n.input → gdef.Feeds (GraphConstructor.inputId input).1 n.name ∨
        φ (GraphConstructor.inputId input).1 < φ n.name := by
      intro hinput
      obtain hmem | hmem := mem_append.1 hn
      · exact .inl ⟨n, hmem, rfl, input, hinput, rfl⟩
      · obtain ⟨k, hk⟩ := mem_iff_getElem?.1 hmem
        obtain hnil | ⟨t, ht, hlt, hsingle⟩ := (hdummys k n hk).input
        · rw [hnil] at hinput
          cases hinput
        · rw [hsingle] at hinput
          obtain rfl := mem_singleton.1 hinput
          obtain ⟨hnode, htime⟩ := htimes t ht
          rw [inputId_inputString (hgdef.colon t.1 hnode), hφ t.1 (mem_append_left _ hnode),
            hφ n hn, ← htime, timeOf_dummy henv (hdummys k n hk)]
          exact .inr hlt
    obtain rfl | ⟨hop, k, d, hd, hle, rfl⟩ := hwait
    · exact hold hinput
    · obtain hinput | hinput := mem_append.1 hinput
      · exact hold hinput
      · obtain rfl := mem_singleton.1 hinput
        have hmem : d ∈ gdef.node ++ dummys := mem_append_right _ (mem_of_getElem? hd)
        refine .inr ?_
        show φ _ < φ n.name
        rw [inputId_inputString (hcolon k d hd), hφ d hmem, hφ n hn,
          timeOf_dummy henv (hdummys k d hd)]
        refine lt_of_lt_of_le ?_ hle
        exact mul_lt_mul_of_pos_right (by omega) hres

/-! ### The pass -/

/-- The last of the sorted start times is the greatest. -/
theorem le_of_getLast? {l : List (NodeDef α × ℤ)} {back : NodeDef α × ℤ}
    (hsorted : l.Pairwise (·.2 ≤ ·.2)) (hback : l.getLast? = some back) :
    ∀ t ∈ l, t.2 ≤ back.2 := by
  obtain ⟨init, rfl⟩ := getLast?_eq_some_iff.1 hback
  intro t ht
  obtain ht | ht := mem_append.1 ht
  · exact (pairwise_append.1 hsorted).2.2 t ht back mem_cons_self
  · rw [mem_singleton.1 ht]

/-- Every `_Recv` finds its trigger, and the partition stays acyclic. -/
theorem post_addControlEdgesTo (henv : env.IsLawful) (hgdef : IsTimed env gdef) (calls : ℕ) :
    Post (addControlEdgesTo env calls gdef) (fun r ↦ r.1.Acyclic) (IsFinalizeError env) := by
  unfold addControlEdgesTo
  rw [mapM_startTime hgdef.startTime, ok_bind, ← map_prod_left_eq_zip]
  have hperm := henv.perm (gdef.node.map fun n ↦ (n, timeOf env n))
  have hsorted := henv.sorted (gdef.node.map fun n ↦ (n, timeOf env n))
  generalize env.sort (gdef.node.map fun n ↦ (n, timeOf env n)) = times at hperm hsorted ⊢
  have htimes : ∀ t ∈ times, t.1 ∈ gdef.node ∧ t.2 = timeOf env t.1 := by
    intro t ht
    obtain ⟨n, hn, rfl⟩ := mem_map.1 (hperm.mem_iff.1 ht)
    exact ⟨hn, rfl⟩
  have hmem : ∀ n ∈ gdef.node, (n, timeOf env n) ∈ times :=
    fun n hn ↦ hperm.mem_iff.2 (mem_map.2 ⟨n, hn, rfl⟩)
  obtain ⟨first, nodes, hnode⟩ := exists_cons_of_ne_nil hgdef.nonempty
  have hne : times ≠ [] := ne_nil_of_mem (hmem first (hnode ▸ mem_cons_self))
  obtain ⟨back, hback⟩ : ∃ back, times.getLast? = some back := ⟨_, getLast?_eq_some_getLast hne⟩
  obtain ⟨hbacknode, hbacktime⟩ := htimes back (mem_of_getLast? hback)
  obtain ⟨res, hresolution, hres, hlt, hsmall⟩ :=
    resolution_spec (hbacktime ▸ hgdef.nonneg _ hbacknode) (hbacktime ▸ hgdef.lt _ hbacknode)
  have hhead : gdef.node.head? = some first := congrArg head? hnode
  simp only [hhead, hback, hresolution]
  refine (post_sweep hres hsmall (fun _ h ↦ (Option.some_ne_none _ h.symm).elim)
    (Subset.refl times)).bind fun dummys ⟨hdummys, hlong⟩ ↦ ?_
  have hdummys' : ∀ (k : ℕ) (d : NodeDef α), dummys[k]? = some d →
      IsDummy env calls res times k d :=
    fun k d hd ↦ Nat.zero_add k ▸ hdummys k d hd
  have hrecv : ∀ n ∈ gdef.node ++ dummys, Post (addRecvEdge env res dummys n)
    (Waits env res dummys n)
      (IsFinalizeError env) := by
    intro n hn
    refine post_addRecvEdge hres hlt (fun m hm hle ↦ ?_) fun hop ↦ ?_
    · have := hlong m (Nat.zero_le m) hm ⟨back, mem_of_getLast? hback, hle⟩
      omega
    · obtain hn | hn := mem_append.1 hn
      · exact ⟨hgdef.startTime n hn, hgdef.nonneg n hn, le_of_getLast? hsorted hback _ (hmem n hn)⟩
      · -- a trigger is not a `_Recv`
        obtain ⟨k, hk⟩ := mem_iff_getElem?.1 hn
        rw [(hdummys' k n hk).op] at hop
        exact absurd hop (by decide)
  refine (post_mapM hrecv).bind fun nodes' hnodes' ↦ post_ok.2 ?_
  exact acyclic_of_waits henv hgdef hres htimes hdummys' hnodes'

/-- **`AddControlEdges` is safe.** It does not look up a trigger that does not exist, and the
partitions that it returns are acyclic. The only error is that there is no `ControlTrigger`. -/
theorem addControlEdges_acyclic (env : Env α) (henv : env.IsLawful)
    (partitions : List (ByteString × GraphDef α)) (hpartitions : ∀ p ∈ partitions, IsTimed env p.2)
    (calls : ℕ) :
    Post (addControlEdges env calls partitions) (fun partitions' ↦ ∀ p ∈ partitions', p.2.Acyclic)
      fun f ↦ f = .status env.finalize ∧ env.finalize ≠ .ok := by
  induction partitions generalizing calls with
  | nil => exact post_ok.2 (forall_mem_nil _)
  | cons p partitions ih =>
    obtain ⟨loc, gdef⟩ := p
    obtain ⟨hgdef, hpartitions⟩ := forall_mem_cons.1 hpartitions
    unfold addControlEdges
    refine (post_addControlEdgesTo henv hgdef calls).bind fun r hr ↦ ?_
    refine (ih hpartitions r.2).bind fun partitions' h ↦ post_ok.2 (forall_mem_cons.2 ⟨hr, h⟩)

/-- The attribute of a node is its start time, and a new name ends with a number. -/
def numberedEnv : Env ℤ where
  getStartTime := .ok
  startTimeAttr := id
  finalize := .ok
  newName call p := p ++ (95 :: 71 :: decimal call)
  sort := List.insertionSort (·.2 ≤ ·.2)

theorem notMem_decimal {b : UInt8} (hb : 57 < b.toNat) (n : ℕ) : b ∉ decimal n :=
  fun hmem ↦ absurd (mem_decimal hmem).2 (Nat.not_le.2 hb)

theorem isLawful_numberedEnv : numberedEnv.IsLawful where
  perm := perm_insertionSort _
  sorted l := by
    have : Std.Total fun a b : NodeDef ℤ × ℤ ↦ a.2 ≤ b.2 := ⟨fun a b ↦ le_total a.2 b.2⟩
    have : IsTrans _ fun a b : NodeDef ℤ × ℤ ↦ a.2 ≤ b.2 := ⟨fun _ _ _ h h' ↦ le_trans h h'⟩
    exact pairwise_insertionSort _ l
  getStartTime _ := rfl
  newName_injective call call' p p' h := by
    have h' : (p ++ [95]) ++ 71 :: decimal call = (p' ++ [95]) ++ 71 :: decimal call' := by
      rw [append_assoc, append_assoc]
      exact h
    obtain ⟨k, -, hk⟩ | ⟨-, -, hk⟩ | ⟨k, hk, -⟩ := DoublyLinked.append_cons_eq_append_cons h'
    · exact (notMem_decimal (by decide) call' (hk ▸ mem_append_right k mem_cons_self)).elim
    · exact decimal_injective hk
    · exact (notMem_decimal (by decide) call (hk ▸ mem_append_right k mem_cons_self)).elim
  colon call p hp hmem := by
    obtain hmem | hmem := mem_append.1 hmem
    · exact hp hmem
    · obtain heq | heq | hmem := mem_cons.1 hmem |>.imp_right mem_cons.1
      · exact absurd heq (by decide)
      · exact absurd heq (by decide)
      · exact notMem_decimal (by decide) call hmem

/-- A `_Recv` of the epoch 90, which waits for a node of the first epoch. -/
def lateRecv : GraphDef ℤ where
  node := [{ name := ascii "a", op := ascii "Const", attr := 0 },
    { name := ascii "r", op := ascii "_Recv", input := [ascii "a"], attr := 1000 }]
  versions := { producer := graphDefVersion, minConsumer := graphDefVersionMinConsumer }

theorem feeds_lateRecv {a b : ByteString} (h : lateRecv.Feeds a b) :
    a = ascii "a" ∧ b = ascii "r" := by
  obtain ⟨n, hn, rfl, input, hinput, rfl⟩ := h
  obtain rfl | rfl := mem_pair.1 hn
  · cases hinput
  · obtain rfl := mem_singleton.1 hinput
    decide

theorem isTimed_lateRecv : IsTimed numberedEnv lateRecv where
  nonempty := cons_ne_nil _ _
  nodup := by decide
  colon := by decide
  fresh n hn call p heq := by
    have hmem : (71 : UInt8) ∈ n.name := by
      rw [← heq]
      exact mem_append_right p (mem_cons_of_mem _ mem_cons_self)
    have hnot : ∀ n ∈ lateRecv.node, (71 : UInt8) ∉ n.name := by decide
    exact hnot n hn hmem
  inputs a b h := ⟨_, mem_cons_self, (feeds_lateRecv h).1.symm⟩
  startTime _ _ := rfl
  nonneg := by decide
  lt := by decide
  mono n hn m hm h := by
    obtain ⟨hna, hmr⟩ := feeds_lateRecv h
    obtain rfl | rfl := mem_pair.1 hn
    · obtain rfl | rfl := mem_pair.1 hm
      · exact le_refl 0
      · decide
    · exact absurd hna (by decide)
  acyclic a h := by
    obtain ⟨c, hc, -⟩ := TransGen.head'_iff.1 h
    obtain ⟨d, -, hd⟩ := TransGen.tail'_iff.1 h
    exact absurd ((feeds_lateRecv hc).1.symm.trans (feeds_lateRecv hd).2) (by decide)

theorem addControlEdges_acyclic_lateRecv :
    Post (addControlEdges numberedEnv 0 [(ascii "/cpu:0", lateRecv)])
    (fun partitions' ↦ ∀ p ∈ partitions', p.2.Acyclic)
    fun f ↦ f = .status numberedEnv.finalize ∧ numberedEnv.finalize ≠ .ok :=
  addControlEdges_acyclic numberedEnv isLawful_numberedEnv _
    (forall_mem_singleton.2 isTimed_lateRecv) 0

end AddControlEdges

end TensorFlowCore
