import TensorFlowCore.Graph.Graph
import TensorFlowCore.Graph.TensorId
import TensorFlowCore.Support.StackSearch

/-!
# `DirectSession::CheckFetch`

The check of `tensorflow/core/common_runtime/direct_session.cc` by which a partial run refuses
fetches that need a feed that is still pending. It searches backwards from the nodes of the fetches,
over the whole graph that the partial run was set up with, for an edge from a pending endpoint.

A feed takes the place of the endpoint: what lies behind an endpoint that has been fed is not
needed. The search goes on behind it. So the check is exact unless the only pending endpoints that
it comes to lie behind ones that have been fed (`checkFetchIsExact_iff`).
-/

namespace TensorFlowCore.PartialRun

open List Relation

variable {α : Type} (g : Graph α)

/-- A `TensorId`: an output of a node, by name. -/
abbrev TensorId := ByteString × ℤ

/-- `ExecutorsAndKeys::name_to_node`: of the nodes with a name that occurs in the setup, the first
one. -/
def nameToNode (names : List ByteString) (name : ByteString) : Option ℕ :=
  if name ∈ names.map fun t ↦ (parseTensorName t).1 then
    (List.range g.numNodeIds).find? fun id ↦ (g.findNodeId id).map Node.name = some name
  else none

/-- The endpoints of the feeds that are pending without those of the call. -/
def unseen (pendingInputs feeds : List ByteString) : List TensorId :=
  (pendingInputs.map parseTensorName).filter (· ∉ feeds.map parseTensorName)

/-- The pending feeds that have not been seen, or the error for a name that is not found. -/
def pendingFeeds (find : ByteString → Option ℕ) (pendingInputs feeds : List ByteString) :
    Except Status (List TensorId) :=
  match pendingInputs.find? fun feed ↦ (find (parseTensorName feed).1).isNone with
  | some feed => .error (.error .notFound (ascii "Feed " ++ feed ++ ascii ": not found"))
  | none => .ok (unseen pendingInputs feeds)

/-- The stack with the fetch nodes. -/
def fetchNodes (find : ByteString → Option ℕ) : List ByteString → List ℕ → Except Status (List ℕ)
  | [], stack => .ok stack
  | fetch :: fetches, stack =>
    match find (parseTensorName fetch).1 with
    | none => .error (.error .notFound (ascii "Fetch " ++ fetch ++ ascii ": not found"))
    | some id => fetchNodes find fetches (id :: stack)

/-- The endpoint that an edge comes from. -/
def endpoint (e : Edge) : TensorId := (((g.findNodeId e.src).map Node.name).getD [], e.srcOutput)

/-- The status for an edge from a pending endpoint. -/
def cannotBeComputed (e : Edge) : Status :=
  invalidArgument [ascii "Fetch ", (endpoint g e).1, ascii ":", decimalInt (endpoint g e).2,
    ascii " can't be computed from the feeds", ascii " that have been fed so far."]

/-- The status for an edge from a pending endpoint, or `OK`. -/
def searchStatus : Except Edge Unit → Status
  | .error e => cannotBeComputed g e
  | .ok () => .ok

/-- A bound for the steps of the search. -/
def searchFuel (fetches : List ByteString) : ℕ := fetches.length + g.edges.length

/-- `CheckFetch`, if it ends. -/
def checkFetch (find : ByteString → Option ℕ) (pendingInputs feeds fetches : List ByteString) :
    Option Status :=
  match pendingFeeds find pendingInputs feeds with
  | .error s => some s
  | .ok pending =>
    match fetchNodes find fetches [] with
    | .error s => some s
    | .ok stack =>
      -- a node is marked as visited when it is pushed, which the fetch nodes are not
      (StackSearch.search g.inEdges Edge.src (fun e ↦ endpoint g e ∈ pending) (searchFuel g fetches)
        stack []).map (searchStatus g)

/-! ### What a fetch needs -/

/-- There is a path of edges backwards from one node to another, none of which is cut. -/
def Backward (cut : Edge → Prop) : ℕ → ℕ → Prop :=
  ReflTransGen fun a b ↦ ∃ e ∈ g.edges, e.dst = a ∧ e.src = b ∧ ¬ cut e

/-- A path backwards from the node comes to an edge from an endpoint, past no edge that is cut. -/
def Reaches (cut : Edge → Prop) (target : TensorId → Prop) (id : ℕ) : Prop :=
  ∃ v, Backward g cut id v ∧ ∃ e ∈ g.edges, e.dst = v ∧ target (endpoint g e)

/-- The feeds and fetches of a partial run, the feeds that earlier calls have supplied, and those of
this call. -/
structure Call where
  inputNames : List ByteString
  outputNames : List ByteString
  fed : List ByteString
  feeds : List ByteString
  fetches : List ByteString

namespace Call

variable (c : Call)

/-- `RunState::pending_inputs` before the call. -/
def pendingInputs : List ByteString := c.inputNames.filter (· ∉ c.fed)

/-- The endpoints that have been fed, by this call or before. -/
def Fed (id : TensorId) : Prop := id ∈ (c.fed ++ c.feeds).map parseTensorName

/-- The endpoints that are still to be fed. -/
def Pending (id : TensorId) : Prop := id ∈ c.inputNames.map parseTensorName ∧ ¬ c.Fed id

/-- The node of a name that the call or the setup uses. -/
def find : ByteString → Option ℕ := nameToNode g (c.inputNames ++ c.outputNames)

/-- Names are found, as the setup of the partial run and the checks at the start of `PRun` make
sure. -/
def Resolves : Prop :=
  ∀ t ∈ c.inputNames ++ c.fetches, (c.find g (parseTensorName t).1).isSome = true

/-- A path backwards from a node of a fetch comes to a target, past no edge that is cut. -/
def FetchReaches (cut : Edge → Prop) (target : TensorId → Prop) : Prop :=
  ∃ fetch ∈ c.fetches, ∃ id, c.find g (parseTensorName fetch).1 = some id ∧ Reaches g cut target id

/-- The search ends, and the fetches are accepted exactly if no pending endpoint is needed for
them. -/
def CheckFetchIsExact : Prop :=
  ∃ s, checkFetch g (c.find g) c.pendingInputs c.feeds c.fetches = some s ∧
    (s = .ok ↔ ¬ c.FetchReaches g (fun e ↦ c.Fed (endpoint g e)) c.Pending)

/-- The endpoints that the search looks for. -/
def LookedFor (id : TensorId) : Prop := id ∈ unseen c.pendingInputs c.feeds

end Call

variable {g} {c : Call}

/-- Without anything that is cut a path backwards is what the search follows. -/
theorem backward_iff {a b : ℕ} : Backward g (fun _ ↦ False) a b ↔
    ReflTransGen (StackSearch.Step g.inEdges Edge.src) a b := by
  have hstep : StackSearch.Step g.inEdges Edge.src =
      fun a b ↦ ∃ e ∈ g.edges, e.dst = a ∧ e.src = b ∧ ¬ False := by
    funext a b
    simp [StackSearch.Step, Graph.inEdges, and_assoc]
  rw [hstep, Backward]

theorem fetchNodes_eq_ok {find : ByteString → Option ℕ} {fetches : List ByteString}
    (h : ∀ fetch ∈ fetches, (find (parseTensorName fetch).1).isSome = true) (stack : List ℕ) :
    ∃ nodes, fetchNodes find fetches stack = .ok nodes ∧
    nodes.length = fetches.length + stack.length ∧
      ∀ id, id ∈ nodes ↔ id ∈ stack ∨ ∃ fetch ∈ fetches, find (parseTensorName fetch).1 =
        some id := by
  induction fetches generalizing stack with
  | nil => exact ⟨stack, rfl, by simp, by simp⟩
  | cons fetch fetches ih =>
    obtain ⟨id, hid⟩ := Option.isSome_iff_exists.1 (h fetch mem_cons_self)
    obtain ⟨nodes, hnodes, hlength, hmem⟩ :=
      ih (fun t ht ↦ h t (mem_cons_of_mem fetch ht)) (id :: stack)
    refine ⟨nodes, by rw [fetchNodes, hid]; exact hnodes, ?_, fun id' ↦ ?_⟩
    · rw [hlength, length_cons, length_cons]
      omega
    · rw [hmem, mem_cons, exists_mem_cons_iff, hid, Option.some_inj, or_assoc, eq_comm (a := id')]
      exact or_left_comm

theorem pendingFeeds_eq_ok {find : ByteString → Option ℕ} {pendingInputs : List ByteString}
    (h : ∀ t ∈ pendingInputs, (find (parseTensorName t).1).isSome = true)
    (feeds : List ByteString) :
    pendingFeeds find pendingInputs feeds = .ok (unseen pendingInputs feeds) := by
  have hnone : (pendingInputs.find? fun feed ↦ (find (parseTensorName feed).1).isNone) = none :=
    find?_eq_none.2 fun t ht ↦ by
      rw [Bool.not_eq_true, Option.isNone_eq_false_iff]
      exact h t ht
  rw [pendingFeeds, hnone]

/-- What the search finds from the nodes of the fetches. -/
theorem fetchReaches_iff {nodes : List ℕ}
    (hnodes : ∀ id, id ∈ nodes ↔ ∃ fetch ∈ c.fetches, c.find g (parseTensorName fetch).1 =
      some id) :
    c.FetchReaches g (fun _ ↦ False) c.LookedFor ↔ ∃ u ∈ nodes, ∃ v,
      ReflTransGen (StackSearch.Step g.inEdges Edge.src) u v ∧
        ∃ e ∈ g.inEdges v, decide (endpoint g e ∈ unseen c.pendingInputs c.feeds) = true := by
  simp only [Call.FetchReaches, Reaches, backward_iff, hnodes, Graph.inEdges, mem_filter,
    decide_eq_true_iff, and_assoc]
  constructor
  · rintro ⟨fetch, hfetch, id, hid, v, hpath, e, he⟩
    exact ⟨id, ⟨fetch, hfetch, hid⟩, v, hpath, e, he⟩
  · rintro ⟨id, ⟨fetch, hfetch, hid⟩, v, hpath, e, he⟩
    exact ⟨fetch, hfetch, id, hid, v, hpath, e, he⟩

/-- The check ends, and it accepts exactly if no endpoint that it looks for can be reached at
all. -/
theorem checkFetch_spec (h : c.Resolves g) :
    ∃ s, checkFetch g (c.find g) c.pendingInputs c.feeds c.fetches = some s ∧
      (s = .ok ↔ ¬ c.FetchReaches g (fun _ ↦ False) c.LookedFor) := by
  have hresolves : ∀ t ∈ c.pendingInputs, (c.find g (parseTensorName t).1).isSome = true :=
    fun t ht ↦
    h t (mem_append_left _ (mem_of_mem_filter ht))
  have hpending := pendingFeeds_eq_ok hresolves c.feeds
  obtain ⟨nodes, hnodes, hlength, hmem⟩ :=
    fetchNodes_eq_ok (fun t ht ↦ h t (mem_append_right c.inputNames ht)) []
  have hnext : ∀ v, ∀ e ∈ g.inEdges v, e.src ∈ (g.edges.map Edge.src).toFinset := fun v e he ↦
    mem_toFinset.2 (mem_map_of_mem (mem_of_mem_filter he))
  have hcard : (g.edges.map Edge.src).toFinset.card ≤ g.edges.length := by
    simpa using toFinset_card_le (g.edges.map Edge.src)
  have hfuel : nodes.length + (g.edges.map Edge.src).toFinset.card ≤ searchFuel g c.fetches := by
    rw [length_nil] at hlength
    rw [searchFuel]
    omega
  obtain ⟨r, hr, hanswer⟩ := StackSearch.search_spec
    (fun e ↦ decide (endpoint g e ∈ unseen c.pendingInputs c.feeds)) hnext hfuel
  have hok := hanswer.eq_ok_iff
  rw [← fetchReaches_iff (c := c) (by simpa using hmem)] at hok
  refine ⟨searchStatus g r, ?_, ?_⟩
  · rw [checkFetch, hpending, hnodes]
    exact congrArg (Option.map (searchStatus g)) hr
  · rw [← hok]
    cases r with
    | ok => exact iff_of_true rfl rfl
    | error e => exact iff_of_false (invalidArgument_ne_ok _) nofun

/-- A pending endpoint that is needed is one that the search comes to. -/
theorem lookedFor_of_pending {id : TensorId} (h : c.Pending id) : c.LookedFor id := by
  obtain ⟨hinput, hfed⟩ := h
  obtain ⟨t, ht, rfl⟩ := mem_map.1 hinput
  rw [Call.Fed, map_append, mem_append, not_or] at hfed
  refine mem_filter.2 ⟨mem_map_of_mem (mem_filter.2 ⟨ht, ?_⟩), by simpa using hfed.2⟩
  exact decide_eq_true fun hmem ↦ hfed.1 (mem_map_of_mem hmem)

theorem fetchReaches_of_pending (h : c.FetchReaches g (fun e ↦ c.Fed (endpoint g e)) c.Pending) :
    c.FetchReaches g (fun _ ↦ False) c.LookedFor := by
  obtain ⟨fetch, hfetch, id, hid, v, hpath, e, he, hdst, hpending⟩ := h
  refine ⟨fetch, hfetch, id, hid, v, ?_, e, he, hdst, lookedFor_of_pending hpending⟩
  exact ReflTransGen.mono (fun _ _ ⟨e, he, hdst, hsrc, _⟩ ↦ ⟨e, he, hdst, hsrc, not_false⟩)
    _ _ hpath

/-- **When the check is exact**: if the search can come to an endpoint that it looks for at all,
then a pending endpoint is needed, past none that has been fed. -/
theorem checkFetchIsExact_iff (g : Graph α) (c : Call) (h : c.Resolves g) :
    c.CheckFetchIsExact g ↔
      (c.FetchReaches g (fun _ ↦ False) c.LookedFor →
        c.FetchReaches g (fun e ↦ c.Fed (endpoint g e)) c.Pending) := by
  obtain ⟨s, hs, hok⟩ := checkFetch_spec h
  constructor
  · rintro ⟨s', hs', hexact⟩ hreaches
    obtain rfl := Option.some.inj (hs.symm.trans hs')
    by_contra hnot
    exact hok.1 (hexact.2 hnot) hreaches
  · exact fun hcond ↦ ⟨s, hs, hok.trans (not_congr ⟨hcond, fetchReaches_of_pending⟩)⟩

/-! ### A chain of three nodes -/

/-- A graph in which `b` has its input from `a`, and `c` from `b`. -/
def chain : Graph Unit where
  nodes := [some (Graph.endpoint (ascii "_SOURCE")), some (Graph.endpoint (ascii "_SINK")),
    some ⟨⟨ascii "a", ascii "Placeholder", [], [], ()⟩, {}, [], [1], []⟩,
    some ⟨⟨ascii "b", ascii "Neg", [ascii "a"], [], ()⟩, {}, [1], [1], []⟩,
    some ⟨⟨ascii "c", ascii "Neg", [ascii "b"], [], ()⟩, {}, [1], [1], []⟩]
  edges := [⟨0, -1, 1, -1⟩, ⟨0, -1, 2, -1⟩, ⟨2, 0, 3, 0⟩, ⟨3, 0, 4, 0⟩, ⟨4, -1, 1, -1⟩]
  versions := ⟨15, 0, []⟩

/-- With both `a` and `b` set up as feeds, one is fed and `c` is fetched. -/
def fetchAfter (feed : ByteString) : Call where
  inputNames := [ascii "a:0", ascii "b:0"]
  outputNames := [ascii "c:0"]
  fed := []
  feeds := [feed]
  fetches := [ascii "c:0"]

theorem resolves_fetchAfter (feed : ByteString) : (fetchAfter feed).Resolves chain := by
  have hnames : ∀ t ∈ [ascii "a:0", ascii "b:0", ascii "c:0"],
      (nameToNode chain [ascii "a:0", ascii "b:0", ascii "c:0"] (parseTensorName t).1).isSome =
      true := by
    decide
  exact hnames

/-- With `a` alone, `c` needs `b`, and the check says so. -/
theorem checkFetchIsExact_of_pending : (fetchAfter (ascii "a:0")).CheckFetchIsExact chain :=
  (checkFetchIsExact_iff chain _ (resolves_fetchAfter _)).2 fun _ ↦
    ⟨ascii "c:0", by decide, 4, by decide, 4, .refl, ⟨3, 0, 4, 0⟩, by decide, rfl, by decide, by
      simp only [Call.Fed]
      decide⟩

/-- With `b` alone, `c` can be computed, and the check refuses it for the sake of `a`. -/
theorem not_checkFetchIsExact_of_fed : ¬ (fetchAfter (ascii "b:0")).CheckFetchIsExact chain := by
  rintro ⟨s, hs, hexact⟩
  have herror : s ≠ .ok := by
    rintro rfl
    revert hs
    decide
  refine herror (hexact.2 ?_)
  -- the only edge into `c` comes from `b`, which has been fed
  have hin : ∀ e ∈ chain.edges, e.dst = 4 → (fetchAfter (ascii "b:0")).Fed (endpoint chain e) := by
    simp only [Call.Fed]
    decide
  rintro ⟨fetch, hfetch, id, hid, v, hpath, e, he, hdst, -, hpending⟩
  obtain rfl := mem_singleton.1 hfetch
  obtain rfl : 4 = id := Option.some.inj hid
  rcases ReflTransGen.cases_head hpath with rfl | ⟨a, ⟨e', he', hdst', -, hcut⟩, -⟩
  · exact hpending (hin e he hdst)
  · exact hcut (hin e' he' hdst')

end TensorFlowCore.PartialRun
