import Mathlib.Data.List.Induction
import Mathlib.Data.List.Sort
import TensorFlowCore.Core.Status
import TensorFlowCore.Support.DoublyLinked
import TensorFlowCore.Support.GuardedRun
import TensorFlowCore.Support.KeyedList

/-!
# `DirectSession::GetOrCreateExecutors`

The cache of executors of `tensorflow/core/common_runtime/direct_session.cc`, with any number of
threads that call `GetOrCreateExecutors`. A call computes its key, looks it up in one critical
section, creates the executors while the lock is free, and emplaces them in another critical
section. What the executors are is left open: they are identified with the lists that they were
created from.
-/

namespace TensorFlowCore

open List

namespace DirectSession

/-- The arguments of `GetOrCreateExecutors`. -/
structure Request where
  inputs : List ByteString
  outputs : List ByteString
  targetNodes : List ByteString
  isPartialRun : Bool
  deriving DecidableEq

/-- What the executors were created from: the `BuildGraphOptions`, and whether there is a graph for
partial runs. -/
structure ExecutorsAndKeys where
  feedEndpoints : List ByteString
  fetchEndpoints : List ByteString
  targetNodes : List ByteString
  isPartialRun : Bool
  deriving DecidableEq

/-- `std::sort`. -/
def sorted (names : List ByteString) : List ByteString := names.insertionSort (· ≤ ·)

/-- `str_util::Join` with a comma, which is byte 44. -/
def join (names : List ByteString) : ByteString := [44].intercalate names

namespace Request

/-- The key of the cache. The bytes are `-`, `>` and twice `/`. -/
def key (r : Request) : ByteString :=
  join (sorted r.inputs) ++ 45 :: 62 ::
    (join (sorted r.outputs) ++ 47 :: (join (sorted r.targetNodes) ++
    47 :: decimal r.isPartialRun.toNat))

/-- The handle of a run, which `;` separates from the key. -/
def handle (r : Request) (counter : ℕ) : ByteString := r.key ++ 59 :: decimal counter

/-- The executors that are created for a request. -/
def create (r : Request) : ExecutorsAndKeys where
  feedEndpoints := sorted r.inputs
  fetchEndpoints := sorted r.outputs
  targetNodes := sorted r.targetNodes
  isPartialRun := r.isPartialRun

end Request

/-- Where a thread is in its call. -/
inductive Call where
  | idle
  | finding (request : Request)
  | creating (request : Request)
  | emplacing (request : Request)
  deriving DecidableEq

/-- What a thread does. -/
inductive Action (C : Type) where
  | getOrCreateExecutors (c : C) (request : Request) (handle : ByteString)
  /-- The first critical section, after which the call returns if it finds executors. -/
  | find (c : C) (request : Request) (found : Option ExecutorsAndKeys)
  /-- The creation of the executors, which may fail. -/
  | create (c : C) (succeeded : Bool)
  /-- The second critical section, after which the call returns. -/
  | emplace (c : C) (request : Request) (executorsAndKeys : ExecutorsAndKeys)

/-- The request of a call that returns OK, with the executors. -/
def Action.returns? {C : Type} : Action C → Option (Request × ExecutorsAndKeys)
  | .find _ request (some executorsAndKeys) => some (request, executorsAndKeys)
  | .emplace _ request executorsAndKeys => some (request, executorsAndKeys)
  | _ => none

end DirectSession

open DirectSession in
/-- The part of a session that the calls share, and the threads. -/
structure DirectSession (C : Type) where
  executors : List (ByteString × ExecutorsAndKeys)
  handleNameCounter : ℕ
  call : C → Call

namespace DirectSession

variable {C : Type} [DecidableEq C]

def init : DirectSession C := ⟨[], 0, fun _ ↦ .idle⟩

def setCall (s : DirectSession C) (c : C) (call : Call) : DirectSession C :=
  { s with call := Function.update s.call c call }

/-- One step of a thread. -/
def step (s : DirectSession C) : Action C → Option (DirectSession C)
  | .getOrCreateExecutors c request handle =>
    if s.call c = .idle ∧ handle = request.handle s.handleNameCounter then
      some ({ s with handleNameCounter := s.handleNameCounter + 1 }.setCall c (.finding request))
    else none
  | .find c request found =>
    if s.call c = .finding request ∧ found = KeyedList.get? request.key s.executors then
      some (s.setCall c (if found.isSome then .idle else .creating request))
    else none
  | .create c succeeded =>
    match s.call c with
    | .creating request => some (s.setCall c (if succeeded then .emplacing request else .idle))
    | _ => none
  | .emplace c request executorsAndKeys =>
    if s.call c = .emplacing request then
      -- the executors of another thread that was faster stay
      match KeyedList.get? request.key s.executors with
      | some e => if executorsAndKeys = e then some (s.setCall c .idle) else none
      | none =>
        if executorsAndKeys = request.create then
          some ({ s with executors := KeyedList.set request.key request.create s.executors }.setCall
            c .idle)
        else none
    else none

end DirectSession

end TensorFlowCore

/-!
## Which executors a call returns

The key of a request determines its feeds and whether it is a partial run, but not where its fetches
end: names have slashes too, and a slash separates the fetches from the targets (`key_eq_iff`). The
calls of a run return executors for what they requested if and only if no two of their requests
differ by where that slash is (`createdFor_iff`).
-/

namespace TensorFlowCore.DirectSession

open GuardedRun KeyedList List

/-! ### Names -/

/-- A letter, a digit, or one of `_`, `.`, `-` and `/`. -/
def isNameByte (b : UInt8) : Bool :=
  (65 ≤ b && b ≤ 90) || (97 ≤ b && b ≤ 122) || (48 ≤ b && b ≤ 57) || b = 95 || b = 46 || b =
    45 || b = 47

/-- The name of a node, or of a tensor: a colon, which is byte 58, separates the index. -/
def IsLegalName (name : ByteString) : Prop :=
  ∃ node index : ByteString, node ≠ [] ∧ (∀ b ∈ node, isNameByte b) ∧
    (∀ b ∈ index, 48 ≤ b ∧ b ≤ 57) ∧
    (name = node ∨ name = node ++ 58 :: index)

/-- All names of the request are legal. -/
def Request.IsLegal (r : Request) : Prop :=
  ∀ name ∈ r.inputs ++ r.outputs ++ r.targetNodes, IsLegalName name

/-- Commas and `>` do not occur in names. -/
theorem IsLegalName.notMem {name : ByteString} (h : IsLegalName name) :
    (44 : UInt8) ∉ name ∧ (62 : UInt8) ∉ name := by
  obtain ⟨node, index, -, hnode, hindex, rfl | rfl⟩ := h
  · exact ⟨fun hmem ↦ absurd (hnode 44 hmem) (by decide), fun hmem ↦ absurd (hnode 62 hmem)
      (by decide)⟩
  · rw [mem_append, mem_append, mem_cons, mem_cons]
    refine ⟨?_, ?_⟩
    · rintro (hmem | heq | hmem)
      · exact absurd (hnode 44 hmem) (by decide)
      · exact absurd heq (by decide)
      · exact absurd (hindex 44 hmem) (by decide)
    · rintro (hmem | heq | hmem)
      · exact absurd (hnode 62 hmem) (by decide)
      · exact absurd heq (by decide)
      · exact absurd (hindex 62 hmem) (by decide)

theorem IsLegalName.ne_nil {name : ByteString} (h : IsLegalName name) : name ≠ [] := by
  obtain ⟨node, index, hne, -, -, rfl | rfl⟩ := h
  · exact hne
  · exact append_ne_nil_of_left_ne_nil hne _

/-! ### Joined names -/

variable {names names' : List ByteString} {b : UInt8}

theorem mem_join (h : b ∈ join names) : b = 44 ∨ ∃ name ∈ names, b ∈ name := by
  induction names with
  | nil => cases h
  | cons name names ih =>
    cases names with
    | nil =>
      rw [join, intercalate_singleton] at h
      exact .inr ⟨name, mem_cons_self, h⟩
    | cons name' names =>
      rw [join, intercalate_cons_cons, mem_append, mem_append] at h
      obtain (h | h) | h := h
      · exact .inr ⟨name, mem_cons_self, h⟩
      · exact .inl (mem_singleton.1 h)
      · exact (ih h).imp_right fun ⟨n, hn, hb⟩ ↦ ⟨n, mem_cons_of_mem name hn, hb⟩

theorem join_eq_nil (h : ∀ name ∈ names, name ≠ []) (hjoin : join names = []) : names = [] := by
  cases names with
  | nil => rfl
  | cons name names =>
    have hne := h name mem_cons_self
    cases names with
    | nil =>
      rw [join, intercalate_singleton] at hjoin
      exact (hne hjoin).elim
    | cons name' names =>
      rw [join, intercalate_cons_cons, append_assoc] at hjoin
      exact (append_ne_nil_of_left_ne_nil hne _ hjoin).elim

/-- The names can be read back. -/
theorem join_injective (h : ∀ name ∈ names, IsLegalName name)
    (h' : ∀ name ∈ names', IsLegalName name) (hjoin : join names = join names') :
    names = names' := by
  obtain rfl | hne := eq_or_ne names []
  · exact (join_eq_nil (fun name hn ↦ (h' name hn).ne_nil) hjoin.symm).symm
  obtain rfl | hne' := eq_or_ne names' []
  · exact join_eq_nil (fun name hn ↦ (h name hn).ne_nil) hjoin
  have hsplit := splitOn_intercalate 44 (fun name hn ↦ (h name hn).notMem.1) hne
  have hsplit' := splitOn_intercalate 44 (fun name hn ↦ (h' name hn).notMem.1) hne'
  exact hsplit.symm.trans ((congrArg (splitOn 44) hjoin).trans hsplit')

theorem sorted_eq_iff : sorted names = sorted names' ↔ names.Perm names' := by
  refine ⟨fun h ↦ ?_, fun h ↦ ?_⟩
  · exact ((perm_insertionSort _ names).symm.trans (.of_eq h)).trans (perm_insertionSort _ names')
  · refine Perm.eq_of_pairwise' (pairwise_insertionSort _ names)
      (pairwise_insertionSort _ names') ?_
    exact (perm_insertionSort _ names).trans (h.trans (perm_insertionSort _ names').symm)

theorem forall_mem_sorted {P : ByteString → Prop} :
    (∀ name ∈ sorted names, P name) ↔ ∀ name ∈ names, P name :=
  forall_congr' fun _ ↦ imp_congr_left (mem_insertionSort _)

/-! ### The key -/

variable {r r' : Request}

/-- The two requests have the same names. -/
structure Request.Same (r r' : Request) : Prop where
  inputs : r.inputs.Perm r'.inputs
  outputs : r.outputs.Perm r'.outputs
  targetNodes : r.targetNodes.Perm r'.targetNodes
  isPartialRun : r.isPartialRun = r'.isPartialRun

/-- The fetches of the second request end at a later slash, which is in the targets of the first
one. -/
structure Request.Shifted (r r' : Request) : Prop where
  inputs : r.inputs.Perm r'.inputs
  isPartialRun : r.isPartialRun = r'.isPartialRun
  slash : ∃ between, join (sorted r'.outputs) = join (sorted r.outputs) ++ 47 :: between ∧
    join (sorted r.targetNodes) = between ++ 47 :: join (sorted r'.targetNodes)

theorem Request.IsLegal.inputs (h : r.IsLegal) : ∀ name ∈ sorted r.inputs, IsLegalName name :=
  forall_mem_sorted.2 fun name hn ↦ h name (mem_append_left _ (mem_append_left _ hn))

theorem Request.IsLegal.outputs (h : r.IsLegal) : ∀ name ∈ sorted r.outputs, IsLegalName name :=
  forall_mem_sorted.2 fun name hn ↦ h name (mem_append_left _ (mem_append_right _ hn))

theorem Request.IsLegal.targetNodes (h : r.IsLegal) :
    ∀ name ∈ sorted r.targetNodes, IsLegalName name :=
  forall_mem_sorted.2 fun name hn ↦ h name (mem_append_right _ hn)

/-- The feeds, and the rest of the key. -/
theorem key_eq_iff_of_inputs (h : r.IsLegal) (h' : r'.IsLegal) : r.key = r'.key ↔
    r.inputs.Perm r'.inputs ∧ r.isPartialRun = r'.isPartialRun ∧
      join (sorted r.outputs) ++ 47 :: join (sorted r.targetNodes) =
        join (sorted r'.outputs) ++ 47 :: join (sorted r'.targetNodes) := by
  have hnot : ∀ {r : Request}, r.IsLegal → (62 : UInt8) ∉ join (sorted r.inputs) ++ [45] := by
    intro r hr hmem
    obtain hmem | hmem := mem_append.1 hmem
    · obtain heq | ⟨name, hname, hb⟩ := mem_join hmem
      · exact absurd heq (by decide)
      · exact (hr.inputs name hname).notMem.2 hb
    · exact absurd (mem_singleton.1 hmem) (by decide)
  have hkey : ∀ r : Request, r.key = (join (sorted r.inputs) ++ [45]) ++ 62 ::
      ((join (sorted r.outputs) ++ 47 :: join (sorted r.targetNodes)) ++ 47 ::
      decimal r.isPartialRun.toNat) := by
    intro r
    rw [Request.key, append_assoc, append_assoc]
    rfl
  rw [hkey r, hkey r']
  constructor
  · intro heq
    obtain ⟨k, hk, -⟩ | ⟨hinputs, -, hrest⟩ | ⟨k, -, hk⟩ :=
      DoublyLinked.append_cons_eq_append_cons heq
    · exact (hnot h (hk ▸ mem_append_right _ mem_cons_self)).elim
    · -- the last byte is the digit
      have hlength : ∀ x : Bool, (decimal x.toNat).length = 1 := by decide
      obtain ⟨hnames, hpartial⟩ :=
        append_inj' hrest (by rw [length_cons, length_cons, hlength, hlength])
      have hdigit : ∀ x y : Bool, decimal x.toNat = decimal y.toNat → x = y := by decide
      refine ⟨sorted_eq_iff.1 (join_injective h.inputs h'.inputs ?_),
        hdigit _ _ (cons.inj hpartial).2, hnames⟩
      exact append_cancel_right hinputs
    · exact (hnot h' (hk ▸ mem_append_right _ mem_cons_self)).elim
  · rintro ⟨hinputs, hpartial, hnames⟩
    rw [sorted_eq_iff.2 hinputs, hpartial, hnames]

/-- The key determines the request, up to the slash that separates the fetches from the targets. -/
theorem key_eq_iff (h : r.IsLegal) (h' : r'.IsLegal) :
    r.key = r'.key ↔ r.Same r' ∨ r.Shifted r' ∨ r'.Shifted r := by
  rw [key_eq_iff_of_inputs h h']
  constructor
  · rintro ⟨hinputs, hpartial, hnames⟩
    obtain ⟨k, hk, hk'⟩ | ⟨houtputs, -, htargets⟩ | ⟨k, hk', hk⟩ :=
      DoublyLinked.append_cons_eq_append_cons hnames
    · exact .inr (.inr ⟨hinputs.symm, hpartial.symm, k, hk, hk'⟩)
    · refine .inl ⟨hinputs, sorted_eq_iff.1 (join_injective h.outputs h'.outputs houtputs), ?_,
        hpartial⟩
      exact sorted_eq_iff.1 (join_injective h.targetNodes h'.targetNodes htargets)
    · exact .inr (.inl ⟨hinputs, hpartial, k, hk, hk'⟩)
  · rintro (hsame | ⟨hinputs, hpartial, k, hk, hk'⟩ | ⟨hinputs, hpartial, k, hk, hk'⟩)
    · rw [sorted_eq_iff.2 hsame.outputs, sorted_eq_iff.2 hsame.targetNodes]
      exact ⟨hsame.inputs, hsame.isPartialRun, rfl⟩
    · refine ⟨hinputs, hpartial, ?_⟩
      rw [hk, hk', append_assoc]
      rfl
    · refine ⟨hinputs.symm, hpartial.symm, ?_⟩
      rw [hk, hk', append_assoc]
      rfl

theorem Request.Shifted.not_same (h : r.Shifted r') : ¬ r.outputs.Perm r'.outputs := by
  intro hperm
  obtain ⟨k, hk, -⟩ := h.slash
  rw [sorted_eq_iff.2 hperm] at hk
  have hlength := congrArg length hk
  rw [length_append, length_cons] at hlength
  omega

/-! ### Runs -/

variable {C : Type} [DecidableEq C] {s s' : DirectSession C} {a : Action C} {as : List (Action C)}
  {e : ExecutorsAndKeys}

/-- The executors were created for the names of the request. -/
structure ExecutorsAndKeys.CreatedFor (e : ExecutorsAndKeys) (r : Request) : Prop where
  feeds : e.feedEndpoints.Perm r.inputs
  fetches : e.fetchEndpoints.Perm r.outputs
  targets : e.targetNodes.Perm r.targetNodes
  isPartialRun : e.isPartialRun = r.isPartialRun

theorem create_createdFor_iff : r.create.CreatedFor r' ↔ r.Same r' := by
  have hperm : ∀ names, (sorted names).Perm names := perm_insertionSort _
  constructor
  · intro h
    exact ⟨(hperm _).symm.trans h.feeds, (hperm _).symm.trans h.fetches,
      (hperm _).symm.trans h.targets, h.isPartialRun⟩
  · intro h
    exact ⟨(hperm _).trans h.inputs, (hperm _).trans h.outputs, (hperm _).trans h.targetNodes,
      h.isPartialRun⟩

/-- The entries of the cache are what calls have returned, and they stay. -/
structure Inv (as : List (Action C)) (s : DirectSession C) : Prop where
  entries : ∀ key e, get? key s.executors = some e →
    ∃ r, r.key = key ∧ e = r.create ∧ (r, e) ∈ as.filterMap Action.returns?
  returned : ∀ r e, (r, e) ∈ as.filterMap Action.returns? → get? r.key s.executors = some e

omit [DecidableEq C] in
/-- A step that does not change the cache, and that returns what is there. -/
theorem Inv.append (h : Inv as s) (hs : s'.executors = s.executors)
    (ha : ∀ r e, a.returns? = some (r, e) → get? r.key s.executors = some e) :
      Inv (as ++ [a]) s' := by
  refine ⟨fun key e he ↦ ?_, fun r e hmem ↦ ?_⟩
  · obtain ⟨r, hkey, hcreate, hmem⟩ := h.entries key e (hs ▸ he)
    refine ⟨r, hkey, hcreate, ?_⟩
    rw [filterMap_append]
    exact mem_append_left _ hmem
  · rw [hs]
    rw [filterMap_append, mem_append] at hmem
    obtain hmem | hmem := hmem
    · exact h.returned r e hmem
    · obtain ⟨b, hb, hret⟩ := mem_filterMap.1 hmem
      obtain rfl := mem_singleton.1 hb
      exact ha r e hret

/-- A call creates its executors for its own request, so the cache stays what was emplaced first. -/
theorem Inv.step (h : Inv as s) (hs : s.step a = some s') : Inv (as ++ [a]) s' := by
  cases a with
  | getOrCreateExecutors c request handle =>
    obtain ⟨-, hs⟩ := Option.ite_none_right_eq_some.1 hs
    cases hs
    exact h.append rfl nofun
  | find c request found =>
    obtain ⟨⟨-, hfound⟩, hs⟩ := Option.ite_none_right_eq_some.1 hs
    cases hs
    refine h.append rfl fun r e hret ↦ ?_
    cases found with
    | none => cases hret
    | some e' =>
      cases hret
      exact hfound.symm
  | create c succeeded =>
    rw [DirectSession.step] at hs
    split at hs
    · cases hs
      exact h.append rfl nofun
    · cases hs
  | emplace c request executorsAndKeys =>
    obtain ⟨-, hs⟩ := Option.ite_none_right_eq_some.1 hs
    split at hs
    · rename_i e he
      obtain ⟨heq, hs'⟩ := Option.ite_none_right_eq_some.1 hs
      cases hs'
      refine h.append rfl fun r e' hret ↦ ?_
      cases hret
      exact he.trans (congrArg some heq.symm)
    · rename_i hnone
      obtain ⟨heq, hs'⟩ := Option.ite_none_right_eq_some.1 hs
      cases hs'
      have hmem : ∀ {r e}, (r, e) ∈ (as ++ [Action.emplace c request executorsAndKeys]).filterMap
        Action.returns? ↔
          (r, e) ∈ as.filterMap Action.returns? ∨ (r, e) = (request, executorsAndKeys) := by
        intro r e
        rw [filterMap_append, mem_append]
        exact or_congr_right mem_singleton
      refine ⟨fun key e he ↦ ?_, fun r e hret ↦ ?_⟩
      · have hget : get? key (set request.key request.create s.executors) = some e := he
        rw [get?_set] at hget
        split at hget
        · rename_i hkey
          cases hget
          exact ⟨request, hkey.symm, rfl, hmem.2 (.inr (congrArg _ heq.symm))⟩
        · obtain ⟨r, hkey, hcreate, hold⟩ := h.entries key e hget
          exact ⟨r, hkey, hcreate, hmem.2 (.inl hold)⟩
      · show get? r.key (set request.key request.create s.executors) = some e
        obtain hold | hnew := hmem.1 hret
        · have hne : r.key ≠ request.key := by
            intro hkey
            cases hnone.symm.trans (hkey ▸ h.returned r e hold)
          exact (get?_set_of_ne hne).trans (h.returned r e hold)
        · cases hnew
          exact get?_set_self.trans (congrArg some heq.symm)

theorem inv_of_run (hrun : run DirectSession.step init as = some s) : Inv as s := by
  induction as using reverseRecOn generalizing s with
  | nil =>
    cases hrun
    exact ⟨nofun, fun _ _ hmem ↦ (not_mem_nil hmem).elim⟩
  | append_singleton as a ih =>
    obtain ⟨u, hu, hlast⟩ := run_append_eq_some.1 hrun
    obtain ⟨v, hv, hend⟩ := run_cons_eq_some.1 hlast
    cases hend
    exact (ih hu).step hv

/-- **The calls of a run return executors for what they requested** if and only if no two of their
requests differ by the slash that separates the fetches from the targets. -/
theorem createdFor_iff (as : List (Action C)) (s : DirectSession C)
    (hrun : run DirectSession.step init as = some s)
    (hlegal : ∀ r e, (r, e) ∈ as.filterMap Action.returns? → r.IsLegal) :
    (∀ r e, (r, e) ∈ as.filterMap Action.returns? → e.CreatedFor r) ↔
      ∀ r e r' e', (r, e) ∈ as.filterMap Action.returns? → (r', e') ∈ as.filterMap Action.returns? →
        ¬ r.Shifted r' := by
  have hinv := inv_of_run hrun
  constructor
  · intro hcreated r e r' e' hmem hmem' hshifted
    have hkey : r.key = r'.key :=
      (key_eq_iff (hlegal r e hmem) (hlegal r' e' hmem')).2 (.inr (.inl hshifted))
    obtain rfl : e = e' :=
      Option.some.inj ((hinv.returned r e hmem).symm.trans (hkey ▸ hinv.returned r' e' hmem'))
    exact hshifted.not_same ((hcreated r e hmem).fetches.symm.trans (hcreated r' e hmem').fetches)
  · intro hshifted r e hmem
    obtain ⟨r', hkey, rfl, hmem'⟩ := hinv.entries r.key e (hinv.returned r e hmem)
    refine create_createdFor_iff.2 ?_
    obtain hsame | h | h := (key_eq_iff (hlegal r' _ hmem') (hlegal r _ hmem)).1 hkey
    · exact hsame
    · exact (hshifted r' _ r _ hmem' hmem h).elim
    · exact (hshifted r _ r' _ hmem hmem' h).elim

/-- The fetch `a` with the target `b/c`. -/
def fetchA : Request := ⟨[], [ascii "a"], [ascii "b/c"], false⟩

/-- The fetch `a/b` with the target `c`. -/
def fetchAB : Request := ⟨[], [ascii "a/b"], [ascii "c"], false⟩

/-- One thread runs `fetchA`, then `fetchAB`. -/
def slashRun : List (Action Unit) :=
  [.getOrCreateExecutors () fetchA (fetchA.handle 0), .find () fetchA none, .create () true,
    .emplace () fetchA fetchA.create, .getOrCreateExecutors () fetchAB (fetchAB.handle 1),
    .find () fetchAB (some fetchA.create)]

theorem isLegal_slashRun (r : Request) (e : ExecutorsAndKeys)
    (h : (r, e) ∈ slashRun.filterMap Action.returns?) : r.IsLegal := by
  have hname : ∀ s ∈ ["a", "b/c", "a/b", "c"], IsLegalName (ascii s) := by
    intro s hs
    refine ⟨ascii s, [], ?_, ?_, forall_mem_nil _, .inl rfl⟩
    · revert s
      decide +kernel
    · revert s
      decide +kernel
  have hr : r = fetchA ∨ r = fetchAB := by
    obtain heq | heq := mem_pair.1 h
    · exact .inl (congrArg Prod.fst heq)
    · exact .inr (congrArg Prod.fst heq)
  obtain rfl | rfl := hr
  · rintro name hmem
    obtain rfl | rfl := mem_pair.1 hmem
    · exact hname "a" (by decide)
    · exact hname "b/c" (by decide)
  · rintro name hmem
    obtain rfl | rfl := mem_pair.1 hmem
    · exact hname "a/b" (by decide)
    · exact hname "c" (by decide)

theorem createdFor_iff_slashRun :
    (∀ r e, (r, e) ∈ slashRun.filterMap Action.returns? → e.CreatedFor r) ↔
    ∀ r e r' e', (r, e) ∈ slashRun.filterMap Action.returns? →
    (r', e') ∈ slashRun.filterMap Action.returns? →
      ¬ r.Shifted r' :=
  createdFor_iff slashRun _ rfl isLegal_slashRun

/-- The second call runs the executors of the first one. -/
theorem not_createdFor_slashRun : ¬ ∀ (as : List (Action Unit)) (s : DirectSession Unit),
    run DirectSession.step init as = some s →
    (∀ r e, (r, e) ∈ as.filterMap Action.returns? → r.IsLegal) →
    ∀ r e, (r, e) ∈ as.filterMap Action.returns? → e.CreatedFor r := by
  intro h
  have hcreated :=
    h slashRun _ rfl isLegal_slashRun fetchAB fetchA.create (mem_cons_of_mem _ mem_cons_self)
  have hperm : [ascii "a"].Perm [ascii "a/b"] := (create_createdFor_iff.1 hcreated).outputs
  exact absurd hperm (by decide)

end TensorFlowCore.DirectSession
