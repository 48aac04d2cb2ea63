import TensorFlowCore.Util.ExampleParsing.Cutting
import TensorFlowCore.Util.ExampleParsing.OneExample
import TensorFlowCore.Support.KeyedList

/-!
# Parsing one example after another

`parseSequentially` says what `FastParseExample` is for: each example is parsed on its own, row `e`
of a dense tensor is that of example `e`, and a sparse tensor has the values of the examples in
their order. However the batch is cut, and whatever the threads do, the result is this one
(`fastParseExample_eq_parseSequentially`).
-/

namespace TensorFlowCore

open List

namespace ExampleParsing

open DataType ExceptPost

variable {M : Type} (env : Env M) (config : Config) (index : UInt64 × M)
    (serialized exampleNames : List ByteString)

/-- What example `e` alone gives. -/
def parseAlone (e : ℕ) : Except Fault Output :=
  parseExampleAt env config index serialized exampleNames {} e

/-- The values that an example gives to a dense tensor. -/
def Output.row (o : Output) (d : ℕ) : List Value := (o.writesTo d).map Prod.snd

/-- The values that an example gives to a sparse feature. -/
def Output.values (o : Output) (d : ℕ) : List Value := (o.buffers d).values

/-- A dense tensor, row by row. -/
def tensorOfRows (n : ℕ) (c : Dense) (rows : List (List Value)) : Tensor where
  dtype := c.dtype
  shape := n :: c.shape
  values := rows.flatten

/-- The examples, one after another. -/
def parseSequentially : Except Fault Result := do
  checkConfig config
  let index ← buildConfigIndex env config
  checkDenseShapes config serialized.length
  let outs ← (List.range serialized.length).mapM
    (parseAlone env config index serialized exampleNames)
  let sparse ← config.sparse.zipIdx.mapM fun c ↦ tensorsOfValues serialized.length c.1
    (outs.map (Output.values · c.2))
  let dense := config.dense.zipIdx.map fun c ↦ tensorOfRows serialized.length c.1
    (outs.map (Output.row · c.2))
  return Result.of dense sparse

/-- All examples parse. -/
def AllParse : Prop :=
  ∀ index, buildConfigIndex env config = .ok index →
    ∀ e < serialized.length, ∃ o, parseAlone env config index serialized exampleNames e = .ok o

/-! ## A minibatch -/

variable {env config index serialized exampleNames}

theorem parseAlone_complete (hdefaults : config.DefaultsMatch) {e : ℕ} {o : Output}
    (hok : parseAlone env config index serialized exampleNames e = .ok o) :
    o.Complete config e := by
  unfold parseAlone parseExampleAt at hok
  split at hok
  · exact complete_of_parse hdefaults hok
  · cases hok

theorem parseExampleAt_append {b : Output} (hb : ∀ d < config.sparse.length, (b.buffers d).Closed)
    (e : ℕ) :
    parseExampleAt env config index serialized exampleNames b e =
      (parseAlone env config index serialized exampleNames e).map b.append := by
  unfold parseAlone parseExampleAt
  split
  · exact fastParseSerializedExample_append hb _
  · rfl

/-- The outputs, one after another. -/
def Output.concat (outs : List Output) (b : Output) : Output := outs.foldl Output.append b

variable {o : ℕ → Output}

/-- The rounds of a minibatch append what the examples give alone. -/
theorem foldlM_parseExampleAt (hdefaults : config.DefaultsMatch) {es : List ℕ}
    (ho : ∀ e ∈ es, parseAlone env config index serialized exampleNames e = .ok (o e)) {b : Output}
    (hb : ∀ d < config.sparse.length, (b.buffers d).Closed) :
    es.foldlM (parseExampleAt env config index serialized exampleNames) b =
      .ok (Output.concat (es.map o) b) := by
  induction es generalizing b with
  | nil => rfl
  | cons e es ih =>
    obtain ⟨he, hes⟩ := forall_mem_cons.1 ho
    have hcomplete : (o e).Complete config e := parseAlone_complete hdefaults he
    rw [foldlM_cons, parseExampleAt_append hb, he]
    exact ih hes fun d hd ↦ SparseBuffer.Closed.append _ (hcomplete.sparse d hd)

theorem writes_concat (outs : List Output) (b : Output) :
    (Output.concat outs b).writes = b.writes ++ outs.flatMap Output.writes := by
  induction outs generalizing b with
  | nil => exact (append_nil _).symm
  | cons o outs ih =>
    show (Output.concat outs (b.append o)).writes = _
    rw [ih, flatMap_cons, ← append_assoc]
    rfl

theorem buffers_concat {outs : List Output} {d : ℕ} (h : ∀ o ∈ outs, ValuesWritten o d)
    (values : List (List Value)) {b : Output} (hb : b.buffers d = .ofValues values) :
    (Output.concat outs b).buffers d = .ofValues (values ++ outs.map (Output.values · d)) := by
  induction outs generalizing b values with
  | nil => rw [map_nil, append_nil, ← hb]; rfl
  | cons o outs ih =>
    obtain ⟨ho, houts⟩ := forall_mem_cons.1 h
    have happend : (b.append o).buffers d = .ofValues (values ++ [o.values d]) := by
      show (b.buffers d).append (o.buffers d) = _
      rw [hb, SparseBuffer.append, SparseBuffer.ofValues, SparseBuffer.ofValues, endsFrom_append,
        ho, flatten_append, flatten_singleton, Nat.zero_add]
      rfl
    show (Output.concat outs (b.append o)).buffers d = _
    rw [ih houts _ happend, append_assoc, map_cons, singleton_append]

/-- A minibatch of examples that parse. -/
theorem processMiniBatch_eq (hdefaults : config.DefaultsMatch) {k m : ℕ}
    (ho : ∀ e ∈ minibatchRange serialized.length k m,
      parseAlone env config index serialized exampleNames e = .ok (o e)) :
    processMiniBatch env config index serialized exampleNames k m =
      .ok (Output.concat ((minibatchRange serialized.length k m).map o) {}) :=
  foldlM_parseExampleAt hdefaults ho fun _ _ ↦ SparseBuffer.closed_empty

theorem processMiniBatches_eq {k : ℕ} {out : ℕ → Output}
    (h : ∀ m < k, processMiniBatch env config index serialized exampleNames k m = .ok (out m)) :
    processMiniBatches env config index serialized exampleNames k =
      .ok ((List.range k).map out) := by
  have hresults : (range k).map (processMiniBatch env config index serialized exampleNames k) =
      (range k).map fun m ↦ .ok (out m) :=
    map_congr_left fun m hm ↦ h m (mem_range.1 hm)
  have hcrash : ¬ ((range k).map fun m ↦ (Except.ok (out m) : Except Fault Output)).any
      isCrash := by
    rw [any_map, any_eq_true]
    rintro ⟨m, -, hm⟩
    cases hm
  unfold processMiniBatches
  rw [hresults, if_neg hcrash, mapM_map]
  exact mapM_eq_ok fun m _ ↦ rfl

/-! ## The dense tensors -/

section

variable {d e : ℕ} {c : Dense} (hc : config.dense[d]? = some c) (h : (o e).Complete config e)
include hc h

/-- Example `e` has its row of a dense tensor, and no other example writes there. -/
theorem mem_row_iff {i : ℕ} {v : Value} : ((d, i), v) ∈ (o e).writes ↔
      e * c.shape.prod ≤ i ∧ ((o e).row d)[i - e * c.shape.prod]? = some v := by
  obtain ⟨hd, -⟩ := List.getElem?_eq_some_iff.1 hc
  obtain ⟨c', row, hc', -, hwrites⟩ := h.dense d hd
  obtain rfl := Option.some.inj (hc.symm.trans hc')
  have hmem : ((d, i), v) ∈ (o e).writes ↔ ((d, i), v) ∈ (o e).writesTo d :=
    ⟨fun hw ↦ mem_filter.2 ⟨hw, decide_eq_true rfl⟩, fun hw ↦ (mem_filter.1 hw).1⟩
  have hrow : (o e).row d = row := by
    rw [Output.row, hwrites, copyRow, map_map]
    exact zipIdx_map_fst ..
  rw [hmem, hwrites, mem_copyRow, hrow]
  exact and_iff_right rfl

theorem length_row : ((o e).row d).length = c.shape.prod := by
  obtain ⟨hd, -⟩ := List.getElem?_eq_some_iff.1 hc
  obtain ⟨c', row, hc', hlength, hwrites⟩ := h.dense d hd
  obtain rfl := Option.some.inj (hc.symm.trans hc')
  rw [Output.row, hwrites, copyRow, length_map, length_map, length_zipIdx, hlength]

end

section
variable {n : ℕ} {writes : List Write} (hcomplete : ∀ e < n, (o e).Complete config e)
  (hwrites : ∀ w, w ∈ writes ↔ ∃ e < n, w ∈ (o e).writes)

include hcomplete hwrites

/-- No example writes outside of the buffers. -/
theorem all_inBounds : writes.all (Write.InBounds config n) = true := by
  rw [all_eq_true]
  rintro ⟨⟨d, i⟩, v⟩ hw
  obtain ⟨e, he, hw⟩ := (hwrites _).1 hw
  unfold Write.InBounds
  cases hc : config.dense[d]? with
  | none =>
    have hnowhere : (o e).writesTo d = [] :=
      (hcomplete e he).nowhereElse d (getElem?_eq_none_iff.1 hc)
    have hmem : ((d, i), v) ∈ (o e).writesTo d := mem_filter.2 ⟨hw, decide_eq_true rfl⟩
    rw [hnowhere] at hmem
    cases hmem
  | some c =>
    obtain ⟨hle, hget⟩ := (mem_row_iff hc (hcomplete e he)).1 hw
    obtain ⟨hlt, -⟩ := List.getElem?_eq_some_iff.1 hget
    rw [length_row hc (hcomplete e he)] at hlt
    have hrows : (e + 1) * c.shape.prod ≤ n * c.shape.prod := Nat.mul_le_mul_right _ he
    rw [Nat.add_one_mul] at hrows
    refine decide_eq_true ?_
    rw [prod_cons]
    show i < n * c.shape.prod
    omega

/-- When all has been written, each row is that of its example. -/
theorem map_writeAll_row {d e : ℕ} {c : Dense} (hc : config.dense[d]? = some c) (he : e < n)
    (mem : ℕ × ℕ → Value) :
    (List.range c.shape.prod).map (fun j ↦ writeAll mem writes (d, e * c.shape.prod + j)) =
      (o e).row d := by
  have hlength : ((o e).row d).length = c.shape.prod := length_row hc (hcomplete e he)
  refine ext_getElem (by rw [length_map, length_range, hlength]) fun j hj hj' ↦ ?_
  rw [getElem_map, getElem_range]
  rw [hlength] at hj'
  refine writeAll_eq
    ((hwrites _).2 ⟨e, he, (mem_row_iff hc (hcomplete e he)).2 ⟨Nat.le_add_right _ _, ?_⟩⟩) ?_
  · rw [Nat.add_sub_cancel_left]
    exact getElem?_eq_getElem _
  · rintro ⟨a, v⟩ hw (rfl : a = _)
    obtain ⟨e', he', hw⟩ := (hwrites _).1 hw
    obtain ⟨hle, hget⟩ := (mem_row_iff hc (hcomplete e' he')).1 hw
    obtain ⟨hlt, hget'⟩ := List.getElem?_eq_some_iff.1 hget
    rw [length_row hc (hcomplete e' he')] at hlt
    -- rows of different examples do not meet
    have heq : e' = e := by
      obtain hne | hne | hne := Nat.lt_trichotomy e' e
      · have hrows : (e' + 1) * c.shape.prod ≤ e * c.shape.prod := Nat.mul_le_mul_right _ hne
        rw [Nat.add_one_mul] at hrows
        omega
      · exact hne
      · have hrows : (e + 1) * c.shape.prod ≤ e' * c.shape.prod := Nat.mul_le_mul_right _ hne
        rw [Nat.add_one_mul] at hrows
        omega
    subst heq
    simp only [Nat.add_sub_cancel_left] at hget'
    exact hget'.symm

end

/-- A list of `n` rows of length `m`, row by row. -/
theorem map_range_mul {α : Type} (f : ℕ → α) (n m : ℕ) :
    (List.range (n * m)).map f =
      ((List.range n).map fun e ↦ (List.range m).map fun j ↦ f (e * m + j)).flatten := by
  induction n with
  | zero => rw [Nat.zero_mul]; rfl
  | succ n ih =>
    rw [Nat.add_one_mul, range_add, map_append, ih, range_succ, map_append, flatten_append,
      map_singleton, flatten_singleton, map_map]
    rfl

/-- A dense tensor is that of the rows. -/
theorem denseTensor_eq {n : ℕ} {writes : List Write} (hcomplete : ∀ e < n, (o e).Complete config e)
    (hwrites : ∀ w, w ∈ writes ↔ ∃ e < n, w ∈ (o e).writes) (mem : ℕ × ℕ → Value) {c : Dense × ℕ}
    (hc : c ∈ config.dense.zipIdx) :
    denseTensor n (writeAll mem writes) c =
      tensorOfRows n c.1 (((List.range n).map o).map (Output.row · c.2)) := by
  have hc : config.dense[c.2]? = some c.1 := mk_mem_zipIdx_iff_getElem?.1 hc
  refine congrArg (Tensor.mk c.1.dtype (n :: c.1.shape)) ?_
  rw [prod_cons, map_range_mul, map_map]
  refine congrArg flatten (map_congr_left fun e he ↦ ?_)
  exact map_writeAll_row hcomplete hwrites hc (mem_range.1 he) mem

/-! ## All minibatches -/

/-- What a minibatch leaves. -/
def minibatchOutput (o : ℕ → Output) (n k m : ℕ) : Output :=
  Output.concat ((minibatchRange n k m).map o) {}

/-- The writes of the minibatches are those of the examples. -/
theorem mem_interleave_iff {n k : ℕ} (hk : IsMinibatchCount n k) (x : Execution) (w : Write) :
    w ∈ x.interleave (((List.range k).map (minibatchOutput o n k)).map Output.writes) ↔
      ∃ e < n, w ∈ (o e).writes := by
  rw [(x.interleaving _).mem_iff, map_map]
  simp only [mem_map, mem_range, exists_exists_and_eq_and, Function.comp_apply, minibatchOutput,
    writes_concat, nil_append, mem_flatMap]
  constructor
  · rintro ⟨m, hm, e, he, hw⟩
    exact ⟨e, lt_of_mem_minibatchRange hk hm he, hw⟩
  · rintro ⟨e, he, hw⟩
    rw [← mem_range, ← flatten_minibatchRanges hk, mem_flatten] at he
    obtain ⟨r, hr, he⟩ := he
    obtain ⟨m, hm, rfl⟩ := mem_map.1 hr
    exact ⟨m, mem_range.1 hm, e, he, hw⟩

/-- The buffers of the minibatches give the values of the examples. -/
theorem mergeMinibatches_minibatchOutput {n k : ℕ} (hk : IsMinibatchCount n k) (x : Execution)
    (hcomplete : ∀ e < n, (o e).Complete config e) {c : Sparse × ℕ}
    (hc : c ∈ config.sparse.zipIdx) :
    mergeMinibatches x config n k (((List.range k).map (minibatchOutput o n k)).map
      Output.buffers) c =
      tensorsOfValues n c.1 (((List.range n).map o).map (Output.values · c.2)) := by
  have hlt : c.2 < config.sparse.length :=
    (List.getElem?_eq_some_iff.1 (List.mk_mem_zipIdx_iff_getElem?.1 hc)).1
  let group (m : ℕ) : List (List Value) := (minibatchRange n k m).map fun e ↦ (o e).values c.2
  have hbuffers : (((range k).map (minibatchOutput o n k)).map Output.buffers).map (fun b ↦ b c.2) =
      ((range k).map group).map SparseBuffer.ofValues := by
    rw [map_map, map_map, map_map]
    refine map_congr_left fun m hm ↦ (buffers_concat (fun o' ho' ↦ ?_) [] rfl).trans ?_
    · obtain ⟨e, he, rfl⟩ := mem_map.1 ho'
      exact (hcomplete e (lt_of_mem_minibatchRange hk (mem_range.1 hm) he)).sparse c.2 hlt
    · rw [nil_append, map_map]
      rfl
  have hgroups : ((range k).map group).flatten = ((range n).map o).map (Output.values · c.2) := by
    rw [map_map, ← flatten_minibatchRanges hk, map_flatten, map_map]
    rfl
  rw [mergeMinibatches_eq hbuffers, hgroups]
  · intro g hg
    obtain ⟨m, hm, rfl⟩ := mem_map.1 hg
    exact fun hnil ↦ minibatchRange_ne_nil hk (mem_range.1 hm) (map_eq_nil_iff.1 hnil)
  · intro j g hj
    rw [getElem?_map, Option.map_eq_some_iff] at hj
    obtain ⟨m, hm, rfl⟩ := hj
    obtain ⟨hlt, hget⟩ := List.getElem?_eq_some_iff.1 hm
    rw [getElem_range] at hget
    subst hget
    rw [length_map, length_minibatchRange]
    exact (Nat.add_sub_cancel' (firstExampleOfMinibatch_mono (Nat.le_succ j))).symm

/-- If the examples parse, it does not matter into how many minibatches they are cut, and what the
threads do. -/
theorem fastParseWith_eq (hdefaults : config.DefaultsMatch) {k : ℕ}
    (hk : IsMinibatchCount serialized.length k)
    (hparse : AllParse env config serialized exampleNames) (x : Execution) :
    fastParseWith env x config serialized exampleNames k = parseSequentially env config serialized
    exampleNames := by
  unfold fastParseWith parseSequentially
  cases checkConfig config with
  | error f => rfl
  | ok _ =>
  cases hindex : buildConfigIndex env config with
  | error f => rfl
  | ok index =>
  cases checkDenseShapes config serialized.length with
  | error f => rfl
  | ok _ =>
  have : Nonempty Output := ⟨{}⟩
  choose! o ho using hparse index hindex
  set n := serialized.length
  have hcomplete : ∀ e < n, (o e).Complete config e :=
    fun e he ↦ parseAlone_complete hdefaults (ho e he)
  have hout : ∀ m < k, processMiniBatch env config index serialized exampleNames k m =
      .ok (minibatchOutput o n k m) :=
    fun m hm ↦ processMiniBatch_eq hdefaults fun e he ↦ ho e (lt_of_mem_minibatchRange hk hm he)
  have halone : (range n).mapM (parseAlone env config index serialized exampleNames) =
      .ok ((range n).map o) :=
    mapM_eq_ok fun e he ↦ ho e (mem_range.1 he)
  simp only [ok_bind, processMiniBatches_eq hout, halone]
  rw [if_neg (not_not_intro (all_inBounds hcomplete (mem_interleave_iff hk x))),
    mapM_congr fun c hc ↦ mergeMinibatches_minibatchOutput hk x hcomplete hc]
  refine congrArg (mapM _ _ >>= ·) (funext fun sparse ↦ ?_)
  refine congrArg (fun dense ↦ Except.ok (Result.of dense sparse)) (map_congr_left fun c hc ↦ ?_)
  exact denseTensor_eq hcomplete (mem_interleave_iff hk x) _ hc

/-- `FastParseExample` is the sequential parser: its minibatches are non-empty and cover the
examples in their order, and neither their number nor the order in which they run is seen in the
result. -/
theorem fastParseExample_eq_parseSequentially (env : Env M) (config : Config)
    (serialized exampleNames : List ByteString) (hdefaults : config.DefaultsMatch)
    (hparse : AllParse env config serialized exampleNames) :
    IsMinibatchCount serialized.length (numMinibatches serialized) ∧
      (∀ k, IsMinibatchCount serialized.length k →
        (∀ m < k, minibatchRange serialized.length k m ≠ []) ∧
        ((List.range k).map (minibatchRange serialized.length k)).flatten =
          List.range serialized.length ∧
        ∀ x, fastParseWith env x config serialized exampleNames k =
          parseSequentially env config serialized exampleNames) ∧
      (∀ x, fastParseExample env x config serialized exampleNames =
        parseSequentially env config serialized exampleNames) ∧
      ∀ index e o, parseAlone env config index serialized exampleNames e = .ok o →
        ∀ d c, config.dense[d]? = some c → (o.row d).length = c.shape.prod :=
  have hcount : IsMinibatchCount serialized.length (numMinibatches serialized) :=
    isMinibatchCount_numMinibatches serialized
  ⟨hcount,
    fun _ hk ↦
      ⟨fun _ ↦ minibatchRange_ne_nil hk, flatten_minibatchRanges hk,
        fastParseWith_eq hdefaults hk hparse⟩,
    fastParseWith_eq hdefaults hcount hparse,
    fun _ _ o ho _ _ hc ↦ length_row (o := fun _ ↦ o) hc (parseAlone_complete hdefaults ho)⟩

/-- A serialized example with the feature `x`, a list of the `int64` 7. -/
def exampleX : ByteString := [10, 12, 10, 10, 10, 1, 120, 18, 5, 26, 3, 10, 1, 7]

/-- An environment for `exampleX` and for the empty example. -/
def envX : Env (List (UInt64 × (ℕ × Kind))) where
  parseExample s :=
    if s = exampleX then some [(ascii "x", [26, 3, 10, 1, 7])] else if s = [] then some [] else none
  parseList dtype s := if dtype = dtInt64 ∧ s = [3, 10, 1, 7] then some [.int64 7] else none
  newMap _ := []
  insertUnique m k v := if (KeyedList.get? k m).isSome then (false, m) else (true, (k, v) :: m)
  find m k := KeyedList.get? k m
  hasher seed s := hash64Seeded s seed

/-- The configuration of the sparse feature `x`, and of a dense feature with a default. -/
def configX : Config where
  dense := [⟨ascii "y", dtInt64, [], ⟨dtInt64, [], [.int64 5]⟩⟩]
  sparse := [⟨ascii "x", dtInt64⟩]

theorem allParse_configX : AllParse envX configX [exampleX, [], exampleX] [] := by
  intro index hindex e he
  have hseed : buildConfigIndex envX configX = .ok
      (0xDECAFCAFFE, [(hash64 (ascii "x"), (0, .sparse)), (hash64 (ascii "y"), (0, .dense))]) := by
        rfl
  obtain rfl := Except.ok.inj (hseed.symm.trans hindex)
  match e, he with
  | 0, _ => exact ⟨_, rfl⟩
  | 1, _ => exact ⟨_, rfl⟩
  | 2, _ => exact ⟨_, rfl⟩

theorem fastParseExample_configX :
    configX.DefaultsMatch ∧ AllParse envX configX [exampleX, [], exampleX] [] ∧
      IsMinibatchCount 3 (numMinibatches [exampleX, [], exampleX]) ∧
      ∀ x, fastParseExample envX x configX [exampleX, [], exampleX] [] = .ok {
        sparseIndices := [⟨dtInt64, [2, 2], [.int64 0, .int64 0, .int64 2, .int64 0]⟩]
        sparseValues := [⟨dtInt64, [2], [.int64 7, .int64 7]⟩]
        sparseShapes := [⟨dtInt64, [2], [.int64 3, .int64 1]⟩]
        denseValues := [⟨dtInt64, [3], [.int64 5, .int64 5, .int64 5]⟩] } := by
  have hdefaults : configX.DefaultsMatch := forall_mem_singleton.2 fun _ ↦ rfl
  obtain ⟨hcount, -, heq, -⟩ :=
    fastParseExample_eq_parseSequentially envX configX [exampleX, [], exampleX] []
    hdefaults allParse_configX
  exact ⟨hdefaults, allParse_configX, hcount, fun x ↦ (heq x).trans rfl⟩

end ExampleParsing

end TensorFlowCore
