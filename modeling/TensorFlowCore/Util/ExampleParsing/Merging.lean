import TensorFlowCore.Support.ExceptPost
import TensorFlowCore.Util.ExampleParsing.Model

/-!
# Minibatches

`FastParseExample` of `tensorflow/core/util/example_proto_fast_parsing.cc`: how the batch is cut,
what a minibatch does, and how the sparse buffers of the minibatches are merged.

The minibatches share the buffers of the dense tensors, to which each write is a step. What a run
depends on beside its arguments is an `Execution`: the order of these steps, and what is in the
buffer of a tensor that has not been written to. With it the parser is a function; the number of
minibatches is an argument of `fastParseWith`.
-/

namespace TensorFlowCore

open List

variable {groups : List (List (List Value))}

namespace ExampleParsing

open DataType

/-- A run of the thread pool and the allocator. -/
structure Execution where
  /-- The writes of the minibatches, in the order in which they happen. -/
  interleave : List (List Write) → List Write
  interleaving : ∀ ts, Interleaving ts (interleave ts)
  /-- What the buffer of the `i`-th tensor holds when it is allocated. -/
  fresh : ℕ → ℕ → Value

/-- `Result`. -/
structure Result where
  sparseIndices : List Tensor
  sparseValues : List Tensor
  sparseShapes : List Tensor
  denseValues : List Tensor
  deriving DecidableEq

/-! ## How the batch is cut -/

def kMiniBatchSizeBytes : ℕ := 50000

/-- One round of the loop that counts the minibatches: `result` and `minibatch_bytes`. -/
def countRound (acc : ℕ × ℕ) (serialized : ByteString) : ℕ × ℕ :=
  let result := if acc.2 = 0 then acc.1 + 1 else acc.1
  let minibatchBytes := acc.2 + (serialized.length + 1)
  (result, if kMiniBatchSizeBytes < minibatchBytes then 0 else minibatchBytes)

/-- `num_minibatches`. -/
def numMinibatches (serialized : List ByteString) : ℕ :=
  max (min 8 serialized.length) (min 64 (serialized.foldl countRound (0, 0)).1)

/-- `first_example_of_minibatch`. -/
def firstExampleOfMinibatch (serializedSize numMinibatches minibatch : ℕ) : ℕ :=
  serializedSize * minibatch / numMinibatches

/-- The examples of a minibatch. -/
def minibatchRange (serializedSize numMinibatches minibatch : ℕ) : List ℕ :=
  let start := firstExampleOfMinibatch serializedSize numMinibatches minibatch
  List.range' start (firstExampleOfMinibatch serializedSize numMinibatches (minibatch + 1) - start)

/-! ## A minibatch -/

/-- The name of an example in the messages. -/
def exampleNameAt (exampleNames : List ByteString) (e : ℕ) : Option ByteString :=
  if 0 < exampleNames.length then exampleNames[e]? else some (ascii "<unknown>")

variable {M : Type} (env : Env M) (x : Execution) (config : Config) (index : UInt64 × M)
  (serialized exampleNames : List ByteString)

/-- The call for an example. -/
def parseExampleAt (out : Output) (e : ℕ) : Except Fault Output :=
  match serialized[e]?, exampleNameAt exampleNames e with
  | some serializedExample, some exampleName =>
    fastParseSerializedExample env config index exampleName e serializedExample out
  | _, _ => .error .crash

/-- `ProcessMiniBatch`. -/
def processMiniBatch (k minibatch : ℕ) : Except Fault Output :=
  (minibatchRange serialized.length k minibatch).foldlM
    (parseExampleAt env config index serialized exampleNames) {}

def isCrash : Except Fault Output → Bool
  | .error .crash => true
  | _ => false

/-- The minibatches, when all have ended. A crash of one of them is that of the process; otherwise
the first status counts. -/
def processMiniBatches (k : ℕ) : Except Fault (List Output) :=
  let results := (List.range k).map (processMiniBatch env config index serialized exampleNames k)
  if results.any isCrash then .error .crash else results.mapM id

/-- A write that stays within the buffer of its tensor. -/
def Write.InBounds (n : ℕ) (w : Write) : Bool :=
  match config.dense[w.1.1]? with
  | none => false
  | some c => w.1.2 < (n :: c.shape).prod

/-- A dense tensor, as it is when the minibatches have ended. -/
def denseTensor (n : ℕ) (mem : ℕ × ℕ → Value) (c : Dense × ℕ) : Tensor where
  dtype := c.1.dtype
  shape := n :: c.1.shape
  values := (List.range (n :: c.1.shape).prod).map fun i ↦ mem (c.2, i)

/-! ## Merging -/

/-- The loop over the ends after the first. -/
def maxFrom (prevEnd maxNumFeatures : ℕ) : List ℕ → ℕ
  | [] => maxNumFeatures
  | exampleEnd :: ends => maxFrom exampleEnd (max maxNumFeatures (exampleEnd - prevEnd)) ends

/-- `total_num_features` and `max_num_features`, with a buffer more. -/
def countFeatures (acc : ℕ × ℕ) (buffer : SparseBuffer) : Except Fault (ℕ × ℕ) :=
  match buffer.exampleEndIndices with
  -- `back()` and `[0]` of an empty vector
  | [] => .error .crash
  | first :: ends => .ok (acc.1 + (first :: ends).getLastD 0, maxFrom first (max acc.2 first) ends)

/-- The rows of `sparse_indices` that a buffer gives, and `delta` after them. -/
def indexRows : ℕ → ℕ → List ℕ → List (ℕ × ℕ) × ℕ
  | _, delta, [] => ([], delta)
  | exampleIndex, delta, exampleEnd :: ends =>
    let rest := indexRows (exampleIndex + 1) (max delta exampleEnd) ends
    ((List.range (exampleEnd - delta)).map (fun featureIndex ↦ (exampleIndex, featureIndex)) ++
    rest.1, rest.2)

/-- A row of a matrix of `int64`s. -/
def rowValues (row : ℕ × ℕ) : List Value := [.int64 row.1, .int64 row.2]

/-- `std::copy` into a buffer. -/
def copyAt (buffer : List Value) (offset : ℕ) (values : List Value) : Except Fault (List Value) :=
  if offset + values.length ≤ buffer.length then
    .ok (buffer.take offset ++ values ++ buffer.drop (offset + values.length))
  else .error .crash

/-- The tensors while they are filled. -/
structure Merge where
  indices : List Value
  values : List Value
  offset : ℕ

/-- One round of the loop over the minibatches. -/
def mergeBuffer (n k : ℕ) (m : Merge) (buffer : SparseBuffer × ℕ) : Except Fault Merge := do
  let rows := indexRows (firstExampleOfMinibatch n k buffer.2) 0 buffer.1.exampleEndIndices
  let indices ← copyAt m.indices (2 * m.offset) (rows.1.flatMap rowValues)
  let values ← copyAt m.values m.offset buffer.1.values
  return { indices, values, offset := m.offset + rows.2 }

/-- The three tensors of a sparse feature. -/
structure SparseTensors where
  indices : Tensor
  values : Tensor
  shape : Tensor

/-- The tensors of a sparse feature, if the shapes of their sizes are within bounds. -/
def sparseTensors (c : Sparse) (n total maxNumFeatures : ℕ) (indices values : List Value) :
    Except Fault SparseTensors := do
  let indicesShape ← tensorShape [total, 2]
  let valuesShape ← tensorShape [total]
  return {
    indices := { dtype := dtInt64, shape := indicesShape, values := indices }
    values := { dtype := c.dtype, shape := valuesShape, values := values }
    shape := { dtype := dtInt64, shape := [2], values := rowValues (n, maxNumFeatures) } }

/-- `MergeMinibatches`. -/
def mergeMinibatches (n k : ℕ) (buffers : List (ℕ → SparseBuffer)) (c : Sparse × ℕ) :
    Except Fault SparseTensors := do
  let buffers := buffers.map fun b ↦ b c.2
  let (total, maxNumFeatures) ← buffers.foldlM countFeatures (0, 0)
  let merge ← buffers.zipIdx.foldlM (mergeBuffer n k)
    { indices := (List.range (2 * total)).map (x.fresh (config.dense.length + 2 * c.2))
      values := (List.range total).map (x.fresh (config.dense.length + 2 * c.2 + 1))
      offset := 0 }
  sparseTensors c.1 n total maxNumFeatures merge.indices merge.values

/-! ## The parser -/

/-- The checks of the configuration. -/
def checkConfig : Except Fault Unit := do
  config.sparse.forM fun c ↦ checkConfigDataType c.dtype
  config.dense.forM fun c ↦ checkConfigDataType c.dtype

/-- The shapes of the dense tensors. -/
def checkDenseShapes (n : ℕ) : Except Fault Unit :=
  config.dense.forM fun c ↦ do
    let _ ← tensorShape (n :: c.shape)

/-- The result, from its tensors. -/
def Result.of (dense : List Tensor) (sparse : List SparseTensors) : Result where
  sparseIndices := sparse.map SparseTensors.indices
  sparseValues := sparse.map SparseTensors.values
  sparseShapes := sparse.map SparseTensors.shape
  denseValues := dense

/-- `FastParseExample`, with a number of minibatches. -/
def fastParseWith (k : ℕ) : Except Fault Result := do
  checkConfig config
  let index ← buildConfigIndex env config
  checkDenseShapes config serialized.length
  let outs ← processMiniBatches env config index serialized exampleNames k
  let writes := x.interleave (outs.map Output.writes)
  if ¬ writes.all (Write.InBounds config serialized.length) then .error .crash
  else
    let mem := writeAll (fun a ↦ x.fresh a.1 a.2) writes
    let sparse ← config.sparse.zipIdx.mapM
      (mergeMinibatches x config serialized.length k (outs.map Output.buffers))
    return Result.of (config.dense.zipIdx.map (denseTensor serialized.length mem)) sparse

/-- `FastParseExample`. -/
def fastParseExample : Except Fault Result :=
  fastParseWith env x config serialized exampleNames (numMinibatches serialized)

end ExampleParsing

/-!
## Merging the buffers of the minibatches

A buffer that has been filled example by example has the values of the examples one after another,
and where each of them ends (`SparseBuffer.ofValues`). Merging such buffers, each with the examples
of its minibatch, gives the tensors of all examples in their order (`mergeMinibatches_eq`).
-/

namespace ExampleParsing

open DataType ExceptPost

/-! ## Filled buffers -/

/-- The ends of the examples, behind `k` values. -/
def endsFrom (k : ℕ) : List (List Value) → List ℕ
  | [] => []
  | v :: values => (k + v.length) :: endsFrom (k + v.length) values

/-- The buffer with these values of its examples. -/
def SparseBuffer.ofValues (values : List (List Value)) : SparseBuffer where
  values := values.flatten
  exampleEndIndices := endsFrom 0 values

theorem endsFrom_append (k : ℕ) (values values' : List (List Value)) :
    endsFrom k (values ++ values') = endsFrom k values ++ endsFrom (k + values.flatten.length)
    values' := by
  induction values generalizing k with
  | nil => rfl
  | cons v values ih =>
    rw [cons_append, endsFrom, endsFrom, ih, cons_append, flatten_cons, length_append,
      Nat.add_assoc]

theorem getLastD_endsFrom (k d : ℕ) (v : List Value) (values : List (List Value)) :
    (endsFrom k (v :: values)).getLastD d = k + (v :: values).flatten.length := by
  induction values generalizing k d v with
  | nil => simp only [endsFrom, getLastD_cons, getLastD_nil, flatten_singleton]
  | cons w values ih =>
    rw [endsFrom, getLastD_cons, ih, flatten_cons (l := v), length_append, Nat.add_assoc]

/-! ## Counting -/

/-- The length of the longest list, or `n`. -/
def maxLength (n : ℕ) (values : List (List Value)) : ℕ := values.foldl (fun m v ↦ max m v.length) n

theorem maxFrom_endsFrom (k n : ℕ) (values : List (List Value)) :
    maxFrom k n (endsFrom k values) = maxLength n values := by
  induction values generalizing k n with
  | nil => rfl
  | cons v values ih =>
    rw [endsFrom, maxFrom, Nat.add_sub_cancel_left, ih]
    rfl

theorem countFeatures_ofValues {values : List (List Value)} (h : values ≠ []) (acc : ℕ × ℕ) :
    countFeatures acc (.ofValues values) =
      .ok (acc.1 + values.flatten.length, maxLength acc.2 values) := by
  obtain ⟨v, values, rfl⟩ := exists_cons_of_ne_nil h
  show Except.ok (acc.1 + (endsFrom 0 (v :: values)).getLastD 0,
    maxFrom (0 + v.length) (max acc.2 (0 + v.length)) (endsFrom (0 + v.length) values)) = _
  rw [getLastD_endsFrom, maxFrom_endsFrom, Nat.zero_add, Nat.zero_add]
  rfl

theorem foldlM_countFeatures (h : ∀ g ∈ groups, g ≠ []) (acc : ℕ × ℕ) :
    (groups.map SparseBuffer.ofValues).foldlM countFeatures acc =
      .ok (acc.1 + groups.flatten.flatten.length, maxLength acc.2 groups.flatten) := by
  induction groups generalizing acc with
  | nil => rfl
  | cons g groups ih =>
    obtain ⟨hg, hgroups⟩ := forall_mem_cons.1 h
    rw [map_cons, foldlM_cons, countFeatures_ofValues hg, ok_bind, ih hgroups, flatten_cons,
      flatten_append, length_append, Nat.add_assoc, maxLength, maxLength, maxLength, foldl_append]

/-! ## The rows of the indices -/

/-- The rows of the examples from `e` on. -/
def exampleRows (e : ℕ) (values : List (List Value)) : List (ℕ × ℕ) :=
  (values.zipIdx e).flatMap fun v ↦ (List.range v.1.length).map fun featureIndex ↦
    (v.2, featureIndex)

theorem exampleRows_append (e : ℕ) (values values' : List (List Value)) :
    exampleRows e (values ++ values') = exampleRows e values ++ exampleRows (e + values.length)
    values' := by
  rw [exampleRows, zipIdx_append, flatMap_append]
  rfl

theorem length_exampleRows (e : ℕ) (values : List (List Value)) :
    (exampleRows e values).length = values.flatten.length := by
  induction values generalizing e with
  | nil => rfl
  | cons v values ih =>
    rw [exampleRows, zipIdx_cons, flatMap_cons, length_append, length_map, length_range,
      flatten_cons, length_append]
    exact congrArg (v.length + ·) (ih (e + 1))

theorem indexRows_endsFrom (e delta : ℕ) (values : List (List Value)) :
    indexRows e delta (endsFrom delta values) =
      (exampleRows e values, delta + values.flatten.length) := by
  induction values generalizing e delta with
  | nil => rfl
  | cons v values ih =>
    rw [endsFrom, indexRows, Nat.max_eq_right (Nat.le_add_right delta v.length), ih,
      Nat.add_sub_cancel_left, flatten_cons, length_append, Nat.add_assoc]
    rfl

theorem length_flatMap_rowValues (rows : List (ℕ × ℕ)) :
    (rows.flatMap rowValues).length = 2 * rows.length := by
  induction rows with
  | nil => rfl
  | cons row rows ih =>
    rw [flatMap_cons, length_append, ih, length_cons, Nat.mul_succ, Nat.add_comm]
    rfl

/-! ## Copying -/

/-- What is copied behind `pre` replaces what stands there. -/
theorem copyAt_append {pre rest values : List Value} {offset : ℕ} (hoffset : offset = pre.length)
    (hfits : values.length ≤ rest.length) :
    copyAt (pre ++ rest) offset values = .ok (pre ++ values ++ rest.drop values.length) := by
  rw [copyAt, if_pos (by rw [length_append, hoffset]; omega), hoffset, take_left, drop_append,
    drop_eq_nil_of_le (Nat.le_add_right _ _), nil_append, Nat.add_sub_cancel_left]

/-- `mergeBuffer` fills the next part of the tensors, which holds anything before. -/
theorem mergeBuffer_ofValues {n k i e : ℕ} {values : List (List Value)}
    {indices values₀ : List Value} (he : firstExampleOfMinibatch n k i = e)
    (indices' values' : List Value) (hindices : indices.length = 2 * values₀.length)
    (hindices' : 2 * values.flatten.length ≤ indices'.length)
    (hvalues' : values.flatten.length ≤ values'.length) :
    mergeBuffer n k ⟨indices ++ indices', values₀ ++ values', values₀.length⟩
    (.ofValues values, i) =
      .ok ⟨indices ++ (exampleRows e values).flatMap rowValues ++
        indices'.drop (2 * values.flatten.length),
        values₀ ++ values.flatten ++ values'.drop values.flatten.length,
        (values₀ ++ values.flatten).length⟩ := by
  have hrows : ((exampleRows e values).flatMap rowValues).length = 2 * values.flatten.length := by
    rw [length_flatMap_rowValues, length_exampleRows]
  unfold mergeBuffer SparseBuffer.ofValues
  dsimp only
  rw [he, indexRows_endsFrom, copyAt_append hindices.symm (hrows ▸ hindices'), ok_bind,
    copyAt_append rfl hvalues', ok_bind, hrows, Nat.zero_add, length_append]
  rfl

/-- The loop over the minibatches fills the tensors, if each minibatch begins where the one before
it ends. -/
theorem foldlM_mergeBuffer {n k i e : ℕ} (indices indices' values values' : List Value)
    (he : firstExampleOfMinibatch n k i = e) (hnext : ∀ j g, groups[j]? = some g →
      firstExampleOfMinibatch n k (i + j + 1) = firstExampleOfMinibatch n k (i + j) + g.length)
    (hindices : indices.length = 2 * values.length)
    (hindices' : indices'.length = 2 * groups.flatten.flatten.length)
    (hvalues' : values'.length = groups.flatten.flatten.length) :
    ∃ offset, ((groups.map SparseBuffer.ofValues).zipIdx i).foldlM (mergeBuffer n k)
      ⟨indices ++ indices', values ++ values', values.length⟩ =
      .ok ⟨indices ++ (exampleRows e groups.flatten).flatMap rowValues, values ++
        groups.flatten.flatten, offset⟩ := by
  induction groups generalizing i e indices indices' values values' with
  | nil =>
    rw [eq_nil_of_length_eq_zero hindices', eq_nil_of_length_eq_zero hvalues']
    exact ⟨values.length, rfl⟩
  | cons g groups ih =>
    rw [flatten_cons, flatten_append, length_append] at hindices' hvalues'
    have hfirst : firstExampleOfMinibatch n k (i + 1) = e + g.length := by
      rw [← he]
      exact hnext 0 g rfl
    have hnext' : ∀ j g', groups[j]? = some g' →
        firstExampleOfMinibatch n k (i + 1 + j + 1) = firstExampleOfMinibatch n k (i + 1 + j) +
        g'.length := by
      intro j g' hj
      rw [Nat.add_right_comm i 1 j]
      exact hnext (j + 1) g' hj
    have hrows : ((exampleRows e g).flatMap rowValues).length = 2 * g.flatten.length := by
      rw [length_flatMap_rowValues, length_exampleRows]
    obtain ⟨offset, hrest⟩ := ih (indices ++ (exampleRows e g).flatMap rowValues)
      (indices'.drop (2 * g.flatten.length)) (values ++ g.flatten) (values'.drop g.flatten.length)
      hfirst hnext'
      (by rw [length_append, length_append, hindices, hrows, Nat.mul_add])
      (by rw [length_drop]; omega) (by rw [length_drop]; omega)
    refine ⟨offset, ?_⟩
    rw [map_cons, zipIdx_cons, foldlM_cons,
      mergeBuffer_ofValues he indices' values' hindices (by omega) (by omega), ok_bind, hrest,
      flatten_cons, flatten_append, exampleRows_append, flatMap_append, append_assoc, append_assoc]

/-! ## The tensors of a feature -/

variable {x : Execution} {config : Config} {n k : ℕ}

/-- The tensors with these values of the examples. -/
def tensorsOfValues (n : ℕ) (c : Sparse) (values : List (List Value)) :
    Except Fault SparseTensors :=
  sparseTensors c n values.flatten.length (maxLength 0 values)
    ((exampleRows 0 values).flatMap rowValues) values.flatten

theorem mergeMinibatches_eq {buffers : List (ℕ → SparseBuffer)} {c : Sparse × ℕ}
    (hbuffers : buffers.map (fun b ↦ b c.2) = groups.map SparseBuffer.ofValues)
    (hne : ∀ g ∈ groups, g ≠ []) (hnext : ∀ j g, groups[j]? = some g →
      firstExampleOfMinibatch n k (j + 1) = firstExampleOfMinibatch n k j + g.length) :
    mergeMinibatches x config n k buffers c = tensorsOfValues n c.1 groups.flatten := by
  unfold mergeMinibatches
  dsimp only
  rw [hbuffers, foldlM_countFeatures hne, ok_bind]
  rw [Nat.zero_add]
  have hfirst : firstExampleOfMinibatch n k 0 = 0 := Nat.zero_div k
  have hnext₀ : ∀ j g, groups[j]? = some g →
      firstExampleOfMinibatch n k (0 + j + 1) = firstExampleOfMinibatch n k (0 + j) + g.length := by
    simpa only [Nat.zero_add] using hnext
  obtain ⟨offset, hmerge⟩ := foldlM_mergeBuffer []
    ((range (2 * groups.flatten.flatten.length)).map (x.fresh (config.dense.length + 2 * c.2))) []
    ((range groups.flatten.flatten.length).map (x.fresh (config.dense.length + 2 * c.2 + 1)))
    hfirst hnext₀ rfl (by rw [length_map, length_range]) (by rw [length_map, length_range])
  rw [nil_append, nil_append] at hmerge
  show (foldlM (mergeBuffer n k) ⟨_, _, ([] : List Value).length⟩ _ >>= _) = _
  rw [hmerge, ok_bind, nil_append, nil_append]
  rfl

end ExampleParsing

end TensorFlowCore
