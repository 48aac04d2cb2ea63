import TensorFlowCore.Util.ExampleParsing.Merging

/-!
# One example

What `FastParseSerializedExample` does depends on the outputs it is given only in that it appends to
them (`fastParseSerializedExample_append`), and to each tensor it writes one row, or one end index
with its values (`Output.Complete`).
-/

namespace TensorFlowCore

open Function List

namespace ExampleParsing

open DataType ExceptPost

/-! ## Appending -/

namespace SparseBuffer

/-- The features of `o` after those of `b`. -/
def append (b o : SparseBuffer) : SparseBuffer where
  values := b.values ++ o.values
  exampleEndIndices := b.exampleEndIndices ++ o.exampleEndIndices.map (b.values.length + ·)

/-- The last end is where the values end. -/
def Closed (b : SparseBuffer) : Prop := b.exampleEndIndices.getLast?.getD 0 = b.values.length

theorem closed_empty : Closed {} := rfl

theorem push_append (b o : SparseBuffer) (values : List Value) :
    (b.append o).push values = b.append (o.push values) := by
  simp only [append, push, append_assoc, map_append, map_singleton, length_append]

theorem pushMissing_append {b : SparseBuffer} (hb : b.Closed) (o : SparseBuffer) :
    (b.append o).pushMissing = b.append o.pushMissing := by
  have hlast : (b.append o).exampleEndIndices.getLast?.getD 0 =
      b.values.length + o.exampleEndIndices.getLast?.getD 0 := by
    show (b.exampleEndIndices ++ o.exampleEndIndices.map (b.values.length + ·)).getLast?.getD 0 = _
    rw [getLast?_append, getLast?_map]
    cases o.exampleEndIndices.getLast? with
    | none => exact hb
    | some n => rfl
  unfold pushMissing
  rw [hlast]
  simp only [append, append_assoc, map_append, map_singleton]

/-- What ends with its values does so behind others. -/
theorem Closed.append {o : SparseBuffer} (b : SparseBuffer)
    (ho : o.exampleEndIndices = [o.values.length]) : (b.append o).Closed := by
  show (b.exampleEndIndices ++ o.exampleEndIndices.map (b.values.length + ·)).getLast?.getD 0 =
    (b.values ++ o.values).length
  rw [ho, map_singleton, getLast?_append, getLast?_singleton, length_append]
  rfl

end SparseBuffer

/-- What is written in `o`, after what is written in `b`. -/
def Output.append (b o : Output) : Output where
  writes := b.writes ++ o.writes
  buffers d := (b.buffers d).append (o.buffers d)

theorem Output.append_empty (b : Output) : b.append {} = b := by
  have hbuffer : ∀ d, (b.buffers d).append {} = b.buffers d := fun d ↦ by
    simp only [SparseBuffer.append, append_nil, map_nil]
  simp only [append, hbuffer, append_nil]

/-- A state of the call, if the outputs are not empty at its start. -/
def Progress.after (b : Output) (p : Progress) : Progress := { p with out := b.append p.out }

variable {M : Type} {env : Env M} {config : Config} {index : UInt64 × M}
    {exampleName : ByteString} {e : ℕ}

section
variable (b : Output) (p : Progress) (featureName : ByteString) (d : ℕ) (exampleDtype : DataType)
  (serialized : ByteString)

theorem handleDense_after :
    handleDense env config exampleName e featureName d exampleDtype serialized (p.after b) =
      (handleDense env config exampleName e featureName d exampleDtype serialized p).map
      (Progress.after b) := by
  unfold handleDense
  show (if exampleDtype = dtInvalid then _ else if p.denseFeatureLastExample d = e then _ else _) =
    _
  split
  · rfl
  split
  · rfl
  split
  · rfl
  split
  · rfl
  split
  · rfl
  split
  · rfl
  simp only [Except.map, Progress.after, Output.append, append_assoc]

theorem handleSparse_after :
    handleSparse env config exampleName e featureName d exampleDtype serialized (p.after b) =
      (handleSparse env config exampleName e featureName d exampleDtype serialized p).map
      (Progress.after b) := by
  unfold handleSparse
  show (if p.sparseFeatureLastExample d = e then _ else _) = _
  split
  · rfl
  split
  · rfl
  next c _ =>
  split
  · rfl
  cases sparseValues env exampleName e featureName c.dtype exampleDtype serialized with
  | error f => rfl
  | ok values =>
    refine congrArg Except.ok ?_
    simp only [Progress.after, Output.append, SparseBuffer.push_append]
    congr 2
    funext d'
    obtain rfl | hne := eq_or_ne d' d
    · rw [update_self, update_self]
    · rw [update_of_ne hne, update_of_ne hne]

theorem handleFeature_after (nameAndFeature : ByteString × ByteString) :
    handleFeature env config index exampleName e (p.after b) nameAndFeature =
      (handleFeature env config index exampleName e p nameAndFeature).map (Progress.after b) := by
  unfold handleFeature
  cases findFeature env config index nameAndFeature.1 with
  | error f => rfl
  | ok found =>
    cases found with
    | none => rfl
    | some found =>
      obtain ⟨d, kind⟩ := found
      cases parseDataType nameAndFeature.2 with
      | error f => rfl
      | ok feature =>
        cases kind with
        | dense => exact handleDense_after b p nameAndFeature.1 d feature.1 feature.2
        | sparse => exact handleSparse_after b p nameAndFeature.1 d feature.1 feature.2

theorem handleMissingDense_after (c : Dense × ℕ) :
    handleMissingDense exampleName e (p.after b) c =
      (handleMissingDense exampleName e p c).map (Progress.after b) := by
  unfold handleMissingDense
  show (if p.denseFeatureLastExample c.2 = e then _ else _) = _
  split
  · rfl
  split
  · rfl
  split
  · rfl
  simp only [Except.map, Progress.after, Output.append, append_assoc]

variable {b} in
theorem handleMissingSparse_after (hb : (b.buffers d).Closed) :
    handleMissingSparse e (p.after b) d = (handleMissingSparse e p d).after b := by
  unfold handleMissingSparse
  show (if p.sparseFeatureLastExample d = e then _ else _) = _
  split
  · rfl
  · simp only [Progress.after, Output.append, SparseBuffer.pushMissing_append hb]
    congr 2
    funext d'
    obtain rfl | hne := eq_or_ne d' d
    · rw [update_self, update_self]
    · rw [update_of_ne hne, update_of_ne hne]

end

theorem foldl_handleMissingSparse_after {b : Output} {n : ℕ} (hb : ∀ d < n, (b.buffers d).Closed)
    (p : Progress) :
    (List.range n).foldl (handleMissingSparse e) (p.after b) =
      ((List.range n).foldl (handleMissingSparse e) p).after b := by
  induction n with
  | zero => rfl
  | succ n ih =>
    rw [range_succ, foldl_append, foldl_append, ih fun d hd ↦ hb d (Nat.lt_succ_of_lt hd)]
    exact handleMissingSparse_after _ n (hb n (Nat.lt_succ_self n))

/-- The outputs matter only in that the example is appended to them. -/
theorem fastParseSerializedExample_append {b : Output}
    (hb : ∀ d < config.sparse.length, (b.buffers d).Closed) (serializedExample : ByteString) :
    fastParseSerializedExample env config index exampleName e serializedExample b =
      (fastParseSerializedExample env config index exampleName e serializedExample {}).map
      b.append := by
  unfold fastParseSerializedExample
  cases env.parseExample serializedExample with
  | none => rfl
  | some parsedExample =>
    have hstart : ({ out := b } : Progress) = Progress.after b { out := {} } := by
      rw [Progress.after, b.append_empty]
    dsimp only
    rw [hstart, foldlM_map fun p a _ ↦ handleFeature_after b p a]
    cases parsedExample.reverse.foldlM (handleFeature env config index exampleName e)
      { out := {} } with
    | error f => rfl
    | ok p =>
      show (config.dense.zipIdx.foldlM (handleMissingDense exampleName e) (p.after b) >>= _) = _
      rw [foldlM_map fun p a _ ↦ handleMissingDense_after b p a]
      cases hmissing : config.dense.zipIdx.foldlM (handleMissingDense exampleName e) p with
      | error f =>
        simp only [ok_bind, hmissing]
        rfl
      | ok p' =>
        simp only [ok_bind, hmissing]
        exact congrArg (fun p ↦ Except.ok (Progress.out p)) (foldl_handleMissingSparse_after hb p')

/-! ## What one example writes -/

/-- The writes to a tensor. -/
def Output.writesTo (o : Output) (d : ℕ) : List Write := o.writes.filter fun w ↦ w.1.1 = d

theorem mem_copyRow {d offset : ℕ} {values : List Value} {w : Write} :
    w ∈ copyRow d offset values ↔ w.1.1 = d ∧ offset ≤ w.1.2 ∧
    values[w.1.2 - offset]? = some w.2 := by
  rw [copyRow, mem_map]
  constructor
  · rintro ⟨v, hv, rfl⟩
    exact ⟨rfl, mk_mem_zipIdx_iff_le_and_getElem?_sub.1 hv⟩
  · rintro ⟨rfl, hw⟩
    exact ⟨(w.2, w.1.2), mk_mem_zipIdx_iff_le_and_getElem?_sub.2 hw, rfl⟩

theorem writesTo_copyRow_self (o : Output) (d offset : ℕ) (values : List Value) :
    ({ o with writes := o.writes ++ copyRow d offset values } : Output).writesTo d =
      o.writesTo d ++ copyRow d offset values := by
  rw [Output.writesTo, filter_append]
  exact congrArg (o.writesTo d ++ ·)
    (filter_eq_self.2 fun w hw ↦ decide_eq_true (mem_copyRow.1 hw).1)

theorem writesTo_copyRow_of_ne {d d' : ℕ} (h : d' ≠ d) (o : Output) (offset : ℕ)
    (values : List Value) :
    ({ o with writes := o.writes ++ copyRow d offset values } : Output).writesTo d' =
      o.writesTo d' := by
  rw [Output.writesTo, filter_append]
  refine (congrArg (o.writesTo d' ++ ·) (filter_eq_nil_iff.2 fun w hw ↦ ?_)).trans (append_nil _)
  rw [(mem_copyRow.1 hw).1, decide_eq_true_eq]
  exact h.symm

/-- To the tensor there has been written the row of the example. -/
def RowWritten (config : Config) (e : ℕ) (o : Output) (d : ℕ) : Prop :=
  ∃ c row, config.dense[d]? = some c ∧ row.length = c.shape.prod ∧
    o.writesTo d = copyRow d (e * c.shape.prod) row

/-- To the buffer there have been appended the values of the example, and their end. -/
def ValuesWritten (o : Output) (d : ℕ) : Prop :=
  (o.buffers d).exampleEndIndices = [(o.buffers d).values.length]

/-- What a call leaves that began with empty outputs. -/
structure Output.Complete (config : Config) (e : ℕ) (o : Output) : Prop where
  sparse : ∀ d < config.sparse.length, ValuesWritten o d
  dense : ∀ d < config.dense.length, RowWritten config e o d
  nowhereElse : ∀ d, config.dense.length ≤ d → o.writesTo d = []

/-- The defaults are missing, or have the shape of the tensor. -/
def Config.DefaultsMatch (config : Config) : Prop :=
  ∀ c ∈ config.dense, c.defaultValue.values.length ≠ 0 → c.defaultValue.values.length = c.shape.prod

/-- A sparse feature has been written if its mark is set, and only then. -/
def SparseMarked (e : ℕ) (p : Progress) (d : ℕ) : Prop :=
  (p.sparseFeatureLastExample d = e ∧ ValuesWritten p.out d) ∨
    (p.sparseFeatureLastExample d = -1 ∧ p.out.buffers d = {})

/-- A dense feature has been written if its mark is set, and only then. -/
def DenseMarked (config : Config) (e : ℕ) (p : Progress) (d : ℕ) : Prop :=
  (p.denseFeatureLastExample d = e ∧ RowWritten config e p.out d) ∨
    (p.denseFeatureLastExample d = -1 ∧ p.out.writesTo d = [])

/-- The marks are right. -/
structure Marked (config : Config) (e : ℕ) (p : Progress) : Prop where
  sparse : ∀ d, SparseMarked e p d
  dense : ∀ d, DenseMarked config e p d

theorem marked_start : Marked config e { out := {} } :=
  ⟨fun _ ↦ .inr ⟨rfl, rfl⟩, fun _ ↦ .inr ⟨rfl, rfl⟩⟩

theorem SparseMarked.unmarked {p : Progress} {d : ℕ} (h : SparseMarked e p d)
    (hd : p.sparseFeatureLastExample d ≠ e) : p.out.buffers d = {} :=
  h.elim (fun h ↦ absurd h.1 hd) And.right

theorem DenseMarked.unmarked {p : Progress} {d : ℕ} (h : DenseMarked config e p d)
    (hd : p.denseFeatureLastExample d ≠ e) : p.out.writesTo d = [] :=
  h.elim (fun h ↦ absurd h.1 hd) And.right

section
variable {p p' : Progress} {featureName : ByteString} {d : ℕ} {exampleDtype : DataType}
    {serialized : ByteString}

/-- A dense feature is marked as it is copied, and no other row changes. -/
theorem Marked.handleDense (h : Marked config e p)
    (hok : handleDense env config exampleName e featureName d exampleDtype serialized p = .ok p') :
    Marked config e p' := by
  unfold ExampleParsing.handleDense at hok
  split at hok
  · cases hok
    exact h
  split at hok
  · cases hok
    exact h
  next hunmarked =>
  split at hok
  · cases hok
  next c hc =>
  split at hok
  · cases hok
  split at hok
  · cases hok
  next row _ =>
  split at hok
  · cases hok
  next hlength =>
  cases hok
  refine ⟨h.sparse, fun d' ↦ ?_⟩
  obtain rfl | hne := eq_or_ne d' d
  · refine .inl ⟨update_self .., c, row, hc, not_ne_iff.1 hlength, ?_⟩
    rw [writesTo_copyRow_self, (h.dense d').unmarked hunmarked, nil_append]
  · unfold DenseMarked RowWritten
    rw [writesTo_copyRow_of_ne hne]
    dsimp only
    rw [update_of_ne hne]
    exact h.dense d'

theorem Marked.handleSparse (h : Marked config e p)
    (hok : handleSparse env config exampleName e featureName d exampleDtype serialized p = .ok p') :
    Marked config e p' := by
  unfold ExampleParsing.handleSparse at hok
  split at hok
  · cases hok
    exact h
  next hunmarked =>
  split at hok
  · cases hok
  split at hok
  · cases hok
  obtain ⟨values, -, hok⟩ := bind_eq_ok_iff.1 hok
  cases hok
  refine ⟨fun d' ↦ ?_, h.dense⟩
  obtain rfl | hne := eq_or_ne d' d
  · refine .inl ⟨update_self .., ?_⟩
    show (update p.out.buffers d' _ d').exampleEndIndices =
      [(update p.out.buffers d' _ d').values.length]
    rw [update_self, (h.sparse d').unmarked hunmarked]
    rfl
  · unfold SparseMarked ValuesWritten
    dsimp only
    rw [update_of_ne hne, update_of_ne hne]
    exact h.sparse d'

theorem Marked.handleFeature {nameAndFeature : ByteString × ByteString} (h : Marked config e p)
    (hok : handleFeature env config index exampleName e p nameAndFeature = .ok p') :
    Marked config e p' := by
  unfold ExampleParsing.handleFeature at hok
  obtain ⟨found, -, hok⟩ := bind_eq_ok_iff.1 hok
  cases found with
  | none =>
    cases hok
    exact h
  | some found =>
    obtain ⟨feature, -, hok⟩ := bind_eq_ok_iff.1 hok
    obtain ⟨d, kind⟩ := found
    cases kind with
    | dense => exact h.handleDense hok
    | sparse => exact h.handleSparse hok

end

/-- After `i` rounds of the loop over the missing dense features: these have been written. -/
structure DenseFilled (config : Config) (e i : ℕ) (p : Progress) : Prop where
  sparse : ∀ d, SparseMarked e p d
  filled : ∀ d < i, RowWritten config e p.out d
  dense : ∀ d, i ≤ d → DenseMarked config e p d

/-- A dense feature that is missing takes its default, if that has the dense shape. -/
theorem DenseFilled.handleMissingDense (hdefaults : config.DefaultsMatch) {p p' : Progress}
    {c : Dense} {i : ℕ} (hc : config.dense[i]? = some c) (h : DenseFilled config e i p)
    (hok : handleMissingDense exampleName e p (c, i) = .ok p') :
    DenseFilled config e (i + 1) p' := by
  unfold ExampleParsing.handleMissingDense at hok
  split at hok
  · next hmarked =>
    cases hok
    refine ⟨h.sparse, fun d hd ↦ ?_, fun d hd ↦ h.dense d (Nat.le_of_succ_le hd)⟩
    obtain hlt | rfl := Nat.lt_succ_iff_lt_or_eq.1 hd
    · exact h.filled d hlt
    · obtain hd | hd := h.dense d le_rfl
      · exact hd.2
      · have hmarked : p.denseFeatureLastExample d = e := hmarked
        omega
  next hunmarked =>
  split at hok
  · cases hok
  next hdefault =>
  split at hok
  · cases hok
  cases hok
  have hlength : c.defaultValue.values.length = c.shape.prod :=
    hdefaults c (mem_of_getElem? hc) hdefault
  refine ⟨h.sparse, fun d hd ↦ ?_, fun d hd ↦ ?_⟩
  · obtain hlt | rfl := Nat.lt_succ_iff_lt_or_eq.1 hd
    · unfold RowWritten
      rw [writesTo_copyRow_of_ne (Nat.ne_of_lt hlt)]
      exact h.filled d hlt
    · refine ⟨c, c.defaultValue.values, hc, hlength, ?_⟩
      rw [writesTo_copyRow_self, (h.dense d le_rfl).unmarked hunmarked, nil_append, hlength]
  · unfold DenseMarked RowWritten
    rw [writesTo_copyRow_of_ne (Nat.ne_of_gt hd)]
    exact h.dense d (Nat.le_of_succ_le hd)

/-- The loop over the missing sparse features writes to the buffers only, and completes those it has
passed. -/
theorem foldl_handleMissingSparse {p : Progress} (h : ∀ d, SparseMarked e p d) (n : ℕ) :
    let p' := (range n).foldl (handleMissingSparse e) p
    p'.out.writes = p.out.writes ∧ (∀ d < n, ValuesWritten p'.out d) ∧ ∀ d, n ≤ d →
    SparseMarked e p' d := by
  induction n with
  | zero => exact ⟨rfl, nofun, fun d _ ↦ h d⟩
  | succ n ih =>
    rw [range_succ, foldl_append]
    generalize (range n).foldl (handleMissingSparse e) p = p' at ih
    obtain ⟨hwrites, hvalues, hmarked⟩ := ih
    show (handleMissingSparse e p' n).out.writes = _ ∧
      (∀ d < n + 1, ValuesWritten (handleMissingSparse e p' n).out d) ∧
      ∀ d, n + 1 ≤ d → SparseMarked e (handleMissingSparse e p' n) d
    unfold handleMissingSparse
    split
    · next hn =>
      refine ⟨hwrites, fun d hd ↦ ?_, fun d hd ↦ hmarked d (Nat.le_of_succ_le hd)⟩
      obtain hlt | rfl := Nat.lt_succ_iff_lt_or_eq.1 hd
      · exact hvalues d hlt
      · obtain hd | hd := hmarked d le_rfl
        · exact hd.2
        · omega
    · next hn =>
      refine ⟨hwrites, fun d hd ↦ ?_, fun d hd ↦ ?_⟩
      · unfold ValuesWritten
        dsimp only
        obtain hlt | rfl := Nat.lt_succ_iff_lt_or_eq.1 hd
        · rw [update_of_ne (Nat.ne_of_lt hlt)]
          exact hvalues d hlt
        · rw [update_self, (hmarked d le_rfl).unmarked hn]
          rfl
      · unfold SparseMarked ValuesWritten
        dsimp only
        rw [update_of_ne (Nat.ne_of_gt hd)]
        exact hmarked d (Nat.le_of_succ_le hd)

/-- An example that parses fills its row of each dense tensor, and adds its values and their end to
each buffer. -/
theorem complete_of_parse (hdefaults : config.DefaultsMatch) {serializedExample : ByteString}
    {o : Output}
    (hok : fastParseSerializedExample env config index exampleName e serializedExample {} = .ok o) :
    o.Complete config e := by
  unfold fastParseSerializedExample at hok
  split at hok
  · cases hok
  next parsedExample _ =>
  obtain ⟨p, hp, hok⟩ := bind_eq_ok_iff.1 hok
  obtain ⟨p', hp', hok⟩ := bind_eq_ok_iff.1 hok
  cases hok
  have hmarked : Marked config e p := foldlM_inv (fun _ _ _ ↦ Marked.handleFeature) marked_start hp
  have hfilled : DenseFilled config e (0 + config.dense.length) p' := by
    refine foldlM_zipIdx_inv (P := DenseFilled config e) (fun j c p p' hc h hok ↦ ?_)
      ⟨hmarked.sparse, nofun, fun d _ ↦ hmarked.dense d⟩ hp'
    rw [← Nat.zero_add j] at hc
    exact h.handleMissingDense hdefaults hc hok
  rw [Nat.zero_add] at hfilled
  obtain ⟨hwrites, hvalues, -⟩ := foldl_handleMissingSparse hfilled.sparse config.sparse.length
  refine ⟨hvalues, fun d hd ↦ ?_, fun d hd ↦ ?_⟩
  · unfold RowWritten Output.writesTo
    rw [hwrites]
    exact hfilled.filled d hd
  · unfold Output.writesTo
    rw [hwrites]
    obtain ⟨-, c, row, hc, -⟩ | h := hfilled.dense d hd
    · rw [getElem?_eq_none hd] at hc
      cases hc
    · exact h.2

end ExampleParsing

end TensorFlowCore
