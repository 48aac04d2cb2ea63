import TensorFlowCore.Graph.Conversion

/-!
# Which `GraphDef`s are accepted

A `GraphDef` whose names, inputs and types are in order (`WellTyped`) is accepted if the conversion
never gets stuck: as long as some node is left, one of those left waits for nothing more.
-/

namespace TensorFlowCore.GraphConstructor

open List Worklist

variable {α : Type} [Inhabited α] {gdef : GraphDef α} {registry : OpRegistry α}
  {stray : List DataType → ℤ → DataType} {opts : GraphConstructorOptions}
  {tfVersionString : ByteString}

/-- Names, ops, inputs and types are as `GraphConstructor` asks. -/
structure WellTyped (registry : OpRegistry α) (opts : GraphConstructorOptions)
    (tfVersionString : ByteString) (gdef : GraphDef α) : Prop where
  versions : checkVersions gdef.versions tfVersionString = .ok ()
  nodeOk : ∀ nodeDef ∈ gdef.node, NodeOk opts nodeDef
  names_nodup : (gdef.node.map NodeDef.name).Nodup
  hasSignature : ∀ n < gdef.node.length, HasSignature registry (gdef.nodeAt n)
  known : Known gdef
  controlsLast : ∀ n < gdef.node.length, ControlsLast (gdef.nodeAt n).input
  /-- Every data input names an output that exists, for an input that exists, of a compatible
  type. -/
  data : ∀ n < gdef.node.length, ∀ i input, (gdef.nodeAt n).input[i]? = some input →
    isControl input = false →
      i < (signatureOf registry (gdef.nodeAt n)).inputTypes.length ∧ 0 ≤ (inputId input).2 ∧
      (inputId input).2 < (signatureOf registry
        (gdef.nodeAt (srcIndex gdef input))).outputTypes.length ∧
      typesCompatible ((signatureOf registry (gdef.nodeAt n)).inputTypes.getD i 0)
        ((signatureOf registry (gdef.nodeAt (srcIndex gdef input))).outputTypes.getD
          (inputId input).2.toNat 0) = true

/-- A node that is not a `Merge` is converted after all its inputs. -/
theorem mem_of_enabled {done : List ℕ} {n : ℕ} (h : Enabled (preds gdef) (need gdef) done n)
    (hmerge : isMerge (gdef.nodeAt n) = false) : ∀ m ∈ preds gdef n, m ∈ done := by
  obtain hnil | hle := h
  · simp [hnil]
  · have hneed : need gdef n = (preds gdef n).length := by
      rw [need, pendingCount, hmerge, preds, length_map]
      rfl
    rw [hneed] at hle
    have hall := countP_eq_length.1
      (Nat.le_antisymm countP_le_length (Int.ofNat_le.1 hle))
    exact fun m hm ↦ of_decide_eq_true (hall m hm)

variable (h : WellTyped registry opts tfVersionString gdef)
include h

theorem WellTyped.fits {n : ℕ} (hn : n < gdef.node.length) {l : Link} (hl : l ∈ links gdef n)
    (hindex : l.index ≠ -1) : l.Fits registry stray opts gdef := by
  obtain ⟨⟨input, i⟩, hp, rfl⟩ := mem_map.1 hl
  have hcontrol : isControl input = false := by
    cases hcontrol : isControl input with
    | false => rfl
    | true => exact absurd (show linkIndex input = -1 by rw [linkIndex, if_pos hcontrol]) hindex
  have hlink : linkIndex input = (inputId input).2 := by
    rw [linkIndex, hcontrol]
    rfl
  obtain ⟨hi, h₀, hlt, htypes⟩ := h.data n hn i input (mem_zipIdx_iff_getElem?.1 hp) hcontrol
  have hout : readType stray _ (inputId input).2 = _ := if_pos ⟨h₀, hlt⟩
  have hin : readType stray _ (i : ℤ) = _ := if_pos ⟨Int.natCast_nonneg i, Int.ofNat_lt.2 hi⟩
  simp only [Link.Fits, Fits, builtNode, hlink, hout, hin, Int.toNat_natCast]
  exact htypes

/-- In a well-typed `GraphDef` a node can be converted whenever it is ready. -/
theorem WellTyped.convertible {done : List ℕ} {s : ConvertState α} {o : ℕ}
    (hs : Converted registry stray opts gdef done s) (ho : o < gdef.node.length)
    (henabled : Enabled (preds gdef) (need gdef) done o) :
    Convertible registry stray opts gdef s o := by
  refine ⟨⟨nofun, h.controlsLast o ho, fun input hinput hcontrol src hsrc ↦ ?_⟩, fun hany ↦ ?_,
    h.hasSignature o ho, fun l hl _ hindex ↦ h.fits ho hl hindex⟩
  · obtain ⟨i, hi⟩ := mem_iff_getElem?.1 hinput
    obtain ⟨-, -, hlt, -⟩ := h.data o ho i input hi hcontrol
    rw [hs.nodeNamed_eq (h.known o ho input hinput)] at hsrc
    by_cases hmem : srcIndex gdef input ∈ done
    · rw [if_pos hmem] at hsrc
      rw [← Option.some.inj hsrc, numOutputs, hs.findNodeId_eq hmem]
      exact hlt
    · rw [if_neg hmem] at hsrc
      cases hsrc
  · obtain ⟨input, hinput, hback⟩ := any_eq_true.1 hany
    cases hmerge : isMerge (gdef.nodeAt o) with
    | true => rfl
    | false =>
      have hmem := mem_of_enabled henabled hmerge _ (mem_map_of_mem hinput)
      rw [isDataBackEdge, hs.nodeNamed_eq (h.known o ho input hinput), if_pos hmem] at hback
      simp at hback

/-- A well-typed `GraphDef` is accepted if the conversion never gets stuck. -/
theorem WellTyped.exists_convert (hprogress : ∀ done : List ℕ, (∃ n < gdef.node.length, n ∉ done) →
      ∃ n < gdef.node.length, n ∉ done ∧ Enabled (preds gdef) (need gdef) done n) :
    ∃ g, convertGraphDefToGraph registry stray opts tfVersionString gdef = .ok g := by
  obtain ⟨s, hloop⟩ : ∃ s, convertLoop registry stray opts gdef (outputs gdef) gdef.node.length
      { graph := Graph.new, worklist := (edgeIndex gdef gdef.node.length).worklist } = .ok s :=
    (converting_nil gdef).exists_convertLoop h.known
      fun done s o hs ho henabled ↦ h.convertible hs ho henabled
  obtain ⟨done, hconv, hready⟩ := (converting_nil gdef).convertLoop h.known (by simp) hloop
  -- no node is left, since one of those left would be ready
  have hall : ∀ n < gdef.node.length, n ∈ done := by
    intro m hm
    by_contra hleft
    obtain ⟨n, hn, hdone, henabled⟩ := hprogress done ⟨m, hm, hleft⟩
    have hmem := (hconv.tracks.mem_ready n).2 ⟨hn, hdone, henabled⟩
    rw [hready] at hmem
    cases hmem
  have hprocessed : ¬s.processed < gdef.node.length := by
    have hsub : range gdef.node.length ⊆ done := fun n hn ↦ hall n (mem_range.1 hn)
    have hle := (subperm_of_subset nodup_range hsub).length_le
    rw [length_range, ← hconv.processed_eq] at hle
    exact Nat.not_lt.2 hle
  obtain ⟨forward, back, hedges, hbacks, hperm, hforward⟩ := hconv.edges_eq
  have hlink : ∀ l ∈ back, ∃ n < gdef.node.length, l ∈ links gdef n := by
    intro l hl
    obtain ⟨n, hn, hl⟩ := mem_flatMap.1 (hperm.mem_iff.1 (mem_append_right _ hl))
    exact ⟨n, hconv.tracks.lt n hn, hl⟩
  have hresolved : ∀ l ∈ back, l.src ∈ done ∧ l.dst ∈ done ∧
      gdef.nameIndex (gdef.nodeAt l.src).name = some l.src := by
    intro l hl
    obtain ⟨n, hn, hl'⟩ := hlink l hl
    exact ⟨hall _ (src_mem_of_mem_links h.known hn hl'), hall _ (dst_of_mem_links hl' ▸ hn),
      nameIndex_src h.known hn hl'⟩
  have hfits : ∀ l ∈ back, l.index ≠ -1 → l.Fits registry stray opts gdef := by
    intro l hl hindex
    obtain ⟨n, hn, hl'⟩ := hlink l hl
    exact h.fits hn hl' hindex
  have hback := (hconv.addBackEdges_eq_ok_iff hresolved rfl).2 ⟨hfits, rfl⟩
  rw [← hbacks] at hback
  refine ⟨_, ExceptPost.bind_eq_ok_iff.2 ⟨_, h.versions, ExceptPost.bind_eq_ok_iff.2 ⟨_,
    (buildNodeIndex_eq_ok_iff nodup_nil).2 ⟨h.nodeOk, h.names_nodup⟩,
    ExceptPost.bind_eq_ok_iff.2 ⟨_, initFromEdges_eq h.known, ExceptPost.bind_eq_ok_iff.2 ⟨s, ?_,
    ExceptPost.bind_eq_ok_iff.2 ⟨_, hback, rfl⟩⟩⟩⟩⟩⟩
  refine ExceptPost.bind_eq_ok_iff.2 ⟨s, hloop, ?_⟩
  rw [if_neg hprocessed]
  rfl

end TensorFlowCore.GraphConstructor
