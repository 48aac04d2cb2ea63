import TensorFlowCore.Framework.ShapeAbstraction

/-!
# The operators of `InferenceContext` are exact

Every operator against the sets of shapes that its operands admit. A list of dimensions is cut and
joined as the shapes that it admits are (`mem_concrete_append`), so that `MergePrefix`, `Subshape`
and `Concatenate` follow from what they do to lists.
-/

namespace TensorFlowCore

open List Option

variable {dims : List Dimension} {x : List ℤ} {d : Dimension}

namespace ShapeContext

open InferenceContext

/-! ### `Merge` -/

section Operators

variable {c : ShapeContext} {s s₀ s₁ : ShapeHandle} {results : Set (List ℤ)} {out : InferredShape}

theorem exact_ok (h : concrete out = results) (hne : results.Nonempty) :
    Exact (.ok out) results where
  admits _ hout := (Except.ok.inj hout ▸ h).ge
  only _ hout := (Except.ok.inj hout ▸ h).le
  fails := iff_of_false nofun hne.ne_empty

theorem sound_ok (h : results ⊆ concrete out) (hne : results.Nonempty) :
    Sound (.ok out) results where
  admits _ hout := Except.ok.inj hout ▸ h
  fails := iff_of_false nofun hne.ne_empty

theorem exact_error (e : Status) (h : results = ∅) : Exact (.error e) results where
  admits := nofun
  only := nofun
  fails := iff_of_true ⟨e, rfl⟩ h

/-- The dimensions of two handles of a context. -/
theorem Owns.coherent (hc : c.DimsValid) (h : ∀ d ∈ dims, c.dims.allDims[d.id]? = some d.value) :
    Coherent dims where
  valid d hd := hc _ (mem_of_getElem? (h d hd))
  value_eq d hd d' hd' hid := by
    have hd := h d hd
    rw [hid, h d' hd'] at hd
    exact (some.inj hd).symm

theorem exists_mem_concrete_of_owns (hc : c.DimsValid) (h : c.Owns s) :
    ∃ x, x ∈ concrete s.shape := by
  cases hs : s.shape with
  | none => exact ⟨[], nofun⟩
  | some dims =>
    exact exists_mem_concrete dims fun d hd ↦ hc _ (mem_of_getElem? (h.dims dims hs d hd))

theorem nonneg_of_owns (hc : c.DimsValid) (h : c.Owns s) (hx : x ∈ concrete s.shape) :
    ∀ n ∈ x, 0 ≤ n := by
  cases hs : s.shape with
  | none => rwa [hs] at hx
  | some dims =>
    rw [hs] at hx
    exact nonneg_of_mem_concrete (fun d hd ↦ hc _ (mem_of_getElem? (h.dims dims hs d hd))) hx

/-- Merging handles intersects the shapes that they stand for. -/
theorem exact_merge (hc : c.DimsValid) (h₀ : c.Owns s₀) (h₁ : c.Owns s₁) :
    ∃ r, c.merge s₀ s₁ = some r ∧
      Exact (returned r) (concrete s₀.shape ∩ concrete s₁.shape) := by
  obtain ⟨x₀, hx₀⟩ := exists_mem_concrete_of_owns hc h₀
  obtain ⟨x₁, hx₁⟩ := exists_mem_concrete_of_owns hc h₁
  unfold merge
  split
  next hid =>
    have hsame : s₀.shape = s₁.shape := some.inj (by rw [← h₀.shape, ← h₁.shape, hid])
    refine ⟨_, rfl, exact_ok ?_ ⟨x₀, hx₀, hsame ▸ hx₀⟩⟩
    rw [← hsame, Set.inter_self]
  next =>
    split
    next hs₁ =>
      have hsub : concrete s₀.shape ⊆ concrete s₁.shape := fun x hx ↦ by
        rw [hs₁]
        exact nonneg_of_owns hc h₀ hx
      exact ⟨_, rfl, exact_ok (Set.inter_eq_left.2 hsub).symm ⟨x₀, hx₀, hsub hx₀⟩⟩
    next dims₁ hs₀ hs₁ =>
      have hsub : concrete s₁.shape ⊆ concrete s₀.shape := fun x hx ↦ by
        rw [hs₀]
        exact nonneg_of_owns hc h₁ hx
      exact ⟨_, rfl, exact_ok (Set.inter_eq_right.2 hsub).symm ⟨x₁, hsub hx₁, hx₁⟩⟩
    next dims₀ dims₁ hs₀ hs₁ =>
      have hcoherent : Coherent (dims₀ ++ dims₁) := Owns.coherent hc fun d hd ↦
        (mem_append.1 hd).elim (h₀.dims dims₀ hs₀ d) (h₁.dims dims₁ hs₁ d)
      rw [hs₀, hs₁]
      split
      next hrank =>
        refine ⟨_, rfl, exact_error _ (Set.eq_empty_iff_forall_notMem.2 fun x hx ↦ hrank ?_)⟩
        rw [ShapeHandle.rank, ShapeHandle.rank, hs₀, hs₁]
        dsimp only
        rw [← length_of_mem_concrete hx.1, ← length_of_mem_concrete hx.2]
      next hrank =>
        have hlen : dims₀.length = dims₁.length := by
          rw [not_not, ShapeHandle.rank, ShapeHandle.rank, hs₀, hs₁] at hrank
          exact Int.ofNat.inj hrank
        obtain ⟨hoks, herrors⟩ := mergeDims_spec hlen hcoherent
        obtain ⟨a, b, dims, hscan, hdims, ha, hb⟩ | ⟨⟨e, hscan⟩, herror⟩ :=
          mergeScan_spec true true 0 hlen hcoherent
        · obtain ⟨x, hx⟩ := exists_mem_concrete dims fun d hd ↦
            hcoherent.valid d (mergeDims_subset hdims hd)
          have hne : (concrete (some dims₀) ∩ concrete (some dims₁)).Nonempty :=
            ⟨x, by rwa [hoks dims hdims] at hx⟩
          rw [hscan]
          dsimp only
          split
          next hreturn =>
            refine ⟨_, rfl, ?_⟩
            by_cases hat : a = true
            · rw [if_pos hat]
              refine exact_ok ?_ hne
              show concrete s₀.shape = _
              rw [hs₀]
              exact (Set.inter_eq_left.2 (ha hat).2).symm
            · rw [if_neg hat]
              refine exact_ok ?_ hne
              show concrete s₁.shape = _
              rw [hs₁]
              exact (Set.inter_eq_right.2 (hb (hreturn.resolve_left hat)).2).symm
          next =>
            rw [hdims]
            exact ⟨_, rfl, exact_ok (hoks dims hdims) hne⟩
        · rw [hscan]
          exact ⟨_, rfl, exact_error e (herrors herror)⟩

/-! ### Ranks -/

theorem unknownDims_length (n : ℕ) (c : InferenceContext) : (unknownDims n c).1.length = n := by
  induction n generalizing c with
  | zero => rfl
  | succ n ih => exact congrArg (· + 1) (ih _)

theorem mem_unknownDims {n : ℕ} {c : InferenceContext} :
    ∀ d ∈ (unknownDims n c).1, d.value = kUnknownDim := by
  induction n generalizing c with
  | zero => exact nofun
  | succ n ih => exact forall_mem_cons.2 ⟨rfl, ih⟩

theorem mem_concrete_of_unknown (h : ∀ d ∈ dims, d.value = kUnknownDim)
    (hlen : x.length = dims.length) (hx : ∀ n ∈ x, 0 ≤ n) : x ∈ concrete (some dims) := by
  induction dims generalizing x with
  | nil =>
    obtain rfl := eq_nil_of_length_eq_zero hlen
    exact nil_mem_concrete
  | cons d dims ih =>
    obtain ⟨n, x, rfl⟩ := exists_cons_of_length_eq_add_one hlen
    obtain ⟨hd, hdims⟩ := forall_mem_cons.1 h
    obtain ⟨hn, hx⟩ := forall_mem_cons.1 hx
    exact mem_concrete_cons.2 ⟨(standsFor_unknown hd n).2 hn, ih hdims (Nat.succ.inj hlen) hx⟩

theorem rank_of_none (hs : s.shape = none) : s.rank = kUnknownRank := by
  rw [ShapeHandle.rank, hs]

section

variable {dims : List Dimension} (hs : s.shape = some dims)
include hs

theorem rank_of_some : s.rank = dims.length := by
  rw [ShapeHandle.rank, hs]

theorem rank_ne_unknown : s.rank ≠ kUnknownRank := by
  rw [rank_of_some hs, kUnknownRank]
  omega

/-- The members of a shape of known rank have that rank. -/
theorem rank_eq_length (hx : x ∈ concrete s.shape) : s.rank = x.length := by
  rw [hs] at hx
  rw [rank_of_some hs, length_of_mem_concrete hx]

end

theorem replicate_zero_mem (hs : s.shape = none) (n : ℕ) :
    List.replicate n 0 ∈ concrete s.shape := by
  rw [hs]
  exact fun k hk ↦ (eq_of_mem_replicate hk).ge

theorem sound_error (e : Status) (h : results = ∅) : Sound (.error e) results :=
  (exact_error e h).toSound

/-- A test of a known rank leaves out the ranks that fail it. -/
theorem sound_ite_rank {p : ℤ → Prop} [DecidablePred p] (hs : s.shape = some dims)
    (hx : x ∈ concrete s.shape) (error : Status) :
    Sound (returned (if p s.rank then .ok (s, c) else .error error))
      {y ∈ concrete s.shape | p y.length} := by
  split
  next hp => exact sound_ok (fun y hy ↦ hy.1) ⟨x, hx, rank_eq_length hs hx ▸ hp⟩
  next hnot =>
    refine sound_error _ (Set.eq_empty_iff_forall_notMem.2 fun y hy ↦ hnot ?_)
    rw [rank_eq_length hs hy.1]
    exact hy.2

/-- What is of another rank is refused or left out, and nothing else. -/
theorem sound_withRank (hc : c.DimsValid) (h : c.Owns s) {rank : ℤ}
    (hrank : 0 ≤ rank ∨ s.shape ≠ none) :
    ∃ r, c.withRank s rank = some r ∧
      Sound (returned r) {x ∈ concrete s.shape | x.length = rank} := by
  obtain ⟨x, hx⟩ := exists_mem_concrete_of_owns hc h
  unfold withRank
  cases hs : s.shape with
  | none =>
    have hrank : 0 ≤ rank := hrank.resolve_right fun hne ↦ hne hs
    rw [rank_of_none hs, if_neg (by rw [kUnknownRank]; omega), if_pos rfl, if_neg hrank.not_gt]
    refine ⟨_, rfl, sound_ok (fun y hy ↦ ?_) ⟨replicate rank.toNat 0, hs ▸
      replicate_zero_mem hs _, ?_⟩⟩
    · refine mem_concrete_of_unknown mem_unknownDims ?_ hy.1
      rw [unknownDims_length]
      exact Int.ofNat.inj (hy.2.trans (Int.toNat_of_nonneg hrank).symm)
    · rw [length_replicate, Int.toNat_of_nonneg hrank]
  | some dims =>
    rw [← hs]
    by_cases heq : s.rank = rank
    · rw [if_pos heq]
      exact ⟨_, rfl, sound_ok (fun y hy ↦ hy.1) ⟨x, hx, (rank_eq_length hs hx).symm.trans heq⟩⟩
    · rw [if_neg heq, if_neg (rank_ne_unknown hs)]
      refine ⟨_, rfl, sound_error _ (Set.eq_empty_iff_forall_notMem.2 fun y hy ↦ heq ?_)⟩
      exact (rank_eq_length hs hy.1).trans hy.2

theorem sound_withRankAtLeast (hc : c.DimsValid) (h : c.Owns s) (rank : ℤ) :
    Sound (returned (c.withRankAtLeast s rank)) {x ∈ concrete s.shape | rank ≤ x.length} := by
  obtain ⟨x, hx⟩ := exists_mem_concrete_of_owns hc h
  unfold withRankAtLeast
  dsimp only
  cases hs : s.shape with
  | none =>
    have hne : {y ∈ concrete none | rank ≤ y.length}.Nonempty := by
      refine ⟨replicate rank.toNat 0, hs ▸ replicate_zero_mem hs _, ?_⟩
      rw [length_replicate]
      exact Int.self_le_toNat rank
    rw [rank_of_none hs, if_pos (c := kUnknownRank = kUnknownRank) rfl]
    split
    · refine sound_ok (fun y hy ↦ ?_) hne
      show y ∈ concrete s.shape
      rw [hs]
      exact hy.1
    · exact sound_ok (fun y hy ↦ hy.1) hne
  | some dims =>
    rw [← hs, if_neg (rank_ne_unknown hs)]
    exact sound_ite_rank (p := (· ≥ rank)) hs hx _

theorem sound_withRankAtMost (hc : c.DimsValid) (h : c.Owns s) {rank : ℤ}
    (hrank : 0 ≤ rank ∨ s.shape ≠ none) :
    Sound (returned (c.withRankAtMost s rank)) {x ∈ concrete s.shape | x.length ≤ rank} := by
  obtain ⟨x, hx⟩ := exists_mem_concrete_of_owns hc h
  unfold withRankAtMost
  cases hs : s.shape with
  | none =>
    rw [rank_of_none hs, if_pos rfl]
    exact sound_ok (fun y hy ↦ hy.1) ⟨[], nofun, hrank.resolve_right fun hne ↦ hne hs⟩
  | some dims =>
    rw [← hs, if_neg (rank_ne_unknown hs)]
    exact sound_ite_rank (p := (· ≤ rank)) hs hx _

/-! ### Parts of shapes -/

theorem mem_concrete_append {a b : List Dimension} : x ∈ concrete (some (a ++ b)) ↔
      ∃ y ∈ concrete (some a), ∃ z ∈ concrete (some b), y ++ z = x := by
  induction a generalizing x with
  | nil =>
    refine ⟨fun hx ↦ ⟨[], nil_mem_concrete, x, hx, rfl⟩, ?_⟩
    rintro ⟨y, hy, z, hz, rfl⟩
    obtain rfl := eq_nil_of_length_eq_zero (length_of_mem_concrete hy)
    exact hz
  | cons d a ih =>
    constructor
    · intro hx
      obtain ⟨n, x, rfl⟩ := exists_cons_of_length_eq_add_one (length_of_mem_concrete hx)
      obtain ⟨hn, hx⟩ := mem_concrete_cons.1 hx
      obtain ⟨y, hy, z, hz, rfl⟩ := ih.1 hx
      exact ⟨n :: y, mem_concrete_cons.2 ⟨hn, hy⟩, z, hz, rfl⟩
    · rintro ⟨y, hy, z, hz, rfl⟩
      obtain ⟨n, y, rfl⟩ := exists_cons_of_length_eq_add_one (length_of_mem_concrete hy)
      obtain ⟨hn, hy⟩ := mem_concrete_cons.1 hy
      exact mem_concrete_cons.2 ⟨hn, ih.2 ⟨y, hy, z, hz, rfl⟩⟩

section

variable {dims : List Dimension} {x : List ℤ} (h : x ∈ concrete (some dims)) (n : ℕ)
include h n

theorem take_mem_concrete : x.take n ∈ concrete (some (dims.take n)) := forall₂_take n h

theorem drop_mem_concrete : x.drop n ∈ concrete (some (dims.drop n)) := forall₂_drop n h

end

/-- Each member of a part of a shape is that part of a member of the shape. -/
theorem exists_take_drop (h : ∀ d ∈ dims, Valid d.value) {a b : ℕ} {y : List ℤ}
    (hy : y ∈ concrete (some ((dims.drop a).take b))) :
    ∃ x ∈ concrete (some dims), (x.drop a).take b = y := by
  obtain ⟨u, hu⟩ := exists_mem_concrete (dims.take a) fun d hd ↦ h d (mem_of_mem_take (i := a) hd)
  obtain ⟨v, hv⟩ := exists_mem_concrete ((dims.drop a).drop b) fun d hd ↦
    h d (mem_of_mem_drop (mem_of_mem_drop hd))
  have hrest : y ++ v ∈ concrete (some (dims.drop a)) := by
    rw [← take_append_drop b (dims.drop a)]
    exact mem_concrete_append.2 ⟨y, hy, v, hv, rfl⟩
  refine ⟨u ++ (y ++ v), ?_, ?_⟩
  · rw [← take_append_drop a dims]
    exact mem_concrete_append.2 ⟨u, hu, y ++ v, hrest, rfl⟩
  · have hu' : u.length = min a dims.length := by rw [length_of_mem_concrete hu, length_take]
    have hrest' : (y ++ v).length = dims.length - a := by
      rw [length_of_mem_concrete hrest, length_drop]
    have hy' : y.length = min b (dims.length - a) := by
      rw [length_of_mem_concrete hy, length_take, length_drop]
    have hdrop : (u ++ (y ++ v)).drop a = y ++ v := by
      obtain ha | ha := le_total a dims.length
      · exact drop_left' (hu'.trans (min_eq_left ha))
      · rw [eq_nil_of_length_eq_zero (hrest'.trans (Nat.sub_eq_zero_of_le ha)), append_nil]
        exact drop_eq_nil_of_le (hu'.trans_le (min_le_left _ _))
    rw [hdrop]
    obtain hb | hb := le_total b (dims.length - a)
    · exact take_left' (hy'.trans (min_eq_left hb))
    · have hv' : v = [] := by
        rw [length_append, hy', min_eq_right hb] at hrest'
        exact eq_nil_of_length_eq_zero (by omega)
      rw [hv', append_nil]
      exact take_of_length_le (hy'.trans_le (min_le_left _ _))

theorem Owns.valid (hc : c.DimsValid) (h : c.Owns s) (hs : s.shape = some dims) :
    ∀ d ∈ dims, Valid d.value :=
  fun d hd ↦ hc _ (mem_of_getElem? (h.dims dims hs d hd))

theorem mergeDims_take {dims₀ dims₁ : List Dimension} :
    mergeDims (dims₀.take dims₁.length) dims₁ = mergeDims dims₀ dims₁ := by
  induction dims₁ generalizing dims₀ with
  | nil => cases dims₀ <;> rfl
  | cons d₁ dims₁ ih =>
    cases dims₀ with
    | nil => rfl
    | cons d₀ dims₀ =>
      rw [length_cons, take_succ_cons, mergeDims_cons, mergeDims_cons, ih]

section

variable {dims₀ dims₁ : List Dimension} (hs₀ : s₀.shape = some dims₀) (hs₁ : s₁.shape = some dims₁)
include hs₀ hs₁

/-- Where both ranks are known, the first shape keeps its rank and its last dimensions. -/
theorem mergePrefix_eq (hlen : dims₁.length ≤ dims₀.length) :
    (c.mergePrefix s₀ s₁).map (fun out ↦ (out.1.shape, out.2.1.shape)) =
      (mergeDims (dims₀.take dims₁.length) dims₁).map fun dims ↦
        (some (dims ++ dims₀.drop dims₁.length), some dims) := by
  have hrank : s₀.rank ≥ s₁.rank := by
    rw [rank_of_some hs₀, rank_of_some hs₁]
    exact Int.ofNat_le.2 hlen
  rw [mergePrefix, hs₀, hs₁]
  rw [withRankAtLeast, if_pos hrank]
  dsimp only
  rw [hs₀, getD_some, mergeDims_take]
  cases mergeDims dims₀ dims₁ <;> rfl

theorem mergePrefix_error (hlen : ¬ dims₁.length ≤ dims₀.length) :
    ∃ e, c.mergePrefix s₀ s₁ = .error e := by
  have hrank : ¬ s₀.rank ≥ s₁.rank := by
    rw [rank_of_some hs₀, rank_of_some hs₁]
    exact fun h ↦ hlen (Int.ofNat_le.1 h)
  rw [mergePrefix, hs₀, hs₁]
  rw [withRankAtLeast, if_neg hrank, if_neg (rank_ne_unknown hs₀)]
  exact ⟨_, rfl⟩

end

theorem mergePrefixExact_error {e : Status} (he : c.mergePrefix s₀ s₁ = .error e)
    (hnone : ∀ x ∈ concrete s₀.shape, ∀ p ∈ concrete s₁.shape, ¬ p <+: x) :
    MergePrefixExact c s₀ s₁ := by
  constructor
  · rw [he]
    refine exact_error e (Set.eq_empty_iff_forall_notMem.2 ?_)
    rintro x ⟨hx, p, hp, hpx⟩
    exact hnone x hx p hp hpx
  · rw [he]
    refine exact_error e (Set.eq_empty_iff_forall_notMem.2 ?_)
    rintro p ⟨hp, x, hx, hpx⟩
    exact hnone x hx p hp hpx

/-- The first dimensions of a shape are merged with the prefix. -/
theorem take_of_isPrefix {x p : List ℤ} (hp : p ∈ concrete (some dims)) (hpx : p <+: x) :
    x.take dims.length = p := by
  rw [← length_of_mem_concrete hp]
  exact (prefix_iff_eq_take.1 hpx).symm

/-- What a prefix merge returns is exact if the merged part is. -/
theorem mergePrefixExact_ok {dims₀ dims₁ dims : List Dimension}
    {out : ShapeHandle × ShapeHandle × ShapeContext} (hs₀ : s₀.shape = some dims₀)
    (hs₁ : s₁.shape = some dims₁) (hout : c.mergePrefix s₀ s₁ = .ok out)
    (hshape : out.1.shape = some (dims ++ dims₀.drop dims₁.length))
    (hcommon : out.2.1.shape = some dims) (hvalid₀ : ∀ d ∈ dims₀, Valid d.value)
    (hvalid : ∀ d ∈ dims, Valid d.value)
    (hinter : concrete (some dims) = concrete (some (dims₀.take dims₁.length)) ∩ concrete
      (some dims₁)) : MergePrefixExact c s₀ s₁ := by
  have hsplit {x : List ℤ} : x ∈ concrete (some (dims ++ dims₀.drop dims₁.length)) ↔
      x ∈ concrete s₀.shape ∧ ∃ p ∈ concrete s₁.shape, p <+: x := by
    rw [mem_concrete_append, hinter, hs₀, hs₁]
    constructor
    · rintro ⟨y, hy, z, hz, rfl⟩
      refine ⟨?_, y, hy.2, prefix_append y z⟩
      rw [← take_append_drop dims₁.length dims₀]
      exact mem_concrete_append.2 ⟨y, hy.1, z, hz, rfl⟩
    · rintro ⟨hx, p, hp, hpx⟩
      have hp' := take_of_isPrefix hp hpx
      exact ⟨p, ⟨hp' ▸ take_mem_concrete hx _, hp⟩, _, drop_mem_concrete hx dims₁.length,
        by rw [← hp', take_append_drop]⟩
  have hfront {p : List ℤ} : p ∈ concrete (some dims) ↔
      p ∈ concrete s₁.shape ∧ ∃ x ∈ concrete s₀.shape, p <+: x := by
    rw [hinter, hs₀, hs₁]
    constructor
    · intro hp
      obtain ⟨z, hz⟩ := exists_mem_concrete (dims₀.drop dims₁.length) fun d hd ↦
        hvalid₀ d (mem_of_mem_drop hd)
      refine ⟨hp.2, p ++ z, ?_, prefix_append p z⟩
      rw [← take_append_drop dims₁.length dims₀]
      exact mem_concrete_append.2 ⟨p, hp.1, z, hz, rfl⟩
    · rintro ⟨hp, x, hx, hpx⟩
      exact ⟨take_of_isPrefix hp hpx ▸ take_mem_concrete hx _, hp⟩
  obtain ⟨p, hp⟩ := exists_mem_concrete _ hvalid
  obtain ⟨hp₁, x, hx, hpx⟩ := hfront.1 hp
  constructor
  · rw [hout]
    refine exact_ok ?_ ⟨x, hx, p, hp₁, hpx⟩
    show concrete out.1.shape = _
    rw [hshape]
    exact Set.ext fun x ↦ hsplit
  · rw [hout]
    refine exact_ok ?_ ⟨p, hp₁, x, hx, hpx⟩
    show concrete out.2.1.shape = _
    rw [hcommon]
    exact Set.ext fun p ↦ hfront

/-- With both ranks known nothing is lost: each side keeps what agrees with the other. -/
theorem exact_mergePrefix (hc : c.DimsValid) (h₀ : c.Owns s₀) (h₁ : c.Owns s₁)
    (hne₀ : s₀.shape ≠ none) (hne₁ : s₁.shape ≠ none) : MergePrefixExact c s₀ s₁ := by
  obtain ⟨dims₀, hs₀⟩ := ne_none_iff_exists'.1 hne₀
  obtain ⟨dims₁, hs₁⟩ := ne_none_iff_exists'.1 hne₁
  by_cases hlen : dims₁.length ≤ dims₀.length
  · have heq := mergePrefix_eq (c := c) hs₀ hs₁ hlen
    have hcoherent : Coherent (dims₀.take dims₁.length ++ dims₁) := Owns.coherent hc fun d hd ↦
      (mem_append.1 hd).elim (fun hd ↦ h₀.dims dims₀ hs₀ d (mem_of_mem_take hd))
        (h₁.dims dims₁ hs₁ d)
    obtain ⟨hok, herror⟩ := mergeDims_spec (by rw [length_take, min_eq_left hlen]) hcoherent
    cases hdims : mergeDims (dims₀.take dims₁.length) dims₁ with
    | error e =>
      rw [hdims] at heq
      cases hm : c.mergePrefix s₀ s₁ with
      | ok out => rw [hm] at heq; cases heq
      | error e' =>
        refine mergePrefixExact_error hm fun x hx p hp hpx ↦ ?_
        rw [hs₀] at hx
        rw [hs₁] at hp
        exact Set.eq_empty_iff_forall_notMem.1 (herror ⟨e, hdims⟩) p
          ⟨take_of_isPrefix hp hpx ▸ take_mem_concrete hx _, hp⟩
    | ok dims =>
      rw [hdims] at heq
      cases hm : c.mergePrefix s₀ s₁ with
      | error e' => rw [hm] at heq; cases heq
      | ok out =>
        rw [hm] at heq
        obtain ⟨hshape, hcommon⟩ := Prod.ext_iff.1 (Except.ok.inj heq)
        exact mergePrefixExact_ok hs₀ hs₁ hm hshape hcommon (h₀.valid hc hs₀)
          (fun d hd ↦ hcoherent.valid d (mergeDims_subset hdims hd)) (hok dims hdims)
  · obtain ⟨e, he⟩ := mergePrefix_error (c := c) hs₀ hs₁ hlen
    refine mergePrefixExact_error he fun x hx p hp hpx ↦ hlen ?_
    rw [hs₀] at hx
    rw [hs₁] at hp
    rw [← length_of_mem_concrete hx, ← length_of_mem_concrete hp]
    exact hpx.length_le

theorem sound_mergePrefix (hc : c.DimsValid) (h₀ : c.Owns s₀) (h₁ : c.Owns s₁) :
    MergePrefixSound c s₀ s₁ := by
  by_cases hne : s₀.shape ≠ none ∧ s₁.shape ≠ none
  · have h := exact_mergePrefix hc h₀ h₁ hne.1 hne.2
    exact ⟨h.shape.toSound, h.prefixShape.toSound⟩
  · have hout : c.mergePrefix s₀ s₁ = .ok (s₀, s₁, c) := by
      rw [mergePrefix]
      split
      next hs₀ hs₁ => exact absurd ⟨hs₀ ▸ nofun, hs₁ ▸ nofun⟩ hne
      next => rfl
    obtain ⟨x, hx, p, hp, hpx⟩ :
        ∃ x ∈ concrete s₀.shape, ∃ p ∈ concrete s₁.shape, p <+: x := by
      by_cases hs₀ : s₀.shape = none
      · obtain ⟨p, hp⟩ := exists_mem_concrete_of_owns hc h₁
        exact ⟨p, hs₀ ▸ nonneg_of_owns hc h₁ hp, p, hp, prefix_rfl⟩
      · have hs₁ : s₁.shape = none := by_contra fun hs₁ ↦ hne ⟨hs₀, hs₁⟩
        obtain ⟨x, hx⟩ := exists_mem_concrete_of_owns hc h₀
        exact ⟨x, hx, x, hs₁ ▸ nonneg_of_owns hc h₀ hx, prefix_rfl⟩
    constructor
    · rw [hout]
      exact sound_ok (fun y hy ↦ hy.1) ⟨x, hx, p, hp, hpx⟩
    · rw [hout]
      exact sound_ok (fun y hy ↦ hy.1) ⟨p, hp, x, hx, hpx⟩

/-! ### `Subshape`, `Concatenate` and `ReplaceDim` -/

theorem toInt_int64Max : int64Max.toInt = 2 ^ 63 - 1 := by decide

/-- The whole shape. -/
theorem subshapeOf_all {stop : Int64} (h : (x.length : ℤ) ≤ stop.toInt) :
    subshapeOf 0 stop x = some x := by
  have hzero : position x.length 0 = 0 := by
    rw [position, Int64.toInt_zero, if_neg (by omega), if_neg (by omega)]
  have hstop : position x.length stop = x.length := by
    unfold position
    split
    · rfl
    · rw [if_neg (by omega)]
      omega
  rw [subshapeOf, hzero, hstop, if_pos ⟨le_rfl, Int.natCast_nonneg _⟩, Int.toNat_zero, drop_zero,
    sub_zero, Int.toNat_natCast, take_length]

/-- The bounds that `Subshape` computes. -/
theorem position_eq (length : ℕ) (i : Int64) :
    (let j := if i.toInt > length then (length : ℤ) else i.toInt
     if j < 0 then length + j else j) = position length i := by
  unfold position
  split
  next => exact if_neg (by omega)
  next => rfl

/-- A subshape of known rank stands for the subshapes of what the shape stands for. -/
theorem exact_subshape (hc : c.DimsValid) (h : c.Owns s) (hne : s.shape ≠ none)
    (start stop : Int64) :
    Exact (returned (c.subshape s start stop))
      {y | ∃ x ∈ concrete s.shape, subshapeOf start stop x = some y} := by
  obtain ⟨dims, hs⟩ := ne_none_iff_exists'.1 hne
  obtain ⟨x, hx⟩ := exists_mem_concrete_of_owns hc h
  have hlength {y : List ℤ} (hy : y ∈ concrete s.shape) : y.length = dims.length :=
    length_of_mem_concrete (hs ▸ hy)
  unfold subshape
  dsimp only
  split
  next hall =>
    obtain ⟨rfl, hstop⟩ := hall
    have hle : (dims.length : ℤ) ≤ stop.toInt := by
      obtain ⟨-, hle⟩ | rfl := hstop
      · rwa [rank_of_some hs] at hle
      · have := h.rank_lt dims hs
        rw [toInt_int64Max]
        omega
    have hid {y : List ℤ} (hy : y ∈ concrete s.shape) : subshapeOf 0 stop y = some y :=
      subshapeOf_all (by rwa [hlength hy])
    refine exact_ok (Set.ext fun y ↦ ⟨fun hy ↦ ⟨y, hy, hid hy⟩, ?_⟩) ⟨x, x, hx, hid hx⟩
    rintro ⟨z, hz, hzy⟩
    obtain rfl : z = y := some.inj ((hid hz).symm.trans hzy)
    exact hz
  next =>
    rw [rank_of_some hs, hs]
    dsimp only
    rw [position_eq, position_eq]
    have hnone (hrange : ¬ (0 ≤ position dims.length start ∧
        position dims.length start ≤ position dims.length stop)) :
        {y | ∃ x ∈ concrete (some dims), subshapeOf start stop x = some y} = ∅ := by
      refine Set.eq_empty_iff_forall_notMem.2 ?_
      rintro y ⟨z, hz, hzy⟩
      rw [subshapeOf, length_of_mem_concrete hz, if_neg hrange] at hzy
      cases hzy
    split
    next hstart => exact exact_error _ (hnone fun hrange ↦ hrange.1.not_gt hstart)
    next =>
      split
      next hstop => exact exact_error _ (hnone fun hrange ↦ (hrange.1.trans hrange.2).not_gt hstop)
      next =>
        split
        next hgt => exact exact_error _ (hnone fun hrange ↦ hrange.2.not_gt hgt)
        next hstart _ hle =>
          have hrange := And.intro (not_lt.1 hstart) (not_lt.1 hle)
          have hpart {y : List ℤ} (hy : y ∈ concrete (some dims)) : subshapeOf start stop y =
              some ((y.drop (position dims.length start).toNat).take
                (position dims.length stop - position dims.length start).toNat) := by
            rw [subshapeOf, length_of_mem_concrete hy, if_pos hrange]
          rw [hs] at hx
          refine exact_ok (Set.ext fun y ↦ ⟨fun hy ↦ ?_, ?_⟩) ⟨_, x, hx, hpart hx⟩
          · obtain ⟨z, hz, hzy⟩ := exists_take_drop (h.valid hc hs) hy
            exact ⟨z, hz, (hpart hz).trans (congrArg some hzy)⟩
          · rintro ⟨z, hz, hzy⟩
            obtain rfl := some.inj ((hpart hz).symm.trans hzy)
            exact take_mem_concrete (drop_mem_concrete hz _) _

/-- Nothing is refused where the rank is unknown. -/
theorem subshape_unknown (hs : s.shape = none) (start stop : Int64) :
    returned (c.subshape s start stop) = .ok none := by
  unfold subshape
  dsimp only
  split
  · exact congrArg Except.ok hs
  · rw [hs]
    rfl

theorem nonneg_of_subshapeOf {start stop : Int64} {x y : List ℤ} (hx : ∀ n ∈ x, 0 ≤ n)
    (hy : subshapeOf start stop x = some y) : ∀ n ∈ y, 0 ≤ n := by
  rw [subshapeOf] at hy
  split at hy
  · cases hy
    exact fun n hn ↦ hx n (mem_of_mem_drop (mem_of_mem_take hn))
  · cases hy

theorem exact_concatenate (hc : c.DimsValid) (h₀ : c.Owns s₀) (h₁ : c.Owns s₁)
    (hne₀ : s₀.shape ≠ none) (hne₁ : s₁.shape ≠ none) : Exact (returned (c.concatenate s₀ s₁))
      {y | ∃ x ∈ concrete s₀.shape, ∃ x' ∈ concrete s₁.shape, x ++ x' = y} := by
  obtain ⟨dims₀, hs₀⟩ := ne_none_iff_exists'.1 hne₀
  obtain ⟨dims₁, hs₁⟩ := ne_none_iff_exists'.1 hne₁
  obtain ⟨x₀, hx₀⟩ := exists_mem_concrete_of_owns hc h₀
  obtain ⟨x₁, hx₁⟩ := exists_mem_concrete_of_owns hc h₁
  rw [concatenate, hs₀, hs₁]
  rw [hs₀] at hx₀
  rw [hs₁] at hx₁
  exact exact_ok (Set.ext fun y ↦ mem_concrete_append) ⟨x₀ ++ x₁, x₀, hx₀, x₁, hx₁, rfl⟩

theorem sound_concatenate (hc : c.DimsValid) (h₀ : c.Owns s₀) (h₁ : c.Owns s₁) :
    Sound (returned (c.concatenate s₀ s₁))
      {y | ∃ x ∈ concrete s₀.shape, ∃ x' ∈ concrete s₁.shape, x ++ x' = y} := by
  by_cases hne : s₀.shape ≠ none ∧ s₁.shape ≠ none
  · exact (exact_concatenate hc h₀ h₁ hne.1 hne.2).toSound
  · have hout : c.concatenate s₀ s₁ = .ok c.unknownShape := by
      rw [concatenate]
      split
      next hs₀ hs₁ => exact absurd ⟨hs₀ ▸ nofun, hs₁ ▸ nofun⟩ hne
      next => rfl
    obtain ⟨x₀, hx₀⟩ := exists_mem_concrete_of_owns hc h₀
    obtain ⟨x₁, hx₁⟩ := exists_mem_concrete_of_owns hc h₁
    rw [hout]
    refine sound_ok ?_ ⟨x₀ ++ x₁, x₀, hx₀, x₁, hx₁, rfl⟩
    rintro y ⟨x, hx, x', hx', rfl⟩
    exact fun n hn ↦ (mem_append.1 hn).elim (nonneg_of_owns hc h₀ hx n) (nonneg_of_owns hc h₁ hx' n)

theorem set_mem_concrete {n : ℤ} (hx : x ∈ concrete (some dims)) (hn : StandsFor (known d.value) n)
    (k : ℕ) : x.set k n ∈ concrete (some (dims.set k d)) := by
  induction hx generalizing k with
  | nil => exact nil_mem_concrete
  | cons hm hx ih =>
    cases k with
    | zero => exact mem_concrete_cons.2 ⟨hn, hx⟩
    | succ k => exact mem_concrete_cons.2 ⟨hm, ih k⟩

/-- Each member of the shape with the dimension replaced comes from a member of the shape. -/
theorem exists_set (h : ∀ d ∈ dims, Valid d.value) {k : ℕ} (hk : k < dims.length) {y : List ℤ}
    (hy : y ∈ concrete (some (dims.set k d))) :
    ∃ x ∈ concrete (some dims), ∃ n, StandsFor (known d.value) n ∧ x.set k n = y := by
  induction dims generalizing k y with
  | nil => exact absurd hk (Nat.not_lt_zero _)
  | cons e dims ih =>
    obtain ⟨he, hdims⟩ := forall_mem_cons.1 h
    cases k with
    | zero =>
      obtain ⟨n, y, rfl⟩ := exists_cons_of_length_eq_add_one (length_of_mem_concrete hy)
      obtain ⟨hn, hy⟩ := mem_concrete_cons.1 hy
      obtain ⟨m, hm⟩ := exists_standsFor he
      exact ⟨m :: y, mem_concrete_cons.2 ⟨hm, hy⟩, n, hn, rfl⟩
    | succ k =>
      obtain ⟨m, y, rfl⟩ := exists_cons_of_length_eq_add_one (length_of_mem_concrete hy)
      obtain ⟨hm, hy⟩ := mem_concrete_cons.1 hy
      obtain ⟨x, hx, n, hn, rfl⟩ := ih hdims (Nat.lt_of_succ_lt_succ hk) hy
      exact ⟨m :: x, mem_concrete_cons.2 ⟨hm, hx⟩, n, hn, rfl⟩

/-- With a known rank the new dimension takes the place of the old one in every shape. -/
theorem exact_replaceDim (hc : c.DimsValid) (h : c.Owns s) (hne : s.shape ≠ none) (i : ℤ)
    (hd : c.dims.allDims[d.id]? = some d.value) : Exact (returned (c.replaceDim s i d))
      {y | ∃ x ∈ concrete s.shape, ∃ n, StandsFor (known d.value) n ∧
        replaceDimOf i n x = some y} := by
  obtain ⟨dims, hs⟩ := ne_none_iff_exists'.1 hne
  obtain ⟨x, hx⟩ := exists_mem_concrete_of_owns hc h
  obtain ⟨m, hm⟩ := exists_standsFor (hc _ (mem_of_getElem? hd))
  obtain ⟨j, hj⟩ : ∃ j, (if i < 0 then dims.length + i else i) = j := ⟨_, rfl⟩
  rw [hs] at hx ⊢
  rw [replaceDim, hs]
  dsimp only
  rw [hj]
  split
  next hrange =>
    obtain ⟨k, rfl⟩ := Int.eq_ofNat_of_zero_le hrange.1
    have hset {z : List ℤ} (hz : z ∈ concrete (some dims)) (n : ℤ) :
        replaceDimOf i n z = some (z.set k n) := by
      rw [replaceDimOf, length_of_mem_concrete hz, hj]
      exact if_pos hrange
    refine exact_ok (Set.ext fun y ↦ ⟨fun hy ↦ ?_, ?_⟩) ⟨_, x, hx, m, hm, hset hx m⟩
    · obtain ⟨z, hz, n, hn, hzy⟩ := exists_set (h.valid hc hs) (Int.ofNat_lt.1 hrange.2) hy
      exact ⟨z, hz, n, hn, (hset hz n).trans (congrArg some hzy)⟩
    · rintro ⟨z, hz, n, hn, hzy⟩
      obtain rfl := some.inj ((hset hz n).symm.trans hzy)
      exact set_mem_concrete hz hn k
  next hrange =>
    refine exact_error _ (Set.eq_empty_iff_forall_notMem.2 ?_)
    rintro y ⟨z, hz, n, -, hzy⟩
    rw [replaceDimOf, length_of_mem_concrete hz, hj, if_neg hrange] at hzy
    cases hzy

/-- A replaced dimension admits its new sizes and no others. -/
theorem sound_replaceDim (hc : c.DimsValid) (h : c.Owns s) (i : ℤ)
    (hd : c.dims.allDims[d.id]? = some d.value) : Sound (returned (c.replaceDim s i d))
      {y | ∃ x ∈ concrete s.shape, ∃ n, StandsFor (known d.value) n ∧
        replaceDimOf i n x = some y} := by
  by_cases hs : s.shape = none
  · have hvalid := hc _ (mem_of_getElem? hd)
    obtain ⟨m, hm⟩ := exists_standsFor hvalid
    rw [hs, replaceDim, hs]
    refine sound_ok ?_ ?_
    · rintro y ⟨x, hx, n, hn, hxy⟩
      simp only [replaceDimOf, ite_none_right_eq_some] at hxy
      obtain ⟨-, hxy⟩ := hxy
      cases hxy
      exact fun a ha ↦ (mem_or_eq_of_mem_set ha).elim (hx a) fun heq ↦
        heq ▸ nonneg_of_standsFor hvalid hn
    · -- a shape that has the index
      refine ⟨(replicate (i.natAbs + 1) 0).set (if i < 0 then ↑(i.natAbs + 1) + i else i).toNat m,
        replicate (i.natAbs + 1) 0, fun n hn ↦ (eq_of_mem_replicate hn).ge, m, hm, ?_⟩
      rw [replaceDimOf, length_replicate]
      refine if_pos ?_
      split
      · omega
      · omega
  · exact (exact_replaceDim hc h hs i hd).toSound

/-- On the handles of a context every operator computes with the sets of shapes that its operands
admit. -/
theorem exactOperators (hc : c.DimsValid) (h₀ : c.Owns s₀) (h₁ : c.Owns s₁) :
    ExactOperators c s₀ s₁ where
  merge := exact_merge hc h₀ h₁
  withRank _ hrank := sound_withRank hc h₀ hrank
  withRankAtLeast := sound_withRankAtLeast hc h₀
  withRankAtMost _ hrank := sound_withRankAtMost hc h₀ hrank
  mergePrefix := sound_mergePrefix hc h₀ h₁
  mergePrefix_known := exact_mergePrefix hc h₀ h₁
  subshape_known := exact_subshape hc h₀
  subshape_unknown hs start stop := by
    refine ⟨none, subshape_unknown hs start stop, ?_⟩
    rintro y ⟨x, hx, hxy⟩
    exact nonneg_of_subshapeOf (nonneg_of_owns hc h₀ hx) hxy
  concatenate := sound_concatenate hc h₀ h₁
  concatenate_known := exact_concatenate hc h₀ h₁
  replaceDim i _ hd := sound_replaceDim hc h₀ i hd
  replaceDim_known hne i _ hd := exact_replaceDim hc h₀ hne i hd

end Operators

/-- A vector of length 3 and a matrix that has 2 rows. -/
def operandsContext : ShapeContext where
  dims := { allDims := [3, 2, kUnknownDim] }
  allShapes := [some [⟨0, 3⟩], some [⟨1, 2⟩, ⟨2, kUnknownDim⟩]]

theorem exactOperators_operandsContext : ExactOperators operandsContext ⟨0, some [⟨0, 3⟩]⟩
    ⟨1, some [⟨1, 2⟩, ⟨2, kUnknownDim⟩]⟩ := by
  refine exactOperators ?_ ⟨rfl, ?_, ?_⟩ ⟨rfl, ?_, ?_⟩
  · exact forall_mem_cons.2 ⟨.inr (by decide), forall_mem_cons.2 ⟨.inr (by decide),
      forall_mem_cons.2 ⟨.inl rfl, nofun⟩⟩⟩
  · rintro dims ⟨⟩
    decide
  · rintro dims ⟨⟩
    exact forall_mem_cons.2 ⟨rfl, nofun⟩
  · rintro dims ⟨⟩
    decide
  · rintro dims ⟨⟩
    exact forall_mem_cons.2 ⟨rfl, forall_mem_cons.2 ⟨rfl, nofun⟩⟩

/-- Where the rank is unknown, `Subshape` returns a shape for bounds that are the wrong way round in
every shape, and the rank may be bounded by a negative number. -/
theorem operators_accept_unknown :
    (∃ out, returned ((⟨{ allDims := [] }, [none]⟩ : ShapeContext).subshape ⟨0, none⟩ (-1) (-2)) =
      .ok out) ∧
      (∀ x ∈ concrete none, subshapeOf (-1) (-2) x = none) ∧
      (∃ out, returned ((⟨{ allDims := [] }, [none]⟩ : ShapeContext).withRankAtMost
        ⟨0, none⟩ (-1)) =
        .ok out) ∧
      ∀ x ∈ concrete none, ¬ (x.length : ℤ) ≤ -1 := by
  refine ⟨⟨none, subshape_unknown rfl _ _⟩, fun x _ ↦ ?_, ⟨none, rfl⟩, fun x _ ↦ ?_⟩
  · have h₁ : (-1 : Int64).toInt = -1 := by decide
    have h₂ : (-2 : Int64).toInt = -2 := by decide
    rw [subshapeOf, position, position, h₁, h₂]
    refine if_neg ?_
    rw [if_neg (by omega), if_pos (by decide), if_neg (by omega), if_pos (by decide)]
    omega
  · omega

end ShapeContext

end TensorFlowCore
