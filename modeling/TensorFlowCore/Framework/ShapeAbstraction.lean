import TensorFlowCore.Framework.ShapeInference

/-!
# Partially known shapes as sets of shapes

What the operators of `InferenceContext` say about the shapes that their operands may turn out to
have. An operator is `Exact` for a set of results if it fails only when the set is empty and returns
a shape that stands for that set, and `Sound` if the shape may stand for more.

Unknown dimensions are independent of one another, whether or not they are one dimension of the
context. The two loops of `Merge` are related through the dimensions they compare: the first one
decides which operand stands for the smaller set (`mergeScan_spec`), the second one computes the
intersection (`mergeDims_spec`).
-/

namespace TensorFlowCore

open List

namespace ShapeContext

open InferenceContext

/-- The concrete shapes that a partially known shape admits. -/
def concrete : InferredShape → Set (List ℤ)
  | none => {x | ∀ n ∈ x, 0 ≤ n}
  | some dims => {x | List.Forall₂ (fun d n ↦ StandsFor (known d.value) n) dims x}

/-- The shape that a call returns. -/
def returned (r : Result) : Except Status InferredShape := r.map fun out ↦ out.1.shape

/-- The call fails exactly if there is no result, and returns a shape that admits every result. -/
structure Sound (r : Except Status InferredShape) (results : Set (List ℤ)) : Prop where
  admits : ∀ out, r = .ok out → results ⊆ concrete out
  fails : (∃ e, r = .error e) ↔ results = ∅

/-- Moreover the shape admits nothing else. -/
structure Exact (r : Except Status InferredShape) (results : Set (List ℤ)) : Prop
    extends Sound r results where
  only : ∀ out, r = .ok out → concrete out ⊆ results

/-- A position that is given from the front, or from behind if it is negative, in a list of
`length`. -/
def position (length : ℕ) (i : Int64) : ℤ :=
  if length < i.toInt then length else if i.toInt < 0 then length + i.toInt else i.toInt

/-- The part of a concrete shape between two positions, if they are in range and in order. -/
def subshapeOf (start stop : Int64) (x : List ℤ) : Option (List ℤ) :=
  let s := position x.length start
  let e := position x.length stop
  if 0 ≤ s ∧ s ≤ e then some ((x.drop s.toNat).take (e - s).toNat) else none

/-- A concrete shape with one dimension replaced, if there is one at the index. -/
def replaceDimOf (i : ℤ) (n : ℤ) (x : List ℤ) : Option (List ℤ) :=
  let k := if i < 0 then x.length + i else i
  if 0 ≤ k ∧ k < x.length then some (x.set k.toNat n) else none

/-- The handle points to the shape it has in the context, with dimensions of the context. Its `Rank`
is an `int32`. -/
structure Owns (c : ShapeContext) (s : ShapeHandle) : Prop where
  shape : c.allShapes[s.id]? = some s.shape
  rank_lt : ∀ dims, s.shape = some dims → dims.length < 2 ^ 31
  dims : ∀ dims, s.shape = some dims → ∀ d ∈ dims, c.dims.allDims[d.id]? = some d.value

/-- The check of the constructor of `Dimension`. -/
def DimsValid (c : ShapeContext) : Prop := ∀ v ∈ c.dims.allDims, Valid v

/-- What `MergePrefix` says about the shapes of which one is a prefix of the other. -/
structure MergePrefixSound (c : ShapeContext) (s prefixShape : ShapeHandle) : Prop where
  shape : Sound ((c.mergePrefix s prefixShape).map fun out ↦ out.1.shape)
    {x ∈ concrete s.shape | ∃ p ∈ concrete prefixShape.shape, p <+: x}
  prefixShape : Sound ((c.mergePrefix s prefixShape).map fun out ↦ out.2.1.shape)
    {p ∈ concrete prefixShape.shape | ∃ x ∈ concrete s.shape, p <+: x}

structure MergePrefixExact (c : ShapeContext) (s prefixShape : ShapeHandle) : Prop where
  shape : Exact ((c.mergePrefix s prefixShape).map fun out ↦ out.1.shape)
    {x ∈ concrete s.shape | ∃ p ∈ concrete prefixShape.shape, p <+: x}
  prefixShape : Exact ((c.mergePrefix s prefixShape).map fun out ↦ out.2.1.shape)
    {p ∈ concrete prefixShape.shape | ∃ x ∈ concrete s.shape, p <+: x}

/-- What the operators say about all the shapes that two operands may turn out to have. -/
structure ExactOperators (c : ShapeContext) (s₀ s₁ : ShapeHandle) : Prop where
  merge : ∃ r, c.merge s₀ s₁ = some r ∧ Exact (returned r) (concrete s₀.shape ∩ concrete s₁.shape)
  withRank : ∀ rank : ℤ, 0 ≤ rank ∨ s₀.shape ≠ none → ∃ r, c.withRank s₀ rank = some r ∧
    Sound (returned r) {x ∈ concrete s₀.shape | x.length = rank}
  withRankAtLeast : ∀ rank : ℤ,
    Sound (returned (c.withRankAtLeast s₀ rank)) {x ∈ concrete s₀.shape | rank ≤ x.length}
  withRankAtMost : ∀ rank : ℤ, 0 ≤ rank ∨ s₀.shape ≠ none →
    Sound (returned (c.withRankAtMost s₀ rank)) {x ∈ concrete s₀.shape | x.length ≤ rank}
  mergePrefix : MergePrefixSound c s₀ s₁
  mergePrefix_known : s₀.shape ≠ none → s₁.shape ≠ none → MergePrefixExact c s₀ s₁
  subshape_known : s₀.shape ≠ none → ∀ start stop, Exact (returned (c.subshape s₀ start stop))
    {y | ∃ x ∈ concrete s₀.shape, subshapeOf start stop x = some y}
  subshape_unknown : s₀.shape = none → ∀ start stop, ∃ out,
    returned (c.subshape s₀ start stop) = .ok out ∧
      {y | ∃ x ∈ concrete s₀.shape, subshapeOf start stop x = some y} ⊆ concrete out
  concatenate : Sound (returned (c.concatenate s₀ s₁))
    {y | ∃ x ∈ concrete s₀.shape, ∃ x' ∈ concrete s₁.shape, x ++ x' = y}
  concatenate_known : s₀.shape ≠ none → s₁.shape ≠ none → Exact (returned (c.concatenate s₀ s₁))
    {y | ∃ x ∈ concrete s₀.shape, ∃ x' ∈ concrete s₁.shape, x ++ x' = y}
  replaceDim : ∀ i d, c.dims.allDims[d.id]? = some d.value → Sound (returned (c.replaceDim s₀ i d))
    {y | ∃ x ∈ concrete s₀.shape, ∃ n, StandsFor (known d.value) n ∧ replaceDimOf i n x = some y}
  replaceDim_known : s₀.shape ≠ none → ∀ i d, c.dims.allDims[d.id]? = some d.value →
    Exact (returned (c.replaceDim s₀ i d))
      {y | ∃ x ∈ concrete s₀.shape, ∃ n, StandsFor (known d.value) n ∧ replaceDimOf i n x = some y}

/-! ### Dimensions -/

section Dimensions

variable {d₀ d₁ : Dimension} {dims dims₀ dims₁ : List Dimension}

/-- Dimensions of one context: valid values, and one value for each handle. -/
structure Coherent (dims : List Dimension) : Prop where
  valid : ∀ d ∈ dims, Valid d.value
  value_eq : ∀ d ∈ dims, ∀ d' ∈ dims, d.id = d'.id → d.value = d'.value

theorem exists_standsFor {v : Int64} (hv : Valid v) : ∃ n, StandsFor (known v) n := by
  obtain ⟨-, h⟩ | ⟨-, h, -⟩ := valid_cases hv
  · exact ⟨0, by rw [h]; exact le_rfl⟩
  · exact ⟨v.toInt, by rw [h]; rfl⟩

theorem standsFor_unknown {v : Int64} (hv : v = kUnknownDim) (n : ℤ) :
    StandsFor (known v) n ↔ 0 ≤ n := by
  rw [known, if_pos hv]
  rfl

theorem standsFor_of_ne {v : Int64} (hv : v ≠ kUnknownDim) (n : ℤ) :
    StandsFor (known v) n ↔ n = v.toInt := by
  rw [known, if_neg hv]
  rfl

/-- Merged dimensions stand for what both stand for, and are refused if that is nothing. -/
theorem mergeDim_spec (h : Coherent [d₀, d₁]) :
    (∀ d, mergeDim d₀ d₁ = .ok d → ∀ n, StandsFor (known d.value) n ↔
      StandsFor (known d₀.value) n ∧ StandsFor (known d₁.value) n) ∧
    ((∃ e, mergeDim d₀ d₁ = .error e) →
      ¬ ∃ n, StandsFor (known d₀.value) n ∧ StandsFor (known d₁.value) n) := by
  have h₀ := h.valid d₀ (by simp)
  have h₁ := h.valid d₁ (by simp)
  have hid := h.value_eq d₀ (by simp) d₁ (by simp)
  unfold mergeDim
  split
  next hsame =>
    refine ⟨fun d hd n ↦ ?_, nofun⟩
    cases hd
    refine ⟨fun hn ↦ ⟨hn, ?_⟩, And.left⟩
    obtain hsame | hunknown := hsame
    · rwa [← hid hsame]
    · exact (standsFor_unknown hunknown n).2 (nonneg_of_standsFor h₀ hn)
  next hne =>
    obtain ⟨-, hne₁⟩ := not_or.1 hne
    split
    next hunknown =>
      refine ⟨fun d hd n ↦ ?_, nofun⟩
      cases hd
      exact ⟨fun hn ↦ ⟨(standsFor_unknown hunknown n).2 (nonneg_of_standsFor h₁ hn), hn⟩, And.right⟩
    next hne₀ =>
      split
      next heq =>
        refine ⟨fun d hd n ↦ ?_, nofun⟩
        cases hd
        exact ⟨fun hn ↦ ⟨hn, heq ▸ hn⟩, And.left⟩
      next hvalue =>
        refine ⟨nofun, ?_⟩
        rintro - ⟨n, hn₀, hn₁⟩
        rw [standsFor_of_ne hne₀] at hn₀
        rw [standsFor_of_ne hne₁] at hn₁
        exact hvalue (Int64.toInt_inj.1 (hn₀.symm.trans hn₁))

theorem Coherent.mono {dims' : List Dimension} (h : Coherent dims) (hsub : dims' ⊆ dims) :
    Coherent dims' :=
  ⟨fun d hd ↦ h.valid d (hsub hd), fun d hd d' hd' ↦ h.value_eq d (hsub hd) d' (hsub hd')⟩

theorem mem_concrete_cons {d : Dimension} {n : ℤ} {x : List ℤ} :
    n :: x ∈ concrete (some (d :: dims)) ↔ StandsFor (known d.value) n ∧ x ∈ concrete (some dims) :=
  forall₂_cons

theorem nil_mem_concrete : [] ∈ concrete (some []) := Forall₂.nil

theorem length_of_mem_concrete {x : List ℤ} (h : x ∈ concrete (some dims)) :
    x.length = dims.length := (Forall₂.length_eq h).symm

/-- Valid dimensions admit some shape. -/
theorem exists_mem_concrete (dims : List Dimension) (h : ∀ d ∈ dims, Valid d.value) :
    ∃ x, x ∈ concrete (some dims) := by
  induction dims with
  | nil => exact ⟨[], nil_mem_concrete⟩
  | cons d dims ih =>
    obtain ⟨hd, hdims⟩ := forall_mem_cons.1 h
    obtain ⟨n, hn⟩ := exists_standsFor hd
    obtain ⟨x, hx⟩ := ih hdims
    exact ⟨n :: x, mem_concrete_cons.2 ⟨hn, hx⟩⟩

theorem nonneg_of_mem_concrete (h : ∀ d ∈ dims, Valid d.value) {x : List ℤ}
    (hx : x ∈ concrete (some dims)) : ∀ n ∈ x, 0 ≤ n := by
  induction hx with
  | nil => exact nofun
  | cons hn _ ih =>
    obtain ⟨hd, hdims⟩ := forall_mem_cons.1 h
    exact forall_mem_cons.2 ⟨nonneg_of_standsFor hd hn, ih hdims⟩

/-! ### The two loops of `Merge` -/

theorem mergeDim_mem {d : Dimension} (h : mergeDim d₀ d₁ = .ok d) : d = d₀ ∨ d = d₁ := by
  unfold mergeDim at h
  split at h
  · exact .inl (Except.ok.inj h).symm
  · split at h
    · exact .inr (Except.ok.inj h).symm
    · split at h
      · exact .inl (Except.ok.inj h).symm
      · cases h

/-- The loop goes through its lists together. -/
theorem mergeDims_cons (d₀ d₁ : Dimension) (dims₀ dims₁ : List Dimension) :
    mergeDims (d₀ :: dims₀) (d₁ :: dims₁) =
      (mergeDim d₀ d₁).bind fun d ↦ (mergeDims dims₀ dims₁).map (d :: ·) := by
  rw [mergeDims]
  cases mergeDim d₀ d₁ with
  | error e => rfl
  | ok d => cases mergeDims dims₀ dims₁ <;> rfl

/-- A merge makes no dimension of its own. -/
theorem mergeDims_subset (h : mergeDims dims₀ dims₁ = .ok dims) : dims ⊆ dims₀ ++ dims₁ := by
  induction dims₀ generalizing dims₁ dims with
  | nil =>
    obtain rfl : [] = dims := Except.ok.inj (by rwa [mergeDims] at h; exact nofun)
    exact nil_subset _
  | cons d₀ dims₀ ih =>
    cases dims₁ with
    | nil =>
      obtain rfl : [] = dims := Except.ok.inj (by rwa [mergeDims] at h; exact nofun)
      exact nil_subset _
    | cons d₁ dims₁ =>
      rw [mergeDims_cons] at h
      cases hd : mergeDim d₀ d₁ with
      | error e => rw [hd] at h; cases h
      | ok d =>
        cases hdims : mergeDims dims₀ dims₁ with
        | error e => rw [hd, hdims] at h; cases h
        | ok rest =>
          rw [hd, hdims] at h
          obtain rfl : d :: rest = dims := Except.ok.inj h
          have hrest := ih hdims
          refine cons_subset.2 ⟨?_, fun e he ↦ ?_⟩
          · obtain rfl | rfl := mergeDim_mem hd <;> simp
          · obtain he | he := mem_append.1 (hrest he) <;> simp [he]

theorem Coherent.heads (h : Coherent (d₀ :: dims₀ ++ d₁ :: dims₁)) : Coherent [d₀, d₁] :=
  h.mono fun d hd ↦ by
    obtain rfl | rfl : d = d₀ ∨ d = d₁ := by simpa using hd
    · simp
    · simp

theorem Coherent.tails (h : Coherent (d₀ :: dims₀ ++ d₁ :: dims₁)) : Coherent (dims₀ ++ dims₁) :=
  h.mono fun d hd ↦ by
    obtain hd | hd := mem_append.1 hd <;> simp [hd]

/-- The second loop computes the intersection, and fails where there is none. -/
theorem mergeDims_spec (hlen : dims₀.length = dims₁.length) (h : Coherent (dims₀ ++ dims₁)) :
    (∀ dims, mergeDims dims₀ dims₁ = .ok dims →
      concrete (some dims) = concrete (some dims₀) ∩ concrete (some dims₁)) ∧
    ((∃ e, mergeDims dims₀ dims₁ = .error e) →
      concrete (some dims₀) ∩ concrete (some dims₁) = ∅) := by
  induction dims₀ generalizing dims₁ with
  | nil =>
    obtain rfl := eq_nil_of_length_eq_zero hlen.symm
    refine ⟨fun dims hdims ↦ ?_, nofun⟩
    obtain rfl : [] = dims := Except.ok.inj hdims
    exact (Set.inter_self _).symm
  | cons d₀ dims₀ ih =>
    obtain ⟨d₁, dims₁, rfl⟩ := exists_cons_of_length_eq_add_one hlen.symm
    obtain ⟨hok, herror⟩ := mergeDim_spec h.heads
    obtain ⟨hoks, herrors⟩ := ih (Nat.succ.inj hlen) h.tails
    rw [mergeDims_cons]
    have hempty (hnone : ∀ n x, ¬ (n :: x ∈ concrete (some (d₀ :: dims₀)) ∧
        n :: x ∈ concrete (some (d₁ :: dims₁)))) :
        concrete (some (d₀ :: dims₀)) ∩ concrete (some (d₁ :: dims₁)) = ∅ := by
      refine Set.eq_empty_iff_forall_notMem.2 fun x hx ↦ ?_
      obtain ⟨n, x, rfl⟩ := exists_cons_of_length_eq_add_one (length_of_mem_concrete hx.1)
      exact hnone n x hx
    cases hd : mergeDim d₀ d₁ with
    | error e =>
      refine ⟨nofun, fun _ ↦ hempty fun n x ⟨h₀, h₁⟩ ↦ herror ⟨e, hd⟩ ⟨n, ?_⟩⟩
      exact ⟨(mem_concrete_cons.1 h₀).1, (mem_concrete_cons.1 h₁).1⟩
    | ok d =>
      cases hdims : mergeDims dims₀ dims₁ with
      | error e =>
        refine ⟨nofun, fun _ ↦ hempty fun n x ⟨h₀, h₁⟩ ↦ ?_⟩
        have hboth : x ∈ concrete (some dims₀) ∩ concrete (some dims₁) :=
          ⟨(mem_concrete_cons.1 h₀).2, (mem_concrete_cons.1 h₁).2⟩
        rw [herrors ⟨e, hdims⟩] at hboth
        exact hboth
      | ok rest =>
        refine ⟨fun dims heq ↦ ?_, nofun⟩
        obtain rfl : d :: rest = dims := Except.ok.inj heq
        refine Set.ext fun x ↦ ?_
        cases x with
        | nil => exact iff_of_false nofun fun hx ↦ nomatch hx.1
        | cons n x =>
          rw [mem_concrete_cons, hok d hd, hoks rest hdims, Set.mem_inter_iff, Set.mem_inter_iff,
            mem_concrete_cons, mem_concrete_cons]
          exact and_and_and_comm

/-- One round of the first loop. An operand stays a candidate if the other dimension admits all of
its sizes. -/
theorem mergeScan_cons (h : Coherent [d₀, d₁]) (r₀ r₁ : Bool) (i : ℕ)
    (dims₀ dims₁ : List Dimension) :
    (∃ a₀ a₁ d, mergeDim d₀ d₁ = .ok d ∧
      (a₀ = true → ∀ n, StandsFor (known d₀.value) n → StandsFor (known d₁.value) n) ∧
      (a₁ = true → ∀ n, StandsFor (known d₁.value) n → StandsFor (known d₀.value) n) ∧
      mergeScan r₀ r₁ i (d₀ :: dims₀) (d₁ :: dims₁) =
        mergeScan (r₀ && a₀) (r₁ && a₁) (i + 1) dims₀ dims₁) ∨
    (∃ e, mergeScan r₀ r₁ i (d₀ :: dims₀) (d₁ :: dims₁) = .error e) ∧
      ∃ e, mergeDim d₀ d₁ = .error e := by
  have h₀ := h.valid d₀ (by simp)
  have h₁ := h.valid d₁ (by simp)
  rw [mergeScan, mergeDim]
  by_cases hid : d₀.id = d₁.id
  · have hvalue := h.value_eq d₀ (by simp) d₁ (by simp) hid
    rw [if_pos hid, if_pos (.inl hid)]
    refine .inl ⟨true, true, d₀, rfl, fun _ n hn ↦ hvalue ▸ hn, fun _ n hn ↦ hvalue ▸ hn, ?_⟩
    rw [Bool.and_true, Bool.and_true]
  rw [if_neg hid]
  by_cases hu₀ : d₀.value = kUnknownDim
  · have hadmits : ∀ n, StandsFor (known d₁.value) n → StandsFor (known d₀.value) n := fun n hn ↦
      (standsFor_unknown hu₀ n).2 (nonneg_of_standsFor h₁ hn)
    rw [if_pos hu₀]
    by_cases hu₁ : d₁.value = kUnknownDim
    · rw [if_neg (not_not.2 hu₁), if_pos (.inr hu₁)]
      refine .inl ⟨true, true, d₀, rfl, fun _ n hn ↦ ?_, fun _ ↦ hadmits, ?_⟩
      · rwa [hu₁, ← hu₀]
      · rw [if_pos hu₀, Bool.and_true, Bool.and_true]
    · rw [if_pos hu₁, if_neg (not_or.2 ⟨hid, hu₁⟩), if_pos hu₀]
      refine .inl ⟨false, true, d₁, rfl, nofun, fun _ ↦ hadmits, ?_⟩
      rw [Bool.and_false, Bool.and_true]
  rw [if_neg hu₀]
  by_cases hu₁ : d₁.value = kUnknownDim
  · rw [if_pos hu₁, if_pos (.inr hu₁)]
    refine .inl ⟨true, false, d₀, rfl, fun _ n hn ↦ ?_, nofun, ?_⟩
    · exact (standsFor_unknown hu₁ n).2 (nonneg_of_standsFor h₀ hn)
    · rw [if_neg hu₀, Bool.and_false, Bool.and_true]
  rw [if_neg hu₁, if_neg (not_or.2 ⟨hid, hu₁⟩), if_neg hu₀]
  by_cases hvalue : d₀.value = d₁.value
  · rw [if_neg (not_not.2 hvalue), if_pos hvalue]
    refine .inl ⟨true, true, d₀, rfl, fun _ n hn ↦ hvalue ▸ hn, fun _ n hn ↦ hvalue ▸ hn, ?_⟩
    rw [Bool.and_true, Bool.and_true]
  · rw [if_pos hvalue, if_neg hvalue]
    exact .inr ⟨⟨_, rfl⟩, ⟨_, rfl⟩⟩

theorem concrete_cons_subset (hd : ∀ n, StandsFor (known d₀.value) n → StandsFor (known d₁.value) n)
    (hdims : concrete (some dims₀) ⊆ concrete (some dims₁)) :
    concrete (some (d₀ :: dims₀)) ⊆ concrete (some (d₁ :: dims₁)) := by
  intro x hx
  cases x with
  | nil => cases hx
  | cons n x =>
    obtain ⟨hn, hx⟩ := mem_concrete_cons.1 hx
    exact mem_concrete_cons.2 ⟨hd n hn, hdims hx⟩

/-- The first loop fails only where the second one would, and leaves an operand as a candidate only
if the other one admits all of its shapes. -/
theorem mergeScan_spec (r₀ r₁ : Bool) (i : ℕ) (hlen : dims₀.length = dims₁.length)
    (h : Coherent (dims₀ ++ dims₁)) :
    (∃ a b dims, mergeScan r₀ r₁ i dims₀ dims₁ = .ok (a, b) ∧ mergeDims dims₀ dims₁ = .ok dims ∧
      (a = true → r₀ = true ∧ concrete (some dims₀) ⊆ concrete (some dims₁)) ∧
      (b = true → r₁ = true ∧ concrete (some dims₁) ⊆ concrete (some dims₀))) ∨
    (∃ e, mergeScan r₀ r₁ i dims₀ dims₁ = .error e) ∧ ∃ e, mergeDims dims₀ dims₁ = .error e := by
  induction dims₀ generalizing dims₁ r₀ r₁ i with
  | nil =>
    obtain rfl := eq_nil_of_length_eq_zero hlen.symm
    exact .inl ⟨r₀, r₁, [], rfl, rfl, fun ha ↦ ⟨ha, subset_rfl⟩, fun hb ↦ ⟨hb, subset_rfl⟩⟩
  | cons d₀ dims₀ ih =>
    obtain ⟨d₁, dims₁, rfl⟩ := exists_cons_of_length_eq_add_one hlen.symm
    rw [mergeDims_cons]
    obtain ⟨a₀, a₁, d, hd, ha₀, ha₁, hscan⟩ | ⟨hscan, e, hd⟩ :=
      mergeScan_cons h.heads r₀ r₁ i dims₀ dims₁
    · rw [hscan, hd]
      obtain ⟨a, b, dims, hok, hdims, ha, hb⟩ | ⟨hscan, e, hdims⟩ :=
        ih (r₀ && a₀) (r₁ && a₁) (i + 1) (Nat.succ.inj hlen) h.tails
      · refine .inl ⟨a, b, d :: dims, hok, by rw [hdims]; rfl, fun ht ↦ ?_, fun ht ↦ ?_⟩
        · obtain ⟨hand, hsub⟩ := ha ht
          obtain ⟨hr, ht₀⟩ := Bool.and_eq_true_iff.1 hand
          exact ⟨hr, concrete_cons_subset (ha₀ ht₀) hsub⟩
        · obtain ⟨hand, hsub⟩ := hb ht
          obtain ⟨hr, ht₁⟩ := Bool.and_eq_true_iff.1 hand
          exact ⟨hr, concrete_cons_subset (ha₁ ht₁) hsub⟩
      · exact .inr ⟨hscan, e, by rw [hdims]; rfl⟩
    · rw [hd]
      exact .inr ⟨hscan, e, rfl⟩

end Dimensions

end ShapeContext

end TensorFlowCore
