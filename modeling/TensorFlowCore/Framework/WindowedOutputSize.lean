import TensorFlowCore.Core.Integers
import TensorFlowCore.Framework.ShapeInference
import TensorFlowCore.Support.Tiling

/-!
# The output sizes of windowed operations

`GetWindowedOutputSizeVerbose`, which a kernel calls, and `GetWindowedOutputSizeFromDims`, which
shape inference calls, from `tensorflow/core/framework/common_shape_fns.cc`. Each names the other as
the parallel implementation.

The kernel divides a word that may be negative, and C++ rounds that quotient up; shape inference
refuses to subtract a filter from a smaller input. So where a `VALID` filter is longer than the
input, by less than two strides, the kernel goes on with an output of size zero that shape inference
has rejected (`windowSizesAgree_iff`).
-/

namespace TensorFlowCore

variable {input filter : Int64} {w : WindowedOutput}

namespace CommonShapeFns

open InferenceContext WrappedProduct Windows

/-- `Padding`. -/
inductive Padding where
  | valid
  | same
  deriving DecidableEq

/-- What `GetWindowedOutputSizeVerbose` returns through its pointers. -/
structure WindowedOutput where
  outputSize : Int64
  paddingBefore : Int64
  paddingAfter : Int64
  deriving DecidableEq

def strideError (stride : Int64) : Status :=
  invalidArgument [ascii "Stride must be > 0, but got ", decimalInt stride.toInt]

/-- The `switch` of `GetWindowedOutputSizeVerbose`. -/
def windowedOutput (inputSize filterSize stride : Int64) : Padding → WindowedOutput
  | .valid => ⟨(inputSize - filterSize + stride) / stride, 0, 0⟩
  | .same =>
    let outputSize := (inputSize + stride - 1) / stride
    let paddingNeeded := max 0 ((outputSize - 1) * stride + filterSize - inputSize)
    -- An odd number puts more on the right.
    let paddingBefore := paddingNeeded / 2
    ⟨outputSize, paddingBefore, paddingNeeded - paddingBefore⟩

def getWindowedOutputSizeVerbose (inputSize filterSize stride : Int64) (paddingType : Padding) :
    Except Status WindowedOutput :=
  if stride ≤ 0 then .error (strideError stride)
  else
    let w := windowedOutput inputSize filterSize stride paddingType
    if w.outputSize <
      0 then .error (invalidArgument [ascii "computed output size would be negative"])
    else .ok w

def getWindowedOutputSizeFromDims (c : InferenceContext) (inputSize : Dimension)
    (filterSize : DimensionOrConstant) (stride : Int64) (paddingType : Padding) :
    Except Status (Dimension × InferenceContext) :=
  if stride ≤ 0 then .error (strideError stride)
  else
    match paddingType with
    | .valid => do
      let (d, c) ← c.subtract inputSize filterSize
      let (d, c) ← c.add d (.val stride)
      c.divide d stride false
    | .same => do
      let (d, c) ← c.add inputSize (.val (stride - 1))
      c.divide d stride false

/-! ## What the sizes are for -/

/-- `d` windows are what the padding asks for: all that fit, or one at every stride of the input. -/
def IsWindowCount (input filter stride : ℤ) : Padding → ℤ → Prop
  | .valid, d => IsGreatest {n | Fit 0 stride filter 0 input n} d
  | .same, d => d = ⌈(input : ℚ) / stride⌉

/-- The windows of an output, on the input with its padding, and how many they are. -/
def WellPlaced (input filter stride : ℤ) (padding : Padding) (w : WindowedOutput) : Prop :=
  Fit (-w.paddingBefore.toInt) stride filter (-w.paddingBefore.toInt) (input + w.paddingAfter.toInt)
      w.outputSize.toInt ∧
    IsWindowCount input filter stride padding w.outputSize.toInt

/-- Shape inference and the kernel come to the same size, and the kernel's windows are in place. -/
structure WindowSizesAgree (c : InferenceContext) (inputSize : Dimension)
    (filterSize : DimensionOrConstant)
    (stride : Int64) (padding : Padding) : Prop where
  same_size : ∀ d : ℤ, outcome (getWindowedOutputSizeFromDims c inputSize filterSize stride
    padding) =
      .ok (some d) ↔ ∃ w, getWindowedOutputSizeVerbose inputSize.value (value filterSize) stride
      padding =
        .ok w ∧ w.outputSize.toInt = d
  placed : ∀ out w, getWindowedOutputSizeFromDims c inputSize filterSize stride padding = .ok out →
    getWindowedOutputSizeVerbose inputSize.value (value filterSize) stride padding = .ok w →
    WellPlaced inputSize.value.toInt (value filterSize).toInt stride.toInt padding w

/-- No sum on the way is too large for a word. -/
def NoOverflow (input filter stride : ℤ) : Padding → Prop
  | .valid => input - filter + stride < 2 ^ 63
  | .same => input + stride < 2 ^ 63 ∧ ((input + stride - 1) / stride - 1) * stride +
      filter < 2 ^ 63

/-! ## Arithmetic on known sizes -/

section Computes

variable {r : Except Status (Dimension × InferenceContext)} {z w : ℤ} {c : InferenceContext}
    {first : Dimension}
  {second : DimensionOrConstant} {stride : Int64}

/-- The call returns a dimension of a size. -/
def Computes (r : Except Status (Dimension × InferenceContext)) (z : ℤ) : Prop :=
  ∃ d c, r = .ok (d, c) ∧ d.value.toInt = z

theorem computes_makeDim (c : InferenceContext) (v : DimensionOrConstant) :
    Computes (.ok (c.makeDim v)) (value v).toInt := by
  cases v <;> exact ⟨_, _, rfl, rfl⟩

theorem Computes.bind
    {f : Dimension × InferenceContext → Except Status (Dimension × InferenceContext)}
    (h : Computes r z) (hf : ∀ d c, d.value.toInt = z → Computes (f (d, c)) w) :
    Computes (r >>= f) w := by
  obtain ⟨d, c, rfl, hd⟩ := h
  exact hf d c hd

theorem Computes.outcome_eq (h : Computes r z) (h0 : 0 ≤ z) : outcome r = .ok (some z) := by
  obtain ⟨d, c, rfl, rfl⟩ := h
  rw [outcome_handle, known_of_nonneg h0]

theorem ne_kUnknownDim {v : Int64} (h : 0 ≤ v.toInt) : v ≠ kUnknownDim := by
  rintro rfl
  exact absurd h (by decide)

theorem computes_add (h₁ : 0 ≤ first.value.toInt) (h₂ : 0 ≤ (value second).toInt)
    (hlt : first.value.toInt + (value second).toInt < 2 ^ 63) :
    Computes (c.add first second) (first.value.toInt + (value second).toInt) := by
  rw [add]
  split
  · rename_i hzero
    rw [hzero, Int64.toInt_zero, Int.zero_add]
    exact computes_makeDim c second
  split
  · rename_i hzero
    rw [hzero, Int64.toInt_zero, Int.add_zero]
    exact computes_makeDim c (.dim first)
  rw [if_neg (not_or_intro (ne_kUnknownDim h₁) (ne_kUnknownDim h₂))]
  have hsum : (first.value + value second).toInt = first.value.toInt + (value second).toInt := by
    rw [Int64.toInt_add]
    exact bmod_of_fits (Int.add_nonneg h₁ h₂) hlt
  rw [if_neg (by rw [neg_iff, hsum]; omega), ← hsum]
  exact computes_makeDim c (.val _)

theorem computes_subtract (h₂ : 0 < (value second).toInt)
    (hle : (value second).toInt ≤ first.value.toInt) :
    Computes (c.subtract first second) (first.value.toInt - (value second).toInt) := by
  have hne : value second ≠ 0 := fun h ↦ by
    rw [h] at h₂
    exact absurd h₂ (by decide)
  have hnlt : ¬first.value < value second := by rwa [Int64.lt_iff_toInt_lt, Int.not_lt]
  rw [subtract]
  rw [if_neg hne, if_neg (not_or_intro (ne_kUnknownDim (h₂.le.trans hle)) (ne_kUnknownDim h₂.le)),
    if_neg hnlt, ← (toInt_sub_of_nonneg h₂.le hnlt).1]
  exact computes_makeDim c (.val _)

theorem subtract_of_lt (h₁ : 0 ≤ first.value.toInt)
    (hlt : first.value.toInt < (value second).toInt) : ∃ e, c.subtract first second = .error e := by
  have h₂ : 0 < (value second).toInt := h₁.trans_lt hlt
  have hne : value second ≠ 0 := fun h ↦ by
    rw [h] at h₂
    exact absurd h₂ (by decide)
  rw [subtract]
  rw [if_neg hne, if_neg (not_or_intro (ne_kUnknownDim h₁) (ne_kUnknownDim h₂.le)),
    if_pos (Int64.lt_iff_toInt_lt.2 hlt)]
  exact ⟨_, rfl⟩

theorem toInt_div (v : Int64) (hstride : 0 < stride.toInt) :
    (v / stride).toInt = v.toInt.tdiv stride.toInt :=
  Int64.toInt_div_of_ne_right _ _ (ne_kUnknownDim hstride.le)

theorem not_nonpos (hstride : 0 < stride.toInt) : ¬stride ≤ 0 := by
  rw [Int64.le_iff_toInt_le]
  exact Int.not_le.2 hstride

theorem computes_divide (h : 0 ≤ first.value.toInt) (hstride : 0 < stride.toInt) :
    Computes (c.divide first stride false) (first.value.toInt / stride.toInt) := by
  rw [divide]
  split
  · rename_i hone
    rw [hone, Int64.toInt_one, Int.ediv_one]
    exact ⟨_, _, rfl, rfl⟩
  rw [if_neg (ne_kUnknownDim h), if_neg (not_nonpos hstride),
    if_neg (fun hfalse ↦ nomatch hfalse.1), ← Int.tdiv_eq_ediv_of_nonneg h, ← toInt_div _ hstride]
  exact computes_makeDim c (.val _)

end Computes

/-! ## The two implementations -/

variable {c : InferenceContext} {inputSize : Dimension} {filterSize : DimensionOrConstant}
    {stride : Int64}

/-- Shape inference computes the size where the filter is not longer than the input. -/
theorem computes_fromDims_valid (hfilter : 0 < (value filterSize).toInt)
    (hle : (value filterSize).toInt ≤ inputSize.value.toInt) (hstride : 0 < stride.toInt)
    (hfits : inputSize.value.toInt - (value filterSize).toInt + stride.toInt < 2 ^ 63) :
    Computes (getWindowedOutputSizeFromDims c inputSize filterSize stride .valid)
      ((inputSize.value.toInt - (value filterSize).toInt + stride.toInt) / stride.toInt) := by
  rw [getWindowedOutputSizeFromDims, if_neg (not_nonpos hstride)]
  refine (computes_subtract hfilter hle).bind fun d c hd ↦ ?_
  have hd0 : 0 ≤ d.value.toInt := hd ▸ Int.sub_nonneg.2 hle
  rw [← hd] at hfits ⊢
  have hadd : Computes (c.add d (.val stride)) (d.value.toInt + stride.toInt) :=
    computes_add hd0 (show 0 ≤ (value (.val stride)).toInt from hstride.le) hfits
  refine hadd.bind fun e c he ↦ ?_
  rw [← he]
  exact computes_divide (he ▸ Int.add_nonneg hd0 hstride.le) hstride

/-- And refuses otherwise. -/
theorem fromDims_valid_of_lt (hinput : 0 ≤ inputSize.value.toInt)
    (hlt : inputSize.value.toInt < (value filterSize).toInt) (hstride : 0 < stride.toInt) :
    ∃ e, getWindowedOutputSizeFromDims c inputSize filterSize stride .valid = .error e := by
  obtain ⟨e, he⟩ := subtract_of_lt (c := c) hinput hlt
  rw [getWindowedOutputSizeFromDims, if_neg (not_nonpos hstride)]
  rw [he]
  exact ⟨e, rfl⟩

theorem toInt_pred (hstride : 0 < stride.toInt) : (stride - 1).toInt = stride.toInt - 1 :=
  (toInt_sub_of_nonneg (by decide) (by rw [Int64.lt_iff_toInt_lt]; exact Int.not_lt.2 hstride)).1

theorem computes_fromDims_same (hinput : 0 ≤ inputSize.value.toInt) (hstride : 0 < stride.toInt)
    (hfits : inputSize.value.toInt + stride.toInt < 2 ^ 63) :
    Computes (getWindowedOutputSizeFromDims c inputSize filterSize stride .same)
      ((inputSize.value.toInt + stride.toInt - 1) / stride.toInt) := by
  have hpred : (value (.val (stride - 1))).toInt = stride.toInt - 1 := toInt_pred hstride
  rw [getWindowedOutputSizeFromDims, if_neg (not_nonpos hstride)]
  refine (computes_add hinput (by omega) (by omega)).bind fun d c hd ↦ ?_
  rw [Int.add_sub_assoc, ← hpred, ← hd]
  exact computes_divide (by omega) hstride

theorem getWindowedOutputSizeVerbose_eq_ok_iff {padding : Padding} :
    getWindowedOutputSizeVerbose input filter stride padding = .ok w ↔
      0 < stride.toInt ∧ 0 ≤ w.outputSize.toInt ∧
      windowedOutput input filter stride padding = w := by
  rw [getWindowedOutputSizeVerbose]
  split
  · rename_i hstride
    exact iff_of_false (by simp) fun h ↦ not_nonpos h.1 hstride
  · rename_i hstride
    rw [Int64.le_iff_toInt_le, Int64.toInt_zero, Int.not_le] at hstride
    rw [and_iff_right hstride]
    dsimp only
    split
    · rename_i hneg
      refine iff_of_false (by simp) ?_
      rintro ⟨h0, rfl⟩
      exact absurd (neg_iff.1 hneg) (Int.not_lt.2 h0)
    · rename_i hneg
      rw [neg_iff, Int.not_lt] at hneg
      rw [Except.ok.injEq]
      exact ⟨fun h ↦ ⟨h ▸ hneg, h⟩, fun h ↦ h.2⟩

/-- The word that the kernel divides. -/
theorem toInt_windowedOutput_valid (hinput : 0 ≤ input.toInt) (hfilter : 0 < filter.toInt)
    (hstride : 0 < stride.toInt) (hfits : input.toInt - filter.toInt + stride.toInt < 2 ^ 63) :
    (windowedOutput input filter stride .valid).outputSize.toInt =
      (input.toInt - filter.toInt + stride.toInt).tdiv stride.toInt := by
  have hinput' := Int64.toInt_lt input
  have hfilter' := Int64.toInt_lt filter
  have hdiff : (input - filter).toInt = input.toInt - filter.toInt := by
    rw [Int64.toInt_sub]
    exact bmod_eq_self_iff.2 ⟨by omega, by omega⟩
  show ((input - filter + stride) / stride).toInt = _
  rw [toInt_div _ hstride, Int64.toInt_add, hdiff, bmod_eq_self_iff.2 ⟨by omega, hfits⟩]

/-- A quotient that rounds toward zero is negative from the whole divisor on. -/
theorem tdiv_nonneg_iff {x s : ℤ} (hs : 0 < s) : 0 ≤ x.tdiv s ↔ -s < x := by
  obtain hx | hx := Int.lt_or_le x 0
  · have hquot : x.tdiv s = -((-x) / s) := by
      rw [← Int.tdiv_eq_ediv_of_nonneg (by omega), ← Int.neg_tdiv, Int.neg_neg]
    have hzero : -x / s ≤ 0 ↔ -x < s := by
      rw [← Int.lt_add_one_iff, Int.zero_add, Int.ediv_lt_iff_lt_mul hs, Int.one_mul]
    omega
  · exact iff_of_true (Int.tdiv_nonneg hx hs.le) (by omega)

section Same

variable {input filter size needed : Int64}

/-- How far the last of the windows goes past the input, or falls short of it: no word on the way is
too large, as the last window begins within the input or a stride before it. -/
theorem toInt_paddingNeeded (hinput : 0 ≤ input.toInt) (hfilter : 0 < filter.toInt)
    (hstride : 0 < stride.toInt) (hsize : 0 ≤ size.toInt)
    (hlo : input.toInt ≤ size.toInt * stride.toInt)
    (hhi : size.toInt * stride.toInt < input.toInt + stride.toInt)
    (hfits : (size.toInt - 1) * stride.toInt + filter.toInt < 2 ^ 63) :
    (max 0 ((size - 1) * stride + filter - input)).toInt =
      max 0 ((size.toInt - 1) * stride.toInt + filter.toInt - input.toInt) := by
  have hfilter' := Int64.toInt_lt filter
  have hstride' := Int64.toInt_lt stride
  have hsize' := Int64.toInt_lt size
  have hpred : (size.toInt - 1) * stride.toInt = size.toInt * stride.toInt - stride.toInt := by
    rw [Int.sub_mul, Int.one_mul]
  have hsub : (size - 1).toInt = size.toInt - 1 := by
    rw [Int64.toInt_sub]
    exact bmod_eq_self_iff.2 ⟨by rw [Int64.toInt_one]; omega, by rw [Int64.toInt_one]; omega⟩
  have hstart : ((size - 1) * stride).toInt = (size.toInt - 1) * stride.toInt := by
    rw [WrappedProduct.toInt_mul, hsub]
    exact bmod_eq_self_iff.2 ⟨by omega, by omega⟩
  have hend : ((size - 1) * stride + filter).toInt = (size.toInt - 1) * stride.toInt +
      filter.toInt := by
    rw [Int64.toInt_add, hstart]
    exact bmod_eq_self_iff.2 ⟨by omega, hfits⟩
  have hneeded : ((size - 1) * stride + filter - input).toInt =
      (size.toInt - 1) * stride.toInt + filter.toInt - input.toInt := by
    rw [Int64.toInt_sub, hend]
    exact bmod_eq_self_iff.2 ⟨by omega, by omega⟩
  rw [toInt_max, hneeded, Int64.toInt_zero]

/-- The two paddings are what is needed, together. -/
theorem toInt_halves (h : 0 ≤ needed.toInt) :
    (needed / 2).toInt + (needed - needed / 2).toInt = needed.toInt := by
  have hlt := Int64.toInt_lt needed
  have hhalf : (needed / 2).toInt = needed.toInt / 2 := by
    rw [toInt_div needed (show 0 < (2 : Int64).toInt by decide), Int.tdiv_eq_ediv_of_nonneg h]
    rfl
  rw [Int64.toInt_sub, hhalf, bmod_of_fits (by omega) (by omega)]
  omega

/-- The size and the padding that the kernel computes are the exact ones. -/
theorem windowedOutput_same (hinput : 0 ≤ input.toInt) (hfilter : 0 < filter.toInt)
    (hstride : 0 < stride.toInt) (hfits : NoOverflow input.toInt filter.toInt stride.toInt .same)
    (hw : windowedOutput input filter stride .same = w) :
    w.outputSize.toInt = (input.toInt + stride.toInt - 1) / stride.toInt ∧
      w.paddingBefore.toInt + w.paddingAfter.toInt =
        max 0 ((w.outputSize.toInt - 1) * stride.toInt + filter.toInt - input.toInt) := by
  obtain ⟨hsum, hlast⟩ := hfits
  have hround : (input + stride - 1).toInt = input.toInt + stride.toInt - 1 := by
    rw [Int64.toInt_sub, Int64.toInt_add, bmod_of_fits (by omega) hsum]
    exact bmod_of_fits (by rw [Int64.toInt_one]; omega) (by rw [Int64.toInt_one]; omega)
  have hsize : ((input + stride - 1) / stride).toInt = (input.toInt + stride.toInt - 1) /
      stride.toInt := by
    rw [toInt_div _ hstride, hround, Int.tdiv_eq_ediv_of_nonneg (by omega)]
  have hmod := Int.mul_ediv_add_emod (input.toInt + stride.toInt - 1) stride.toInt
  have hmod0 := Int.emod_nonneg (input.toInt + stride.toInt - 1) hstride.ne'
  have hmodlt := Int.emod_lt_of_pos (input.toInt + stride.toInt - 1) hstride
  rw [Int.mul_comm, ← hsize] at hmod
  rw [← hsize] at hlast
  have hneeded := toInt_paddingNeeded hinput hfilter hstride
    (hsize ▸ Int.ediv_nonneg (by omega) hstride.le) (by omega) (by omega) hlast
  obtain rfl := hw
  refine ⟨hsize, ?_⟩
  show (_ / 2 : Int64).toInt + (_ - _ / 2 : Int64).toInt =
    max 0 ((((input + stride - 1) / stride).toInt - 1) * stride.toInt + filter.toInt - input.toInt)
  rw [toInt_halves (hneeded ▸ Int.le_max_left _ _), hneeded]

end Same

/-! ## Where they agree -/

theorem wellPlaced_same (hfilter : 0 < filter.toInt) (hstride : 0 < stride.toInt)
    (hsize : w.outputSize.toInt = (input.toInt + stride.toInt - 1) / stride.toInt)
    (hpadding : w.paddingBefore.toInt + w.paddingAfter.toInt =
      max 0 ((w.outputSize.toInt - 1) * stride.toInt + filter.toInt - input.toInt)) :
    WellPlaced input.toInt filter.toInt stride.toInt .same w := by
  refine ⟨(fit_iff hstride hfilter).2 (.inr ?_), hsize.trans (ceil_div_eq _ hstride).symm⟩
  have hle := Int.le_max_right 0 ((w.outputSize.toInt - 1) * stride.toInt + filter.toInt -
    input.toInt)
  omega

theorem wellPlaced_valid {input filter : ℤ} (hfilter : 0 < filter) (hle : filter ≤ input)
    (hstride : 0 < stride.toInt)
    (hsize : w.outputSize.toInt = (input - filter + stride.toInt) / stride.toInt)
    (hbefore : w.paddingBefore = 0) (hafter : w.paddingAfter = 0) :
    WellPlaced input filter stride.toInt .valid w := by
  have hgreatest : IsGreatest {n | Fit 0 stride.toInt filter 0 input n} w.outputSize.toInt := by
    have h : IsGreatest {n | Fit 0 stride.toInt filter 0 input n}
        ((input - 0 - filter + stride.toInt) / stride.toInt) :=
      isGreatest_fit hstride hfilter (by omega)
    rwa [Int.sub_zero, ← hsize] at h
  refine ⟨?_, hgreatest⟩
  rw [hbefore, hafter, Int64.toInt_zero, Int.neg_zero, Int.add_zero]
  exact hgreatest.1

/-- A `VALID` filter that is longer than the input, by less than two strides. -/
def FilterOverhangs (input filter stride : ℤ) (padding : Padding) : Prop :=
  padding = .valid ∧ 0 < stride ∧ input < filter ∧ filter - input < 2 * stride

/-- Where shape inference computes a size and the kernel that same one. -/
theorem windowSizesAgree_of_computes {padding : Padding} {z : ℤ} (hz : 0 ≤ z)
    (hdims : Computes (getWindowedOutputSizeFromDims c inputSize filterSize stride padding) z)
    (hstride : 0 < stride.toInt) (hsize : w.outputSize.toInt = z)
    (hw : windowedOutput inputSize.value (value filterSize) stride padding = w)
    (hplaced : WellPlaced inputSize.value.toInt (value filterSize).toInt stride.toInt padding w) :
    WindowSizesAgree c inputSize filterSize stride padding where
  same_size d := by
    rw [hdims.outcome_eq hz, Except.ok.injEq, Option.some.injEq]
    simp only [getWindowedOutputSizeVerbose_eq_ok_iff, hw]
    constructor
    · rintro rfl
      exact ⟨w, ⟨hstride, hsize ▸ hz, rfl⟩, hsize⟩
    · rintro ⟨w', ⟨-, -, rfl⟩, rfl⟩
      exact hsize.symm
  placed out w' _ hverbose := by
    obtain ⟨-, -, hw'⟩ := getWindowedOutputSizeVerbose_eq_ok_iff.1 hverbose
    rwa [← hw', hw]

/-- Where shape inference refuses, the kernel has to refuse as well. -/
theorem windowSizesAgree_iff_of_error {padding : Padding} {e : Status}
    (hdims : getWindowedOutputSizeFromDims c inputSize filterSize stride padding = .error e) :
    WindowSizesAgree c inputSize filterSize stride padding ↔
      ∀ w, getWindowedOutputSizeVerbose inputSize.value (value filterSize) stride padding ≠
      .ok w := by
  constructor
  · intro h w hw
    have hok := (h.same_size w.outputSize.toInt).2 ⟨w, hw, rfl⟩
    rw [hdims] at hok
    cases hok
  · intro h
    refine ⟨fun d ↦ iff_of_false ?_ fun ⟨w, hw, _⟩ ↦ h w hw, fun out w hout ↦ ?_⟩
    · rw [hdims]
      exact nofun
    · rw [hdims] at hout
      cases hout

/-- **The two implementations agree** on a known input exactly if no `VALID` filter overhangs it by
less than two strides. -/
theorem windowSizesAgree_iff {padding : Padding} (hinput : 0 ≤ inputSize.value.toInt)
    (hfilter : 1 ≤ (value filterSize).toInt) (hfits : 0 < stride.toInt →
      NoOverflow inputSize.value.toInt (value filterSize).toInt stride.toInt padding) :
    WindowSizesAgree c inputSize filterSize stride padding ↔
      ¬FilterOverhangs inputSize.value.toInt (value filterSize).toInt stride.toInt padding := by
  obtain hstride | hstride := Int.lt_or_le 0 stride.toInt
  · have hfits := hfits hstride
    cases padding with
    | same =>
      obtain ⟨hsize, hpadding⟩ := windowedOutput_same hinput hfilter hstride hfits rfl
      have hquot : 0 ≤ (inputSize.value.toInt + stride.toInt - 1) / stride.toInt :=
        Int.ediv_nonneg (by omega) hstride.le
      refine iff_of_true ?_ fun h ↦ nomatch h.1
      exact windowSizesAgree_of_computes hquot (computes_fromDims_same hinput hstride hfits.1)
        hstride hsize rfl
        (wellPlaced_same hfilter hstride hsize hpadding)
    | valid =>
      have hsize := toInt_windowedOutput_valid hinput hfilter hstride hfits
      obtain hlt | hle := Int.lt_or_le inputSize.value.toInt (value filterSize).toInt
      · obtain ⟨e, he⟩ := fromDims_valid_of_lt (c := c) hinput hlt hstride
        have hsign :=
          tdiv_nonneg_iff (x := inputSize.value.toInt - (value filterSize).toInt +
            stride.toInt) hstride
        rw [← hsize] at hsign
        have hok : (∀ w, getWindowedOutputSizeVerbose inputSize.value (value filterSize) stride
          .valid ≠ .ok w) ↔
            ¬0 ≤ (windowedOutput inputSize.value (value filterSize) stride
            .valid).outputSize.toInt := by
          simp only [ne_eq, getWindowedOutputSizeVerbose_eq_ok_iff, not_and]
          exact ⟨fun h h0 ↦ h _ hstride h0 rfl, fun h w _ h0 hw ↦ h (hw ▸ h0)⟩
        rw [windowSizesAgree_iff_of_error he, hok, hsign, FilterOverhangs, not_iff_not]
        constructor
        · intro hover
          exact ⟨rfl, hstride, hlt, by omega⟩
        · rintro ⟨-, -, -, hover⟩
          omega
      · have hquot : 0 ≤ (inputSize.value.toInt - (value filterSize).toInt + stride.toInt) /
            stride.toInt :=
          Int.ediv_nonneg (by omega) hstride.le
        rw [Int.tdiv_eq_ediv_of_nonneg (by omega)] at hsize
        refine iff_of_true ?_ fun h ↦ Int.not_lt.2 hle h.2.2.1
        exact windowSizesAgree_of_computes hquot (computes_fromDims_valid hfilter hle hstride hfits)
          hstride hsize
          rfl (wellPlaced_valid hfilter hle hstride hsize rfl rfl)
  · have hnonpos : stride ≤ 0 := Int64.le_iff_toInt_le.2 hstride
    refine iff_of_true ((windowSizesAgree_iff_of_error (e := strideError stride) ?_).2
      fun w ↦ ?_) fun h ↦
      Int.not_lt.2 hstride h.2.1
    · exact if_pos hnonpos
    · rw [getWindowedOutputSizeVerbose, if_pos hnonpos]
      simp

/-- An input of 5 and a filter of 3, at stride 2. -/
theorem windowSizesAgree_five_three :
    (0 : ℤ) ≤ (5 : Int64).toInt ∧ (1 : ℤ) ≤ (value (.val 3)).toInt ∧
      (WindowSizesAgree ⟨[5]⟩ ⟨0, 5⟩ (.val 3) 2 .valid ↔
        ¬FilterOverhangs (5 : Int64).toInt (value (.val 3)).toInt (2 : Int64).toInt .valid) :=
  ⟨by decide, by decide, windowSizesAgree_iff (by decide) (by decide) fun _ ↦ by
    show (5 : Int64).toInt - (3 : Int64).toInt + (2 : Int64).toInt < 2 ^ 63
    decide⟩

/-- For an input of 1 and a filter of 2 at stride 1 the kernel has an output of size 0, which shape
inference rejects. -/
theorem not_windowSizesAgree_one_two :
    getWindowedOutputSizeVerbose 1 2 1 .valid = .ok ⟨0, 0, 0⟩ ∧
      ¬WindowSizesAgree ⟨[1]⟩ ⟨0, 1⟩ (.val 2) 1 .valid := by
  have hverbose : getWindowedOutputSizeVerbose 1 2 1 .valid = .ok ⟨0, 0, 0⟩ := by decide
  obtain ⟨e, he⟩ : ∃ e, getWindowedOutputSizeFromDims ⟨[1]⟩ ⟨0, 1⟩ (.val 2) 1 .valid = .error e :=
    fromDims_valid_of_lt (by decide) (by decide) (by decide)
  exact ⟨hverbose, fun h ↦ (windowSizesAgree_iff_of_error he).1 h _ hverbose⟩

end CommonShapeFns

end TensorFlowCore
