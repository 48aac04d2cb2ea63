import TensorFlowCore.Core.Status
import TensorFlowCore.Support.WrappedProduct

/-!
# `InferenceContext`: arithmetic on dimensions

The dimension arithmetic of shape inference, from `tensorflow/core/framework/shape_inference.cc`. A
dimension is a value owned by the context: a size, or `kUnknownDim`. A handle is a pointer to it;
some special cases hand the operand's own handle back, so handles keep their identity here.

An `int64` result that does not fit has wrapped around, and the operators look at its sign only.
`exactOrRefused_iff` says on which operands that is enough.
-/

namespace TensorFlowCore

open WrappedProduct

variable {u v : Int64}

/-- A `DimensionHandle`: which dimension of the context it points to, and the value there. -/
structure Dimension where
  id : ℕ
  value : Int64
  deriving DecidableEq

/-- `DimensionOrConstant`. -/
inductive DimensionOrConstant where
  | dim (d : Dimension)
  | val (v : Int64)

/-- A `ShapeHandle`: the dimensions, unless the rank is unknown. -/
abbrev InferredShape := Option (List Dimension)

/-- The dimensions that the context owns, `all_dims_`. -/
structure InferenceContext where
  allDims : List Int64

namespace InferenceContext

def kUnknownDim : Int64 := -1

/-- `Value`. -/
def value : DimensionOrConstant → Int64
  | .dim d => d.value
  | .val v => v

/-- `MakeDim`: a given handle, or a new dimension. -/
def makeDim (c : InferenceContext) : DimensionOrConstant → Dimension × InferenceContext
  | .dim d => (d, c)
  | .val v => (⟨c.allDims.length, v⟩, ⟨c.allDims ++ [v]⟩)

/-- `UnknownDim`. -/
def unknownDim (c : InferenceContext) : Dimension × InferenceContext := c.makeDim (.val kUnknownDim)

/-- The loop of `NumElements`. -/
def numElementsFrom (c : InferenceContext) (size : Int64) :
    List Dimension → Dimension × InferenceContext
  | [] => c.makeDim (.val size)
  | d :: dims =>
    if d.value = kUnknownDim then c.unknownDim else numElementsFrom c (size * d.value) dims

def numElements (c : InferenceContext) : InferredShape → Dimension × InferenceContext
  | none => c.unknownDim
  | some dims => c.numElementsFrom 1 dims

def divide (c : InferenceContext) (dividend : Dimension) (divisor : Int64)
    (evenlyDivisible : Bool) : Except Status (Dimension × InferenceContext) :=
  if divisor = 1 then .ok (dividend, c)
  else if dividend.value = kUnknownDim then .ok c.unknownDim
  else if divisor ≤ 0 then
    .error (invalidArgument [ascii "Divisor must be positive but is ", decimalInt divisor.toInt])
  else if evenlyDivisible ∧ dividend.value % divisor ≠ 0 then
    .error (invalidArgument [ascii "Dimension size must be evenly divisible by ",
      decimalInt divisor.toInt, ascii " but is ", decimalInt dividend.value.toInt])
  else .ok (c.makeDim (.val (dividend.value / divisor)))

def add (c : InferenceContext) (first : Dimension) (second : DimensionOrConstant) :
    Except Status (Dimension × InferenceContext) :=
  let firstValue := first.value
  let secondValue := value second
  if firstValue = 0 then .ok (c.makeDim second)
  else if secondValue = 0 then .ok (c.makeDim (.dim first))
  else if firstValue = kUnknownDim ∨ secondValue = kUnknownDim then .ok c.unknownDim
  else if firstValue + secondValue < 0 then
    .error (invalidArgument [ascii "Dimension size overflow from adding ",
      decimalInt firstValue.toInt, ascii " and ", decimalInt secondValue.toInt])
  else .ok (c.makeDim (.val (firstValue + secondValue)))

def subtract (c : InferenceContext) (first : Dimension) (second : DimensionOrConstant) :
    Except Status (Dimension × InferenceContext) :=
  let firstValue := first.value
  let secondValue := value second
  if secondValue = 0 then .ok (c.makeDim (.dim first))
  else if firstValue = kUnknownDim ∨ secondValue = kUnknownDim then .ok c.unknownDim
  else if firstValue < secondValue then
    .error (invalidArgument [ascii "Negative dimension size caused by subtracting ",
      decimalInt secondValue.toInt, ascii " from ", decimalInt firstValue.toInt])
  else .ok (c.makeDim (.val (firstValue - secondValue)))

def multiply (c : InferenceContext) (first : Dimension) (second : DimensionOrConstant) :
    Except Status (Dimension × InferenceContext) :=
  let firstValue := first.value
  let secondValue := value second
  if firstValue = 0 then .ok (first, c)
  else if secondValue = 0 then .ok (c.makeDim second)
  else if firstValue = 1 then .ok (c.makeDim second)
  else if secondValue = 1 then .ok (first, c)
  else if firstValue = kUnknownDim ∨ secondValue = kUnknownDim then .ok c.unknownDim
  else if firstValue * secondValue < 0 then
    .error (invalidArgument
      [ascii "Negative dimension size caused by overflow when multiplying ",
        decimalInt firstValue.toInt, ascii " and ", decimalInt secondValue.toInt])
  else .ok (c.makeDim (.val (firstValue * secondValue)))

def min (c : InferenceContext) (first : Dimension) (second : DimensionOrConstant) :
    Except Status (Dimension × InferenceContext) :=
  let firstValue := first.value
  let secondValue := value second
  if firstValue = 0 then .ok (first, c)
  else if secondValue = 0 then .ok (c.makeDim second)
  else if firstValue = kUnknownDim ∨ secondValue = kUnknownDim then .ok c.unknownDim
  else if firstValue ≤ secondValue then .ok (first, c)
  else .ok (c.makeDim second)

def max (c : InferenceContext) (first : Dimension) (second : DimensionOrConstant) :
    Except Status (Dimension × InferenceContext) :=
  let firstValue := first.value
  let secondValue := value second
  if firstValue = kUnknownDim ∨ secondValue = kUnknownDim then .ok c.unknownDim
  else if firstValue ≥ secondValue then .ok (first, c)
  else .ok (c.makeDim second)

/-! ## What a result says -/

/-- The size that a value says, if it is known. -/
def known (v : Int64) : Option ℤ := if v = kUnknownDim then none else some v.toInt

/-- The values of a dimension: unknown, or not negative. -/
def Valid (v : Int64) : Prop := v = kUnknownDim ∨ 0 ≤ v.toInt

/-- The size of the dimension that a call returns. -/
def outcome (r : Except Status (Dimension × InferenceContext)) : Except Status (Option ℤ) :=
  r.map fun out ↦ known out.1.value

/-- The sizes that a dimension may turn out to have. -/
def StandsFor : Option ℤ → ℤ → Prop
  | none, x => 0 ≤ x
  | some y, x => x = y

/-- Of two known operands the result is exact, or there is none, and there is none when it is
negative or does not fit. Otherwise the result is unknown, or right whatever the operands turn out
to be. -/
def ExactOrRefused (f : ℤ → ℤ → ℤ) (a b : Option ℤ) (r : Except Status (Option ℤ)) : Prop :=
  match a, b with
  | some x, some y =>
    (∀ v, r = .ok v → v = some (f x y)) ∧ (f x y < 0 ∨ 2 ^ 63 ≤ f x y → ∃ e, r = .error e)
  | a, b => ∃ v, r = .ok v ∧ ∀ z, v = some z → ∀ x y, StandsFor a x → StandsFor b y → f x y = z

@[simp] theorem outcome_handle (d : Dimension) (c : InferenceContext) :
    outcome (.ok (d, c)) = .ok (known d.value) := rfl

@[simp] theorem outcome_makeDim (c : InferenceContext) (d : DimensionOrConstant) :
    outcome (.ok (c.makeDim d)) = .ok (known (value d)) := by
  cases d <;> rfl

theorem known_eq_some (hv : Valid v) (hne : v ≠ kUnknownDim) :
    known v = some v.toInt ∧ 0 ≤ v.toInt := by
  obtain rfl | h0 := hv
  · exact absurd rfl hne
  · exact ⟨if_neg hne, h0⟩

theorem toInt_of_known {x : ℤ} (h : known v = some x) : v.toInt = x := by
  obtain ⟨-, hx⟩ := Option.ite_none_left_eq_some.1 h
  exact Option.some.inj hx

theorem known_of_nonneg (h : 0 ≤ v.toInt) : known v = some v.toInt := by
  refine if_neg fun hv ↦ ?_
  rw [hv] at h
  exact absurd h (by decide)

theorem valid_cases (hv : Valid v) : (v = kUnknownDim ∧ known v = none) ∨
      (v ≠ kUnknownDim ∧ known v = some v.toInt ∧ 0 ≤ v.toInt) := by
  by_cases h : v = kUnknownDim
  · exact .inl ⟨h, if_pos h⟩
  · exact .inr ⟨h, known_eq_some hv h⟩

section Rules

variable {f : ℤ → ℤ → ℤ} {a b : Option ℤ}

theorem exactOrRefused_error (x y : ℤ) (e : Status) :
    ExactOrRefused f (some x) (some y) (.error e) :=
  ⟨nofun, fun _ ↦ ⟨e, rfl⟩⟩

/-- An unknown result is right when an operand is unknown. -/
theorem exactOrRefused_unknown (h : a = none ∨ b = none) : ExactOrRefused f a b (.ok none) := by
  match a, b, h with
  | none, _, _ => exact ⟨none, rfl, nofun⟩
  | some _, none, _ => exact ⟨none, rfl, nofun⟩

theorem exactOrRefused_ok {z : ℤ} (h0 : 0 ≤ z) (hfits : z < 2 ^ 63)
    (hf : ∀ x y, StandsFor a x → StandsFor b y → f x y = z) :
    ExactOrRefused f a b (.ok (some z)) := by
  have hopen : ∃ v, (.ok (some z) : Except Status (Option ℤ)) = .ok v ∧
      ∀ z', v = some z' → ∀ x y, StandsFor a x → StandsFor b y → f x y = z' := by
    refine ⟨some z, rfl, fun z' hz' ↦ ?_⟩
    cases hz'
    exact hf
  match a, b, hf, hopen with
  | none, _, _, hopen => exact hopen
  | some _, none, _, hopen => exact hopen
  | some x, some y, hf, _ =>
    have hz : f x y = z := hf x y rfl rfl
    refine ⟨fun v hv ↦ ?_, fun hout ↦ ?_⟩
    · cases hv
      rw [hz]
    · rw [hz] at hout
      omega

/-- The first operand is the result where the operator says so. -/
theorem exactOrRefused_left (hv : Valid v)
    (hf : ∀ x y, StandsFor (known v) x → StandsFor b y → f x y = x) :
    ExactOrRefused f (known v) b (.ok (known v)) := by
  obtain ⟨-, h⟩ | ⟨-, h, h0⟩ := valid_cases hv
  · rw [h]
    exact exactOrRefused_unknown (.inl rfl)
  · rw [h] at hf ⊢
    exact exactOrRefused_ok h0 (Int64.toInt_lt v) fun x y hx hy ↦ (hf x y hx hy).trans hx

/-- The second operand is the result where the operator says so. -/
theorem exactOrRefused_right (hv : Valid v)
    (hf : ∀ x y, StandsFor a x → StandsFor (known v) y → f x y = y) :
    ExactOrRefused f a (known v) (.ok (known v)) := by
  obtain ⟨-, h⟩ | ⟨-, h, h0⟩ := valid_cases hv
  · rw [h]
    exact exactOrRefused_unknown (.inr rfl)
  · rw [h] at hf ⊢
    exact exactOrRefused_ok h0 (Int64.toInt_lt v) fun x y hx hy ↦ (hf x y hx hy).trans hy

/-- A computed result is right when the operands are known and it is their exact one. -/
theorem exactOrRefused_val {u v w : Int64} (hu : known u = some u.toInt)
    (hv : known v = some v.toInt) (h0 : 0 ≤ w.toInt) (hw : w.toInt = f u.toInt v.toInt) :
    ExactOrRefused f (known u) (known v) (.ok (known w)) := by
  rw [hu, hv, known_of_nonneg h0]
  refine exactOrRefused_ok h0 (Int64.toInt_lt w) fun x y hx hy ↦ ?_
  rw [hw, show x = u.toInt from hx, show y = v.toInt from hy]

end Rules

variable {c : InferenceContext} {first : Dimension} {second : DimensionOrConstant}

theorem standsFor_known {x : ℤ} (h : StandsFor (known v) x) (hv : v ≠ kUnknownDim) :
    x = v.toInt := by
  rwa [known, if_neg hv] at h

theorem nonneg_of_standsFor {x : ℤ} (hv : Valid v) (h : StandsFor (known v) x) : 0 ≤ x := by
  obtain ⟨-, heq⟩ | ⟨-, heq, h0⟩ := valid_cases hv
  · rwa [heq] at h
  · rw [heq] at h
    exact h0.trans_eq (Eq.symm h)

theorem known_unknown_of_or (h : u = kUnknownDim ∨ v = kUnknownDim) :
    known u = none ∨ known v = none :=
  h.imp (fun hu ↦ if_pos hu) (fun hv ↦ if_pos hv)

/-- Two values that are not unknown, in range. -/
theorem known_of_not_or (hu : Valid u) (hv : Valid v) (h : ¬ (u = kUnknownDim ∨ v = kUnknownDim)) :
    (known u = some u.toInt ∧ 0 ≤ u.toInt) ∧ (known v = some v.toInt ∧ 0 ≤ v.toInt) :=
  ⟨known_eq_some hu fun heq ↦ h (.inl heq), known_eq_some hv fun heq ↦ h (.inr heq)⟩

theorem neg_iff : v < 0 ↔ v.toInt < 0 := Int64.lt_iff_toInt_lt

/-- Two words that are not negative have a sum whose sign tells whether it fits. -/
theorem toInt_add_of_nonneg (hu : 0 ≤ u.toInt) (hv : 0 ≤ v.toInt) (h : ¬ u + v < 0) :
    (u + v).toInt = u.toInt + v.toInt := by
  have hsign : ¬ (u + v).toInt < 0 := fun hlt ↦ h (neg_iff.2 hlt)
  have hult := Int64.toInt_lt u
  have hvlt := Int64.toInt_lt v
  rw [Int64.toInt_add] at hsign ⊢
  have hmod := bmod_nonneg_iff.1 (Int.not_lt.1 hsign)
  exact bmod_of_fits (by omega) (by omega)

/-- A sum that wraps round is negative, and so refused. -/
theorem exactOrRefused_add (h₁ : Valid first.value) (h₂ : Valid (value second)) :
    ExactOrRefused (· + ·) (known first.value) (known (value second))
      (outcome (c.add first second)) := by
  unfold add
  dsimp only
  split
  · next h =>
    rw [outcome_makeDim]
    refine exactOrRefused_right h₂ fun x y hx _ ↦ ?_
    rw [standsFor_known hx (by rw [h]; decide), h]
    exact Int.zero_add y
  split
  · next h =>
    rw [outcome_makeDim]
    refine exactOrRefused_left h₁ fun x y _ hy ↦ ?_
    rw [standsFor_known hy (by rw [h]; decide), h]
    exact Int.add_zero x
  split
  · next h => exact exactOrRefused_unknown (known_unknown_of_or h)
  next h =>
    obtain ⟨⟨hu, hu0⟩, hv, hv0⟩ := known_of_not_or h₁ h₂ h
    split
    · rw [hu, hv]
      exact exactOrRefused_error _ _ _
    · next hsign =>
      rw [outcome_makeDim]
      have hsum := toInt_add_of_nonneg hu0 hv0 hsign
      exact exactOrRefused_val hu hv (hsum ▸ Int.add_nonneg hu0 hv0) hsum

/-- A difference of two words that are not negative fits when it is not negative. -/
theorem toInt_sub_of_nonneg (hv : 0 ≤ v.toInt) (h : ¬ u < v) :
    (u - v).toInt = u.toInt - v.toInt ∧ 0 ≤ u.toInt - v.toInt := by
  have hle : v.toInt ≤ u.toInt := Int.not_lt.1 fun hlt ↦ h (Int64.lt_iff_toInt_lt.2 hlt)
  have hult := Int64.toInt_lt u
  refine ⟨?_, Int.sub_nonneg.2 hle⟩
  rw [Int64.toInt_sub]
  exact bmod_of_fits (Int.sub_nonneg.2 hle) (by omega)

section

variable (h₁ : Valid first.value) (h₂ : Valid (value second))
include h₁ h₂

theorem exactOrRefused_subtract : ExactOrRefused (· - ·) (known first.value) (known (value second))
      (outcome (c.subtract first second)) := by
  unfold subtract
  dsimp only
  split
  · next h =>
    rw [outcome_makeDim]
    refine exactOrRefused_left h₁ fun x y _ hy ↦ ?_
    rw [standsFor_known hy (by rw [h]; decide), h]
    exact Int.sub_zero x
  split
  · next h => exact exactOrRefused_unknown (known_unknown_of_or h)
  next h =>
    obtain ⟨⟨hu, -⟩, hv, hv0⟩ := known_of_not_or h₁ h₂ h
    split
    · rw [hu, hv]
      exact exactOrRefused_error _ _ _
    · next hle =>
      rw [outcome_makeDim]
      obtain ⟨hdiff, hdiff0⟩ := toInt_sub_of_nonneg hv0 hle
      exact exactOrRefused_val hu hv (hdiff ▸ hdiff0) hdiff

/-- A known zero is the minimum, whatever the other operand is. -/
theorem exactOrRefused_min : ExactOrRefused Min.min (known first.value) (known (value second))
      (outcome (c.min first second)) := by
  unfold min
  dsimp only
  split
  · next h =>
    refine exactOrRefused_left h₁ fun x y hx hy ↦ Int.min_eq_left ?_
    rw [standsFor_known hx (by rw [h]; decide), h]
    exact nonneg_of_standsFor h₂ hy
  split
  · next h =>
    rw [outcome_makeDim]
    refine exactOrRefused_right h₂ fun x y hx hy ↦ Int.min_eq_right ?_
    rw [standsFor_known hy (by rw [h]; decide), h]
    exact nonneg_of_standsFor h₁ hx
  split
  · next h => exact exactOrRefused_unknown (known_unknown_of_or h)
  next h =>
    obtain ⟨⟨hu, hu0⟩, hv, hv0⟩ := known_of_not_or h₁ h₂ h
    split
    · next hle =>
      exact exactOrRefused_val hu hv hu0 (Int.min_eq_left (Int64.le_iff_toInt_le.1 hle)).symm
    · next hle =>
      rw [outcome_makeDim]
      have hlt : (value second).toInt < first.value.toInt :=
        Int.not_le.1 fun hle' ↦ hle (Int64.le_iff_toInt_le.2 hle')
      exact exactOrRefused_val hu hv hv0 (Int.min_eq_right hlt.le).symm

theorem exactOrRefused_max : ExactOrRefused Max.max (known first.value) (known (value second))
      (outcome (c.max first second)) := by
  unfold max
  dsimp only
  split
  · next h => exact exactOrRefused_unknown (known_unknown_of_or h)
  next h =>
    obtain ⟨⟨hu, hu0⟩, hv, hv0⟩ := known_of_not_or h₁ h₂ h
    split
    · next hle =>
      exact exactOrRefused_val hu hv hu0 (Int.max_eq_left (Int64.le_iff_toInt_le.1 hle)).symm
    · next hle =>
      rw [outcome_makeDim]
      have hlt : first.value.toInt < (value second).toInt :=
        Int.not_le.1 fun hle' ↦ hle (Int64.le_iff_toInt_le.2 hle')
      exact exactOrRefused_val hu hv hv0 (Int.max_eq_right hlt.le).symm

end

/-- `Divide` by a divisor that is one or not positive, or of an unknown dimension, needs no
arithmetic; otherwise the quotient of two words that are not negative cannot overflow. -/
theorem exactOrRefused_divide {divisor : Int64} {evenly : Bool} (h₁ : Valid first.value) :
    ExactOrRefused (fun x y ↦ x.tdiv y) (known first.value) (some divisor.toInt)
      (outcome (c.divide first divisor evenly)) := by
  unfold divide
  split
  · next h =>
    refine exactOrRefused_left h₁ fun x y _ hy ↦ ?_
    rw [show y = divisor.toInt from hy, h]
    exact Int.tdiv_one x
  split
  · next h => exact exactOrRefused_unknown (.inl (if_pos h))
  next hne =>
    obtain ⟨hu, hu0⟩ := known_eq_some h₁ hne
    split
    · rw [hu]
      exact exactOrRefused_error _ _ _
    next hpos =>
      split
      · rw [hu]
        exact exactOrRefused_error _ _ _
      · rw [outcome_makeDim]
        have hd : 0 < divisor.toInt := Int.not_le.1 fun hle ↦ hpos (Int64.le_iff_toInt_le.2 hle)
        have hquot : (first.value / divisor).toInt = first.value.toInt.tdiv divisor.toInt :=
          Int64.toInt_div_of_ne_right _ _ fun heq ↦ by
            rw [heq] at hd
            exact absurd hd (by decide)
        have hv : known divisor = some divisor.toInt := known_of_nonneg hd.le
        have hval := exactOrRefused_val (f := fun x y ↦ x.tdiv y) hu hv
          (hquot ▸ Int.tdiv_nonneg hu0 hd.le) hquot
        rwa [hv] at hval

/-- A quotient that had to be even is. -/
theorem mul_divisor_of_divide {divisor : Int64} {out : Dimension} {c' : InferenceContext}
    (h₁ : first.value ≠ kUnknownDim) (h : c.divide first divisor true = .ok (out, c')) :
    out.value.toInt * divisor.toInt = first.value.toInt := by
  unfold divide at h
  split at h
  · next hone =>
    cases h
    rw [hone]
    exact Int.mul_one _
  split at h
  · exact absurd h nofun
  next hpos =>
    split at h
    · exact absurd h nofun
    next heven =>
      have hd : 0 < divisor.toInt := Int.not_le.1 fun hle ↦ hpos (Int64.le_iff_toInt_le.2 hle)
      cases h
      have hmod : first.value % divisor = 0 := by
        by_contra hmod
        exact heven ⟨rfl, hmod⟩
      have htmod : first.value.toInt.tmod divisor.toInt = 0 := by
        rw [← Int64.toInt_mod, hmod]
        rfl
      show (first.value / divisor).toInt * divisor.toInt = first.value.toInt
      rw [Int64.toInt_div_of_ne_right _ _ fun heq ↦ absurd (heq ▸ hd) (by decide)]
      exact Int.tdiv_mul_cancel (Int.dvd_of_tmod_eq_zero htmod)

/-- The products that wrap around to a word that is not negative: `Multiply` takes them for exact
ones. -/
def WrapsToNonneg (a b : Option ℤ) : Prop :=
  ∃ x y, a = some x ∧ b = some y ∧ 2 ^ 63 ≤ x * y ∧ x * y % 2 ^ 64 < 2 ^ 63

/-- An overflow is refused unless the product wraps round to one that is not negative. -/
theorem exactOrRefused_multiply (h₁ : Valid first.value) (h₂ : Valid (value second))
    (hwrap : ¬ WrapsToNonneg (known first.value) (known (value second))) :
    ExactOrRefused (· * ·) (known first.value) (known (value second))
      (outcome (c.multiply first second)) := by
  unfold multiply
  dsimp only
  split
  · next h =>
    refine exactOrRefused_left h₁ fun x y hx _ ↦ ?_
    rw [standsFor_known hx (by rw [h]; decide), h]
    exact Int.zero_mul y
  split
  · next h =>
    rw [outcome_makeDim]
    refine exactOrRefused_right h₂ fun x y _ hy ↦ ?_
    rw [standsFor_known hy (by rw [h]; decide), h]
    exact Int.mul_zero x
  split
  · next h =>
    rw [outcome_makeDim]
    refine exactOrRefused_right h₂ fun x y hx _ ↦ ?_
    rw [standsFor_known hx (by rw [h]; decide), h]
    exact Int.one_mul y
  split
  · next h =>
    refine exactOrRefused_left h₁ fun x y _ hy ↦ ?_
    rw [standsFor_known hy (by rw [h]; decide), h]
    exact Int.mul_one x
  split
  · next h => exact exactOrRefused_unknown (known_unknown_of_or h)
  next h =>
    obtain ⟨⟨hu, hu0⟩, hv, hv0⟩ := known_of_not_or h₁ h₂ h
    split
    · rw [hu, hv]
      exact exactOrRefused_error _ _ _
    · next hsign =>
      rw [outcome_makeDim]
      have hsign' : 0 ≤ (first.value * value second).toInt :=
        Int.not_lt.1 fun hlt ↦ hsign (neg_iff.2 hlt)
      have hfits : first.value.toInt * (value second).toInt < 2 ^ 63 := by
        by_contra hbig
        rw [toInt_mul] at hsign'
        exact hwrap ⟨_, _, hu, hv, Int.not_lt.1 hbig, bmod_nonneg_iff.1 hsign'⟩
      have hprod :
          (first.value * value second).toInt = first.value.toInt * (value second).toInt := by
        rw [toInt_mul]
        exact bmod_of_fits (Int.mul_nonneg hu0 hv0) hfits
      exact exactOrRefused_val hu hv hsign' hprod

/-- A product that wraps to a word that is not negative is returned as if it were exact. -/
theorem not_exactOrRefused_multiply
    (hwrap : WrapsToNonneg (known first.value) (known (value second))) :
    ¬ ExactOrRefused (· * ·) (known first.value) (known (value second))
      (outcome (c.multiply first second)) := by
  obtain ⟨x, y, hx, hy, hbig, hmod⟩ := hwrap
  have hxv := toInt_of_known hx
  have hyv := toInt_of_known hy
  have hxlt := Int64.toInt_lt first.value
  have hylt := Int64.toInt_lt (value second)
  have hx0 : first.value ≠ 0 := fun h ↦ by
    obtain rfl : x = 0 := hxv.symm.trans (by rw [h]; rfl)
    omega
  have hy0 : value second ≠ 0 := fun h ↦ by
    obtain rfl : y = 0 := hyv.symm.trans (by rw [h]; rfl)
    omega
  have hx1 : first.value ≠ 1 := fun h ↦ by
    obtain rfl : x = 1 := hxv.symm.trans (by rw [h]; rfl)
    omega
  have hy1 : value second ≠ 1 := fun h ↦ by
    obtain rfl : y = 1 := hyv.symm.trans (by rw [h]; rfl)
    omega
  have hknown : ¬ (first.value = kUnknownDim ∨ value second = kUnknownDim) := fun h ↦ by
    obtain h | h := known_unknown_of_or h
    · exact absurd (h.symm.trans hx) nofun
    · exact absurd (h.symm.trans hy) nofun
  have hsign : ¬ first.value * value second < 0 := fun h ↦ by
    have hneg := neg_iff.1 h
    rw [toInt_mul, hxv, hyv] at hneg
    exact Int.not_le.2 hneg (bmod_nonneg_iff.2 hmod)
  unfold multiply
  rw [if_neg hx0, if_neg hy0, if_neg hx1, if_neg hy1, if_neg hknown, if_neg hsign, hx, hy]
  intro hexact
  obtain ⟨e, he⟩ := hexact.2 (.inr hbig)
  exact absurd he nofun

/-! ## The number of elements of a shape -/

/-- The sizes of the dimensions of a shape. -/
def sizes (dims : List Dimension) : List Int64 := dims.map Dimension.value

theorem numElementsFrom_of_known {size : Int64} {dims : List Dimension}
    (h : ∀ d ∈ dims, d.value ≠ kUnknownDim) :
    c.numElementsFrom size dims = c.makeDim (.val ((sizes dims).foldl (· * ·) size)) := by
  induction dims generalizing size with
  | nil => rfl
  | cons d dims ih =>
    obtain ⟨hd, hdims⟩ := List.forall_mem_cons.1 h
    rw [numElementsFrom, if_neg hd, ih hdims]
    rfl

/-- Of a fully known shape, the number of elements is the exact product, or unknown. -/
def NumElementsExact (c : InferenceContext) (s : InferredShape) : Prop :=
  ∀ dims, s = some dims → (∀ d ∈ dims, d.value ≠ kUnknownDim) →
    ∀ n, known (c.numElements s).1.value = some n → n = exactProduct (sizes dims)

/-- The fully known shapes whose product does not fit, and does not wrap to the word for an unknown
size either. -/
def ShapeWraps (s : InferredShape) : Prop :=
  ∃ dims, s = some dims ∧ (∀ d ∈ dims, d.value ≠ kUnknownDim) ∧
    2 ^ 63 ≤ exactProduct (sizes dims) ∧ exactProduct (sizes dims) % 2 ^ 64 ≠ 2 ^ 64 - 1

theorem toInt_numElements {dims : List Dimension} (h : ∀ d ∈ dims, d.value ≠ kUnknownDim) :
    (c.numElements (some dims)).1.value.toInt = (exactProduct (sizes dims)).bmod (2 ^ 64) := by
  rw [numElements, numElementsFrom_of_known h]
  show ((sizes dims).foldl (· * ·) 1).toInt = _
  rw [toInt_foldl_mul (x := 1) (by decide), one_mul]

/-- The count is exact unless one of its products wraps round unseen. -/
theorem numElementsExact_iff {s : InferredShape}
    (hs : ∀ dims, s = some dims → ∀ d ∈ dims, Valid d.value) :
    NumElementsExact c s ↔ ¬ ShapeWraps s := by
  refine ⟨fun h ⟨dims, hdims, hknown, hbig, hmod⟩ ↦ ?_, fun h dims hdims hknown n hn ↦ ?_⟩
  · subst hdims
    have hval := toInt_numElements (c := c) hknown
    have hne : (c.numElements (some dims)).1.value ≠ kUnknownDim := fun heq ↦ by
      rw [heq, show kUnknownDim.toInt = -1 by decide, Int.bmod_def] at hval
      split at hval <;> omega
    have hexact := h dims rfl hknown _ (if_neg hne)
    have hlt := Int64.toInt_lt (c.numElements (some dims)).1.value
    omega
  · subst hdims
    have hval := toInt_of_known hn
    rw [toInt_numElements hknown] at hval
    have h0 : 0 ≤ exactProduct (sizes dims) := exactProduct_nonneg fun a ha ↦ by
      obtain ⟨d, hd, rfl⟩ := List.mem_map.1 ha
      exact (known_eq_some (hs dims rfl d hd) (hknown d hd)).2
    by_cases hfits : exactProduct (sizes dims) < 2 ^ 63
    · rw [← hval, bmod_of_fits h0 hfits]
    · have hmod : exactProduct (sizes dims) % 2 ^ 64 = 2 ^ 64 - 1 := by
        by_contra hmod
        exact h ⟨dims, rfl, hknown, Int.not_lt.1 hfits, hmod⟩
      have hneg : n = -1 := by
        rw [← hval, Int.bmod_def, if_neg (by omega)]
        omega
      obtain ⟨hne, -⟩ := Option.ite_none_left_eq_some.1 hn
      refine absurd (Int64.toInt_inj.1 ?_) hne
      rw [toInt_of_known hn, hneg]
      rfl

/-- The arithmetic of the context on these operands is exact, or refuses. -/
structure ExactArithmetic (c : InferenceContext) (first : Dimension)
    (second : DimensionOrConstant) (divisor : Int64) (s : InferredShape) : Prop where
  add : ExactOrRefused (· + ·) (known first.value) (known (value second))
    (outcome (c.add first second))
  subtract : ExactOrRefused (· - ·) (known first.value) (known (value second))
    (outcome (c.subtract first second))
  multiply : ExactOrRefused (· * ·) (known first.value) (known (value second))
    (outcome (c.multiply first second))
  divide : ∀ evenly, ExactOrRefused (fun x y ↦ x.tdiv y) (known first.value) (some divisor.toInt)
    (outcome (c.divide first divisor evenly))
  divide_evenly : first.value ≠ kUnknownDim → ∀ out c',
    c.divide first divisor true = .ok (out, c') →
      out.value.toInt * divisor.toInt = first.value.toInt
  min : ExactOrRefused Min.min (known first.value) (known (value second))
    (outcome (c.min first second))
  max : ExactOrRefused Max.max (known first.value) (known (value second))
    (outcome (c.max first second))
  numElements : NumElementsExact c s

/-- **When the arithmetic is exact.** `Add`, `Subtract`, `Divide`, `Min` and `Max` are exact or
refuse on all operands, `Multiply` unless the product wraps to a word that is not negative, and
`NumElements` unless it wraps to anything but the word for an unknown size. -/
theorem exactArithmetic_iff (c : InferenceContext) (first : Dimension)
    (second : DimensionOrConstant) (divisor : Int64) (s : InferredShape) (h₁ : Valid first.value)
    (h₂ : Valid (value second)) (hs : ∀ dims, s = some dims → ∀ d ∈ dims, Valid d.value) :
    ExactArithmetic c first second divisor s ↔
      ¬ WrapsToNonneg (known first.value) (known (value second)) ∧ ¬ ShapeWraps s := by
  refine ⟨fun h ↦ ⟨fun hwrap ↦ not_exactOrRefused_multiply hwrap h.multiply,
    (numElementsExact_iff hs).1 h.numElements⟩, fun ⟨hwrap, hshape⟩ ↦ ?_⟩
  exact {
    add := exactOrRefused_add h₁ h₂
    subtract := exactOrRefused_subtract h₁ h₂
    multiply := exactOrRefused_multiply h₁ h₂ hwrap
    divide := fun evenly ↦ exactOrRefused_divide h₁
    divide_evenly := fun hne _ _ h ↦ mul_divisor_of_divide hne h
    min := exactOrRefused_min h₁ h₂
    max := exactOrRefused_max h₁ h₂
    numElements := (numElementsExact_iff hs).2 hshape }

/-- On dimensions of `6` and `7` and the shape they make, nothing wraps around. -/
theorem exactArithmetic_six_seven :
    ExactArithmetic ⟨[6, 7]⟩ ⟨0, 6⟩ (.dim ⟨1, 7⟩) 2 (some [⟨0, 6⟩, ⟨1, 7⟩]) := by
  refine (exactArithmetic_iff ⟨[6, 7]⟩ ⟨0, 6⟩ (.dim ⟨1, 7⟩) 2 (some [⟨0, 6⟩, ⟨1, 7⟩])
    (.inr (by decide)) (.inr (by decide)) ?_).2 ⟨?_, ?_⟩
  · rintro dims ⟨⟩ d hd
    obtain rfl | hd := List.mem_cons.1 hd
    · exact .inr (by decide)
    · obtain rfl := List.mem_singleton.1 hd
      exact .inr (by decide)
  · rintro ⟨x, y, hx, hy, hbig, -⟩
    obtain rfl : (6 : ℤ) = x := Option.some.inj hx
    obtain rfl : (7 : ℤ) = y := Option.some.inj hy
    exact absurd hbig (by decide)
  · rintro ⟨dims, ⟨⟩, -, hbig, -⟩
    exact absurd hbig (by decide)

/-- `2 ^ 32 * 2 ^ 32` is the known dimension `0`, for `Multiply` and for `NumElements`. -/
theorem not_exactArithmetic_two_pow_32 :
    ¬ ExactArithmetic ⟨[4294967296]⟩ ⟨0, 4294967296⟩ (.val 4294967296) 1
      (some [⟨0, 4294967296⟩, ⟨0, 4294967296⟩]) := by
  intro h
  have hexact : (4294967296 : ℤ) * 4294967296 < 0 ∨ 2 ^ 63 ≤ (4294967296 : ℤ) * 4294967296 →
      ∃ e, outcome (multiply ⟨[4294967296]⟩ ⟨0, 4294967296⟩ (.val 4294967296)) = .error e :=
    h.multiply.2
  obtain ⟨e, he⟩ := hexact (.inr (by decide))
  have hzero : multiply ⟨[4294967296]⟩ ⟨0, 4294967296⟩ (.val 4294967296) =
      .ok (⟨1, 0⟩, ⟨[4294967296, 0]⟩) := rfl
  rw [hzero] at he
  exact absurd he nofun

end InferenceContext

end TensorFlowCore

/-!
## `InferenceContext`: operators on shapes

The operators on partially known shapes, from `tensorflow/core/framework/shape_inference.cc`. A
shape is owned by the context as a dimension is, and some operators hand an operand's own handle
back, so that handles keep their identity.

A partially known shape stands for the set of the concrete shapes it admits (`concrete`). On the
handles of a context every operator computes with these sets: `Merge` their intersection, and the
others the set of the results on the members, or more where the rank is unknown (`exactOperators`).
-/

namespace TensorFlowCore

/-- A `ShapeHandle`: which shape of the context it points to, and the shape there. -/
structure ShapeHandle where
  id : ℕ
  shape : InferredShape
  deriving DecidableEq

/-- What the context owns: `all_dims_` and `all_shapes_`. -/
structure ShapeContext where
  dims : InferenceContext
  allShapes : List InferredShape

/-- `kUnknownRank`. -/
def kUnknownRank : ℤ := -1

namespace ShapeHandle

/-- `Rank`. -/
def rank (s : ShapeHandle) : ℤ :=
  match s.shape with
  | none => kUnknownRank
  | some dims => dims.length

end ShapeHandle

namespace ShapeContext

open InferenceContext

/-- What an operator returns: `*out`, with the context it leaves, or an error. -/
abbrev Result := Except Status (ShapeHandle × ShapeContext)

/-- Store a shape. -/
def push (c : ShapeContext) (s : InferredShape) : ShapeHandle × ShapeContext :=
  (⟨c.allShapes.length, s⟩, { c with allShapes := c.allShapes ++ [s] })

def makeShape (c : ShapeContext) (dims : List Dimension) : ShapeHandle × ShapeContext :=
  c.push (some dims)

def unknownShape (c : ShapeContext) : ShapeHandle × ShapeContext := c.push none

/-- The loop of `WithRank`: new unknown dimensions. -/
def unknownDims : ℕ → InferenceContext → List Dimension × InferenceContext
  | 0, c => ([], c)
  | n + 1, c =>
    let (d, c) := c.unknownDim
    let (dims, c) := unknownDims n c
    (d :: dims, c)

/-- `WithRank`. Room for a negative number of dimensions cannot be reserved, which ends the
process. -/
def withRank (c : ShapeContext) (shape : ShapeHandle) (rank : ℤ) : Option Result :=
  let existing := shape.rank
  if existing = rank then some (.ok (shape, c))
  else if existing = kUnknownRank then
    if rank < 0 then none
    else
      let (dims, dimsContext) := unknownDims rank.toNat c.dims
      some (.ok (makeShape { c with dims := dimsContext } dims))
  else some (.error (invalidArgument [ascii "Shape must be rank ", decimalInt rank,
    ascii " but is rank ", decimalInt existing]))

def withRankAtLeast (c : ShapeContext) (shape : ShapeHandle) (rank : ℤ) : Result :=
  let existing := shape.rank
  if existing ≥ rank then .ok (shape, c)
  else if existing = kUnknownRank then .ok c.unknownShape
  else .error (invalidArgument [ascii "Shape must be at least rank ", decimalInt rank,
    ascii " but is rank ", decimalInt existing])

def withRankAtMost (c : ShapeContext) (shape : ShapeHandle) (rank : ℤ) : Result :=
  let existing := shape.rank
  if existing = kUnknownRank then .ok c.unknownShape
  else if existing ≤ rank then .ok (shape, c)
  else .error (invalidArgument [ascii "Shape must be at most rank ", decimalInt rank,
    ascii " but is rank ", decimalInt existing])

/-- `Merge` of two dimensions. -/
def mergeDim (d₀ d₁ : Dimension) : Except Status Dimension :=
  if d₀.id = d₁.id ∨ d₁.value = kUnknownDim then .ok d₀
  else if d₀.value = kUnknownDim then .ok d₁
  else if d₀.value = d₁.value then .ok d₀
  else .error (invalidArgument [ascii "Dimensions must be equal, but are ",
    decimalInt d₀.value.toInt, ascii " and ", decimalInt d₁.value.toInt])

/-- The dimensions merged one after another. -/
def mergeDims : List Dimension → List Dimension → Except Status (List Dimension)
  | d₀ :: dims₀, d₁ :: dims₁ =>
    match mergeDim d₀ d₁ with
    | .error e => .error e
    | .ok d =>
      match mergeDims dims₀ dims₁ with
      | .error e => .error e
      | .ok dims => .ok (d :: dims)
  | _, _ => .ok []

def mergePrefix (c : ShapeContext) (s prefixShape : ShapeHandle) :
    Except Status (ShapeHandle × ShapeHandle × ShapeContext) :=
  match s.shape, prefixShape.shape with
  | some _, some prefixDims =>
    match c.withRankAtLeast s prefixShape.rank with
    | .error e => .error e
    | .ok (s, c) =>
      let sDims := s.shape.getD []
      match mergeDims sDims prefixDims with
      | .error e => .error e
      | .ok dims =>
        let (prefixOut, c) := c.makeShape dims
        let (sOut, c) := c.makeShape (dims ++ sDims.drop prefixDims.length)
        .ok (sOut, prefixOut, c)
  | _, _ => .ok (s, prefixShape, c)

/-- The first loop of `Merge`, from dimension `i` on: `return_s0` and `return_s1`. -/
def mergeScan (returnS0 returnS1 : Bool) :
    ℕ → List Dimension → List Dimension → Except Status (Bool × Bool)
  | i, d₀ :: dims₀, d₁ :: dims₁ =>
    if d₀.id = d₁.id then mergeScan returnS0 returnS1 (i + 1) dims₀ dims₁
    else if d₀.value = kUnknownDim then
      mergeScan (if d₁.value ≠ kUnknownDim then false else returnS0) returnS1 (i + 1) dims₀ dims₁
    else if d₁.value = kUnknownDim then mergeScan returnS0 false (i + 1) dims₀ dims₁
    else if d₀.value ≠ d₁.value then
      .error (invalidArgument [ascii "Dimension ", decimal i,
        ascii " in both shapes must be equal, but are ", decimalInt d₀.value.toInt, ascii " and ",
        decimalInt d₁.value.toInt])
    else mergeScan returnS0 returnS1 (i + 1) dims₀ dims₁
  | _, _, _ => .ok (returnS0, returnS1)

/-- `Merge`. The second loop checks that its calls are `OK`. -/
def merge (c : ShapeContext) (s₀ s₁ : ShapeHandle) : Option Result :=
  if s₀.id = s₁.id then some (.ok (s₀, c))
  else
    match s₀.shape, s₁.shape with
    | _, none => some (.ok (s₀, c))
    | none, some _ => some (.ok (s₁, c))
    | some dims₀, some dims₁ =>
      if s₀.rank ≠ s₁.rank then
        some (.error (invalidArgument [ascii "Shapes must be equal rank, but are ",
          decimalInt s₀.rank, ascii " and ", decimalInt s₁.rank]))
      else
        match mergeScan true true 0 dims₀ dims₁ with
        | .error e => some (.error e)
        | .ok (returnS0, returnS1) =>
          if returnS0 ∨ returnS1 then some (.ok (if returnS0 then s₀ else s₁, c))
          else
            match mergeDims dims₀ dims₁ with
            | .error _ => none
            | .ok dims => some (.ok (c.makeShape dims))

/-- `std::numeric_limits<int64>::max()`. -/
def int64Max : Int64 := 9223372036854775807

def subshape (c : ShapeContext) (s : ShapeHandle) (startIn endIn : Int64) : Result :=
  let rank := s.rank
  if startIn = 0 ∧ (rank ≠ kUnknownRank ∧ endIn.toInt ≥ rank ∨ endIn = int64Max) then .ok (s, c)
  else
    match s.shape with
    | none => .ok c.unknownShape
    | some dims =>
      let start := if startIn.toInt > rank then rank else startIn.toInt
      let stop := if endIn.toInt > rank then rank else endIn.toInt
      let start := if start < 0 then rank + start else start
      let stop' := if stop < 0 then rank + stop else stop
      if start < 0 then
        .error (invalidArgument [ascii "Subshape start out of bounds: ", decimalInt startIn.toInt,
          ascii ", for shape with rank ", decimalInt rank])
      else if stop' < 0 then
        .error (invalidArgument [ascii "Subshape end out of bounds: ", decimalInt endIn.toInt,
          ascii ", for shape with rank ", decimalInt rank])
      else if start > stop' then
        .error (invalidArgument [ascii "Subshape must have computed start <= end, but is ",
          decimalInt start, ascii " and ", decimalInt stop', ascii " (computed from start ",
          decimalInt startIn.toInt, ascii " and end ", decimalInt endIn.toInt,
          ascii " over shape with rank ", decimalInt rank, ascii ")"])
      else .ok (c.makeShape ((dims.drop start.toNat).take (stop' - start).toNat))

def concatenate (c : ShapeContext) (s₁ s₂ : ShapeHandle) : Result :=
  match s₁.shape, s₂.shape with
  | some dims₁, some dims₂ => .ok (c.makeShape (dims₁ ++ dims₂))
  | _, _ => .ok c.unknownShape

def replaceDim (c : ShapeContext) (s : ShapeHandle) (dimIndexIn : ℤ) (newDim : Dimension) :
    Result :=
  match s.shape with
  | none => .ok c.unknownShape
  | some dims =>
    let dimIndex := if dimIndexIn < 0 then dims.length + dimIndexIn else dimIndexIn
    if 0 ≤ dimIndex ∧ dimIndex < dims.length then .ok (c.makeShape (dims.set dimIndex.toNat newDim))
    else .error (invalidArgument [ascii "Out of range dim_index ", decimalInt dimIndexIn,
      ascii " for shape with ", decimal dims.length, ascii " dimensions"])

end ShapeContext

end TensorFlowCore
