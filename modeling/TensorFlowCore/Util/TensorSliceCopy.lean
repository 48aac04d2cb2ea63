import TensorFlowCore.Util.TensorSliceUtil

/-!
# What a copy between slices copies

`CopyDataFromTensorSliceToTensorSlice` on any two slices of a tensor, the empty ones among them.
Which places it reads and writes does not depend on the buffers (`placesUsed`). It copies the common
coordinates, from the place that each has in the source to the one it has in the destination, but
does not notice that there are none where one extent is everything and the other one is empty
(`copiesIntersection_iff`).
-/

namespace TensorFlowCore

open Boxes List RowMajor TensorSlice

namespace Extent

variable {size : Int64} {a b e : Extent}

/-- Neither is everything, and they have nothing in common. -/
def Apart (a b : Extent) : Prop :=
  ¬a.IsFull ∧ ¬b.IsFull ∧ min (a.start.toInt + a.length.toInt) (b.start.toInt + b.length.toInt) ≤
    max a.start.toInt b.start.toInt

/-- One is everything, and the other one is empty. -/
def MeetsEmpty (size : Int64) (a b : Extent) : Prop :=
  a.IsFull ∧ (b.interval size).2 ≤ (b.interval size).1 ∨
    b.IsFull ∧ (a.interval size).2 ≤ (a.interval size).1

variable (ha : a.InBounds size) (hb : b.InBounds size)
include ha hb

theorem intersect_eq_none_iff : a.intersect b = none ↔ a.Apart b := by
  rw [intersect, Apart]
  split
  · rename_i hfull
    exact iff_of_false (by simp) fun h ↦ h.1 hfull
  · rename_i hfa
    split
    · rename_i hfull
      exact iff_of_false (by simp) fun h ↦ h.2.1 hfull
    · rename_i hfb
      obtain ⟨-, hl⟩ := toInt_meet_length ha hb hfa hfb
      rw [interval_of_not_isFull hfa, interval_of_not_isFull hfb, meet] at hl
      rw [and_iff_right hfa, and_iff_right hfb, ite_eq_right_iff, imp_iff_not (by simp),
        Int64.lt_iff_toInt_lt, hl]
      show ¬0 < _ ↔ _
      omega

/-- If extents are not apart, their intervals have something in common or one of them is empty. -/
theorem meet_lt_iff (hsize : 0 ≤ size.toInt) :
    (meet (a.interval size) (b.interval size)).1 < (meet (a.interval size) (b.interval size)).2 ↔
      ¬a.Apart b ∧ ¬a.MeetsEmpty size b := by
  rw [MeetsEmpty]
  by_cases hfa : a.IsFull
  · have hapart : ¬a.Apart b := fun h ↦ h.1 hfa
    rw [meet_of_isFull_left hfa hb hsize, and_iff_right hapart]
    obtain ⟨h0, hle, hle'⟩ := hb.interval_bounds hsize
    rw [interval_of_isFull hfa]
    refine ⟨fun hlt hempty ↦ ?_, fun hnot ↦ Int.not_le.1 fun hle ↦ hnot (.inl ⟨hfa, hle⟩)⟩
    rcases hempty with ⟨-, hempty⟩ | ⟨-, hempty⟩
    · omega
    · dsimp only at hempty
      omega
  · by_cases hfb : b.IsFull
    · have hapart : ¬a.Apart b := fun h ↦ h.2.1 hfb
      rw [meet_of_isFull_right ha hfb hsize, and_iff_right hapart]
      refine ⟨fun hlt hempty ↦ ?_, fun hnot ↦ Int.not_le.1 fun hle ↦ hnot (.inr ⟨hfb, hle⟩)⟩
      rcases hempty with ⟨hfull, -⟩ | ⟨-, hempty⟩
      · exact hfa hfull
      · omega
    · have hempty : ¬(a.IsFull ∧ (b.interval size).2 ≤ (b.interval size).1 ∨
          b.IsFull ∧ (a.interval size).2 ≤ (a.interval size).1) := by
        rintro (⟨hfull, -⟩ | ⟨hfull, -⟩)
        · exact hfa hfull
        · exact hfb hfull
      rw [and_iff_left hempty, interval_of_not_isFull hfa, interval_of_not_isFull hfb, meet, Apart,
        and_iff_right hfa, and_iff_right hfb, Int.not_le]

end Extent

/-! ### The places that are used -/

section Places

variable {α : Type} {shape : TensorShape} {sliceS sliceD inter : TensorSlice}

/-- The places that `copyIntersection` reads and writes. -/
def intersectionPlaces (sliceS sliceD inter : TensorSlice) (shpS shpD : TensorShape) :
    Option (List (ℕ × ℕ)) :=
  (shpS.asEigenDSizesWithPadding kTensorSliceMaxRank).bind fun tS ↦
  (shpD.asEigenDSizesWithPadding kTensorSliceMaxRank).bind fun tD ↦
  ((sliceS.computeRelative inter).fillIndicesAndSizes shpS kTensorSliceMaxRank).bind fun s ↦
  ((sliceD.computeRelative inter).fillIndicesAndSizes shpD kTensorSliceMaxRank).map fun d ↦
    places tS tD s.1 d.1 s.2

/-- The result of `CopyDataFromTensorSliceToTensorSlice`, and the places that it reads and
writes. -/
def placesUsed (shape : TensorShape) (sliceS sliceD : TensorSlice) : Option (Bool × List (ℕ × ℕ)) :=
  if shape.dims ≤ kTensorSliceMaxRank then
    match sliceS.intersect sliceD with
    | none => some (false, [])
    | some inter =>
      (sliceS.sliceTensorShape shape).bind fun
        | .error _ => some (false, [])
        | .ok shpS => (sliceD.sliceTensorShape shape).bind fun
          | .error _ => some (false, [])
          | .ok shpD => (intersectionPlaces sliceS sliceD inter shpS shpD).map fun ps ↦ (true, ps)
  else none

theorem copyIntersection_eq_map (shpS shpD : TensorShape) (ptrS ptrD : List α) :
    copyIntersection sliceS sliceD inter shpS shpD ptrS ptrD =
      (intersectionPlaces sliceS sliceD inter shpS shpD).map (·.foldl (copyElement ptrS) ptrD) := by
  simp only [copyIntersection, intersectionPlaces, Option.map_bind, Function.comp_def,
    Option.map_map, copyBlock_eq_foldl]

/-- The copy does nothing but copy the elements at these places. -/
theorem copyDataFromTensorSliceToTensorSlice_eq (shape : TensorShape) (sliceS sliceD : TensorSlice)
    (ptrS ptrD : List α) :
    copyDataFromTensorSliceToTensorSlice shape sliceS sliceD ptrS ptrD =
      (placesUsed shape sliceS sliceD).map fun r ↦ (r.1, r.2.foldl (copyElement ptrS) ptrD) := by
  rw [copyDataFromTensorSliceToTensorSlice, placesUsed]
  split
  · cases sliceS.intersect sliceD with
    | none => rfl
    | some inter =>
      dsimp only
      rw [Option.map_bind]
      refine congrArg _ (funext fun r ↦ ?_)
      cases r with
      | error => rfl
      | ok shpS =>
        dsimp only [Function.comp]
        rw [Option.map_bind]
        refine congrArg _ (funext fun r ↦ ?_)
        cases r with
        | error => rfl
        | ok shpD =>
          dsimp only [Function.comp]
          rw [copyIntersection_eq_map, Option.map_map, Option.map_map]
          rfl
  · rfl

/-- The sizes of the parts of a shape that `AddDim` lets through. -/
def TensorSlice.AddsDims (sizes : List Int64) (s : TensorSlice) : Prop :=
  (TensorShape.empty.addDims (s.sliceSizes sizes)).isSome

theorem endsWithin_of_inBounds {sizes : List Int64} {es : List Extent}
    (h : List.Forall₂ Extent.InBounds sizes es) : List.Forall₂ Extent.EndsWithin sizes es :=
  h.imp fun size e he ↦ by
    by_cases hfull : e.IsFull
    · exact .inl hfull
    · rw [Extent.EndsWithin, Int64.le_iff_toInt_le, he.toInt_stop hfull]
      exact .inr (he.resolve_left hfull).2.2

/-- The places that are used for slices within the shape that `Intersect` finds to overlap. -/
theorem placesUsed_of_intersect (hrank : shape.dims ≤ kTensorSliceMaxRank)
    (hS : List.Forall₂ Extent.InBounds shape.dimSizes sliceS.extents)
    (hD : List.Forall₂ Extent.InBounds shape.dimSizes sliceD.extents)
    (hinter : sliceS.intersect sliceD = some inter) :
    placesUsed shape sliceS sliceD =
      (TensorShape.empty.addDims (sliceS.sliceSizes shape.dimSizes)).bind fun shpS ↦
        (TensorShape.empty.addDims (sliceD.sliceSizes shape.dimSizes)).bind fun shpD ↦
          (intersectionPlaces sliceS sliceD inter shpS shpD).map fun ps ↦ (true, ps) := by
  rw [placesUsed, if_pos hrank, hinter, sliceTensorShape_of_endsWithin (endsWithin_of_inBounds hS),
    sliceTensorShape_of_endsWithin (endsWithin_of_inBounds hD)]
  dsimp only
  rw [Option.bind_map]
  refine congrArg _ (funext fun shpS ↦ ?_)
  dsimp only [Function.comp]
  rw [Option.bind_map]
  rfl

end Places

/-! ### Coordinates as indices -/

/-- The point of a box that comes at an index. -/
def pointAt (b : Box) (i : List ℕ) : List ℤ :=
  List.zipWith (fun (I : ℤ × ℤ) (x : ℕ) ↦ I.1 + (x : ℤ)) b i

/-- The lengths of the sides of a box. -/
def sides (b : Box) : List ℕ := b.map fun I ↦ (I.2 - I.1).toNat

/-- The points of a box come at the indices of an array of its sides. -/
theorem mem_points_iff_exists {b : Box} {c : List ℤ} :
    c ∈ points b ↔ ∃ i, InRange (sides b) i ∧ c = pointAt b i := by
  induction b generalizing c with
  | nil =>
    rw [mem_points_nil]
    exact ⟨fun h ↦ ⟨[], .nil, h⟩, fun ⟨i, hi, h⟩ ↦ by cases hi; exact h⟩
  | cons I b ih =>
    rw [mem_points_cons]
    constructor
    · rintro ⟨x, c, rfl, hx, hc⟩
      obtain ⟨i, hi, rfl⟩ := ih.1 hc
      refine ⟨(x - I.1).toNat :: i, .cons ?_ hi, ?_⟩
      · show (x - I.1).toNat < (I.2 - I.1).toNat
        omega
      · show x :: _ = (I.1 + ((x - I.1).toNat : ℤ)) :: _
        rw [Int.toNat_of_nonneg (by omega), add_sub_cancel]
        rfl
    · rintro ⟨_, hi, rfl⟩
      obtain ⟨x, i, hx, hrest, rfl⟩ := forall₂_cons_left_iff.1 hi
      have hlt : x < (I.2 - I.1).toNat := hx
      exact ⟨I.1 + x, pointAt b i, rfl, by omega, ih.2 ⟨i, hrest, rfl⟩⟩

namespace TensorSlice

/-- The number of elements of a slice. -/
def elements (sizes : List Int64) (s : TensorSlice) : ℕ :=
  ((s.sliceSizes sizes).map denseIndex).prod

/-- The place that a coordinate has in a slice. -/
def placeOf (sizes : List Int64) (s : TensorSlice) (c : List ℤ) : ℕ :=
  rowMajor ((s.sliceSizes sizes).map denseIndex)
    (List.zipWith (fun I x ↦ (x - I.1).toNat) (boxOf sizes s.extents) c)

/-- Slices within the dimensions, one within the other. -/
inductive Covers : List Int64 → List Extent → List Extent → Prop where
  | nil : Covers [] [] []
  | cons {size : Int64} {base e : Extent} {sizes : List Int64} {bases es : List Extent} :
    0 ≤ size.toInt → base.InBounds size → e.InBounds size → (e.IsFull → base.IsFull) →
      (base.interval size).1 ≤ (e.interval size).1 → (e.interval size).2 ≤ (base.interval size).2 →
        Covers sizes bases es → Covers (size :: sizes) (base :: bases) (e :: es)

variable {sizes : List Int64} {as bs es bases : List Extent} {size : Int64} {base e : Extent}

theorem denseIndex_sliceSize : denseIndex (sliceSize size e) =
    ((e.interval size).2 - (e.interval size).1).toNat := by
  rw [denseIndex, toInt_sliceSize]

/-- Where the relative extent starts. -/
theorem relativeStart_extent (hbase : base.InBounds size) (he : e.InBounds size)
    (hfull : e.IsFull → base.IsFull) :
    (if (base.relative e).IsFull then 0 else denseIndex (base.relative e).start) =
      ((e.interval size).1 - (base.interval size).1).toNat := by
  rw [Extent.relative]
  by_cases hfb : base.IsFull
  · rw [if_pos hfb, Extent.interval_of_isFull hfb]
    split
    · rename_i hfe
      rw [Extent.interval_of_isFull hfe]
      rfl
    · rename_i hfe
      rw [Extent.interval_of_not_isFull hfe, denseIndex, Int.sub_zero]
  · have hfe : ¬e.IsFull := fun h ↦ hfb (hfull h)
    obtain ⟨hb0, -, -⟩ := hbase.resolve_left hfb
    obtain ⟨he0, hlength, -⟩ := he.resolve_left hfe
    have hnot : ¬Extent.IsFull ⟨e.start - base.start, e.length⟩ := fun h ↦ by
      rw [show e.length = Extent.kFullExtent from h.1] at hlength
      exact absurd hlength (by decide)
    rw [if_neg hfb, if_neg hnot, denseIndex, Extent.toInt_sub_of_bounds he0 hb0,
      Extent.interval_of_not_isFull hfb, Extent.interval_of_not_isFull hfe]

/-- How long the relative extent is. -/
theorem relativeSize_extent (he : e.InBounds size) (hfull : e.IsFull → base.IsFull) :
    denseIndex (sliceSize (sliceSize size base) (base.relative e)) =
      ((e.interval size).2 - (e.interval size).1).toNat := by
  rw [← denseIndex_sliceSize, Extent.relative]
  by_cases hfb : base.IsFull
  · rw [if_pos hfb, sliceSize, sliceSize, if_pos hfb]
    rfl
  · have hfe : ¬e.IsFull := fun h ↦ hfb (hfull h)
    obtain ⟨-, hlength, -⟩ := he.resolve_left hfe
    have hnot : ¬Extent.IsFull ⟨e.start - base.start, e.length⟩ := fun h ↦ by
      rw [show e.length = Extent.kFullExtent from h.1] at hlength
      exact absurd hlength (by decide)
    rw [if_neg hfb, sliceSize, if_neg hnot, sliceSize, if_neg hfe]

section

variable (ha : List.Forall₂ Extent.InBounds sizes as) (hb : List.Forall₂ Extent.InBounds sizes bs)
include ha hb

/-- `Intersect` of two slices within the dimensions makes one that both cover, of the meet of their
boxes. -/
theorem intersectExtents_covers (hsizes : ∀ size ∈ sizes, 0 ≤ size.toInt)
    (h : intersectExtents as bs = some es) :
    Covers sizes as es ∧ Covers sizes bs es ∧
    boxOf sizes es = inter (boxOf sizes as) (boxOf sizes bs) := by
  induction ha generalizing bs es with
  | nil =>
    obtain rfl : [] = es := Option.some.inj h
    cases hb
    exact ⟨.nil, .nil, rfl⟩
  | @cons size a sizes as hfa _ ih =>
    cases hb with
    | @cons _ b _ bs hfb hb =>
      obtain ⟨hsize, hsizes⟩ := forall_mem_cons.1 hsizes
      rw [intersectExtents] at h
      split at h
      · rename_i e he
        obtain ⟨es, hes, rfl⟩ := Option.map_eq_some_iff.1 h
        obtain ⟨hin, hinterval, hfull⟩ := hfa.intersect hfb hsize he
        obtain ⟨hcovA, hcovB, hbox⟩ := ih hb hsizes hes
        rw [Prod.ext_iff] at hinterval
        have hlo := hinterval.1
        have hhi := hinterval.2
        rw [meet] at hlo hhi
        refine ⟨.cons hsize hfa hin (fun h ↦ (hfull h).1) ?_ ?_ hcovA,
          .cons hsize hfb hin (fun h ↦ (hfull h).2) ?_ ?_ hcovB, ?_⟩
        · exact hlo ▸ Int.le_max_left _ _
        · exact hhi ▸ Int.min_le_left _ _
        · exact hlo ▸ Int.le_max_right _ _
        · exact hhi ▸ Int.min_le_right _ _
        · show e.interval size :: boxOf sizes es = _ :: inter (boxOf sizes as) (boxOf sizes bs)
          rw [hbox, Prod.ext hinterval.1 hinterval.2]
      · cases h

theorem intersectExtents_eq_none_iff :
    intersectExtents as bs = none ↔ ∃ p ∈ as.zip bs, p.1.Apart p.2 := by
  induction ha generalizing bs with
  | nil =>
    cases hb
    exact iff_of_false (by simp [intersectExtents]) (by simp)
  | @cons size a sizes as hfa _ ih =>
    cases hb with
    | @cons _ b _ bs hfb hb =>
      rw [zip_cons_cons, exists_mem_cons_iff, ← ih hb, ← Extent.intersect_eq_none_iff hfa hfb,
        intersectExtents]
      split
      · rename_i e he
        rw [he, Option.map_eq_none_iff, or_iff_right (by simp)]
      · rename_i he
        exact iff_of_true rfl (.inl he)

end

section

variable (h : Covers sizes bases es)
include h

/-- Where the relative slice starts, dimension by dimension. -/
theorem Covers.relativeStart_eq : relativeStart ⟨bases⟩ ⟨es⟩ =
    List.zipWith (fun I J ↦ (I.1 - J.1).toNat) (boxOf sizes es) (boxOf sizes bases) := by
  induction h with
  | nil => rfl
  | @cons size base e sizes bases es hsize hbase he hfull _ _ _ ih =>
    show (if (base.relative e).IsFull then 0 else denseIndex (base.relative e).start) ::
      relativeStart ⟨bases⟩ ⟨es⟩ = _
    rw [ih, relativeStart_extent hbase he hfull]
    rfl

/-- The relative slice is as long as the slice. -/
theorem Covers.relativeSizes_eq :
    ((computeRelative ⟨bases⟩ ⟨es⟩).sliceSizes (sliceSizes sizes ⟨bases⟩)).map denseIndex =
      sides (boxOf sizes es) := by
  induction h with
  | nil => rfl
  | @cons size base e sizes bases es hsize hbase he hfull _ _ _ ih =>
    show denseIndex (sliceSize (sliceSize size base) (base.relative e)) ::
      ((computeRelative ⟨bases⟩ ⟨es⟩).sliceSizes (sliceSizes sizes ⟨bases⟩)).map denseIndex = _
    rw [ih, relativeSize_extent he hfull]
    rfl

theorem sliceSizes_eq_sides :
    (sliceSizes sizes ⟨bases⟩).map denseIndex = sides (boxOf sizes bases) := by
  induction h with
  | nil => rfl
  | @cons size base e sizes bases es _ _ _ _ _ _ _ ih =>
    show denseIndex (sliceSize size base) :: (sliceSizes sizes ⟨bases⟩).map denseIndex = _
    rw [ih, denseIndex_sliceSize]
    rfl

/-- What comes at an index of the slice has its place in the slice that covers it. -/
theorem Covers.placeOf_pointAt {i : List ℕ} (hi : InRange (sides (boxOf sizes es)) i) :
    InRange ((sliceSizes sizes ⟨bases⟩).map denseIndex) (shift (relativeStart ⟨bases⟩ ⟨es⟩) i) ∧
      shift (relativeStart ⟨bases⟩ ⟨es⟩) i = List.zipWith (fun I x ↦ (x - I.1).toNat)
      (boxOf sizes bases)
        (pointAt (boxOf sizes es) i) := by
  rw [sliceSizes_eq_sides h, h.relativeStart_eq]
  induction h generalizing i with
  | nil =>
    cases hi
    exact ⟨.nil, rfl⟩
  | @cons size base e sizes bases es hsize hbase he hfull hlo hhi _ ih =>
    obtain ⟨x, i, hx, hrest, rfl⟩ := forall₂_cons_left_iff.1 hi
    obtain ⟨hin, hshift⟩ := ih hrest
    have hlt : x < ((e.interval size).2 - (e.interval size).1).toNat := hx
    refine ⟨.cons ?_ hin, ?_⟩
    · show ((e.interval size).1 - (base.interval size).1).toNat + x <
        ((base.interval size).2 - (base.interval size).1).toNat
      omega
    · show (((e.interval size).1 - (base.interval size).1).toNat + x) :: _ =
        ((e.interval size).1 + (x : ℤ) - (base.interval size).1).toNat :: _
      refine congrArg₂ List.cons ?_ hshift
      omega

end

/-- The meets of the intervals have points exactly if no two extents are apart and none meets an
empty one. -/
theorem forall_inter_lt_iff (ha : List.Forall₂ Extent.InBounds sizes as)
    (hb : List.Forall₂ Extent.InBounds sizes bs) (hsizes : ∀ size ∈ sizes, 0 ≤ size.toInt) :
    (∀ I ∈ inter (boxOf sizes as) (boxOf sizes bs), I.1 < I.2) ↔
      (∀ p ∈ as.zip bs, ¬p.1.Apart p.2) ∧
        ∀ q ∈ sizes.zip (as.zip bs), ¬q.2.1.MeetsEmpty q.1 q.2.2 := by
  induction ha generalizing bs with
  | nil =>
    cases hb
    exact iff_of_true nofun ⟨nofun, nofun⟩
  | @cons size a sizes as hfa _ ih =>
    cases hb with
    | @cons _ b _ bs hfb hb =>
      obtain ⟨hsize, hsizes⟩ := forall_mem_cons.1 hsizes
      show (∀ I ∈ meet (a.interval size) (b.interval size) ::
        inter (boxOf sizes as) (boxOf sizes bs),
        I.1 < I.2) ↔ _
      rw [zip_cons_cons, zip_cons_cons, forall_mem_cons, forall_mem_cons, forall_mem_cons,
        ih hb hsizes, Extent.meet_lt_iff hfa hfb hsize]
      exact and_and_and_comm

theorem Covers.length_eq (h : Covers sizes bases es) :
    bases.length = sizes.length ∧ es.length = sizes.length := by
  induction h with
  | nil => exact ⟨rfl, rfl⟩
  | cons _ _ _ _ _ _ _ ih => exact ⟨congrArg Nat.succ ih.1, congrArg Nat.succ ih.2⟩

/-- Without the padding. -/
theorem intersectionPlaces_eq {shpS shpD : TensorShape} (hrank : sizes.length ≤ kTensorSliceMaxRank)
    (hS : Covers sizes as es) (hD : Covers sizes bs es)
    (hshpS : shpS.dimSizes = sliceSizes sizes ⟨as⟩)
    (hshpD : shpD.dimSizes = sliceSizes sizes ⟨bs⟩) :
    intersectionPlaces ⟨as⟩ ⟨bs⟩ ⟨es⟩ shpS shpD =
      some (places ((sliceSizes sizes ⟨as⟩).map denseIndex) ((sliceSizes sizes ⟨bs⟩).map denseIndex)
        (relativeStart ⟨as⟩ ⟨es⟩) (relativeStart ⟨bs⟩ ⟨es⟩) (sides (boxOf sizes es))) := by
  obtain ⟨hlenA, hlenE⟩ := hS.length_eq
  obtain ⟨hlenB, -⟩ := hD.length_eq
  have hsizes : ∀ xs : List Extent, xs.length = sizes.length →
      (sliceSizes sizes ⟨xs⟩).length = sizes.length := fun xs h ↦ by
    rw [sliceSizes, length_zipWith, h, Nat.min_self]
  have hdimsS : shpS.dims = sizes.length := (congrArg length hshpS).trans (hsizes as hlenA)
  have hdimsD : shpD.dims = sizes.length := (congrArg length hshpD).trans (hsizes bs hlenB)
  have hrel : ∀ xs : List Extent, xs.length = sizes.length →
      (computeRelative ⟨xs⟩ ⟨es⟩).dims = sizes.length := fun xs h ↦ by
    rw [dims_computeRelative (h.trans hlenE.symm)]
    exact h
  rw [intersectionPlaces, TensorShape.asEigenDSizesWithPadding, if_pos (hdimsS.trans_le hrank),
    Option.bind_some, TensorShape.asEigenDSizesWithPadding, if_pos (hdimsD.trans_le hrank),
    Option.bind_some, fillIndicesAndSizes, hrel as hlenA, if_pos ⟨hdimsS, hrank⟩, Option.bind_some,
    fillIndicesAndSizes, hrel bs hlenB, if_pos ⟨hdimsD, hrank⟩, Option.map_some, hdimsS, hdimsD,
    hshpS, hshpD]
  rw [hS.relativeSizes_eq]
  have hsides : (sides (boxOf sizes es)).length = sizes.length := by
    rw [sides, length_map, length_boxOf, hlenE]
  have hstart : ∀ xs : List Extent, xs.length = sizes.length →
      (relativeStart ⟨xs⟩ ⟨es⟩).length = sizes.length := fun xs h ↦ by
    rw [relativeStart, length_map]
    exact hrel xs h
  refine congrArg some (places_append_replicate _ ?_ ?_ ?_ ?_)
  · rw [length_map, hsizes as hlenA, hsides]
  · rw [length_map, hsizes bs hlenB, hsides]
  · exact (hstart as hlenA).trans hsides.symm
  · exact (hstart bs hlenB).trans hsides.symm

/-- The places that are used are those of the coordinates that are copied. -/
theorem mem_places_iff (hS : Covers sizes as es) (hD : Covers sizes bs es) {p : ℕ × ℕ} :
    p ∈ places ((sliceSizes sizes ⟨as⟩).map denseIndex) ((sliceSizes sizes ⟨bs⟩).map denseIndex)
        (relativeStart ⟨as⟩ ⟨es⟩) (relativeStart ⟨bs⟩ ⟨es⟩) (sides (boxOf sizes es)) ↔
      ∃ c ∈ points (boxOf sizes es), p = (placeOf sizes ⟨as⟩ c, placeOf sizes ⟨bs⟩ c) := by
  have hplace : ∀ i, InRange (sides (boxOf sizes es)) i →
      (rowMajor ((sliceSizes sizes ⟨as⟩).map denseIndex) (shift (relativeStart ⟨as⟩ ⟨es⟩) i),
        rowMajor ((sliceSizes sizes ⟨bs⟩).map denseIndex) (shift (relativeStart ⟨bs⟩ ⟨es⟩) i)) =
      (placeOf sizes ⟨as⟩ (pointAt (boxOf sizes es) i),
        placeOf sizes ⟨bs⟩ (pointAt (boxOf sizes es) i)) :=
    fun i hi ↦ by rw [(hS.placeOf_pointAt hi).2, (hD.placeOf_pointAt hi).2, placeOf, placeOf]
  rw [places, mem_map]
  constructor
  · rintro ⟨i, hi, rfl⟩
    have hi := mem_indices.1 hi
    exact ⟨_, mem_points_iff_exists.2 ⟨i, hi, rfl⟩, hplace i hi⟩
  · rintro ⟨c, hc, rfl⟩
    obtain ⟨i, hi, rfl⟩ := mem_points_iff_exists.1 hc
    exact ⟨i, mem_indices.2 hi, hplace i hi⟩

variable {c : List ℤ} (h : Covers sizes bases es) (hc : c ∈ points (boxOf sizes es))
include h hc

/-- The place of a coordinate lies in the slice. -/
theorem Covers.placeOf_lt : placeOf sizes ⟨bases⟩ c < elements sizes ⟨bases⟩ := by
  obtain ⟨i, hi, rfl⟩ := mem_points_iff_exists.1 hc
  obtain ⟨hin, hshift⟩ := h.placeOf_pointAt hi
  rw [placeOf, ← hshift]
  exact rowMajor_lt hin

/-- Coordinates have places of their own. -/
theorem Covers.placeOf_inj {c' : List ℤ} (hc' : c' ∈ points (boxOf sizes es))
    (heq : placeOf sizes ⟨bases⟩ c = placeOf sizes ⟨bases⟩ c') : c = c' := by
  obtain ⟨i, hi, rfl⟩ := mem_points_iff_exists.1 hc
  obtain ⟨j, hj, rfl⟩ := mem_points_iff_exists.1 hc'
  obtain ⟨hin, hshift⟩ := h.placeOf_pointAt hi
  obtain ⟨hin', hshift'⟩ := h.placeOf_pointAt hj
  rw [placeOf, placeOf, ← hshift, ← hshift'] at heq
  have hlen : ∀ k, InRange (sides (boxOf sizes es)) k →
      k.length = (relativeStart ⟨bases⟩ ⟨es⟩).length := by
    intro k hk
    obtain ⟨hbases, hes⟩ := h.length_eq
    rw [← hk.length_eq, h.relativeStart_eq, sides, length_map, length_zipWith, length_boxOf,
      length_boxOf, hbases, hes, Nat.min_self]
  rw [shift_inj (hlen i hi) (hlen j hj) (rowMajor_inj hin hin' heq)]

end TensorSlice

/-! ### The copy -/

section Copy

variable {α : Type} {shape : TensorShape} {sliceS sliceD inter : TensorSlice}

/-- `CopyDataFromTensorSliceToTensorSlice` copies the common coordinates of the slices, if there are
any, and nothing else, within buffers of the sizes of the slices. -/
def CopiesIntersection (shape : TensorShape) (sliceS sliceD : TensorSlice) : Prop :=
  ∀ (α : Type) (ptrS ptrD : List α), ptrS.length = sliceS.elements shape.dimSizes →
    ptrD.length = sliceD.elements shape.dimSizes →
      (copyDataFromTensorSliceToTensorSlice shape sliceS sliceD ptrS ptrD = some (false, ptrD) ↔
        Disjoint (sliceS.coordinates shape.dimSizes) (sliceD.coordinates shape.dimSizes)) ∧
      (¬Disjoint (sliceS.coordinates shape.dimSizes) (sliceD.coordinates shape.dimSizes) →
        ∃ dst, copyDataFromTensorSliceToTensorSlice shape sliceS sliceD ptrS ptrD =
        some (true, dst) ∧
          (∀ c ∈ sliceS.coordinates shape.dimSizes ∩ sliceD.coordinates shape.dimSizes,
            ∃ x, ptrS[sliceS.placeOf shape.dimSizes c]? = some x ∧
              dst[sliceD.placeOf shape.dimSizes c]? = some x) ∧
          ∀ k, (∀ c ∈ sliceS.coordinates shape.dimSizes ∩ sliceD.coordinates shape.dimSizes,
            sliceD.placeOf shape.dimSizes c ≠ k) → dst[k]? = ptrD[k]?) ∧
      ∀ result used, placesUsed shape sliceS sliceD = some (result, used) →
        ∀ p ∈ used, p.1 < ptrS.length ∧ p.2 < ptrD.length

/-- Some dimension has two extents that are not everything and have nothing in common. -/
def ApartSomewhere (sliceS sliceD : TensorSlice) : Prop :=
  ∃ p ∈ sliceS.extents.zip sliceD.extents, p.1.Apart p.2

/-- Some dimension has everything in one slice and nothing in the other one. -/
def MeetsEmptySomewhere (shape : TensorShape) (sliceS sliceD : TensorSlice) : Prop :=
  ∃ q ∈ shape.dimSizes.zip (sliceS.extents.zip sliceD.extents), q.2.1.MeetsEmpty q.1 q.2.2

/-- Two slices within a shape. -/
structure Within (shape : TensorShape) (sliceS sliceD : TensorSlice) : Prop where
  good : shape.Good
  rank_le : shape.dims ≤ kTensorSliceMaxRank
  left : List.Forall₂ Extent.InBounds shape.dimSizes sliceS.extents
  right : List.Forall₂ Extent.InBounds shape.dimSizes sliceD.extents

variable (h : Within shape sliceS sliceD)
include h

theorem Within.nonneg : ∀ size ∈ shape.dimSizes, 0 ≤ size.toInt := fun size hsize ↦
  TensorShape.nonneg_iff.1 (h.good.nonneg size hsize)

theorem Within.intersect_eq_none_iff :
    sliceS.intersect sliceD = none ↔ ApartSomewhere sliceS sliceD := by
  have hdims : sliceS.dims = sliceD.dims := h.left.length_eq.symm.trans h.right.length_eq
  rw [intersect, if_pos hdims, Option.map_eq_none_iff, intersectExtents_eq_none_iff h.left h.right]
  rfl

theorem Within.coordinates_inter :
    sliceS.coordinates shape.dimSizes ∩ sliceD.coordinates shape.dimSizes =
      points (Boxes.inter (TensorSlice.boxOf shape.dimSizes sliceS.extents)
        (TensorSlice.boxOf shape.dimSizes sliceD.extents)) := by
  rw [points_inter]
  · rfl
  · rw [length_boxOf, length_boxOf, ← h.left.length_eq, ← h.right.length_eq]

/-- The slices have a common coordinate exactly if they are nowhere apart and meet nothing that is
empty. -/
theorem Within.not_disjoint_iff :
    ¬Disjoint (sliceS.coordinates shape.dimSizes) (sliceD.coordinates shape.dimSizes) ↔
      ¬ApartSomewhere sliceS sliceD ∧ ¬MeetsEmptySomewhere shape sliceS sliceD := by
  have hlt := forall_inter_lt_iff h.left h.right h.nonneg
  rw [Finset.disjoint_iff_inter_eq_empty, h.coordinates_inter, ← Ne, ← Finset.nonempty_iff_ne_empty,
    points_nonempty_iff, hlt, ApartSomewhere, MeetsEmptySomewhere]
  push Not
  rfl

section

variable (hinter : sliceS.intersect sliceD = some inter)
include hinter

/-- What `Intersect` makes of the slices. -/
theorem Within.covers : TensorSlice.Covers shape.dimSizes sliceS.extents inter.extents ∧
      TensorSlice.Covers shape.dimSizes sliceD.extents inter.extents ∧
        sliceS.coordinates shape.dimSizes ∩ sliceD.coordinates shape.dimSizes =
          points (TensorSlice.boxOf shape.dimSizes inter.extents) := by
  obtain ⟨-, hextents⟩ := Option.ite_none_right_eq_some.1 hinter
  obtain ⟨es, hes, rfl⟩ := Option.map_eq_some_iff.1 hextents
  obtain ⟨hS, hD, hbox⟩ := intersectExtents_covers h.left h.right h.nonneg hes
  exact ⟨hS, hD, h.coordinates_inter.trans (congrArg points hbox.symm)⟩

/-- **The copy.** Slices that `Intersect` finds to overlap, whose sizes `AddDim` lets through. -/
theorem Within.copy (hS : sliceS.AddsDims shape.dimSizes) (hD : sliceD.AddsDims shape.dimSizes)
    {ptrS ptrD : List α} (hptrS : ptrS.length = sliceS.elements shape.dimSizes)
    (hptrD : ptrD.length = sliceD.elements shape.dimSizes) :
    ∃ used, placesUsed shape sliceS sliceD = some (true, used) ∧
      (∀ p ∈ used, p.1 < ptrS.length ∧ p.2 < ptrD.length) ∧
      (∀ c ∈ sliceS.coordinates shape.dimSizes ∩ sliceD.coordinates shape.dimSizes,
        ∃ x, ptrS[sliceS.placeOf shape.dimSizes c]? = some x ∧
          (used.foldl (copyElement ptrS) ptrD)[sliceD.placeOf shape.dimSizes c]? = some x) ∧
      ∀ k, (∀ c ∈ sliceS.coordinates shape.dimSizes ∩ sliceD.coordinates shape.dimSizes,
        sliceD.placeOf shape.dimSizes c ≠ k) →
          (used.foldl (copyElement ptrS) ptrD)[k]? = ptrD[k]? := by
  obtain ⟨hcovS, hcovD, hcoordinates⟩ := h.covers hinter
  obtain ⟨shpS, hshpS⟩ := Option.isSome_iff_exists.1 hS
  obtain ⟨shpD, hshpD⟩ := Option.isSome_iff_exists.1 hD
  have hplaces := intersectionPlaces_eq h.rank_le hcovS hcovD
    (TensorShape.good_empty.addDims hshpS).2 (TensorShape.good_empty.addDims hshpD).2
  have hused := placesUsed_of_intersect h.rank_le h.left h.right hinter
  rw [hshpS, hshpD, Option.bind_some, Option.bind_some] at hused
  rw [hcoordinates]
  refine ⟨_, hused.trans (congrArg _ hplaces), fun p hp ↦ ?_, fun c hc ↦ ?_, fun k hk ↦ ?_⟩
  · obtain ⟨c, hc, rfl⟩ := (mem_places_iff hcovS hcovD).1 hp
    rw [hptrS, hptrD]
    exact ⟨hcovS.placeOf_lt hc, hcovD.placeOf_lt hc⟩
  · have hlt : sliceS.placeOf shape.dimSizes c < ptrS.length := hptrS ▸ hcovS.placeOf_lt hc
    refine ⟨ptrS[sliceS.placeOf shape.dimSizes c], getElem?_eq_getElem hlt, ?_⟩
    refine getElem?_foldl_copyElement_of_mem
      (p := (sliceS.placeOf shape.dimSizes c, sliceD.placeOf shape.dimSizes c))
      (getElem?_eq_getElem hlt) (hptrD ▸ hcovD.placeOf_lt hc)
      ((mem_places_iff hcovS hcovD).2 ⟨c, hc, rfl⟩) fun q hq heq ↦ ?_
    obtain ⟨c', hc', rfl⟩ := (mem_places_iff hcovS hcovD).1 hq
    rw [hcovD.placeOf_inj hc' hc heq]
  · refine getElem?_foldl_copyElement_of_ne fun p hp ↦ ?_
    obtain ⟨c, hc, rfl⟩ := (mem_places_iff hcovS hcovD).1 hp
    exact hk c hc

/-- A copy of slices that `Intersect` finds to overlap returns true, if at all, and `AddDim` has let
their sizes through. -/
theorem Within.of_placesUsed {r : Bool × List (ℕ × ℕ)}
    (hused : placesUsed shape sliceS sliceD = some r) :
    r.1 = true ∧ sliceS.AddsDims shape.dimSizes ∧ sliceD.AddsDims shape.dimSizes := by
  rw [placesUsed_of_intersect h.rank_le h.left h.right hinter] at hused
  obtain ⟨shpS, hshpS, hused⟩ := Option.bind_eq_some_iff.1 hused
  obtain ⟨shpD, hshpD, hused⟩ := Option.bind_eq_some_iff.1 hused
  obtain ⟨ps, -, rfl⟩ := Option.map_eq_some_iff.1 hused
  exact ⟨rfl, Option.isSome_iff_exists.2 ⟨shpS, hshpS⟩, Option.isSome_iff_exists.2 ⟨shpD, hshpD⟩⟩

end

/-- **The copy is that of the intersection** exactly if the slices are apart in a dimension where
neither is everything, or nowhere meet what is empty and have sizes that `AddDim` lets through. -/
theorem copiesIntersection_iff : CopiesIntersection shape sliceS sliceD ↔
    ApartSomewhere sliceS sliceD ∨
      ¬MeetsEmptySomewhere shape sliceS sliceD ∧ sliceS.AddsDims shape.dimSizes ∧
        sliceD.AddsDims shape.dimSizes := by
  constructor
  · intro hcopies
    rw [or_iff_not_imp_left]
    intro hapart
    obtain ⟨inter, hinter⟩ :=
      Option.ne_none_iff_exists'.1 fun hnone ↦ hapart (h.intersect_eq_none_iff.1 hnone)
    obtain ⟨hfalse, htrue, -⟩ := hcopies Unit (replicate _ ()) (replicate _ ())
      length_replicate length_replicate
    rw [copyDataFromTensorSliceToTensorSlice_eq] at hfalse htrue
    have hmeets : ¬Disjoint (sliceS.coordinates shape.dimSizes)
        (sliceD.coordinates shape.dimSizes) := by
      intro hdisjoint
      obtain ⟨r, hused, hr⟩ := Option.map_eq_some_iff.1 (hfalse.2 hdisjoint)
      have htrue := (h.of_placesUsed hinter hused).1
      rw [(Prod.mk.inj hr).1] at htrue
      cases htrue
    obtain ⟨dst, hcopy, -⟩ := htrue hmeets
    obtain ⟨r, hused, -⟩ := Option.map_eq_some_iff.1 hcopy
    exact ⟨(h.not_disjoint_iff.1 hmeets).2, (h.of_placesUsed hinter hused).2⟩
  · rintro hor α ptrS ptrD hptrS hptrD
    rw [copyDataFromTensorSliceToTensorSlice_eq]
    by_cases hapart : ApartSomewhere sliceS sliceD
    · have hused : placesUsed shape sliceS sliceD = some (false, []) := by
        rw [placesUsed, if_pos h.rank_le, h.intersect_eq_none_iff.2 hapart]
      have hdisjoint : Disjoint (sliceS.coordinates shape.dimSizes)
          (sliceD.coordinates shape.dimSizes) :=
        by_contra fun hnot ↦ (h.not_disjoint_iff.1 hnot).1 hapart
      rw [hused]
      refine ⟨iff_of_true rfl hdisjoint, fun hnot ↦ absurd hdisjoint hnot, fun result used heq ↦ ?_⟩
      cases heq
      exact nofun
    · obtain ⟨hmeets, hS, hD⟩ := hor.resolve_left hapart
      have hnot := h.not_disjoint_iff.2 ⟨hapart, hmeets⟩
      obtain ⟨inter, hinter⟩ := Option.ne_none_iff_exists'.1 fun hnone ↦
        hapart (h.intersect_eq_none_iff.1 hnone)
      obtain ⟨used, hused, hbounds, hcopied, hkept⟩ := h.copy hinter hS hD hptrS hptrD
      rw [hused]
      refine ⟨iff_of_false ?_ hnot, fun _ ↦ ⟨_, rfl, hcopied, hkept⟩, fun result used' heq ↦ ?_⟩
      · exact fun heq ↦ nomatch (Prod.mk.inj (Option.some.inj heq)).1
      · cases heq
        exact hbounds

omit h

/-- The first six of ten elements to the last six. -/
theorem copiesIntersection_iff_tenElements :
    CopiesIntersection ⟨.rep16 [10], 10⟩ ⟨[⟨0, 6⟩]⟩ ⟨[⟨4, 6⟩]⟩ ↔
      ApartSomewhere ⟨[⟨0, 6⟩]⟩ ⟨[⟨4, 6⟩]⟩ ∨
        ¬MeetsEmptySomewhere ⟨.rep16 [10], 10⟩ ⟨[⟨0, 6⟩]⟩ ⟨[⟨4, 6⟩]⟩ ∧
          TensorSlice.AddsDims [10] ⟨[⟨0, 6⟩]⟩ ∧ TensorSlice.AddsDims [10] ⟨[⟨4, 6⟩]⟩ :=
  copiesIntersection_iff
    { good := (TensorShape.good_empty.addDim (rfl : TensorShape.empty.addDim 10 =
    some ⟨.rep16 [10], 10⟩)).1
      rank_le := by decide
      left := .cons (.inr (by decide)) .nil
      right := .cons (.inr (by decide)) .nil }

/-- Everything of a dimension of size `0`: true is returned, though nothing is copied. -/
theorem not_copiesIntersection : ¬∀ shape sliceS sliceD, Within shape sliceS sliceD →
    CopiesIntersection shape sliceS sliceD := by
  intro hcopies
  have hwithin : Within ⟨.rep16 [0], 0⟩ (ofDims 1) (ofDims 1) :=
    { good := (TensorShape.good_empty.addDim (rfl : TensorShape.empty.addDim 0 =
      some ⟨.rep16 [0], 0⟩)).1
      rank_le := by decide
      left := .cons (.inl (by decide)) .nil
      right := .cons (.inl (by decide)) .nil }
  have hempty : points [((0 : ℤ), (0 : ℤ))] = ∅ := by
    rw [← Finset.not_nonempty_iff_eq_empty, points_nonempty_iff]
    exact fun h ↦ absurd (h _ (mem_singleton_self _)) (by decide)
  have hdisjoint : Disjoint ((ofDims 1).coordinates [0]) ((ofDims 1).coordinates [0]) := by
    rw [show (ofDims 1).coordinates [0] = ∅ from hempty]
    exact Finset.disjoint_empty_left _
  have hfalse := (hcopies _ _ _ hwithin Unit [] [] rfl rfl).1.2 hdisjoint
  exact absurd hfalse (by decide)

end Copy

end TensorFlowCore
