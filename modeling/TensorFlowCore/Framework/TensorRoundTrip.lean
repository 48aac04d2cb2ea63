import TensorFlowCore.Framework.Tensor

/-!
# Reading a tensor back from its proto

`FromProto` reads a tensor back from its bytes (`AsProtoTensorContent`) for every element type, and
from its repeated field (`AsProtoField`) for every one but `bfloat16`. The elements of a `bfloat16`
tensor are written as 32-bit integers and read as if they were adjacent 16-bit words, so that each
of them is followed by a zero (`begin_fill_bfloat16`). They come back exactly when every element but
the first is zero (`roundTrips_iff`).
-/

namespace TensorFlowCore

open List

/-! ### The bytes -/

/-- A simple type is read back from its bytes. -/
theorem Helper.decode_encode_simple {T : Type} (L : Layout T) (data : List T) :
    (Helper.simple L).decode ((Helper.simple L).encode data) data.length = some data := by
  show (if (L.writeAll data).length ≠ L.size * data.length then none
    else some (L.read data.length (L.writeAll data))) = some data
  rw [L.length_writeAll, if_neg (not_not.2 rfl), L.read_writeAll]

namespace ElementType

theorem encode_ne_nil (T : ElementType) {data : List T.Elem} (h : data ≠ []) :
    T.helper.encode data ≠ [] := by
  cases T with
  | string => exact encodeStringList_ne_nil h
  | _ => exact Layout.writeAll_ne_nil _ h

theorem decode_encode (T : ElementType) (hT : T ≠ .string) (data : List T.Elem) :
    T.helper.decode (T.helper.encode data) data.length = some data := by
  cases T with
  | string => exact absurd rfl hT
  | _ => exact Helper.decode_encode_simple _ data

end ElementType

/-! ### The repeated fields -/

/-- A proto with no elements in it. -/
def emptyProto (dtype : DataType) (shape : TensorShapeProto) : TensorProto :=
  { dtype, tensorShape := shape }

/-- A field that gives back the elements it is filled with. -/
structure ProtoHelper.Exact {T : Type} (h : ProtoHelper T) : Prop where
  numElements : ∀ data dtype shape, h.numElements (h.fill data (emptyProto dtype shape)) =
    data.length
  begin : ∀ data dtype shape, h.begin (h.fill data (emptyProto dtype shape)) = data

section

variable {F : Type} {get : TensorProto → List F} {set : List F → TensorProto → TensorProto}
  (hget : ∀ v p, get (set v p) = v)
include hget

theorem ProtoHelper.exact_protoTraits {T : Type} {widen : T → F} {narrow : F → T} {default : T}
    (hnarrow : ∀ x, narrow (widen x) = x) :
    (ProtoHelper.protoTraits widen narrow get set default).Exact where
  numElements data _ _ := by
    show (get (set _ _)).length = _
    rw [hget, length_map]
  begin data _ _ := by
    show (get (set _ _)).map narrow = _
    rw [hget, map_map]
    exact (map_congr_left fun x _ ↦ hnarrow x).trans (map_id data)

/-- A cast to the field's type and back. -/
theorem ProtoHelper.exact_cast {T : Type} {L : Layout T} {M : Layout F} {perElement : ℕ}
    {default : T} {split : T → List F} (hpos : 0 < perElement)
    (hlength : ∀ x, (split x).length = perElement)
    (hsplit : ∀ x, L.toBytes x = M.writeAll (split x)) :
    (ProtoHelper.cast L M perElement get set default).Exact := by
  have hflat (data : List T) : L.writeAll data = M.writeAll (data.flatMap split) :=
    L.writeAll_of_eq M hsplit data
  constructor
  · intro data _ _
    show (get (set _ _)).length / perElement = _
    rw [hget, hflat, M.readAll_writeAll, length_flatMap]
    simp only [hlength, map_const', sum_replicate_nat]
    exact Nat.mul_div_cancel _ hpos
  · intro data _ _
    show L.readAll (M.writeAll (get (set _ _))) = _
    rw [hget, hflat, M.readAll_writeAll, ← hflat, L.readAll_writeAll]

end

theorem setWidth_signExtend {w : ℕ} (hw : w ≤ 32) (x : BitVec w) :
    (x.signExtend 32).setWidth w = x := by
  ext i hi
  rw [BitVec.getElem_setWidth, BitVec.getLsbD_signExtend]
  simp [hi]
  omega

theorem setWidth_setWidth {w : ℕ} (hw : w ≤ 32) (x : BitVec w) :
    (x.setWidth 32).setWidth w = x := by
  rw [BitVec.setWidth_setWidth_of_le _ hw, BitVec.setWidth_eq]

theorem map_setWidth_map (data : List (BitVec 16)) :
    (data.map (BitVec.setWidth 32)).map (BitVec.setWidth 16) = data := by
  rw [map_map]
  exact (map_congr_left fun x _ ↦ setWidth_setWidth (by decide) x).trans (map_id data)

namespace ElementType

/-- Every type but `bfloat16` is read back from its field. -/
theorem exact_protoHelper {T : ElementType} (hT : T ≠ .bfloat16) : T.protoHelper.Exact := by
  cases T with
  | bfloat16 => exact absurd rfl hT
  | float | double | bool | string =>
    unfold protoHelper
    exact ProtoHelper.exact_protoTraits (fun _ _ ↦ rfl) fun _ ↦ rfl
  | int32 =>
    unfold protoHelper protoTraitsInt
    exact ProtoHelper.exact_protoTraits (fun _ _ ↦ rfl) fun x ↦ BitVec.setWidth_eq x
  | uint8 | quint8 | uint16 | quint16 =>
    unfold protoHelper protoTraitsInt
    exact ProtoHelper.exact_protoTraits (fun _ _ ↦ rfl) (setWidth_setWidth (by decide))
  | int8 | qint8 | int16 | qint16 =>
    unfold protoHelper protoTraitsInt
    exact ProtoHelper.exact_protoTraits (fun _ _ ↦ rfl) (setWidth_signExtend (by decide))
  | half =>
    exact {
      numElements := fun data _ _ ↦ length_map _
      begin := fun data _ _ ↦ map_setWidth_map data }
  | qint32 | int64 =>
    unfold protoHelper
    exact ProtoHelper.exact_cast (fun _ _ ↦ rfl) Nat.one_pos (fun _ ↦ rfl)
      (Layout.toBytes_eq_writeAll _)
  | complex64 | complex128 =>
    unfold protoHelper
    exact ProtoHelper.exact_cast (fun _ _ ↦ rfl) Nat.two_pos (fun _ ↦ rfl)
      (Layout.toBytes_prod_self _)

end ElementType

theorem fromProtoField_zero {T : Type} (h : ProtoHelper T) (proto : TensorProto) :
    fromProtoField h proto 0 = [] := by
  rw [fromProtoField, if_pos (Nat.zero_le _), take_zero]

/-- A filled field is read back element by element. -/
theorem ProtoHelper.Exact.fromProtoField {T : Type} {h : ProtoHelper T} (hexact : h.Exact)
    (data : List T) (dtype : DataType) (shape : TensorShapeProto) :
    fromProtoField h (h.fill data (emptyProto dtype shape)) data.length = data := by
  rw [TensorFlowCore.fromProtoField, hexact.numElements, hexact.begin]
  rw [if_pos le_rfl, take_length]

/-! ### `bfloat16` -/

section Spread

variable {α : Type} (z : α) (data : List α)

/-- Each element followed by `z`. -/
def spread : List α := data.flatMap fun x ↦ [x, z]

theorem getElem?_spread (k : ℕ) :
    (spread z data)[k]? = if k % 2 = 0 then data[k / 2]? else data[k / 2]?.map fun _ ↦ z := by
  induction data generalizing k with
  | nil => simp [spread]
  | cons x data ih =>
    have hcons : spread z (x :: data) = x :: z :: spread z data := rfl
    match k with
    | 0 => rfl
    | 1 => rfl
    | k + 2 =>
      have hdiv : (k + 2) / 2 = k / 2 + 1 := by omega
      rw [hcons, getElem?_cons_succ, getElem?_cons_succ, ih, hdiv, getElem?_cons_succ,
        Nat.add_mod_right]

variable {z data}

theorem forall_mem_tail_iff :
    (∀ x ∈ data.tail, x = z) ↔ ∀ k, 0 < k → k < data.length → data[k]? = some z := by
  constructor
  · intro h k hpos hlt
    have hk : k - 1 < data.tail.length := by rw [length_tail]; omega
    have hget : data.tail[k - 1] = data[k] := by
      rw [getElem_tail]
      congr 1
      omega
    rw [getElem?_eq_getElem hlt, ← hget, h _ (getElem_mem hk)]
  · intro h x hx
    obtain ⟨k, hk, rfl⟩ := getElem_of_mem hx
    rw [length_tail] at hk
    have hget := h (k + 1) (Nat.succ_pos k) (by omega)
    rw [getElem?_eq_getElem (by omega)] at hget
    rw [getElem_tail]
    exact Option.some.inj hget

/-- What is read of spread elements are the elements themselves exactly if all of them but the first
are `z`; by strong induction on the position, since position `k` shows the element at `k / 2`. -/
theorem take_spread_eq_iff : (spread z data).take data.length = data ↔ ∀ x ∈ data.tail, x = z := by
  rw [forall_mem_tail_iff]
  constructor
  · intro h k
    induction k using Nat.strong_induction_on with
    | _ k ih =>
      intro hpos hlt
      have hget : data[k]? = (spread z data)[k]? := calc
        data[k]? = ((spread z data).take data.length)[k]? := by rw [h]
        _ = (spread z data)[k]? := getElem?_take_of_lt hlt
      rw [hget, getElem?_spread]
      split
      next heven => exact ih (k / 2) (by omega) (by omega) (by omega)
      next hodd => rw [getElem?_eq_getElem (by omega), Option.map_some]
  · intro h
    refine ext_getElem? fun k ↦ ?_
    by_cases hlt : k < data.length
    · rw [getElem?_take_of_lt hlt, getElem?_spread]
      by_cases hpos : 0 < k
      · rw [h k hpos hlt]
        split
        next heven => exact h (k / 2) (by omega) (by omega)
        next hodd => rw [getElem?_eq_getElem (by omega), Option.map_some]
      · obtain rfl : k = 0 := by omega
        rfl
    · rw [getElem?_take_eq_none (by omega), getElem?_eq_none (by omega)]

end Spread

/-- Read as 16-bit words, the integers in `int_val` are the elements with a zero after each. -/
theorem begin_fill_bfloat16 (data : List (BitVec 16)) :
    halfWordLayout.readAll (wordLayout.writeAll (data.map (BitVec.setWidth 32))) =
      spread 0 data := by
  have hwrite : wordLayout.writeAll (data.map (BitVec.setWidth 32)) =
      halfWordLayout.writeAll (spread 0 data) := by
    rw [Layout.writeAll, flatMap_map, Layout.writeAll, spread, flatMap_assoc]
    exact congrArg (fun g ↦ data.flatMap g) (funext (Layout.toBytes_setWidth_word 2 (by decide)))
  rw [hwrite, Layout.readAll_writeAll]

/-- All elements but the first are zero. -/
def ZeroAfterFirst (data : List (BitVec 16)) : Prop := ∀ x ∈ data.tail, x = 0

theorem fromProtoField_bfloat16 (data : List (BitVec 16)) (dtype : DataType)
    (shape : TensorShapeProto) :
    fromProtoField ElementType.bfloat16.protoHelper
      (ElementType.bfloat16.protoHelper.fill data (emptyProto dtype shape)) data.length = data ↔
        ZeroAfterFirst data := by
  have hfield : fromProtoField ElementType.bfloat16.protoHelper
      (ElementType.bfloat16.protoHelper.fill data (emptyProto dtype shape)) data.length =
        (halfWordLayout.readAll (wordLayout.writeAll (data.map (BitVec.setWidth 32)))).take
          data.length := if_pos (length_map _).ge
  rw [hfield, begin_fill_bfloat16]
  exact take_spread_eq_iff

/-! ### Tensors -/

namespace Tensor

/-- An initialised tensor, whose shape was made by calls whose checks passed. -/
structure Valid (t : Tensor) : Prop where
  shape : ∃ ops, GuardedRun.run TensorShape.step .empty ops = some t.shape
  length : ∀ data, t.buf = some data → data.length = t.shape.numElements.toNatClampNeg
  initialised : t.buf = none → t.shape.numElements.toNatClampNeg = 0

/-- The same data type, shape and elements. -/
inductive Same : Tensor → Tensor → Prop
  | mk {T : ElementType} {shape shape' : TensorShape} {buf buf' : Option (List T.Elem)}
      (dimSizes : shape'.dimSizes = shape.dimSizes) (numElements : shape'.numElements =
      shape.numElements)
      (elements : buf'.getD [] = buf.getD []) : Same ⟨T, shape, buf⟩ ⟨T, shape', buf'⟩

/-- Both protos of a tensor are read as the same tensor. -/
structure RoundTrips (t : Tensor) : Prop where
  field : ∃ t', fromProto t.asProtoField = some t' ∧ Same t t'
  content : ∃ t', fromProto t.asProtoTensorContent = some t' ∧ Same t t'

/-- `EncodeStringList` and `DecodeStringList` are inverse on the strings of the tensor. -/
def StringsReadBack (t : Tensor) : Prop :=
  t.dtype = .string → t.dtype.helper.decode (t.dtype.helper.encode t.elements) t.elements.length =
    some t.elements

/-- A tensor of `bfloat16` has only zeros after its first element. -/
def FieldKeeps : Tensor → Prop
  | ⟨.bfloat16, _, buf⟩ => ZeroAfterFirst (buf.getD [])
  | _ => True

theorem same_mk_iff {T : ElementType} {shape shape' : TensorShape} {buf buf' : Option (List T.Elem)}
    (hdims : shape'.dimSizes = shape.dimSizes) (hnum : shape'.numElements = shape.numElements) :
    Same ⟨T, shape, buf⟩ ⟨T, shape', buf'⟩ ↔ buf'.getD [] = buf.getD [] :=
  ⟨fun ⟨_, _, h⟩ ↦ h, fun h ↦ ⟨hdims, hnum, h⟩⟩

section Valid

variable {T : ElementType} {shape : TensorShape} {buf : Option (List T.Elem)}

theorem Valid.length_getD (h : Valid ⟨T, shape, buf⟩) :
    (buf.getD []).length = shape.numElements.toNatClampNeg := by
  cases buf with
  | none => exact (h.initialised rfl).symm
  | some data => exact h.length data rfl

/-- Filling a field changes nothing else in a proto. -/
theorem fill_frame (T : ElementType) (data : List T.Elem) (dtype : DataType)
    (dims : TensorShapeProto) :
    (T.protoHelper.fill data (emptyProto dtype dims)).dtype = dtype ∧
      (T.protoHelper.fill data (emptyProto dtype dims)).tensorShape = dims ∧
      (T.protoHelper.fill data (emptyProto dtype dims)).tensorContent = [] := by
  cases T <;> exact ⟨rfl, rfl, rfl⟩

theorem Valid.exists_shape (h : Valid ⟨T, shape, buf⟩) :
    TensorShape.isValid shape.dimSizes = true ∧
      ∃ shape', TensorShape.ofProto shape.dimSizes = some shape' ∧
        shape'.dimSizes = shape.dimSizes ∧ shape'.numElements = shape.numElements := by
  obtain ⟨ops, hops⟩ := h.shape
  exact TensorShape.ofProto_dimSizes_of_run hops

/-- Reading a proto of the right data type and shape. -/
theorem fromProto_eq {proto : TensorProto} {shape' : TensorShape}
    (hdtype : proto.dtype = T.dataType) (hvalid : TensorShape.isValid proto.tensorShape = true)
    (hshape : TensorShape.ofProto proto.tensorShape = some shape') :
    fromProto proto =
      if 0 < shape'.numElements.toNatClampNeg then
        if proto.tensorContent ≠ [] then
          (T.helper.decode proto.tensorContent shape'.numElements.toNatClampNeg).map fun data ↦
            ⟨T, shape', some data⟩
        else some ⟨T, shape', some (fromProtoField T.protoHelper proto
          shape'.numElements.toNatClampNeg)⟩
      else some ⟨T, shape', none⟩ := by
  rw [fromProto, if_neg (not_not.2 hvalid), hshape, Option.bind_some, hdtype,
    ElementType.ofDataType_dataType, Option.bind_some]

variable (h : Valid ⟨T, shape, buf⟩)
include h

theorem Valid.buf_eq_some (hpos : 0 < shape.numElements.toNatClampNeg) :
    ∃ data, buf = some data := by
  cases buf with
  | none => exact absurd (h.initialised rfl) hpos.ne'
  | some data => exact ⟨data, rfl⟩

theorem Valid.getD_eq_nil (hpos : ¬ 0 < shape.numElements.toNatClampNeg) : buf.getD [] = [] :=
  eq_nil_of_length_eq_zero (h.length_getD.trans (Nat.eq_zero_of_not_pos hpos))

/-- The field is read back exactly when the elements are. -/
theorem field_iff :
    (∃ t', fromProto (asProtoField ⟨T, shape, buf⟩) = some t' ∧ Same ⟨T, shape, buf⟩ t') ↔
      fromProtoField T.protoHelper
        (T.protoHelper.fill (buf.getD []) (emptyProto T.dataType shape.dimSizes))
        (buf.getD []).length = buf.getD [] := by
  obtain ⟨hvalid, shape', hshape, hdims, hnum⟩ := h.exists_shape
  by_cases hpos : 0 < shape.numElements.toNatClampNeg
  · obtain ⟨data, rfl⟩ := h.buf_eq_some hpos
    obtain ⟨hdtype, hproto, hcontent⟩ := fill_frame T data T.dataType shape.dimSizes
    have hread : fromProto (asProtoField ⟨T, shape, some data⟩) =
        some ⟨T, shape', some (fromProtoField T.protoHelper
          (T.protoHelper.fill data (emptyProto T.dataType shape.dimSizes)) data.length)⟩ := by
      show fromProto (T.protoHelper.fill data (emptyProto T.dataType shape.dimSizes)) = _
      rw [fromProto_eq hdtype (hproto.symm ▸ hvalid) (hproto.symm ▸ hshape), hnum, if_pos hpos,
        if_neg (not_not.2 hcontent), h.length data rfl]
    rw [hread]
    refine Iff.trans ⟨?_, fun hsame ↦ ⟨_, rfl, hsame⟩⟩ (same_mk_iff hdims hnum)
    rintro ⟨t', ht', hsame⟩
    exact Option.some.inj ht' ▸ hsame
  · have hnil := h.getD_eq_nil hpos
    have hread : fromProto (asProtoField ⟨T, shape, buf⟩) = some ⟨T, shape', none⟩ := by
      cases buf with
      | none => rw [fromProto_eq (T := T) rfl hvalid hshape, hnum, if_neg hpos]
      | some data =>
        obtain ⟨hdtype, hproto, -⟩ := fill_frame T data T.dataType shape.dimSizes
        show fromProto (T.protoHelper.fill data (emptyProto T.dataType shape.dimSizes)) = _
        rw [fromProto_eq hdtype (hproto.symm ▸ hvalid) (hproto.symm ▸ hshape), hnum, if_neg hpos]
    rw [hnil]
    exact iff_of_true ⟨_, hread, (same_mk_iff hdims hnum).2 hnil.symm⟩ (fromProtoField_zero _ _)

/-- The bytes are read back. -/
theorem Valid.content (hstrings : StringsReadBack ⟨T, shape, buf⟩) :
    ∃ t', fromProto (asProtoTensorContent ⟨T, shape, buf⟩) = some t' ∧ Same ⟨T, shape, buf⟩ t' := by
  obtain ⟨hvalid, shape', hshape, hdims, hnum⟩ := h.exists_shape
  have hproto := fromProto_eq
    (show (asProtoTensorContent ⟨T, shape, buf⟩).dtype = T.dataType from rfl) hvalid hshape
  by_cases hpos : 0 < shape.numElements.toNatClampNeg
  · obtain ⟨data, rfl⟩ := h.buf_eq_some hpos
    have hlength := h.length data rfl
    have hdata : data ≠ [] := ne_nil_of_length_pos (hlength ▸ hpos)
    have hdecode : T.helper.decode (T.helper.encode data) data.length = some data := by
      by_cases hT : T = .string
      · exact hstrings hT
      · exact T.decode_encode hT data
    refine ⟨⟨T, shape', some data⟩, ?_, (same_mk_iff hdims hnum).2 rfl⟩
    have hcontent : (asProtoTensorContent ⟨T, shape, some data⟩).tensorContent =
        T.helper.encode data := rfl
    rw [hproto, hnum, if_pos hpos, hcontent, if_pos (T.encode_ne_nil hdata), ← hlength]
    rw [hdecode]
    rfl
  · refine ⟨⟨T, shape', none⟩, ?_, (same_mk_iff hdims hnum).2 (h.getD_eq_nil hpos).symm⟩
    rw [hproto, hnum, if_neg hpos]

end Valid

/-- **When a tensor is read back from its protos.** Tensors of every type are, except those of
`bfloat16` with an element other than zero after the first. -/
theorem roundTrips_iff {t : Tensor} (h : t.Valid) (hstrings : t.StringsReadBack) :
    t.RoundTrips ↔ t.FieldKeeps := by
  obtain ⟨T, shape, buf⟩ := t
  have hfield := field_iff h
  have hboth : RoundTrips ⟨T, shape, buf⟩ ↔
      ∃ t', fromProto (asProtoField ⟨T, shape, buf⟩) = some t' ∧ Same ⟨T, shape, buf⟩ t' :=
    ⟨RoundTrips.field, fun hf ↦ ⟨hf, h.content hstrings⟩⟩
  rw [hboth, hfield]
  by_cases hT : T = .bfloat16
  · subst hT
    exact fromProtoField_bfloat16 _ _ _
  · have hkeeps : FieldKeeps ⟨T, shape, buf⟩ := by
      cases T with
      | bfloat16 => exact absurd rfl hT
      | _ => trivial
    exact iff_of_true ((ElementType.exact_protoHelper hT).fromProtoField _ _ _) hkeeps

/-- Two `bfloat16`s, 1 and 1 (`0x3f80`). -/
def twoOnes : Tensor where
  dtype := .bfloat16
  shape := ⟨.rep16 [2], 2⟩
  buf := some [(0x3f80 : BitVec 16), (0x3f80 : BitVec 16)]

theorem valid_twoOnes : twoOnes.Valid where
  shape := ⟨[.addDim 2], by decide⟩
  length _ h := by
    cases h
    decide
  initialised h := nomatch h

/-- They are read back as 1 and 0. -/
theorem not_roundTrips_twoOnes : ¬ twoOnes.RoundTrips := by
  rintro ⟨⟨t', ht', hsame⟩, -⟩
  have hread : fromProto twoOnes.asProtoField =
      some ⟨.bfloat16, ⟨.rep16 [2], 2⟩, some [(0x3f80 : BitVec 16), (0 : BitVec 16)]⟩ := rfl
  obtain rfl := Option.some.inj (hread.symm.trans ht')
  have helems : [(0x3f80 : BitVec 16), (0 : BitVec 16)] = [0x3f80, 0x3f80] :=
    (same_mk_iff rfl rfl).1 hsame
  exact absurd helems (by decide)

theorem roundTrips_iff_twoOnes : twoOnes.RoundTrips ↔ twoOnes.FieldKeeps :=
  roundTrips_iff valid_twoOnes fun h ↦ nomatch h

end Tensor

end TensorFlowCore
