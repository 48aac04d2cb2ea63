import TensorFlowCore.Framework.TensorSlice
import TensorFlowCore.Lib.Strings.OrderedCodeForms

/-!
# The keys of saved tensor slices

`EncodeTensorNameSlice` and `DecodeTensorNameSlice`, from
`tensorflow/core/util/saved_tensor_slice_util.cc`: the key that a slice of a tensor has in a
checkpoint.

Of two different pairs the keys differ, and a slice of at least one dimension is read back from its
key. A key of rank zero is refused, though one is written; and the reader takes more than the keys
that are written: other forms of the numbers, any negative length for a full extent, and anything
behind the last dimension (`tensorNameSlice_keys`).
-/

namespace TensorFlowCore

open List

namespace Checkpoint

open OrderedCode

def kint32max : ℕ := 2 ^ 31 - 1

/-- One round of the loop of `EncodeTensorNameSlice`. -/
def writeExtent (buffer : ByteString) (e : Extent) : ByteString :=
  writeSignedNumIncreasing (writeSignedNumIncreasing buffer e.start) e.length

def encodeTensorNameSlice (name : ByteString) (slice : TensorSlice) : ByteString :=
  -- All the tensor slice keys start with a 0.
  let buffer := writeNumIncreasing [] 0
  let buffer := writeString buffer name
  let buffer := writeNumIncreasing buffer (UInt64.ofNat slice.dims)
  slice.extents.foldl writeExtent buffer

/-- What becomes of a dimension of the full slice that the loop of `DecodeTensorNameSlice` begins
with. -/
def decodedExtent (start length : Int64) : Extent := if 0 ≤ length then ⟨start, length⟩ else .full

/-- The loop of `DecodeTensorNameSlice`: the extents, and what is left of `src`. -/
def decodeExtents : ℕ → ByteString → Except Status (List Extent × ByteString)
  | 0, src => .ok ([], src)
  | n + 1, src =>
    match readSignedNumIncreasing src with
    | none => .error (internalError [ascii "Failed to parse start: src = ", src])
    | some (start, src) =>
      match readSignedNumIncreasing src with
      | none => .error (internalError [ascii "Failed to parse length: src = ", src])
      | some (length, src) => do
        let (extents, src) ← decodeExtents n src
        .ok (decodedExtent start length :: extents, src)

/-- `DecodeTensorNameSlice`, with a name that is empty at first. -/
def decodeTensorNameSlice (code : ByteString) : Except Status (ByteString × TensorSlice) :=
  match readNumIncreasing code with
  | none => .error (internalError [ascii "Failed to parse the leading number: src = ", code])
  | some (x, src) =>
    if x ≠ 0 then
      .error (internalError
        [ascii "The leading number should always be 0 for any valid key: src = ", src])
    else
      match readString src [] with
      | none => .error (internalError [ascii "Failed to parse the tensor name: src = ", src])
      | some (name, src) =>
        match readNumIncreasing src with
        | none => .error (internalError [ascii "Failed to parse the tensor rank: src = ", src])
        | some (x, src) =>
          if x = 0 then
            .error (internalError [ascii "Expecting positive rank of the tensor, got ",
              decimal x.toNat,
              ascii ", src = ", src])
          else if x.toNat ≥ kint32max then
            .error (internalError [ascii "Too many elements ", decimal x.toNat])
          else do
            let (extents, _) ← decodeExtents x.toNat src
            .ok (name, ⟨extents⟩)

/-! ### What the reader accepts -/

/-- Two signed numbers, in any form, that are read as the extent. -/
def ExtentForm (field : ByteString) (e : Extent) : Prop :=
  ∃ p q start length, ReadsAs readSignedNumIncreasing p start ∧
    ReadsAs readSignedNumIncreasing q length ∧
    field = p ++ q ∧ decodedExtent start length = e

/-- A zero, the name, the rank and an extent for each dimension, with anything behind them: the
numbers in any form, the name in its only one. -/
def IsKeyOf (code name : ByteString) (slice : TensorSlice) : Prop :=
  0 < slice.dims ∧ slice.dims < kint32max ∧ ∃ zero rank fields rest,
    ReadsAs readNumIncreasing zero 0 ∧ ReadsAs readNumIncreasing rank (UInt64.ofNat slice.dims) ∧
    List.Forall₂ ExtentForm fields slice.extents ∧
    code = zero ++ (writeString [] name ++ (rank ++ (fields.flatten ++ rest)))

/-- What the format can hold in a dimension: everything, or a length that is not negative. -/
def Storable (e : Extent) : Prop := e.IsFull ∨ 0 ≤ e.length

instance : DecidablePred Storable := fun e ↦ inferInstanceAs (Decidable (e.IsFull ∨ 0 ≤ e.length))

variable {name name' code : ByteString} {slice slice' : TensorSlice} {e : Extent}

theorem decodedExtent_of_storable (h : Storable e) : decodedExtent e.start e.length = e := by
  rw [decodedExtent]
  split
  · rfl
  · rename_i hneg
    obtain ⟨hlength, hstart⟩ := h.resolve_right hneg
    rw [Extent.full, ← hlength, ← hstart]

/-- An extent is read as two numbers, its start and its length. -/
theorem decodeExtents_succ_eq_ok_iff {n : ℕ} {src rest : ByteString} {es : List Extent} :
    decodeExtents (n + 1) src = .ok (es, rest) ↔ ∃ start length src₁ src₂ es',
      readSignedNumIncreasing src = some (start, src₁) ∧
      readSignedNumIncreasing src₁ = some (length, src₂) ∧
      decodeExtents n src₂ = .ok (es', rest) ∧ es = decodedExtent start length :: es' := by
  rw [decodeExtents]
  constructor
  · intro h
    split at h
    · cases h
    · rename_i start src₁ hstart
      split at h
      · cases h
      · rename_i length src₂ hlength
        cases hrest : decodeExtents n src₂ with
        | error s =>
          rw [hrest] at h
          cases h
        | ok r =>
          rw [hrest] at h
          cases h
          exact ⟨start, length, src₁, src₂, r.1, hstart, hlength, hrest, rfl⟩
  · rintro ⟨start, length, src₁, src₂, es', hstart, hlength, hrest, rfl⟩
    rw [hstart]
    dsimp only
    rw [hlength]
    dsimp only
    rw [hrest]
    rfl

/-- By induction on the dimensions. -/
theorem decodeExtents_eq_ok_iff {n : ℕ} {src rest : ByteString} {es : List Extent} :
    decodeExtents n src = .ok (es, rest) ↔
      es.length = n ∧ ∃ fields, List.Forall₂ ExtentForm fields es ∧
      src = fields.flatten ++ rest := by
  induction n generalizing src es with
  | zero =>
    rw [decodeExtents, length_eq_zero_iff]
    constructor
    · intro h
      cases h
      exact ⟨rfl, [], .nil, rfl⟩
    · rintro ⟨rfl, fields, hfields, rfl⟩
      cases hfields
      rfl
  | succ n ih =>
    rw [decodeExtents_succ_eq_ok_iff]
    constructor
    · rintro ⟨start, length, src₁, src₂, es', hstart, hlength, hrest, rfl⟩
      obtain ⟨p, hp, rfl⟩ := localReader_readSignedNumIncreasing.eq_some_iff.1 hstart
      obtain ⟨q, hq, rfl⟩ := localReader_readSignedNumIncreasing.eq_some_iff.1 hlength
      obtain ⟨rfl, fields, hfields, rfl⟩ := ih.1 hrest
      refine ⟨rfl, (p ++ q) :: fields, .cons ⟨p, q, start, length, hp, hq, rfl, rfl⟩ hfields, ?_⟩
      rw [flatten_cons, append_assoc, append_assoc]
    · rintro ⟨hn, fields, hfields, rfl⟩
      cases hfields with
      | nil => cases hn
      | @cons field e fields es hfield hfields =>
        obtain ⟨p, q, start, length, hp, hq, rfl, rfl⟩ := hfield
        refine ⟨start, length, q ++ (fields.flatten ++ rest), fields.flatten ++ rest, es, ?_, hq _,
          ih.2 ⟨Nat.succ.inj hn, fields, hfields, rfl⟩, rfl⟩
        rw [flatten_cons, append_assoc, append_assoc]
        exact hp _

theorem toNat_ofNat_of_lt {n : ℕ} (h : n < 2 ^ 32) : (UInt64.ofNat n).toNat = n :=
  UInt64.toNat_ofNat_of_lt' (h.trans (by decide))

/-- **`DecodeTensorNameSlice` accepts the forms of a key**, and returns what they are forms of. -/
theorem decodeTensorNameSlice_eq_ok_iff :
    decodeTensorNameSlice code = .ok (name, slice) ↔ IsKeyOf code name slice := by
  rw [decodeTensorNameSlice]
  constructor
  · intro h
    split at h
    · cases h
    rename_i x src hzero
    split at h
    · cases h
    rename_i hx
    split at h
    · cases h
    rename_i name' src₁ hname
    split at h
    · cases h
    rename_i rank src₂ hrank
    split at h
    · cases h
    rename_i hrank0
    split at h
    · cases h
    rename_i hrankMax
    cases hextents : decodeExtents rank.toNat src₂ with
    | error s =>
      rw [hextents] at h
      cases h
    | ok r =>
      rw [hextents] at h
      cases h
      obtain ⟨zero, hz, rfl⟩ := localReader_readNumIncreasing.eq_some_iff.1 hzero
      obtain rfl := readString_eq_some_iff.1 hname
      obtain ⟨rankForm, hr, rfl⟩ := localReader_readNumIncreasing.eq_some_iff.1 hrank
      obtain ⟨hlen, fields, hfields, rfl⟩ := decodeExtents_eq_ok_iff.1 hextents
      have hdims : rank = UInt64.ofNat (TensorSlice.mk r.1).dims := by
        rw [TensorSlice.dims, hlen, UInt64.ofNat_toNat]
      refine ⟨?_, ?_, zero, rankForm, fields, r.2, not_not.1 hx ▸ hz, hdims ▸ hr, hfields, rfl⟩
      · rw [TensorSlice.dims, hlen]
        exact Nat.pos_of_ne_zero fun h0 ↦ hrank0 (UInt64.toNat_inj.1 h0)
      · rw [TensorSlice.dims, hlen]
        exact Nat.not_le.1 hrankMax
  · rintro ⟨h0, hmax, zero, rank, fields, rest, hz, hr, hfields, rfl⟩
    have hmax' : slice.dims < 2 ^ 32 := hmax.trans (by decide)
    have hne : UInt64.ofNat slice.dims ≠ 0 := fun heq ↦ by
      have hnat := congrArg UInt64.toNat heq
      rw [toNat_ofNat_of_lt hmax'] at hnat
      exact h0.ne' hnat
    have hextents :=
      decodeExtents_eq_ok_iff.2 ⟨rfl, fields, hfields, Eq.refl (fields.flatten ++ rest)⟩
    rw [hz _]
    dsimp only
    rw [if_neg (not_not_intro rfl), readString_eq_some_iff.2 rfl]
    dsimp only
    rw [hr _]
    dsimp only
    rw [if_neg hne, toNat_ofNat_of_lt hmax', if_neg (Nat.not_le.2 hmax), TensorSlice.dims, hextents]
    rfl

/-! ### What is written -/

theorem writeExtent_eq (buffer : ByteString) (e : Extent) :
    writeExtent buffer e = buffer ++
      (writeSignedNumIncreasing [] e.start ++ writeSignedNumIncreasing [] e.length) := by
  rw [writeExtent, writeSignedNumIncreasing_eq, writeSignedNumIncreasing_eq buffer, append_assoc]

theorem foldl_writeExtent (buffer : ByteString) (es : List Extent) :
    es.foldl writeExtent buffer = buffer ++ (es.map (writeExtent [])).flatten := by
  induction es generalizing buffer with
  | nil => exact (append_nil buffer).symm
  | cons e es ih =>
    rw [foldl_cons, ih, writeExtent_eq, map_cons, flatten_cons, writeExtent_eq [], nil_append,
      append_assoc]

theorem encodeTensorNameSlice_eq (name : ByteString) (slice : TensorSlice) :
    encodeTensorNameSlice name slice = writeNumIncreasing [] 0 ++ (writeString [] name ++
      (writeNumIncreasing [] (UInt64.ofNat slice.dims) ++
        (slice.extents.map (writeExtent [])).flatten)) := by
  rw [encodeTensorNameSlice, foldl_writeExtent, writeNumIncreasing_eq _ (UInt64.ofNat _),
    writeString_eq, writeString_eq [] name]
  simp only [append_assoc, nil_append]

theorem extentForm_writeExtent (h : Storable e) : ExtentForm (writeExtent [] e) e :=
  ⟨_, _, e.start, e.length, readsAs_writeSignedNumIncreasing _, readsAs_writeSignedNumIncreasing _,
    writeExtent_eq [] e, decodedExtent_of_storable h⟩

theorem isKeyOf_encodeTensorNameSlice (h0 : 0 < slice.dims) (hmax : slice.dims < kint32max)
    (hstorable : ∀ e ∈ slice.extents, Storable e) :
    IsKeyOf (encodeTensorNameSlice name slice) name slice := by
  refine ⟨h0, hmax, _, _, slice.extents.map (writeExtent []), [], readsAs_writeNumIncreasing 0,
    readsAs_writeNumIncreasing _, ?_, ?_⟩
  · rw [forall₂_map_left_iff, forall₂_same]
    exact fun e he ↦ extentForm_writeExtent (hstorable e he)
  · rw [append_nil, encodeTensorNameSlice_eq]

theorem writeExtent_append_injective {e e' : Extent} {s t : ByteString}
    (h : writeExtent [] e ++ s = writeExtent [] e' ++ t) : e = e' ∧ s = t := by
  rw [writeExtent_eq, writeExtent_eq, nil_append, nil_append, append_assoc, append_assoc] at h
  obtain ⟨hstart, h⟩ :=
    (readsAs_writeSignedNumIncreasing _).unique (readsAs_writeSignedNumIncreasing _) h
  obtain ⟨hlength, hrest⟩ :=
    (readsAs_writeSignedNumIncreasing _).unique (readsAs_writeSignedNumIncreasing _) h
  cases e
  cases e'
  exact ⟨congrArg₂ Extent.mk hstart hlength, hrest⟩

theorem flatten_writeExtent_injective {es es' : List Extent} (hlen : es.length = es'.length)
    (h : (es.map (writeExtent [])).flatten = (es'.map (writeExtent [])).flatten) : es = es' := by
  induction es generalizing es' with
  | nil => exact (length_eq_zero_iff.1 hlen.symm).symm
  | cons e es ih =>
    obtain ⟨e', es', rfl⟩ := exists_cons_of_length_eq_add_one hlen.symm
    rw [map_cons, map_cons, flatten_cons, flatten_cons] at h
    obtain ⟨rfl, hes⟩ := writeExtent_append_injective h
    rw [ih (Nat.succ.inj hlen) hes]

/-- A string ends where its form ends. -/
theorem writeString_append_injective {s t : ByteString}
    (h : writeString [] name ++ s = writeString [] name' ++ t) : name = name' ∧ s = t := by
  have hread := readString_eq_some_iff.2 h
  rw [readString_eq_some_iff.2 rfl] at hread
  exact Prod.mk.inj (Option.some.inj hread)

/-- **Different slices have different keys.** -/
theorem encodeTensorNameSlice_injective (hdims : slice.dims ≤ kint32max)
    (hdims' : slice'.dims ≤ kint32max)
    (h : encodeTensorNameSlice name slice = encodeTensorNameSlice name' slice') :
    name = name' ∧ slice = slice' := by
  rw [encodeTensorNameSlice_eq, encodeTensorNameSlice_eq] at h
  obtain ⟨-, h⟩ := (readsAs_writeNumIncreasing _).unique (readsAs_writeNumIncreasing _) h
  obtain ⟨hname, h⟩ := writeString_append_injective h
  obtain ⟨hrank, h⟩ := (readsAs_writeNumIncreasing _).unique (readsAs_writeNumIncreasing _) h
  have hlen := congrArg UInt64.toNat hrank
  rw [toNat_ofNat_of_lt (hdims.trans_lt (by decide)),
    toNat_ofNat_of_lt (hdims'.trans_lt (by decide))] at hlen
  refine ⟨hname, ?_⟩
  cases slice
  cases slice'
  exact congrArg TensorSlice.mk (flatten_writeExtent_injective hlen h)

/-- **The keys of saved slices.** A slice of one dimension or more, each of them everything or of a
length that is not negative, is read back from its key; different slices have different keys; and
what is accepted is a key with its numbers in any form and anything behind it. -/
theorem tensorNameSlice_keys :
    (∀ name slice, 0 < slice.dims → slice.dims < kint32max → (∀ e ∈ slice.extents, Storable e) →
      decodeTensorNameSlice (encodeTensorNameSlice name slice) = .ok (name, slice)) ∧
    (∀ name name' slice slice', slice.dims ≤ kint32max → slice'.dims ≤ kint32max →
      encodeTensorNameSlice name slice = encodeTensorNameSlice name' slice' → name = name' ∧
      slice = slice') ∧
    ∀ code name slice, decodeTensorNameSlice code = .ok (name, slice) ↔ IsKeyOf code name slice :=
  ⟨fun _ _ h0 hmax hstorable ↦ decodeTensorNameSlice_eq_ok_iff.2
    (isKeyOf_encodeTensorNameSlice h0 hmax hstorable),
    fun _ _ _ _ ↦ encodeTensorNameSlice_injective, fun _ _ _ ↦ decodeTensorNameSlice_eq_ok_iff⟩

/-- The first three columns of a matrix, and their key for another tensor. -/
theorem tensorNameSlice_keys_columns :
    decodeTensorNameSlice (encodeTensorNameSlice (ascii "w") ⟨[.full, ⟨0, 3⟩]⟩) =
        .ok (ascii "w", ⟨[.full, ⟨0, 3⟩]⟩) ∧
      encodeTensorNameSlice (ascii "w") ⟨[.full, ⟨0, 3⟩]⟩ ≠
        encodeTensorNameSlice (ascii "v") ⟨[.full, ⟨0, 3⟩]⟩ :=
  ⟨tensorNameSlice_keys.1 _ _ (by decide) (by decide) (by decide),
    fun h ↦ absurd (tensorNameSlice_keys.2.1 _ _ _ _ (by decide) (by decide) h).1 (by decide)⟩

/-- The key of a slice without dimensions is refused. -/
theorem decodeTensorNameSlice_encode_scalar :
    decodeTensorNameSlice (encodeTensorNameSlice (ascii "w") ⟨[]⟩) ≠ .ok (ascii "w", ⟨[]⟩) :=
  fun h ↦ absurd (decodeTensorNameSlice_eq_ok_iff.1 h).1 (by decide)

end Checkpoint

end TensorFlowCore
