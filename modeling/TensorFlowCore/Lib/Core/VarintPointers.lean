import TensorFlowCore.Lib.Core.Coding

/-!
# The varint codec through pointers

The decoders of `tensorflow/core/lib/core/coding.cc` with the pointers they are given. A buffer
holds the bytes before the limit, a pointer is an offset in it, and a read at the limit or past it
has no outcome (`loadByte`). That none happens is proved for any bytes and any pointer
(`getVarintPtrLoop_eq`), and with it that the pointers agree with the decoders of
`TensorFlowCore.Lib.Core.Coding`, which are given the bytes themselves. An encoding cut short is
refused because every byte but its last one has the high bit (`getVarintLoop_of_beginning`).
-/

namespace TensorFlowCore.Varint

open List Option

variable {w maxShift shift p : ℕ} {result : BitVec w} {buffer : ByteString}

/-- The byte a pointer points at, if it is before the limit. -/
def loadByte (buffer : ByteString) (p : ℕ) : Option UInt8 := buffer[p]?

/-- The loop of `GetVarint32PtrFallback` and of `GetVarint64Ptr`. The outer `none` is a read at the
limit or past it, the inner one the null pointer. -/
def getVarintPtrLoop (w maxShift : ℕ) (buffer : ByteString) (shift p : ℕ) (result : BitVec w) :
    Option (Option (BitVec w × ℕ)) :=
  if shift ≤ maxShift ∧ p < buffer.length then
    match loadByte buffer p with
    | none => none
    | some byte =>
      if byte &&& 128 ≠ 0 then
        getVarintPtrLoop w maxShift buffer (shift + 7) (p + 1)
          (result ||| ((byte &&& 127).toBitVec.setWidth w <<< shift))
      else some (some (result ||| (byte.toBitVec.setWidth w <<< shift), p + 1))
  else some none
termination_by buffer.length - p

/-- `core::GetVarint32PtrFallback`. -/
def getVarint32PtrFallback (buffer : ByteString) (p : ℕ) : Option (Option (UInt32 × ℕ)) :=
  (getVarintPtrLoop 32 28 buffer 0 p 0).map (·.map fun x ↦ (⟨x.1⟩, x.2))

/-- `core::GetVarint32Ptr`. -/
def getVarint32Ptr (buffer : ByteString) (p : ℕ) : Option (Option (UInt32 × ℕ)) :=
  if p < buffer.length then
    match loadByte buffer p with
    | none => none
    | some byte =>
      if byte &&& 128 = 0 then some (some (byte.toUInt32, p + 1))
      else getVarint32PtrFallback buffer p
  else getVarint32PtrFallback buffer p

/-- `core::GetVarint64Ptr`. -/
def getVarint64Ptr (buffer : ByteString) (p : ℕ) : Option (Option (UInt64 × ℕ)) :=
  (getVarintPtrLoop 64 63 buffer 0 p 0).map (·.map fun x ↦ (⟨x.1⟩, x.2))

/-- What `GetVarint32` and `GetVarint64` do with the pointer they get: the input moves up to it. -/
def advance {α : Type} (input : ByteString) (q : Option (Option (α × ℕ))) :
    Option (Option (α × ByteString)) :=
  q.map (·.map fun x ↦ (x.1, input.drop x.2))

/-- `core::GetVarint32`. -/
def getVarint32 (input : ByteString) : Option (Option (UInt32 × ByteString)) :=
  advance input (getVarint32Ptr input 0)

/-- `core::GetVarint64`. -/
def getVarint64 (input : ByteString) : Option (Option (UInt64 × ByteString)) :=
  advance input (getVarint64Ptr input 0)

/-- `core::PutVarint32`. -/
def putVarint32 (dst : ByteString) (v : UInt32) : ByteString := dst ++ encodeVarint32 v

/-- `core::PutVarint64`. -/
def putVarint64 (dst : ByteString) (v : UInt64) : ByteString := dst ++ encodeVarint64 v

/-- The loop of `VarintLength`. -/
def varintLengthLoop (v : UInt64) (len : ℕ) : ℕ :=
  if v ≥ 128 then varintLengthLoop (v >>> 7) (len + 1) else len
termination_by v.toNat
decreasing_by
  have hge : 128 ≤ v.toNat := UInt64.le_iff_toNat_le.1 ‹v ≥ 128›
  rw [toNat_shiftRight_seven]
  omega

/-- `core::VarintLength`. -/
def varintLength (v : UInt64) : ℕ := varintLengthLoop v 1

/-! ### Lengths -/

theorem varintLengthLoop_eq (v : UInt64) (len : ℕ) :
    varintLengthLoop v len + 1 = len + (base128 v.toNat).length := by
  fun_induction varintLengthLoop v len with
  | case1 v len hge ih =>
    rw [ih, toNat_shiftRight_seven, base128_of_le (UInt64.le_iff_toNat_le.1 hge), length_cons]
    omega
  | case2 v len hlt =>
    have hlt' : v.toNat < 128 := Nat.not_le.1 fun h ↦ hlt (UInt64.le_iff_toNat_le.2 h)
    rw [base128_of_lt hlt', length_singleton]

theorem varintLength_eq (v : UInt64) : varintLength v = (base128 v.toNat).length := by
  have h := varintLengthLoop_eq v 1
  rw [varintLength]
  omega

/-! ### Pointers and bytes -/

theorem loadByte_of_lt (h : p < buffer.length) : loadByte buffer p = some buffer[p] :=
  getElem?_eq_getElem h

/-- The pointer to what is left of the bytes before the limit. -/
def pointerTo {α : Type} (buffer : ByteString) (x : α × ByteString) : α × ℕ :=
  (x.1, buffer.length - x.2.length)

/-- Whatever the bytes, the loop reads before the limit, and what it returns is the outcome of the
loop on the bytes from the pointer on. -/
theorem getVarintPtrLoop_eq (w maxShift : ℕ) (buffer : ByteString) (shift p : ℕ)
    (result : BitVec w) :
    getVarintPtrLoop w maxShift buffer shift p result =
      some ((getVarintLoop w maxShift shift result (buffer.drop p)).map (pointerTo buffer)) := by
  fun_induction getVarintPtrLoop w maxShift buffer shift p result with
  | case1 shift p result h hload => simp [loadByte_of_lt h.2] at hload
  | case2 shift p result h byte hload hmore ih =>
    obtain rfl := some.inj ((loadByte_of_lt h.2).symm.trans hload)
    rw [ih, drop_eq_getElem_cons h.2, getVarintLoop, if_pos h.1, if_pos hmore]
  | case3 shift p result h byte hload hlast =>
    obtain rfl := some.inj ((loadByte_of_lt h.2).symm.trans hload)
    have hp : buffer.length - (buffer.length - (p + 1)) = p + 1 := Nat.sub_sub_self h.2
    rw [drop_eq_getElem_cons h.2, getVarintLoop, if_pos h.1, if_neg hlast, map_some, pointerTo,
      length_drop, hp]
  | case4 shift p result h =>
    by_cases hp : p < buffer.length
    · have hshift : ¬shift ≤ maxShift := fun hshift ↦ h ⟨hshift, hp⟩
      rw [drop_eq_getElem_cons hp, getVarintLoop, if_neg hshift, map_none]
    · rw [drop_eq_nil_of_le (Nat.not_lt.1 hp), getVarintLoop, map_none]

theorem getVarint32PtrFallback_eq (buffer : ByteString) (p : ℕ) :
    getVarint32PtrFallback buffer p =
      some ((TensorFlowCore.getVarint32PtrFallback (buffer.drop p)).map (pointerTo buffer)) := by
  rw [getVarint32PtrFallback, getVarintPtrLoop_eq, TensorFlowCore.getVarint32PtrFallback,
    Option.map_some, Option.map_map, Option.map_map]
  rfl

/-- `GetVarint32Ptr` through pointers and on bytes. -/
theorem getVarint32Ptr_eq (buffer : ByteString) (p : ℕ) :
    getVarint32Ptr buffer p =
      some ((TensorFlowCore.getVarint32Ptr (buffer.drop p)).map (pointerTo buffer)) := by
  by_cases hp : p < buffer.length
  · rw [getVarint32Ptr, if_pos hp, loadByte_of_lt hp]
    by_cases hlast : buffer[p] &&& 128 = 0
    · have hnext : buffer.length - (buffer.length - (p + 1)) = p + 1 := Nat.sub_sub_self hp
      simp only [if_pos hlast, drop_eq_getElem_cons hp, TensorFlowCore.getVarint32Ptr, map_some,
        pointerTo, length_drop, hnext]
    · simp only [if_neg hlast, getVarint32PtrFallback_eq, drop_eq_getElem_cons hp,
        TensorFlowCore.getVarint32Ptr]
  · rw [getVarint32Ptr, if_neg hp, getVarint32PtrFallback_eq, drop_eq_nil_of_le (Nat.not_lt.1 hp),
      TensorFlowCore.getVarint32Ptr]

/-- `GetVarint64Ptr` through pointers and on bytes. -/
theorem getVarint64Ptr_eq (buffer : ByteString) (p : ℕ) :
    getVarint64Ptr buffer p =
      some ((TensorFlowCore.getVarint64 (buffer.drop p)).map (pointerTo buffer)) := by
  rw [getVarint64Ptr, getVarintPtrLoop_eq, TensorFlowCore.getVarint64, Option.map_some,
    Option.map_map, Option.map_map]
  rfl

/-- Moving the input up to the pointer leaves the bytes it stands for. -/
theorem drop_pointerTo {α : Type} (v : α) (x rest : ByteString) :
    (x ++ rest).drop (pointerTo (x ++ rest) (v, rest)).2 = rest := by
  rw [pointerTo, length_append, Nat.add_sub_cancel, drop_left]

theorem advance_pointerTo {α : Type} (v : α) (x rest : ByteString) :
    advance (x ++ rest) (some (some (pointerTo (x ++ rest) (v, rest)))) =
      some (some (v, rest)) := by
  rw [advance, map_some, map_some, drop_pointerTo]
  rfl

/-! ### Encodings cut short -/

/-- Every byte but the last one of an encoding has the high bit. -/
theorem and_128_ne_zero_of_beginning {n : ℕ} {x : ByteString} (h : x <+: base128 n)
    (hne : x ≠ base128 n) : ∀ byte ∈ x, byte &&& 128 ≠ 0 := by
  induction n using Nat.strong_induction_on generalizing x with
  | h n ih =>
    cases x with
    | nil => simp
    | cons b x =>
      by_cases hn : n < 128
      · rw [base128_of_lt hn] at h hne
        obtain ⟨rfl, hx⟩ := cons_prefix_cons.1 h
        exact absurd (by rw [prefix_nil.1 hx]) hne
      · rw [base128_of_le (Nat.not_lt.1 hn)] at h hne
        obtain ⟨rfl, hx⟩ := cons_prefix_cons.1 h
        have hx' : x ≠ base128 (n / 128) := fun heq ↦ hne (by rw [heq])
        rintro byte (_ | ⟨_, hbyte⟩)
        · rw [Ne, and_128_eq_zero_iff]
          show ¬(n % 128 + 128) % 256 < 128
          omega
        · exact ih (n / 128) (by omega) hx hx' byte hbyte

theorem getVarintLoop_of_all {x : ByteString} (h : ∀ byte ∈ x, byte &&& 128 ≠ 0) :
    getVarintLoop w maxShift shift result x = none := by
  induction x generalizing shift result with
  | nil => rw [getVarintLoop]
  | cons b x ih =>
    rw [getVarintLoop]
    split
    · rw [if_pos (h b mem_cons_self)]
      exact ih fun byte hbyte ↦ h byte (mem_cons_of_mem _ hbyte)
    · rfl

/-- The loop finds no last byte in an encoding cut short. -/
theorem getVarintLoop_of_beginning {n : ℕ} {x : ByteString} (h : x <+: base128 n)
    (hne : x ≠ base128 n) : getVarintLoop w maxShift shift result x = none :=
  getVarintLoop_of_all (and_128_ne_zero_of_beginning h hne)

theorem getVarint64Ptr_of_beginning {v : UInt64} (h : buffer.drop p <+: encodeVarint64 v)
    (hne : buffer.drop p ≠ encodeVarint64 v) : getVarint64Ptr buffer p = some none := by
  rw [encodeVarint64_eq] at h hne
  rw [getVarint64Ptr_eq, TensorFlowCore.getVarint64, getVarintLoop_of_beginning h hne, map_none,
    map_none]

theorem getVarint32Ptr_of_beginning {v : UInt32} (h : buffer.drop p <+: encodeVarint32 v)
    (hne : buffer.drop p ≠ encodeVarint32 v) : getVarint32Ptr buffer p = some none := by
  rw [encodeVarint32_eq] at h hne
  have hslow : TensorFlowCore.getVarint32PtrFallback (buffer.drop p) = none := by
    rw [TensorFlowCore.getVarint32PtrFallback, getVarintLoop_of_beginning h hne, map_none]
  rw [getVarint32Ptr_eq]
  cases hx : buffer.drop p with
  | nil => rw [TensorFlowCore.getVarint32Ptr, ← hx, hslow, map_none]
  | cons b x =>
    have hb := and_128_ne_zero_of_beginning h hne b (hx ▸ mem_cons_self)
    rw [TensorFlowCore.getVarint32Ptr, if_neg hb, ← hx, hslow, map_none]

/-! ### The codec -/

theorem getVarint32_append (v : UInt32) (suffix : ByteString) :
    getVarint32 (encodeVarint32 v ++ suffix) = some (some (v, suffix)) := by
  rw [getVarint32, getVarint32Ptr_eq, drop_zero, TensorFlowCore.getVarint32Ptr_append, map_some,
    advance_pointerTo]

theorem getVarint64_append (v : UInt64) (suffix : ByteString) :
    getVarint64 (encodeVarint64 v ++ suffix) = some (some (v, suffix)) := by
  rw [getVarint64, getVarint64Ptr_eq, drop_zero, TensorFlowCore.getVarint64_append, map_some,
    advance_pointerTo]

/-- The codec: what was put is got back and the suffix is left, `VarintLength` is the length of the
encoding, no pointer is followed at the limit or past it, and a proper prefix of an encoding is
refused. -/
theorem varint_codec :
    (∀ (v : UInt32) (suffix : ByteString),
      getVarint32 (putVarint32 [] v ++ suffix) = some (some (v, suffix))) ∧
    (∀ (v : UInt64) (suffix : ByteString),
      getVarint64 (putVarint64 [] v ++ suffix) = some (some (v, suffix))) ∧
    (∀ v : UInt32, varintLength v.toUInt64 = (putVarint32 [] v).length) ∧
    (∀ v : UInt64, varintLength v = (putVarint64 [] v).length) ∧
    (∀ (buffer : ByteString) (p : ℕ),
      getVarint32Ptr buffer p ≠ none ∧ getVarint32PtrFallback buffer p ≠ none ∧
        getVarint64Ptr buffer p ≠ none) ∧
    (∀ (v : UInt32) (buffer : ByteString) (p : ℕ), buffer.drop p <+: putVarint32 [] v →
      buffer.drop p ≠ putVarint32 [] v →
      getVarint32Ptr buffer p = some none ∧ getVarint32 (buffer.drop p) = some none) ∧
    ∀ (v : UInt64) (buffer : ByteString) (p : ℕ), buffer.drop p <+: putVarint64 [] v →
      buffer.drop p ≠ putVarint64 [] v →
      getVarint64Ptr buffer p = some none ∧ getVarint64 (buffer.drop p) = some none := by
  refine ⟨getVarint32_append, getVarint64_append, fun v ↦ ?_, fun v ↦ ?_, fun buffer p ↦ ?_,
    fun v buffer p h hne ↦ ?_, fun v buffer p h hne ↦ ?_⟩
  · rw [varintLength_eq, putVarint32, nil_append, encodeVarint32_eq, UInt32.toNat_toUInt64]
  · rw [varintLength_eq, putVarint64, nil_append, encodeVarint64_eq]
  · rw [getVarint32Ptr_eq, getVarint32PtrFallback_eq, getVarint64Ptr_eq]
    exact ⟨some_ne_none _, some_ne_none _, some_ne_none _⟩
  · have hinput : getVarint32Ptr (buffer.drop p) 0 = some none := getVarint32Ptr_of_beginning h hne
    exact ⟨getVarint32Ptr_of_beginning h hne, by rw [getVarint32, hinput]; rfl⟩
  · have hinput : getVarint64Ptr (buffer.drop p) 0 = some none := getVarint64Ptr_of_beginning h hne
    exact ⟨getVarint64Ptr_of_beginning h hne, by rw [getVarint64, hinput]; rfl⟩

end TensorFlowCore.Varint
