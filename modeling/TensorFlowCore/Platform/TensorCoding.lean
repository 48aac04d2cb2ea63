import TensorFlowCore.Lib.Core.Coding

/-!
# Lists of strings

`EncodeStringList` and `DecodeStringList` of `tensorflow/core/platform/tensor_coding.cc`: the
lengths of all the strings as varints, then all their bytes. A length is written as a `uint32`, so a
longer string does not come back.
-/

namespace TensorFlowCore

/-- `port::EncodeStringList`. -/
def encodeStringList (strings : List ByteString) : ByteString :=
  (strings.flatMap fun s ↦ encodeVarint32 s.length.toUInt32) ++ strings.flatten

/-- The first loop of `DecodeStringList`: `n` lengths, and the rest of the bytes. -/
def decodeSizes : ℕ → ByteString → Option (List UInt32 × ByteString)
  | 0, reader => some ([], reader)
  | n + 1, reader =>
    (getVarint32Ptr reader).bind fun (v, reader') ↦
      (decodeSizes n reader').map fun (sizes, reader'') ↦ (v :: sizes, reader'')

/-- The second loop: a string of each of the lengths. -/
def decodeStrings : List UInt32 → ByteString → Option (List ByteString)
  | [], _ => some []
  | size :: sizes, reader =>
    if reader.length < size.toNat then none
    else (decodeStrings sizes (reader.drop size.toNat)).map fun strings ↦
      reader.take size.toNat :: strings

/-- `port::DecodeStringList`. -/
def decodeStringList (src : ByteString) (n : ℕ) : Option (List ByteString) :=
  (decodeSizes n src).bind fun (sizes, reader) ↦
    if (sizes.map UInt32.toNat).sum ≠ reader.length then none else decodeStrings sizes reader

theorem encodeStringList_ne_nil {strings : List ByteString} (h : strings ≠ []) :
    encodeStringList strings ≠ [] := by
  cases strings with
  | nil => exact absurd rfl h
  | cons s strings =>
    have hsize : encodeVarint32 s.length.toUInt32 ≠ [] := by
      rw [encodeVarint32_eq]
      exact base128_ne_nil _
    rw [encodeStringList, List.flatMap_cons]
    exact List.append_ne_nil_of_left_ne_nil (List.append_ne_nil_of_left_ne_nil hsize _) _

end TensorFlowCore
