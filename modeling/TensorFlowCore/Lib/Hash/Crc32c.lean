import TensorFlowCore.Core.Status

/-!
# Checksums

`tensorflow/core/lib/hash/crc32c.h` and `crc32c.cc`. `Extend` runs one step of the checksum register
per byte between two complements. The readers and writers take that step as a parameter, since
nothing about them depends on it; `step1` is the one of the source. Checksums are stored masked.
-/

namespace TensorFlowCore

/-- `crc32c::kMaskDelta`. -/
def kMaskDelta : UInt32 := 0xa282ead8

/-- `crc32c::Mask`: rotate right by 15 bits and add a constant. -/
def mask (crc : UInt32) : UInt32 := (crc >>> 15 ||| crc <<< 17) + kMaskDelta

/-- `crc32c::Unmask`. -/
def unmask (maskedCrc : UInt32) : UInt32 :=
  let rot := maskedCrc - kMaskDelta
  rot >>> 17 ||| rot <<< 15

theorem rotate_rotate (x : BitVec 32) :
    (x >>> 15 ||| x <<< 17) >>> 17 ||| (x >>> 15 ||| x <<< 17) <<< 15 = x := by
  apply BitVec.eq_of_getLsbD_eq
  intro i hi
  have hout : x.getLsbD (15 + (17 + i)) = false := BitVec.getLsbD_of_ge x _ (by omega)
  simp only [BitVec.getLsbD_or, BitVec.getLsbD_ushiftRight, BitVec.getLsbD_shiftLeft, hout,
    Bool.false_or]
  by_cases h : i < 15
  · simp [h, show 17 + i < 32 by omega]
  · simp [h, hi, show ¬17 + i < 32 by omega, show i - 15 < 17 by omega,
      show 15 + (i - 15) = i by omega]

theorem unmask_mask (crc : UInt32) : unmask (mask crc) = crc := by
  simp only [unmask, mask, UInt32.add_sub_cancel]
  apply UInt32.eq_of_toBitVec_eq
  exact rotate_rotate crc.toBitVec

/-- The entries of `table0_`: a byte divided by the Castagnoli polynomial, bit by bit. -/
def table0 (c : UInt8) : UInt32 :=
  (List.range 8).foldl
    (fun l _ ↦ if l &&& 1 = 1 then l >>> 1 ^^^ 0x82f63b78 else l >>> 1) c.toUInt32

/-- `STEP1` of `crc32c::Extend`. -/
def step1 (l : UInt32) (byte : UInt8) : UInt32 := table0 (l.toUInt8 ^^^ byte) ^^^ l >>> 8

example : table0 1 = 0xf26b8303 ∧ table0 255 = 0xad7d5351 := by decide

section

variable (step : UInt32 → UInt8 → UInt32)

/-- `crc32c::Extend(crc, data)`. -/
def crcExtend (crc : UInt32) (data : ByteString) : UInt32 :=
  data.foldl step (crc ^^^ 0xffffffff) ^^^ 0xffffffff

/-- `crc32c::Value(data)`. -/
def crcValue (data : ByteString) : UInt32 := crcExtend step 0 data

/-- Extending the checksum of a string by more bytes is the checksum of both together. -/
theorem crcExtend_crcValue (x y : ByteString) :
    crcExtend step (crcValue step x) y = crcValue step (x ++ y) := by
  rw [crcValue, crcValue, crcExtend, crcExtend, crcExtend, UInt32.xor_assoc, UInt32.xor_self,
    UInt32.xor_zero, List.foldl_append]

end

end TensorFlowCore
