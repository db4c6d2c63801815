import LevelDB.Coding

/-! # CRC-32C

    `util/crc32c.{h,cc}`.  `Extend` is written here one bit at a time, straight
    from the reflected polynomial; the source runs the same recurrence through
    tables of eight and of sixteen bytes.  Checksums are masked before they are
    stored. -/

namespace LdbCrc32c

open LdbFormat

/-- One bit of the reflected division by the polynomial `0x82f63b78`. -/
def bitStep (c : UInt32) : UInt32 :=
  if c &&& 1 = 1 then (c >>> 1) ^^^ 0x82f63b78 else c >>> 1

/-- One byte of input. -/
def byteStep (c : UInt32) (b : UInt8) : UInt32 :=
  bitStep (bitStep (bitStep (bitStep (bitStep (bitStep (bitStep (bitStep (c ^^^ b.toUInt32))))))))

/-- `crc32c::Extend`: the checksum of a string whose checksum so far is `crc`,
    continued by `data`. -/
def extend (crc : UInt32) (data : Slice) : UInt32 :=
  data.foldl byteStep (crc ^^^ 0xffffffff) ^^^ 0xffffffff

/-- `crc32c::Value`. -/
def value (data : Slice) : UInt32 := extend 0 data

/-- `crc32c::kMaskDelta`. -/
def kMaskDelta : UInt32 := 0xa282ead8

/-- `crc32c::Mask`: rotate right by 15 bits and add a constant. -/
def mask (crc : UInt32) : UInt32 := ((crc >>> 15) ||| (crc <<< 17)) + kMaskDelta

/-- `crc32c::Unmask`. -/
def unmask (masked : UInt32) : UInt32 :=
  let rot := masked - kMaskDelta
  (rot >>> 17) ||| (rot <<< 15)

/-- A checksum can be continued where it stopped. -/
theorem extend_append (crc : UInt32) (a b : Slice) :
    extend crc (a ++ b) = extend (extend crc a) b := by
  rw [extend, extend, extend, List.foldl_append, UInt32.xor_assoc, UInt32.xor_self,
    UInt32.xor_zero]

theorem extend_value (t : UInt8) (data : Slice) :
    extend (value [t]) data = value (t :: data) := by
  rw [value, value, ← extend_append]
  rfl

/-- Rotating by 15 and by 17 bits is rotating all the way round. -/
theorem rotate_rotate (c : BitVec 32) :
    (((c >>> 15) ||| (c <<< 17)) >>> 17) ||| (((c >>> 15) ||| (c <<< 17)) <<< 15) = c := by
  apply BitVec.eq_of_getLsbD_eq
  intro i hi
  simp only [BitVec.getLsbD_or, BitVec.getLsbD_ushiftRight, BitVec.getLsbD_shiftLeft]
  by_cases h : i < 15
  · have hout : 32 ≤ 15 + (17 + i) := by omega
    simp [h, hi, BitVec.getLsbD_of_ge c (15 + (17 + i)) hout]
    omega
  · obtain ⟨j, rfl⟩ : ∃ j, i = 15 + j := ⟨i - 15, by omega⟩
    have hout : 32 ≤ 15 + (17 + (15 + j)) := by omega
    have h17 : j < 17 := by omega
    have hwrap : ¬ 17 + (15 + j) < 32 := by omega
    simp [h, h17, hi, hwrap, BitVec.getLsbD_of_ge c (15 + (17 + (15 + j))) hout]

/-- `Unmask` undoes `Mask`. -/
theorem unmask_mask (crc : UInt32) : unmask (mask crc) = crc := by
  have hsub : mask crc - kMaskDelta = (crc >>> 15) ||| (crc <<< 17) := by
    rw [mask, UInt32.add_sub_cancel]
  rw [unmask, hsub]
  apply UInt32.toBitVec_inj.mp
  have h := rotate_rotate crc.toBitVec
  simpa using h

end LdbCrc32c
