import Lpad.Format.Coding
import Lpad.Format.Status

/-!
# The log format

`log_format.h`, `log_writer.cpp` and `log_reader.cpp`. A log is a sequence of blocks of
32768 bytes. A record is cut into fragments that each lie in one block. A fragment has a
header of 7 bytes: a checksum, its length and its type. No fragment begins in the last 6
bytes of a block, they are filled with zeros.

`crc` stands for `crc32c::Value`. Nothing is assumed about it; the writer extends the
checksum of the type byte by the payload, which is the checksum of both together.
-/

namespace Lpad

def kBlockSize : Nat := 32768

def kHeaderSize : Nat := 7

inductive RecordType where
  | kZeroType
  | kFullType
  | kFirstType
  | kMiddleType
  | kLastType
deriving DecidableEq, Repr

def RecordType.code : RecordType → Nat
  | .kZeroType => 0
  | .kFullType => 1
  | .kFirstType => 2
  | .kMiddleType => 3
  | .kLastType => 4

/-- `crc32c::Mask` -/
def crcMask (crc : BitVec 32) : BitVec 32 := ((crc >>> 15) ||| (crc <<< 17)) + 0xa282ead8#32

/-- `crc32c::Unmask` -/
def crcUnmask (masked : BitVec 32) : BitVec 32 :=
  let rot := masked - 0xa282ead8#32
  (rot >>> 17) ||| (rot <<< 15)

theorem crcUnmask_crcMask (crc : BitVec 32) : crcUnmask (crcMask crc) = crc := by
  have hrot : crcMask crc - 0xa282ead8#32 = (crc >>> 15) ||| (crc <<< 17) :=
    BitVec.add_sub_cancel _ _
  rw [crcUnmask, hrot]
  apply BitVec.eq_of_getLsbD_eq
  intro i hi
  simp only [BitVec.getLsbD_or, BitVec.getLsbD_ushiftRight, BitVec.getLsbD_shiftLeft]
  have hout : crc.getLsbD (15 + (17 + i)) = false := BitVec.getLsbD_of_ge _ _ (by omega)
  by_cases h15 : i < 15
  · have hlow : 17 + i < 32 := by omega
    simp [hout, h15, hlow]
  · have hhigh : ¬ 17 + i < 32 := by omega
    have hshort : i - 15 < 17 := by omega
    have hback : 15 + (i - 15) = i := by omega
    simp [hout, h15, hhigh, hshort, hback, hi]

/-! ## Fragments -/

structure Fragment where
  type : RecordType
  payload : Bytes

/-- The 7 bytes in front of the payload. -/
def Fragment.header (crc : Bytes → BitVec 32) (f : Fragment) : Bytes :=
  encodeFixed32 (crcMask (crc (UInt8.ofNat f.type.code :: f.payload))).toNat ++
    [UInt8.ofNat (f.payload.length &&& 0xff), UInt8.ofNat (f.payload.length >>> 8),
      UInt8.ofNat f.type.code]

/-- Header and payload. -/
def Fragment.bytes (crc : Bytes → BitVec 32) (f : Fragment) : Bytes := f.header crc ++ f.payload

@[simp] theorem Fragment.header_length (crc : Bytes → BitVec 32) (f : Fragment) :
    (f.header crc).length = kHeaderSize := by
  rw [Fragment.header, List.length_append, encodeFixed32, leBytes_length]
  rfl

theorem Fragment.bytes_length (crc : Bytes → BitVec 32) (f : Fragment) :
    (f.bytes crc).length = kHeaderSize + f.payload.length := by
  rw [Fragment.bytes, List.length_append, f.header_length]

end Lpad
