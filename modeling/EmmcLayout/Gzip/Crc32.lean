import EmmcLayout.Bytes

/-!
# The checksum of gzip

The 32-bit cyclic redundancy check with the reflected polynomial 0xEDB88320.
-/

namespace EmmcLayout.Gzip

/-- One division step: a bit leaves the remainder. -/
def crcShift (c : UInt32) : UInt32 :=
  if c &&& 1 = 1 then (c >>> 1) ^^^ 0xEDB88320 else c >>> 1

/-- Takes one byte into the remainder. -/
def crcByte (c : UInt32) (b : UInt8) : UInt32 :=
  Nat.repeat crcShift 8 (c ^^^ b.toUInt32)

/-- The checksum of a byte string. -/
def crc32 (b : Bytes) : UInt32 :=
  b.foldl crcByte 0xFFFFFFFF ^^^ 0xFFFFFFFF

end EmmcLayout.Gzip
