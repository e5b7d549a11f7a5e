import EmmcLayout.Bytes.Checked
import EmmcLayout.Name
import EmmcLayout.Number.Word

/-!
# Partitions

A partition of a table is a slot of 40 bytes: the name field, then size and offset as 64-bit words,
then the mask and a padding word, all little-endian.
-/

namespace EmmcLayout

/-- One partition of a table. -/
structure Partition where
  rawName : ByteField nameFieldLength
  size : UInt64
  offset : UInt64
  mask : UInt32
  /-- Kept as it was read, so that the slot is written back unchanged. -/
  padding : UInt32
  deriving DecidableEq

namespace Partition

/-- The length of a slot. -/
def slotLength : Nat := 40

/-- The bytes of the name, without the closing NUL. -/
def nameBytes (p : Partition) : Bytes :=
  Bytes.untilNul p.rawName.bytes

/-- The name as a text. -/
def name (p : Partition) : String :=
  Utf8.decodeLossy p.nameBytes

/-- Whether the partition has exactly this name. -/
def isNamed (name : String) (p : Partition) : Bool :=
  p.nameBytes == Utf8.encode name

/-- The same partition under a new name. -/
def rename (name : String) (p : Partition) : Except NameError Partition := do
  Name.check name
  return { p with rawName := ByteField.ofBytes nameFieldLength (Utf8.encode name) }

/-- A slot of zeros. -/
def blank : Partition where
  rawName := ByteField.zero nameFieldLength
  size := 0
  offset := 0
  mask := 0
  padding := 0

/-- A new partition; the name must be a legal one. -/
def create (name : String) (offset size : UInt64) (mask : UInt32) :
    Except NameError Partition :=
  rename name { blank with offset, size, mask }

/-- The first address past the partition, unless it leaves the word. -/
def stop? (p : Partition) : Option UInt64 :=
  Word.add? p.offset p.size

/-- The first address past the partition, or the greatest one. -/
def stopSat (p : Partition) : UInt64 :=
  Word.addSat p.offset p.size

/-- The slot form. -/
def toBytes (p : Partition) : Bytes :=
  p.rawName.bytes ++ Bytes.le64 p.size ++ Bytes.le64 p.offset ++ Bytes.le32 p.mask ++
    Bytes.le32 p.padding

/-- Reads a slot. -/
def ofBytes (slot : Bytes) : Except FormatError Partition := do
  let name ← Bytes.fetch slot 0 nameFieldLength
  let size ← Bytes.fetchLE64 slot 16
  let offset ← Bytes.fetchLE64 slot 24
  let mask ← Bytes.fetchLE32 slot 32
  let padding ← Bytes.fetchLE32 slot 36
  return { rawName := ByteField.ofBytes nameFieldLength name, size, offset, mask, padding }

end Partition

end EmmcLayout
