import EmmcLayout.Partition

/-!
# Partition tables

A table is a header of 24 bytes and 32 slots, 1304 bytes in all.  The header holds magic, version,
the number of partitions and a checksum.  Only the counted slots are kept; the others are written as
zeros.

The checksum is a peculiar one: the words of the *first* partition, summed once for every counted
partition.  `checksum` computes it by one multiplication.
-/

namespace EmmcLayout

namespace Table

/-- The magic at the start of every table: `MPT` and a NUL. -/
def magic : ByteField 4 := ⟨[0x4D, 0x50, 0x54, 0x00], rfl⟩

/-- The version of every table: the text `01.00.00`, filled up with zeros. -/
def version : ByteField 12 :=
  ⟨[0x30, 0x31, 0x2E, 0x30, 0x30, 0x2E, 0x30, 0x30, 0x00, 0x00, 0x00, 0x00], rfl⟩

/-- The length of the header. -/
def headerLength : Nat := 24

/-- The length of a table. -/
def length : Nat := headerLength + Partition.slotLength * maxPartitions

/-- The header of a table. -/
structure Header where
  magic : ByteField 4
  version : ByteField 12
  count : Int32
  checksum : UInt32
  deriving DecidableEq

namespace Header

/-- The header of a table without partitions. -/
def empty : Header := ⟨Table.magic, Table.version, 0, 0⟩

/-- The header as it is written. -/
def toBytes (h : Header) : Bytes :=
  h.magic.bytes ++ h.version.bytes ++ Bytes.le32 h.count.toUInt32 ++ Bytes.le32 h.checksum

/-- Reads a header from the start of a table. -/
def ofBytes (b : Bytes) : Except FormatError Header := do
  let magic ← Bytes.fetch b 0 4
  let version ← Bytes.fetch b 4 12
  let count ← Bytes.fetchLE32 b 16
  let checksum ← Bytes.fetchLE32 b 20
  return ⟨ByteField.ofBytes 4 magic, ByteField.ofBytes 12 version, count.toInt32, checksum⟩

/-- The magic as one little-endian word. -/
def magicWord (h : Header) : UInt32 :=
  UInt32.ofNat (Bytes.ofLE h.magic.bytes)

/-- The magic as a text, up to its first NUL. -/
def magicText (h : Header) : String :=
  Utf8.decodeLossy (Bytes.untilNul h.magic.bytes)

/-- The version as three little-endian words. -/
def versionWords (h : Header) : List UInt32 :=
  [0, 4, 8].map fun pos => UInt32.ofNat (Bytes.ofLE ((h.version.bytes.drop pos).take 4))

/-- The version as a text, up to its first NUL. -/
def versionText (h : Header) : String :=
  Utf8.decodeLossy (Bytes.untilNul h.version.bytes)

end Header

/-- The header checksum of `count` partitions: the words of the first one, counted `count` times. -/
def checksum (partitions : List Partition) (count : UInt32) : UInt32 :=
  match partitions with
  | [] => 0
  | first :: _ => Bytes.wordSum first.toBytes * count

end Table

/-- A partition table: the header and the partitions it counts. -/
structure Table where
  header : Table.Header
  partitions : List Partition
  deriving DecidableEq

namespace Table

/-- The table without partitions. -/
def empty : Table := ⟨Header.empty, []⟩

/-- The header that belongs to a list of partitions. -/
def headerFor (partitions : List Partition) : Header :=
  let count := UInt32.ofNat partitions.length
  ⟨magic, version, count.toInt32, checksum partitions count⟩

/-- The same partitions under the header that belongs to them. -/
def updateHeader (t : Table) : Table :=
  ⟨headerFor t.partitions, t.partitions⟩

/-- The table of these partitions. -/
def ofPartitions (partitions : List Partition) : Table :=
  ⟨headerFor partitions, partitions⟩

/-- Reads `n` slots that follow one another. -/
def readSlots : Nat → Bytes → Except FormatError (List Partition)
  | 0, _ => .ok []
  | n + 1, b => do
    let first ← Partition.ofBytes (b.take Partition.slotLength)
    let rest ← readSlots n (b.drop Partition.slotLength)
    return first :: rest

/-- The number of slots that a recorded count keeps: the count itself within 0 and 32. -/
def keptSlots (count : Int32) : Nat :=
  min count.toInt.toNat maxPartitions

/-- Reads a table.  Only its structure is checked. -/
def ofBytes (b : Bytes) : Except FormatError Table :=
  if b.length < length then .error (.truncated b.length (length - b.length))
  else do
    let header ← Header.ofBytes b
    let partitions ← readSlots (keptSlots header.count) (b.drop headerLength)
    return ⟨header, partitions⟩

/-- The table as it is written. -/
def toBytes (t : Table) : Bytes :=
  Bytes.padTo length
    (t.header.toBytes ++ (t.partitions.take maxPartitions).flatMap Partition.toBytes)

/-- Whether two tables are written alike. -/
def sameBytes (a b : Table) : Bool :=
  a.toBytes == b.toBytes

/-- The index of the first partition of this name. -/
def find? (t : Table) (name : String) : Option Nat :=
  t.partitions.findIdx? (·.isNamed name)

/-- The furthest end among the partitions: the smallest device that holds them all. -/
def reach (partitions : List Partition) : UInt64 :=
  partitions.foldl (fun furthest p => max furthest p.stopSat) 0

/-- The smallest device that holds the table. -/
def capacity (t : Table) : UInt64 :=
  reach t.partitions

end Table

end EmmcLayout
