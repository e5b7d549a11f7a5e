import EmmcLayout.Bytes.Checked
import EmmcLayout.Journal

/-!
# Slots

The area for device trees holds two copies of the same payload.  A copy is the payload, filled up
with zeros, and a trailer with a checksum over all words before it.  One damaged copy does no harm:
`Slot.select` takes the first copy whose checksum is right.  `Slot.write` writes both copies.
-/

namespace EmmcLayout

/-- The geometry of the area.  Its sizes have no bound: the sizes of areas that no memory holds,
where a machine word would wrap, are left out. -/
structure SlotLayout where
  copySize : Nat := 0x40000
  deriving DecidableEq

/-- The size of the area. -/
def SlotLayout.areaSize (layout : SlotLayout) : Nat :=
  2 * layout.copySize

/-- What is kept at the end of a copy. -/
structure SlotTrailer where
  magic : UInt32
  version : UInt32
  timestamp : UInt32
  checksum : UInt32
  deriving DecidableEq

/-- A copy that was read. -/
structure SlotCopy where
  index : Nat
  /-- The copy without its trailer: the payload, and what it is filled up with. -/
  payload : Bytes
  trailer : SlotTrailer
  isValid : Bool
  deriving DecidableEq

namespace SlotTrailer

/-- The length of a trailer. -/
def length : Nat := 16

/-- The trailer as it is written. -/
def toBytes (t : SlotTrailer) : Bytes :=
  Bytes.le32 t.magic ++ Bytes.le32 t.version ++ Bytes.le32 t.timestamp ++ Bytes.le32 t.checksum

/-- Reads a trailer. -/
def ofBytes (b : Bytes) : Except FormatError SlotTrailer := do
  let magic ← Bytes.fetchLE32 b 0
  let version ← Bytes.fetchLE32 b 4
  let timestamp ← Bytes.fetchLE32 b 8
  let checksum ← Bytes.fetchLE32 b 12
  return ⟨magic, version, timestamp, checksum⟩

end SlotTrailer

namespace Slot

/-- The checksum of a copy: the sum of its words before the last one, which holds it. -/
def checksum (copy : Bytes) : UInt32 :=
  Bytes.wordSum (copy.take (copy.length - 4))

/-! ## Reading -/

/-- Reads one of the two copies. -/
def readCopy (area : Bytes) (layout : SlotLayout) (index : Nat) : Logged FormatError SlotCopy := do
  let copy ← Bytes.fetch area (index * layout.copySize) layout.copySize
  let payloadLength := layout.copySize - SlotTrailer.length
  let trailer ← SlotTrailer.ofBytes (copy.drop payloadLength)
  let isValid := trailer.checksum == checksum copy
  Logged.debug ("DTB copy " ++ toString index ++ ": magic " ++ Text.hex trailer.magic.toNat ++
    " version " ++ toString trailer.version.toNat ++ " timestamp " ++
    toString trailer.timestamp.toNat ++ " checksum " ++ Text.hex trailer.checksum.toNat ++ " (" ++
    (if isValid then "valid" else "invalid") ++ ")")
  return ⟨index, copy.take payloadLength, trailer, isValid⟩

/-- The copy to use: the first one whose checksum is right, or else the first one. -/
def select (area : Bytes) (layout : SlotLayout) : Logged FormatError SlotCopy := do
  if layout.copySize < SlotTrailer.length then throw (.invalidHeader .copySize)
  let first ← readCopy area layout 0
  let second ← readCopy area layout 1
  if first.isValid then return first
  else if second.isValid then return second
  else
    Logged.warn "neither DTB copy has a valid checksum, using the first"
    return first

/-! ## Writing -/

/-- A copy of a payload. -/
def writeCopy (payload : Bytes) (template : SlotTrailer) (timestamp : UInt32)
    (layout : SlotLayout) : Except FormatError Bytes := do
  let limit := layout.copySize - SlotTrailer.length
  if limit < payload.length then throw (.payloadTooLarge payload.length limit)
  let content := Bytes.padTo layout.copySize payload
  let trailer : SlotTrailer := ⟨template.magic, template.version, timestamp, 0⟩
  let unsigned ← Bytes.overwriteTail content limit trailer.toBytes
  Bytes.overwriteTail unsigned limit { trailer with checksum := checksum unsigned }.toBytes

/-- The whole area, with a payload in both copies.  Magic and version are those of `template`,
normally the trailer of the copy that was read before. -/
def write (payload : Bytes) (template : SlotTrailer) (timestamp : UInt32) (layout : SlotLayout) :
    Except FormatError Bytes := do
  let copy ← writeCopy payload template timestamp layout
  return copy ++ copy

end Slot

end EmmcLayout
