import EmmcLayout.DeviceTree.Blob

/-!
# Writing device trees

A structure block is written from a list of emissions, which name properties by their names; the
names go into the strings block as they are met.  `assemble` puts the blocks of a tree together
behind a header that describes them.
-/

namespace EmmcLayout.DeviceTree

/-- One token to be written. -/
inductive Emission
  | beginNode (name : Bytes)
  | endNode
  | property (name value : Bytes)
  | endTree
  deriving DecidableEq

namespace Emission

/-- A property whose value is a 32-bit word. -/
def word (name : Bytes) (value : UInt32) : Emission :=
  .property name (Bytes.be32 value)

/-- A property whose value is a 64-bit word. -/
def longWord (name : Bytes) (value : UInt64) : Emission :=
  .property name (Bytes.be64 value)

/-- A property whose value is a text closed by a NUL. -/
def text (name value : Bytes) : Emission :=
  .property name (value ++ [0])

end Emission

/-- Bytes filled up to a multiple of four. -/
def padded (b : Bytes) : Bytes :=
  Bytes.padTo (Bytes.align4 b.length) b

/-- Writes one token.  Returns its bytes, and the strings block that its name is in. -/
def emit (strings : StringsBlock) : Emission → Bytes × StringsBlock
  | .beginNode name => (padded (Bytes.be32 Tag.beginNode.word ++ name ++ [0]), strings)
  | .endNode => (Bytes.be32 Tag.endNode.word, strings)
  | .endTree => (Bytes.be32 Tag.endTree.word, strings)
  | .property name value =>
    let (offset, strings) := strings.intern name
    (padded (Bytes.be32 Tag.property.word ++ Bytes.be32 (UInt32.ofNat value.length) ++
      Bytes.be32 offset ++ value), strings)

/-- Writes tokens one after the other. -/
def emitAll (strings : StringsBlock) : List Emission → Bytes × StringsBlock
  | [] => ([], strings)
  | e :: rest =>
    let (first, strings) := emit strings e
    let (others, strings) := emitAll strings rest
    (first ++ others, strings)

/-- The values that a new header keeps from an old one. -/
structure HeaderBase where
  version : UInt32 := 0
  lastCompatibleVersion : UInt32 := 0
  bootCpu : UInt32 := 0

/-- What a header hands on. -/
def Header.base (h : Header) : HeaderBase :=
  ⟨h.version, h.lastCompatibleVersion, h.bootCpu⟩

/-- The version of a tree whose header does not say. -/
def defaultVersion : UInt32 := 17

/-- The version that readers must know of a tree whose header does not say. -/
def defaultCompatibleVersion : UInt32 := 16

/-- The reservation block without reservations. -/
def emptyReservations : Bytes := Bytes.zeros 16

/-- A whole tree: header, reservation block, structure block and strings block. -/
def assemble (base : HeaderBase) (reservations tokens strings : Bytes) : Bytes :=
  let reserved := padded reservations
  let structOffset := headerLength + reserved.length
  let stringsOffset := structOffset + tokens.length
  let header : Header := {
    magic
    totalSize := UInt32.ofNat (stringsOffset + strings.length)
    structOffset := UInt32.ofNat structOffset
    stringsOffset := UInt32.ofNat stringsOffset
    reservationOffset := UInt32.ofNat headerLength
    version := if base.version = 0 then defaultVersion else base.version
    lastCompatibleVersion :=
      if base.lastCompatibleVersion = 0 then defaultCompatibleVersion
      else base.lastCompatibleVersion
    bootCpu := base.bootCpu
    stringsSize := UInt32.ofNat strings.length
    structSize := UInt32.ofNat tokens.length }
  header.toBytes ++ reserved ++ tokens ++ strings

end EmmcLayout.DeviceTree
