import EmmcLayout.DeviceTree.Strings
import EmmcLayout.DeviceTree.Walk

/-!
# Device trees

A flattened device tree starts with a header of ten big-endian words.  It says where in the tree the
structure block, the strings block and the memory reservation block lie.  Opening a tree checks that
they lie within it and behind the header; bytes past the tree are ignored.
-/

namespace EmmcLayout

namespace DeviceTree

/-- The magic of a device tree. -/
def magic : UInt32 := 0xD00DFEED

/-- The length of the header. -/
def headerLength : Nat := 40

/-- The header of a device tree. -/
structure Header where
  magic : UInt32
  totalSize : UInt32
  structOffset : UInt32
  stringsOffset : UInt32
  reservationOffset : UInt32
  version : UInt32
  lastCompatibleVersion : UInt32
  bootCpu : UInt32
  stringsSize : UInt32
  structSize : UInt32
  deriving DecidableEq

namespace Header

/-- The words of a header in order. -/
def words (h : Header) : List UInt32 :=
  [h.magic, h.totalSize, h.structOffset, h.stringsOffset, h.reservationOffset, h.version,
    h.lastCompatibleVersion, h.bootCpu, h.stringsSize, h.structSize]

/-- The header as it is written. -/
def toBytes (h : Header) : Bytes :=
  h.words.flatMap Bytes.be32

/-- Reads a header from the start of a tree. -/
def ofBytes (b : Bytes) : Except FormatError Header := do
  return {
    magic := ← Bytes.fetchBE32 b 0
    totalSize := ← Bytes.fetchBE32 b 4
    structOffset := ← Bytes.fetchBE32 b 8
    stringsOffset := ← Bytes.fetchBE32 b 12
    reservationOffset := ← Bytes.fetchBE32 b 16
    version := ← Bytes.fetchBE32 b 20
    lastCompatibleVersion := ← Bytes.fetchBE32 b 24
    bootCpu := ← Bytes.fetchBE32 b 28
    stringsSize := ← Bytes.fetchBE32 b 32
    structSize := ← Bytes.fetchBE32 b 36 }

end Header

end DeviceTree

/-- An opened device tree: its bytes, its header, and the two blocks that its nodes are kept in. -/
structure DeviceTree where
  bytes : Bytes
  header : DeviceTree.Header
  structBlock : Bytes
  stringsBlock : DeviceTree.StringsBlock
  deriving DecidableEq

namespace DeviceTree

/-- Checks the magic at the start of a tree. -/
def checkMagic (b : Bytes) : Except FormatError Unit := do
  let found ← Bytes.fetchBE32 b 0
  if found = magic then return ()
  else throw (.invalidMagic found)

/-- The size that a tree says it has. -/
def recordedSize (b : Bytes) : Except FormatError Nat := do
  checkMagic b
  let size ← Bytes.fetchBE32 b 4
  return size.toNat

/-- Whether a block lies within a tree of this size, and behind its header. -/
def blockFits (totalSize : Nat) (offset size : UInt32) : Bool :=
  offset.toNat + size.toNat ≤ totalSize && headerLength ≤ offset.toNat

/-- Checks that the blocks a header describes lie within the tree. -/
def checkHeader (totalSize : Nat) (h : Header) : Except FormatError Unit :=
  if h.structOffset.toNat % 4 ≠ 0 ∨ !blockFits totalSize h.structOffset h.structSize then
    .error (.invalidHeader .structureBlock)
  else if !blockFits totalSize h.stringsOffset h.stringsSize then
    .error (.invalidHeader .stringsBlock)
  else if h.reservationOffset.toNat % 8 ≠ 0 ∨ !blockFits totalSize h.reservationOffset 0 then
    .error (.invalidHeader .reservationBlock)
  else .ok ()

/-- The `size` bytes at `offset`. -/
def block (b : Bytes) (offset size : UInt32) : Except FormatError Bytes :=
  Bytes.cut b offset.toNat (offset.toNat + size.toNat)

/-- Opens the tree at the start of a byte string. -/
def ofBytes (b : Bytes) : Except FormatError DeviceTree := do
  let size ← recordedSize b
  if b.length < size then throw (.truncated b.length (size - b.length))
  let bytes ← Bytes.cut b 0 size
  let header ← Header.ofBytes bytes
  checkHeader size header
  let structBlock ← block bytes header.structOffset header.structSize
  let strings ← block bytes header.stringsOffset header.stringsSize
  return ⟨bytes, header, structBlock, ⟨strings⟩⟩

/-- The tokens of the structure block from an offset on. -/
def runAt (t : DeviceTree) (offset : Nat) : TokenRun :=
  (Cursor.ofBlock t.structBlock offset).run

/-- The root node. -/
def root (t : DeviceTree) : Except FormatError Node :=
  let run := t.runAt 0
  Walk.root run.failure run.steps

/-- The first child of a node that has this name. -/
def findChild (t : DeviceTree) (parent : Node) (name : Bytes) :
    Except FormatError (Option Node) :=
  let run := t.runAt parent.body
  Walk.findChild run.failure parent.start name .between run.steps

/-- Goes down from a node along the names of children. -/
def descend (t : DeviceTree) (node : Node) : List Bytes → Except FormatError (Option Node)
  | [] => .ok (some node)
  | name :: names =>
    match t.findChild node name with
    | .error e => .error e
    | .ok none => .ok none
    | .ok (some child) => descend t child names

/-- The names along a path; empty ones are left out. -/
def pathNames (path : String) : List Bytes :=
  ((path.toList.splitOn '/').filter (!·.isEmpty)).map fun name => Utf8.encode (String.ofList name)

/-- The node at an absolute path, such as `/partitions`. -/
def findNode (t : DeviceTree) (path : String) : Except FormatError (Option Node) :=
  if path.toList.head? = some '/' then do
    let root ← t.root
    t.descend root (pathNames path)
  else .error (.relativePath path)

/-- The offset behind the end of a node. -/
def nodeStop (t : DeviceTree) (node : Node) : Except FormatError Nat := do
  let (result, _) := (Cursor.ofBlock t.structBlock node.body).skipNode
  let start ← result
  return start + 4

/-- The properties of a node, and the failure that ended the list if one did. -/
def properties (t : DeviceTree) (node : Node) : List Property × Option FormatError :=
  let run := t.runAt node.body
  Walk.properties run.failure run.steps

/-- The value of the first property of a node whose name has this offset. -/
def propertyValue (t : DeviceTree) (node : Node) (nameOffset : UInt32) :
    Except FormatError (Option Bytes) :=
  let run := t.runAt node.body
  (Walk.findProperty run.failure nameOffset run.steps).map (·.map Property.value)

/-- The offset behind the empty entry that ends a list of reservations, which starts at `position`.
An entry is an address and a size, eight bytes each. -/
def reservationStop (position : Nat) (b : Bytes) : Except FormatError Nat :=
  if b.length < 8 then .error (.truncated position 8)
  else if _h : b.length < 16 then .error (.truncated (position + 8) 8)
  else if (b.take 16).all (· = 0) then .ok (position + 16)
  else reservationStop (position + 16) (b.drop 16)
termination_by b.length
decreasing_by
  simp only [List.length_drop]
  omega

/-- The memory reservation block, the empty entry that ends it included. -/
def reservationBlock (t : DeviceTree) : Except FormatError Bytes := do
  let start := t.header.reservationOffset.toNat
  let stop ← reservationStop start (t.bytes.drop start)
  Bytes.cut t.bytes start stop

end DeviceTree

end EmmcLayout
