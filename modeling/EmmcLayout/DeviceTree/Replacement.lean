import EmmcLayout.DeviceTree.Partitions
import EmmcLayout.DeviceTree.Phandles
import EmmcLayout.DeviceTree.Writer

/-!
# Replacing the partitions node

The partitions of a tree are replaced as a whole: a new node is composed from records and put in the
place of the old one, and everything else of the tree is carried over.  The new partitions get fresh
phandles, after those of the old ones were given back, and declare them the way the tree does.  The
node keeps its own.
-/

namespace EmmcLayout.DeviceTree

namespace PartitionsNode

/-- Gives each record a fresh phandle.  Returns also what is left of the phandles when it fails. -/
def assign (paired : Bool) (census : PhandleCensus) :
    List Record → Except FormatError (List Record) × PhandleCensus
  | [] => (.ok [], census)
  | r :: rest =>
    if nameFieldLength ≤ (Utf8.encode r.name).length then
      (.error (.nodeNameTooLong r.name), census)
    else
      match census.allocate with
      | .error e => (.error e, census)
      | .ok (phandle, census) =>
        let assigned := { r with phandle, linuxPhandle := if paired then phandle else 0 }
        let (others, census) := assign paired census rest
        (others.map (assigned :: ·), census)

/-- The tokens of a partition. -/
def childEmissions (paired : Bool) (r : Record) : List Emission :=
  let name := Utf8.encode r.name
  [.beginNode name,
    .text PropertyName.pname.bytes name,
    .longWord PropertyName.size.bytes r.size,
    .word PropertyName.mask.bytes r.mask,
    .word PropertyName.phandle.bytes r.phandle] ++
    (if paired then [.word PropertyName.linuxPhandle.bytes r.linuxPhandle] else []) ++ [.endNode]

/-- The name of the reference to the partition in place `i`. -/
def referenceName (i : Nat) : Bytes :=
  Utf8.encode ("part-" ++ toString i)

/-- The tokens of a partitions node with these records, and with the phandles of `previous` for
itself. -/
def emissions (previous : PartitionsNode) (paired : Bool) (records : List Record) :
    List Emission :=
  [.beginNode nodeName, .word PropertyName.parts.bytes (UInt32.ofNat records.length)] ++
    records.zipIdx.map (fun (r, i) => .word (referenceName i) r.phandle) ++
    (if previous.phandle = 0 then []
      else [.word PropertyName.phandle.bytes previous.phandle]) ++
    (if previous.linuxPhandle = 0 then []
      else [.word PropertyName.linuxPhandle.bytes previous.linuxPhandle]) ++
    records.flatMap (childEmissions paired) ++ [.endNode]

/-- A composed node: the bytes of its tokens, and the records with their new phandles. -/
structure Composed where
  bytes : Bytes
  assigned : List Record
  deriving DecidableEq

/-- Composes a partitions node.  The phandles that were handed out are gone also when it fails. -/
def compose (previous : PartitionsNode) (records : List Record) (census : PhandleCensus)
    (strings : StringsBlock) : Except FormatError Composed × PhandleCensus × StringsBlock :=
  if maxPartitions < records.length then (.error .tooManyPartitions, census, strings)
  else
    match assign census.paired census records with
    | (.error e, census) => (.error e, census, strings)
    | (.ok assigned, left) =>
      let (bytes, strings) := emitAll strings (emissions previous census.paired assigned)
      (.ok ⟨bytes, assigned⟩, left, strings)

/-- Gives back the phandles of the records. -/
def releaseAll (census : PhandleCensus) (records : List Record) : PhandleCensus :=
  records.foldl (fun c r => (c.release r.phandle).release r.linuxPhandle) census

end PartitionsNode

/-- A tree with new partitions: its bytes, and the records with their new phandles. -/
structure Replaced where
  bytes : Bytes
  assigned : List Record
  deriving DecidableEq

/-- A tree whose partitions are to be replaced: their node, what it says and where it ends. -/
structure Located where
  tree : DeviceTree
  place : Node
  previous : PartitionsNode
  stop : Nat

namespace Located

open PartitionsNode

/-- Opens the tree at the start of a byte string and reads its partitions. -/
def ofBytes (b : Bytes) : Logged FormatError Located := do
  let tree ← DeviceTree.ofBytes b
  let place ← locate tree
  let previous ← PartitionsNode.read tree place
  let stop ← tree.nodeStop place
  return ⟨tree, place, previous, stop⟩

/-- The tree with a node for these records in the place of the old one. -/
def replace (old : Located) (records : List Record) (census : PhandleCensus) :
    Logged FormatError Replaced := do
  let tree := old.tree
  let (result, _, strings) :=
    compose old.previous records (releaseAll census old.previous.records) tree.stringsBlock
  let composed ← result
  let before ← Bytes.cut tree.structBlock 0 old.place.start
  let behind ← Bytes.cut tree.structBlock old.stop tree.structBlock.length
  let reservations ← tree.reservationBlock
  let bytes :=
    assemble tree.header.base reservations (before ++ composed.bytes ++ behind) strings.bytes
  Logged.info ("rebuilt /partitions with " ++ toString composed.assigned.length ++
    " partitions, DTB " ++ toString tree.bytes.length ++ " -> " ++ toString bytes.length ++
    " bytes")
  return ⟨bytes, composed.assigned⟩

end Located

/-- The tree at the start of a byte string with its partitions replaced, on a stack that has room
for every node of it. -/
def replacePartitions (b : Bytes) (records : List Record) : Logged FormatError Replaced := do
  let old ← Located.ofBytes b
  let census ← PhandleCensus.ofTree old.tree
  old.replace records census

/-- The tree at the start of a byte string with its partitions replaced, on a stack that has room
for this many calls of the census inside the one for the root. -/
def replacePartitionsWithin (room : Nat) (b : Bytes) (records : List Record) :
    Option (Logged FormatError Replaced) :=
  let locating := Located.ofBytes b
  match locating.result with
  | .error e => some ⟨locating.notes, .error e⟩
  | .ok old =>
    (PhandleCensus.ofTreeWithin room old.tree).map fun counting => do
      let _ ← locating
      let census ← counting
      old.replace records census

end EmmcLayout.DeviceTree
