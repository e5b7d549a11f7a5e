import EmmcLayout.DeviceTree.Blob
import EmmcLayout.Journal
import EmmcLayout.Name
import EmmcLayout.Record

/-!
# The partitions node

The node `/partitions` has one child for each partition.  Its own properties say how many there are
(`parts`) and in which order they go: `part-N` holds the phandle of the partition in place `N`.

Reading the node is strict: every property must be one that the node or a partition may have, with a
value of the right length, and the number of children must be the one that `parts` gives.
-/

namespace EmmcLayout.DeviceTree

/-- What a partitions node says. -/
structure PartitionsNode where
  /-- The children, in the order of the node until they are sorted. -/
  records : List Record
  /-- The phandle that `part-N` refers to, for each `N`; 0 where there is none. -/
  references : Vector UInt32 maxPartitions
  phandle : UInt32
  linuxPhandle : UInt32
  /-- The number of partitions that `parts` gives. -/
  declared : UInt32
  deriving DecidableEq

namespace PartitionsNode

/-- A node that says nothing. -/
def empty : PartitionsNode :=
  ⟨[], Vector.replicate maxPartitions 0, 0, 0, 0⟩

/-! ## Reading -/

/-- The offsets of the names of the properties. -/
structure Names where
  parts : UInt32
  pname : UInt32
  size : UInt32
  mask : UInt32
  phandle : UInt32
  linuxPhandle : Option UInt32

/-- The offset of a name that every partitions node needs. -/
def essential (s : StringsBlock) (n : PropertyName) : Except FormatError UInt32 :=
  match s.find? n.bytes with
  | some offset => .ok offset
  | none => .error (.missingPropertyName n.text)

/-- The offsets of the names in a strings block; only `linux,phandle` may be missing. -/
def Names.ofStrings (s : StringsBlock) : Except FormatError Names := do
  return {
    parts := ← essential s .parts
    pname := ← essential s .pname
    size := ← essential s .size
    mask := ← essential s .mask
    phandle := ← essential s .phandle
    linuxPhandle := s.find? PropertyName.linuxPhandle.bytes }

/-- The value of a property that must have this length. -/
def fixedValue (s : StringsBlock) (p : Property) (length : Nat) : Except FormatError Bytes :=
  if p.value.length = length then .ok p.value
  else .error (.propertyLength (s.nameText p.nameOffset) length p.value.length)

/-- The value of a property that is a 32-bit word. -/
def wordValue (s : StringsBlock) (p : Property) : Except FormatError UInt32 :=
  (fixedValue s p 4).map fun value => UInt32.ofNat (Bytes.ofBE value)

/-- The value of a property that is a 64-bit word. -/
def longWordValue (s : StringsBlock) (p : Property) : Except FormatError UInt64 :=
  (fixedValue s p 8).map fun value => UInt64.ofNat (Bytes.ofBE value)

/-- The number `N` of a name `part-N`, with an optional plus sign; `none` when there is no number
below 32. -/
def referenceIndex? (digits : List Char) : Option (Fin maxPartitions) :=
  let digits := if digits.head? = some '+' then digits.tail else digits
  if digits ≠ [] ∧ digits.all Char.isDigit then
    let n := Nat.ofDigitChars 10 digits 0
    if h : n < maxPartitions then some ⟨n, h⟩ else none
  else none

/-- Takes in a property of the node itself. -/
def readOwn (s : StringsBlock) (names : Names) (node : PartitionsNode) (p : Property) :
    Except FormatError PartitionsNode := do
  let value ← wordValue s p
  if p.nameOffset = names.parts then return { node with declared := value }
  else if p.nameOffset = names.phandle then return { node with phandle := value }
  else if some p.nameOffset = names.linuxPhandle then return { node with linuxPhandle := value }
  else
    let name := s.nameText p.nameOffset
    match name.toList with
    | 'p' :: 'a' :: 'r' :: 't' :: '-' :: digits =>
      match referenceIndex? digits with
      | some i => return { node with references := node.references.set i value }
      | none => throw (.invalidPartReference name)
    | _ => throw (.unexpectedProperty "partitions" name)

/-- A child that is being read: the bytes of its name, where its content starts, and what it said so
far. -/
structure Child where
  name : Bytes
  start : Nat
  record : Record

/-- Opens a child; its name must fit the name field of a partition. -/
def openChild (name : Bytes) (start : Nat) : Except FormatError Child :=
  let text := Utf8.decodeLossy name
  if nameFieldLength ≤ name.length then .error (.nodeNameTooLong text)
  else .ok ⟨name, start, { name := text, size := 0, mask := 0 }⟩

/-- Checks the name that a child repeats. -/
def checkPname (child : Child) (p : Property) : Except FormatError Unit :=
  let pname := Bytes.untilNul p.value
  if nameFieldLength < p.value.length then
    .error (.propertyLength PropertyName.pname.text nameFieldLength p.value.length)
  else if pname ≠ child.name then
    .error (.pnameMismatch child.record.name (Utf8.decodeLossy pname))
  else .ok ()

/-- Takes in a property of a child. -/
def readChild (s : StringsBlock) (names : Names) (child : Child) (p : Property) :
    Except FormatError Child := do
  let r := child.record
  if p.nameOffset = names.pname then
    checkPname child p
    return child
  else if p.nameOffset = names.size then
    return { child with record := { r with size := ← longWordValue s p } }
  else if p.nameOffset = names.mask then
    return { child with record := { r with mask := ← wordValue s p } }
  else if p.nameOffset = names.phandle then
    return { child with record := { r with phandle := ← wordValue s p } }
  else if some p.nameOffset = names.linuxPhandle then
    return { child with record := { r with linuxPhandle := ← wordValue s p } }
  else throw (.unexpectedProperty r.name (s.nameText p.nameOffset))

/-- Closes a child; the two phandles it may have must be the same. -/
def closeChild (child : Child) : Except FormatError Record :=
  let r := child.record
  if r.phandle ≠ 0 ∧ r.linuxPhandle ≠ 0 ∧ r.phandle ≠ r.linuxPhandle then
    .error (.phandleConflict r.name r.phandle r.linuxPhandle)
  else .ok r

/-- Reads the tokens behind the name of the node at `start` up to its end, inside the child that is
being read if there is one. -/
def readTokens (stop : FormatError) (start : Nat) (s : StringsBlock) (names : Names)
    (node : PartitionsNode) : Option Child → List Step → Except FormatError PartitionsNode
  | _, [] => .error stop
  | none, step :: rest =>
    match step.token with
    | .property p =>
      match readOwn s names node p with
      | .ok node => readTokens stop start s names node none rest
      | .error e => .error e
    | .beginNode name =>
      if maxPartitions ≤ node.records.length then .error .tooManyPartitions
      else
        match openChild name step.stop with
        | .ok child => readTokens stop start s names node (some child) rest
        | .error e => .error e
    | .endNode => .ok node
    | .endTree => .error (.unterminatedNode start)
    | .nop => readTokens stop start s names node none rest
  | some child, step :: rest =>
    match step.token with
    | .property p =>
      match readChild s names child p with
      | .ok child => readTokens stop start s names node (some child) rest
      | .error e => .error e
    | .beginNode _ => .error (.nestedNode child.record.name)
    | .endNode =>
      match closeChild child with
      | .ok r =>
        readTokens stop start s names { node with records := node.records ++ [r] } none rest
      | .error e => .error e
    | .endTree => .error (.unterminatedNode child.start)
    | .nop => readTokens stop start s names node (some child) rest

/-- The name of the node. -/
def nodeName : Bytes := Utf8.encode "partitions"

/-- The node `/partitions`. -/
def locate (t : DeviceTree) : Except FormatError Node := do
  match ← t.findNode "/partitions" with
  | some node => return node
  | none => throw .noPartitionsNode

/-- Reads a partitions node. -/
def read (t : DeviceTree) (node : Node) : Logged FormatError PartitionsNode := do
  if node.name ≠ nodeName then throw .noPartitionsNode
  let names ← Names.ofStrings t.stringsBlock
  let run := t.runAt node.body
  let result ← readTokens run.failure node.start t.stringsBlock names empty none run.steps
  let parsed := UInt32.ofNat result.records.length
  if parsed ≠ result.declared then throw (.countMismatch result.declared parsed)
  Logged.debug ("parsed " ++ toString parsed.toNat ++ " partitions from /partitions")
  return result

/-! ## Sorting -/

/-- Exchanges `first` with the first record of `rest` that has the handle `wanted`. -/
def exchange? (wanted : UInt32) (first : Record) :
    List Record → Option (Record × List Record)
  | [] => none
  | r :: rest =>
    if r.handle = wanted then some (r, first :: rest)
    else (exchange? wanted first rest).map fun (found, others) => (found, r :: others)

/-- Goes through the places in order.  A place whose record does not have the handle that is wanted
there exchanges it with the first later record that has it, if one does.  Also counts the exchanges.
-/
def arrange : List UInt32 → List Record → List Record × Nat
  | wanted :: more, first :: rest =>
    if first.handle = wanted then
      let (sorted, swaps) := arrange more rest
      (first :: sorted, swaps)
    else
      match _h : exchange? wanted first rest with
      | some (found, others) =>
        let (sorted, swaps) := arrange more others
        (found :: sorted, swaps + 1)
      | none =>
        let (sorted, swaps) := arrange more rest
        (first :: sorted, swaps)
  | _, records => (records, 0)

/-- The records in the order of the references, and the number of exchanges that took. -/
def sortedRecords (node : PartitionsNode) : List Record × Nat :=
  let (sorted, swaps) := arrange node.references.toList (node.records.take maxPartitions)
  (sorted ++ node.records.drop maxPartitions, swaps)

/-- Puts the records in the order of the references. -/
def sort {ε : Type} (node : PartitionsNode) : Logged ε PartitionsNode := do
  let (records, swaps) := node.sortedRecords
  Logged.info ("partitions sorted by phandle (" ++ toString swaps ++ " swaps)")
  return { node with records }

/-- The partitions of a tree in the order of the references. -/
def ofTree (t : DeviceTree) : Logged FormatError PartitionsNode := do
  let place ← locate t
  let node ← read t place
  node.sort

end PartitionsNode

end EmmcLayout.DeviceTree
