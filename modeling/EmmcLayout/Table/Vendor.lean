import EmmcLayout.Journal
import EmmcLayout.Layout.Options
import EmmcLayout.Table

/-!
# Vendor layouts

The vendor's bootloader expects four partitions at the start of every table and computes all offsets
itself: the first partition lies at 0, the second `gapReserved` behind it, and every later one
`gapPartition` behind its predecessor.  A later partition whose size is the auto-fill size, or would
run past the device, is cut to end with the device.

`fill` lays a table out this way.  A fill that fails has already moved the partitions in front of
the failure, and the one that does not fit lies at its new offset.
-/

namespace EmmcLayout.Table

/-- The names and sizes of the partitions that every vendor layout starts with. -/
def vendorPartitions : List (String × UInt64) :=
  [("bootloader", 0x400000), ("reserved", 0x4000000), ("cache", 0), ("env", 0x800000)]

/-- The names that every vendor layout starts with. -/
def vendorNames : List String :=
  vendorPartitions.map Prod.fst

/-- A slot of this name, which is taken as it is. -/
def namedSlot (name : String) (size : UInt64) : Partition :=
  { Partition.blank with rawName := ByteField.ofBytes nameFieldLength (Utf8.encode name), size }

/-- The vendor's table before its offsets are filled in. -/
def vendorDefault : Table :=
  ofPartitions (vendorPartitions.map fun (name, size) => namedSlot name size)

/-- Whether the table starts with the vendor's partitions. -/
def hasVendorNames (t : Table) : Bool :=
  vendorNames.length ≤ t.partitions.length &&
    (t.partitions.zip vendorNames).all fun (p, name) => p.isNamed name

/-- Lays out one partition behind `base + size + gap`.  Returns what became of it, and why it does
not fit if it does not. -/
def fillOne (capacity : UInt64) (clamped : Bool) (base size gap : UInt64) (p : Partition) :
    Partition × Option LayoutError :=
  match (Word.add? base size).bind (Word.add? · gap) with
  | none => (p, some (.arithmeticOverflow p.name))
  | some offset =>
    let moved := { p with offset }
    if capacity < offset then (moved, some (.overflow p.name offset capacity))
    else if clamped ∧ (p.size = autofillSize ∨ moved.stop?.all (capacity < ·)) then
      match Word.sub? capacity offset with
      | some room => ({ moved with size := room }, none)
      | none => (moved, some (.outsideWord p.name))
    else (moved, none)

/-- Lays out the partitions that follow `last`, each `gap` behind its predecessor. -/
def fillBehind (capacity gap : UInt64) (last : Partition) :
    List Partition → List Partition × Option LayoutError
  | [] => ([], none)
  | p :: rest =>
    match fillOne capacity true last.offset last.size gap p with
    | (moved, some e) => (moved :: rest, some e)
    | (moved, none) =>
      let (filled, e) := fillBehind capacity gap moved rest
      (moved :: filled, e)

/-- Lays out all partitions.  Returns them with the failure that stopped it, if one did. -/
def fillPartitions (capacity gapReserved gapPartition : UInt64) :
    List Partition → List Partition × Option LayoutError
  | [] => ([], none)
  | [first] => ([{ first with offset := 0 }], none)
  | first :: second :: rest =>
    match fillOne capacity false 0 first.size gapReserved second with
    | (moved, some e) => ({ first with offset := 0 } :: moved :: rest, some e)
    | (moved, none) =>
      let (filled, e) := fillBehind capacity gapPartition moved rest
      ({ first with offset := 0 } :: moved :: filled, e)

/-- Recomputes every offset the way the bootloader does.  The header stays as it is.  Returns the
table also when the fill fails. -/
def fill (t : Table) (capacity gapReserved gapPartition : UInt64) : Table × Option LayoutError :=
  if t.hasVendorNames then
    let (partitions, e) := fillPartitions capacity gapReserved gapPartition t.partitions
    (⟨t.header, partitions⟩, e)
  else
    (t, some (.unsupportedLayout
      ((t.partitions.take vendorNames.length).map Partition.name)))

/-- The table laid out the way the bootloader does, with a note that it is. -/
def filled (t : Table) (capacity gapReserved gapPartition : UInt64) : Logged LayoutError Table :=
  match t.fill capacity gapReserved gapPartition with
  | (_, some e) => throw e
  | (table, none) => do
    Logged.info "layout now compatible with the vendor bootloader"
    return table

/-- The vendor's table laid out on a device. -/
def vendorLayout (capacity : UInt64) (options : LayoutOptions) : Logged LayoutError Table := do
  let table ← vendorDefault.filled capacity options.gapReserved options.gapPartition
  return table.updateHeader

/-- Whether every offset is already the one that a fill of the table on its own capacity computes.
Trying it leaves the note of a fill that succeeds. -/
def isVendorLayout (t : Table) (options : LayoutOptions) : Logged Empty Bool :=
  let attempt := t.filled t.capacity options.gapReserved options.gapPartition
  ⟨attempt.notes, .ok <|
    match attempt.result with
    | .ok filled => filled.partitions == t.partitions
    | .error _ => false⟩

end EmmcLayout.Table
