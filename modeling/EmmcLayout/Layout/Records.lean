import EmmcLayout.Grammar.Editor
import EmmcLayout.Layout.Modify
import EmmcLayout.Table.Vendor

/-!
# Building record lists

The records of a device tree are cloned and edited like the partitions of a table, but need no
place: at most one of them takes what the others leave.  A list of records and a vendor layout can
be turned into each other.
-/

namespace EmmcLayout.Layout

/-- Refuses a second record that takes the rest of the device. -/
def checkAutofill (records : List Record) : Except LayoutError Unit :=
  match records.filter Record.isAutofill with
  | first :: second :: _ => .error (.multipleAutofill first.name second.name)
  | _ => .ok ()

/-- The record that a definer describes; without a size it takes the rest of the device. -/
def recordOf (d : Definer) : Record :=
  { name := d.name
    size := (d.size.map Amount.value).getD autofillSize
    mask := d.mask.getD 0 }

/-- The records that definers describe. -/
def collectRecords (done : List Record) : List Definer → Except GrammarError (List Record)
  | [] => .ok done
  | d :: rest =>
    if done.any (·.name = d.name) then .error (.nameTaken d.name)
    else
      match Name.check d.name with
      | .error reason => .error (.invalidName d.name reason)
      | .ok () => collectRecords (done ++ [recordOf d]) rest

/-- The list of exactly the records given. -/
def cloneRecords (definers : List Definer) : Outcome (List Record) := do
  if maxPartitions < definers.length then
    Outcome.fail (GrammarError.tooManyPartitions definers.length)
  let records ← collectRecords [] definers
  checkAutofill records
  return records

/-- One step of an edit; a definer appends a record. -/
def editRecordsStep (options : LayoutOptions) (records : List Record) :
    Editor → Outcome (List Record)
  | .definer d => do
    ensureRoom records.length
    let appended ← cloneRecords [d]
    if records.any (·.name = d.name) then Outcome.fail (GrammarError.nameTaken d.name)
    return records ++ appended
  | .modifier m => modify options.alignment records m

/-- The steps of an edit, one after the other. -/
def editRecordsAll (options : LayoutOptions) (records : List Record) :
    List Editor → Outcome (List Record)
  | [] => return records
  | e :: rest => do
    let records ← editRecordsStep options records e
    editRecordsAll options records rest

/-- A list of records changed by editors. -/
def editRecords (base : List Record) (editors : List Editor) (options : LayoutOptions) :
    Outcome (List Record) := do
  let records ← editRecordsAll options base editors
  checkAutofill records
  return records

end EmmcLayout.Layout

namespace EmmcLayout.Table

open Layout

/-- Takes a record into the partitions of a table: it replaces size and mask of the partition of its
name, or comes behind the others. -/
def absorb (partitions : List Partition) (r : Record) : Outcome (List Partition) :=
  match partitions.findIdx? (·.isNamed r.name) with
  | some index =>
    return partitions.modify index fun p => { p with size := r.size, mask := r.mask }
  | none => do
    if maxPartitions ≤ partitions.length then Outcome.fail FormatError.tooManyPartitions
    let p ←
      (Partition.create r.name 0 r.size r.mask).mapError
        (ValidationError.invalidName partitions.length r.name)
    return partitions ++ [p]

/-- Takes records in one after the other. -/
def absorbAll (partitions : List Partition) : List Record → Outcome (List Partition)
  | [] => return partitions
  | r :: rest => do
    let partitions ← absorb partitions r
    absorbAll partitions rest

/-- The vendor layout of the partitions that the records describe. -/
def ofRecords (records : List Record) (capacity : UInt64) (options : LayoutOptions) :
    Outcome Table := do
  let partitions ← absorbAll vendorDefault.partitions records
  let table ← filled ⟨vendorDefault.header, partitions⟩ capacity options.gapReserved
    options.gapPartition
  Logged.debug ("converted " ++ toString records.length ++ " DTB partitions into " ++
    toString table.partitions.length ++ " EPT slots")
  return table.updateHeader

/-- The names of partitions that the device tree does not list. -/
def tableOnlyNames : List String := ["bootloader", "reserved", "env"]

/-- Whether the device tree lists the partition. -/
def isListed (p : Partition) : Bool :=
  !tableOnlyNames.any (p.isNamed ·)

/-- The record of a partition. -/
def recordOf (p : Partition) : Record :=
  { name := p.name, size := p.size, mask := p.mask }

/-- The records that describe the table.  The last one takes the rest of the device when its
partition ends where the table does. -/
def toRecords (t : Table) : List Record :=
  let listed := t.partitions.filter isListed
  match listed.getLast? with
  | none => []
  | some last =>
    let final :=
      if last.stop? = some t.capacity then { recordOf last with size := autofillSize }
      else recordOf last
    listed.dropLast.map recordOf ++ [final]

end EmmcLayout.Table
