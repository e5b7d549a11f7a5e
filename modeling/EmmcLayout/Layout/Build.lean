import EmmcLayout.Grammar.Editor
import EmmcLayout.Layout.Modify
import EmmcLayout.Layout.Span
import EmmcLayout.Table.Validate
import EmmcLayout.Table.Vendor

/-!
# Building tables

Three ways to a table: creating one behind the vendor's partitions, cloning one from arguments that
say everything, and editing one that is there.  Each ends in a table that is checked as a whole.
-/

namespace EmmcLayout.Layout

/-- Checks that every partition ends on the device. -/
def checkEnds (capacity : UInt64) : List Partition → Except LayoutError Unit
  | [] => .ok ()
  | p :: rest =>
    match p.stop? with
    | none => .error (.arithmeticOverflow p.name)
    | some stop =>
      if capacity < stop then .error (.endsPastCapacity p.name stop capacity)
      else checkEnds capacity rest

/-- The table of these partitions, checked as a whole and against the device. -/
def finish (capacity : UInt64) (partitions : List Partition) : Outcome Table := do
  let table := Table.ofPartitions partitions
  table.validate
  checkEnds capacity table.partitions
  let _ ← table.warnOverlaps
  return table

/-- Places definers one after the other. -/
def appendAll (options : LayoutOptions) (p : Placer) : List Definer → Outcome Placer
  | [] => return p
  | d :: rest => do
    let p ← p.append options d
    appendAll options p rest

/-- The vendor's layout of a device, with the definers placed behind it. -/
def createTable (definers : List Definer) (capacity : UInt64) (options : LayoutOptions) :
    Outcome Table := do
  let base ← Table.vendorLayout capacity options
  let placer ← Placer.start base.partitions capacity
  let placer ← appendAll options placer definers
  let placer ← placer.settle options
  finish capacity placer.partitions

/-- The partitions that definers describe, with their numbers as they are written. -/
def clonePartitions (done : List Partition) : List Definer → Except GrammarError (List Partition)
  | [] => .ok done
  | d :: rest =>
    if done.any (·.isNamed d.name) then .error (.nameTaken d.name)
    else
      let offset := (d.offset.map Amount.value).getD 0
      let size := (d.size.map Amount.value).getD 0
      match Partition.create d.name offset size (d.mask.getD 0) with
      | .error reason => .error (.invalidName d.name reason)
      | .ok p => clonePartitions (done ++ [p]) rest

/-- A table of exactly the partitions given. -/
def cloneTable (definers : List Definer) : Outcome Table := do
  if maxPartitions < definers.length then
    Outcome.fail (GrammarError.tooManyPartitions definers.length)
  let table := Table.ofPartitions (← clonePartitions [] definers)
  table.validate
  let _ ← table.warnOverlaps
  return table

/-- One step of an edit.  A waiting partition is settled before a modifier. -/
def editStep (options : LayoutOptions) (p : Placer) : Editor → Outcome Placer
  | .definer d => p.append options d
  | .modifier m => do
    let p ← p.settle options
    let partitions ← modify options.alignment p.partitions m
    return p.resync partitions

/-- The steps of an edit, one after the other. -/
def editAll (options : LayoutOptions) (p : Placer) : List Editor → Outcome Placer
  | [] => return p
  | e :: rest => do
    let p ← editStep options p e
    editAll options p rest

/-- A table changed by editors. -/
def editTable (base : Table) (editors : List Editor) (capacity : UInt64)
    (options : LayoutOptions) : Outcome Table := do
  let placer ← Placer.start base.partitions capacity
  let placer ← editAll options placer editors
  let placer ← placer.settle options
  finish capacity placer.partitions

end EmmcLayout.Layout
