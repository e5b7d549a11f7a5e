import EmmcLayout.Grammar.Modifier
import EmmcLayout.Layout.Placer
import EmmcLayout.Record

/-!
# Applying modifiers

Modifiers act alike on the partitions of a table and on the records of a device tree: both are lists
of named entries.  They differ in what an adjustment may touch.
-/

namespace EmmcLayout.Layout

/-- The entries of a list that modifiers can act on. -/
class Entry (α : Type) where
  name : α → String
  rename : String → α → Except NameError α
  /-- Applies an adjustment but for the name. -/
  adjust : UInt64 → Adjustment → α → Outcome α

/-- Applies a change to a field, and rounds what it changed up to the alignment. -/
def changeField (name : String) (field : Field) (value : UInt64) (change : Change)
    (alignment : UInt64) : Logged LayoutError UInt64 :=
  match change.apply value with
  | none =>
    match change with
    | .subtract amount => throw (.underflow name value amount)
    | _ => throw (.arithmeticOverflow name)
  | some changed =>
    if change = .keep then return changed else alignField name field changed alignment

/-- Adjusts offset, size and mask of a partition. -/
def adjustPartition (alignment : UInt64) (a : Adjustment) (p : Partition) : Outcome Partition := do
  let offset ← changeField p.name .offset p.offset a.offset alignment
  let size ← changeField p.name .size p.size a.size alignment
  return { p with offset, size, mask := a.mask.getD p.mask }

/-- Adjusts size and mask of a record, which has no offset. -/
def adjustRecord (alignment : UInt64) (a : Adjustment) (r : Record) : Outcome Record := do
  if a.offset ≠ .keep then Outcome.fail (GrammarError.disallowed .offset r.name)
  let size ← changeField r.name .size r.size a.size alignment
  return { r with size, mask := a.mask.getD r.mask }

instance : Entry Partition where
  name := Partition.name
  rename := Partition.rename
  adjust := adjustPartition

instance : Entry Record where
  name := Record.name
  rename name r := do
    Name.check name
    return { r with name }
  adjust := adjustRecord

/-- The same entry under a new name. -/
def renameEntry {α : Type} [Entry α] (name : String) (entry : α) : Except GrammarError α :=
  (Entry.rename name entry).mapError (.invalidName name)

/-- Moves the entry at `source` to `target`, counted in the list without it. -/
def moveEntry {α : Type} (source target : Nat) (entries : List α) : List α :=
  match entries[source]? with
  | some entry => (entries.eraseIdx source).insertIdx target entry
  | none => entries

/-- Applies an operation to the entry at `index`, whose list has these names. -/
def operate {α : Type} [Entry α] (alignment : UInt64) (entries : List α) (names : List String)
    (index : Nat) (entry : α) : Operation → Outcome (List α)
  | .delete => do
    Logged.info ("deleted partition " ++ toString index ++ " (" ++ Entry.name entry ++ ")")
    return entries.eraseIdx index
  | .clone name => do
    ensureRoom entries.length
    if name ∈ names then Outcome.fail (GrammarError.nameTaken name)
    let copy ← renameEntry name entry
    Logged.info ("cloned " ++ Entry.name entry ++ " into " ++ name)
    return entries ++ [copy]
  | .place placement => do
    let target ← placement.target index entries.length
    if target = index then return entries
    else
      Logged.info ("moved " ++ Entry.name entry ++ " from slot " ++ toString index ++ " to " ++
        toString target)
      return moveEntry index target entries
  | .adjust a => do
    let renamed ←
      match a.name with
      | none => pure entry
      | some name => do
        if name ≠ Entry.name entry ∧ name ∈ names then Outcome.fail (GrammarError.nameTaken name)
        renameEntry name entry
    let adjusted ← Entry.adjust alignment a renamed
    return entries.set index adjusted

/-- Applies a modifier to a list of entries. -/
def modify {α : Type} [Entry α] (alignment : UInt64) (entries : List α) (m : Modifier) :
    Outcome (List α) := do
  let names := entries.map Entry.name
  let index ← m.selector.resolve names
  match entries[index]? with
  | some entry => operate alignment entries names index entry m.operation
  | none => Outcome.fail (GrammarError.selectorNotFound m.selector.text)

end EmmcLayout.Layout
