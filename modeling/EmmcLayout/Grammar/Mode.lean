import EmmcLayout.Error

/-!
# Modes and their rules

What a list of arguments is read for decides which fields a definer must have, may have, or must not
have, and whether modifiers may stand among the definers.
-/

namespace EmmcLayout

/-- What one field of a definer must or may contain. -/
structure Allowance where
  required : Bool := false
  absolute : Bool := false
  relative : Bool := false
  disallowed : Bool := false
  deriving DecidableEq

namespace Allowance

/-- An allowance as a number, one bit for each thing that is said. -/
def bits (a : Allowance) : Nat :=
  (if a.required then 1 else 0) + (if a.absolute then 2 else 0) +
    (if a.relative then 4 else 0) + (if a.disallowed then 128 else 0)

/-- The allowance with these bits; other bits say nothing. -/
def ofBits (bits : Nat) : Allowance where
  required := bits.testBit 0
  absolute := bits.testBit 1
  relative := bits.testBit 2
  disallowed := bits.testBit 7

theorem ofBits_bits (a : Allowance) : ofBits a.bits = a := by
  rcases a with ⟨_ | _, _ | _, _ | _, _ | _⟩ <;> rfl

end Allowance

/-- The rules for definers. -/
structure DefinerRules where
  name : Allowance
  offset : Allowance
  size : Allowance
  mask : Allowance
  /-- The mask of a definer that gives none. -/
  defaultMask : Option UInt32
  /-- Whether 0 is a mask beside 1, 2 and 4. -/
  allowZeroMask : Bool
  deriving DecidableEq

namespace DefinerRules

/-- New partitions behind the vendor's: offset and size may be left out. -/
def create : DefinerRules where
  name := { required := true }
  offset := { absolute := true, relative := true }
  size := { absolute := true }
  mask := {}
  defaultMask := some 4
  allowZeroMask := false

/-- A whole table: all four fields must be given. -/
def cloneTable : DefinerRules where
  name := { required := true }
  offset := { required := true, absolute := true }
  size := { required := true, absolute := true }
  mask := { required := true }
  defaultMask := none
  allowZeroMask := true

/-- Records of the device tree: they have no offset. -/
def cloneRecords : DefinerRules where
  name := { required := true }
  offset := { disallowed := true }
  size := { required := true, absolute := true }
  mask := { required := true }
  defaultMask := none
  allowZeroMask := true

end DefinerRules

/-- What a list of arguments is read for. -/
inductive Mode
  /-- A table made of the vendor's partitions and new ones. -/
  | createTable
  /-- A table made of exactly the partitions given. -/
  | cloneTable
  /-- Device-tree records made of exactly the ones given. -/
  | cloneRecords
  /-- Changes to a table. -/
  | editTable
  /-- Changes to device-tree records. -/
  | editRecords
  deriving DecidableEq

namespace Mode

/-- The rules for definers of a mode. -/
def rules : Mode → DefinerRules
  | createTable | editTable => .create
  | cloneTable => .cloneTable
  | cloneRecords | editRecords => .cloneRecords

/-- Whether modifiers may be given. -/
def allowsModifiers : Mode → Bool
  | editTable | editRecords => true
  | createTable | cloneTable | cloneRecords => false

/-- Whether modifiers may touch offsets, which records do not have. -/
def allowsOffsets (m : Mode) : Bool :=
  m == editTable

end Mode

end EmmcLayout
