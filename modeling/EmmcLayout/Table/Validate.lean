import EmmcLayout.Table

/-!
# The rules for tables

A valid table has a header that fits its partitions, and names that are legal and distinct.  The
checksum of a full table is not looked at.
-/

namespace EmmcLayout.Table

/-- Checks the header as it was recorded: count, magic, version, checksum, in this order. -/
def validateHeader (t : Table) : Except ValidationError Unit :=
  let count := t.header.count.toInt
  if count < 0 ∨ maxPartitions < count then .error (.badPartitionCount t.header.count)
  else if t.header.magic ≠ magic then .error (.badMagic t.header.magic.bytes)
  else if t.header.version ≠ version then .error (.badVersion t.header.version.bytes)
  else
    let computed := checksum t.partitions t.header.count.toUInt32
    if count < maxPartitions ∧ computed ≠ t.header.checksum then
      .error (.checksumMismatch t.header.checksum computed)
    else .ok ()

/-- Checks that each name is legal and not among those `seen` before it. -/
def validateNames (index : Nat) (seen : List Bytes) : List Partition → Except ValidationError Unit
  | [] => .ok ()
  | p :: rest =>
    match Name.checkField p.rawName.bytes with
    | .error reason => .error (.invalidName index p.name reason)
    | .ok () =>
      if p.nameBytes ∈ seen then .error (.duplicateName p.name)
      else validateNames (index + 1) (p.nameBytes :: seen) rest

/-- Checks the header, then the names. -/
def validate (t : Table) : Except ValidationError Unit := do
  t.validateHeader
  validateNames 0 [] t.partitions

end EmmcLayout.Table
