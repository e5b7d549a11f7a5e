import EmmcLayout.Table

/-!
# Migration

The copies that carry the contents of partitions from their places in one table to their places in
another.  Partitions are matched by name, and only those that move are copied.
-/

namespace EmmcLayout

/-- One copy: `length` bytes from one address to another. -/
structure Migration where
  name : String
  source : UInt64
  target : UInt64
  length : UInt64
  deriving DecidableEq

namespace Migration

/-- The copy that a partition of the target table needs, if any: as many bytes as fit both places.
-/
def ofPartition? (source : Table) (p : Partition) : Option Migration := do
  let old ← source.partitions.find? (·.isNamed p.name)
  if old.offset = p.offset then none
  else some ⟨p.name, old.offset, p.offset, min old.size p.size⟩

/-- The copies from one table to the other, in the order of the target. -/
def plan (source target : Table) : List Migration :=
  target.partitions.filterMap (ofPartition? source)

end Migration

end EmmcLayout
