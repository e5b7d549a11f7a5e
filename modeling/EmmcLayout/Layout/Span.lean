import EmmcLayout.Journal
import EmmcLayout.Table

/-!
# Spans

The device seen from its first address on: the partitions in the order of their offsets, with the
gaps that no partition covers and the overlaps where one runs into the next.
-/

namespace EmmcLayout

/-- One stretch of the device. -/
inductive Span
  | partition (index : Nat) (name : String) (offset size : UInt64)
  | gap (offset size : UInt64)
  /-- The partitions before run `size` bytes into the one that starts at `offset`. -/
  | overlap (offset size : UInt64)
  deriving DecidableEq

namespace Span

/-- What lies between the furthest end so far and the next offset. -/
def between (furthest offset : UInt64) : List Span :=
  if furthest < offset then [.gap furthest (offset - furthest)]
  else if offset < furthest then [.overlap offset (furthest - offset)]
  else []

/-- The spans of partitions in the order of their offsets, each with its index in the table, when
those before them reach as far as `furthest`. -/
def ofOrdered (furthest : UInt64) : List (Partition × Nat) → List Span
  | [] => []
  | (p, index) :: rest =>
    between furthest p.offset ++
      .partition index p.name p.offset p.size :: ofOrdered (max furthest p.stopSat) rest

/-- The overlaps, each with the partition behind it. -/
def overlaps : List Span → List (String × UInt64 × UInt64)
  | .overlap offset size :: .partition _ name _ _ :: rest =>
    (name, offset, size) :: overlaps rest
  | _ :: rest => overlaps rest
  | [] => []

end Span

namespace Table

/-- The partitions with their indices in the order of their offsets; equal offsets keep the table's
order. -/
def byOffset (t : Table) : List (Partition × Nat) :=
  t.partitions.zipIdx.mergeSort fun a b => a.1.offset ≤ b.1.offset

/-- The spans of a table. -/
def spans (t : Table) : List Span :=
  Span.ofOrdered 0 t.byOffset

/-- Warns of each overlap, and counts them. -/
def warnOverlaps {ε : Type} (t : Table) : Logged ε Nat := do
  let found := Span.overlaps t.spans
  found.forM fun (name, offset, size) =>
    Logged.warn (name ++ " at " ++ Text.hex offset.toNat ++
      " overlaps the previous partition by " ++ Text.hex size.toNat ++ " bytes")
  return found.length

end Table

end EmmcLayout
