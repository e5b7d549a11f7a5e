import EmmcLayout.Snapshot
import EmmcLayout.Table

/-!
# Tables as text

The report of a table for reading, and its snapshot for rebuilding it.
-/

namespace EmmcLayout.Table

/-- The double line above and below the rows of a report. -/
def reportRule : String :=
  String.ofList (List.replicate 83 '=')

/-- The line under the column heads of a report. -/
def reportLine : String :=
  String.ofList (List.replicate 83 '-')

/-- The hexadecimal digits of a size, and behind them the human size in brackets. -/
def sizeColumns (width : Nat) (size : UInt64) : String :=
  Text.column width (Text.hexDigits size.toNat) ++ " (" ++ humanText size ++ ")"

/-- The row of the gap or the overlap between the end of a partition and the next offset. -/
def neighbourRow (stop offset : UInt64) : List String :=
  if stop < offset then ["    (GAP)" ++ sizeColumns 40 (offset - stop)]
  else if offset < stop then ["    (OVERLAP)" ++ sizeColumns 36 (stop - offset)]
  else []

/-- The row of a partition. -/
def partitionRow (index : Nat) (p : Partition) : String :=
  Text.column 2 (toString index) ++ ": " ++ Text.padRight 16 p.name ++ " " ++
    sizeColumns 16 p.offset ++ " " ++ sizeColumns 16 p.size ++ " " ++
    Text.column 6 (toString p.mask.toNat)

/-- The rows of the partitions from `index` on, where the last one ended at `stop`. -/
def reportRows (index : Nat) (stop : UInt64) : List Partition → List String
  | [] => []
  | p :: rest =>
    neighbourRow stop p.offset ++ partitionRow index p :: reportRows (index + 1) p.stopSat rest

/-- The report of a table: its partitions in table order with the gaps and overlaps between them. -/
def report (t : Table) : String :=
  "\n".intercalate
    ([toString t.header.count.toInt ++ " partitions in the table:",
      reportRule,
      "ID| name            |          offset|(   human)|            size|(   human)| masks",
      reportLine] ++
      reportRows 0 0 t.partitions ++ [reportRule])

/-- The argument that describes a partition. -/
def argument (literal : UInt64 → String) (p : Partition) : String :=
  p.name ++ ":" ++ literal p.offset ++ ":" ++ literal p.size ++ ":" ++ toString p.mask.toNat

/-- The table as arguments that clone it. -/
def snapshot (t : Table) : Snapshot :=
  Snapshot.ofItems t.partitions argument

end EmmcLayout.Table
