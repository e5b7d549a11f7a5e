import EmmcLayout.Layout.Options
import EmmcLayout.Snapshot

/-!
# Partition records

What the device tree says about a partition: its name, its size (one of them may take all the space
left) and its mask, and the handles by which the tree refers to it.  A record has no offset.
-/

namespace EmmcLayout

/-- One partition of the device tree. -/
structure Record where
  name : String
  /-- The auto-fill size takes the rest of the device. -/
  size : UInt64
  mask : UInt32
  phandle : UInt32 := 0
  linuxPhandle : UInt32 := 0
  deriving DecidableEq

namespace Record

/-- The handle of a record: `phandle`, or `linux,phandle` when only that one is set. -/
def handle (r : Record) : UInt32 :=
  if r.phandle = 0 then r.linuxPhandle else r.phandle

/-- Whether the record takes the rest of the device. -/
def isAutofill (r : Record) : Bool :=
  r.size == autofillSize

/-- The differences between two records, one bit for each kind: 1 for the name, 2 for the mask, 4
for the size. -/
def differences (a b : Record) : UInt32 :=
  (if a.name = b.name then 0 else 1) ||| (if a.mask = b.mask then 0 else 2) |||
    (if a.size = b.size then 0 else 4)

/-- The differences between two lists up to the end of the shorter one, joined, and 8 for each
record that one list has beyond the other. -/
def compareLists (a b : List Record) : UInt32 :=
  let kinds := (a.zip b).foldl (fun d (x, y) => d ||| differences x y) 0
  kinds + 8 * UInt32.ofNat (max a.length b.length - min a.length b.length)

/-- The argument that describes a record. -/
def argument (literal : UInt64 → String) (r : Record) : String :=
  r.name ++ "::" ++ literal r.size ++ ":" ++ toString r.mask.toNat

/-- Records as arguments that clone them. -/
def snapshot (records : List Record) : Snapshot :=
  Snapshot.ofItems records argument

/-- The double line above and below the rows of a report. -/
def reportRule : String :=
  String.ofList (List.replicate 51 '=')

/-- The line under the column heads of a report. -/
def reportLine : String :=
  String.ofList (List.replicate 51 '-')

/-- The row of a record. -/
def row (index : Nat) (r : Record) : String :=
  let size :=
    if r.isAutofill then Text.column 28 "(AUTOFILL)"
    else Text.column 16 (Text.hexDigits r.size.toNat) ++ " (" ++ humanText r.size ++ ")"
  Text.column 2 (toString index) ++ ": " ++ Text.padRight 16 r.name ++ " " ++ size ++ " " ++
    Text.column 6 (toString r.mask.toNat)

/-- The report of a list of records. -/
def report (records : List Record) : String :=
  "\n".intercalate
    ([toString records.length ++ " partitions in the DTB:",
      reportRule,
      "ID| name            |            size|(   human)| masks",
      reportLine] ++
      records.zipIdx.map (fun (r, index) => row index r) ++ [reportRule])

end Record

end EmmcLayout
