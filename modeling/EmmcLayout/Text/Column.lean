import EmmcLayout.Bytes

/-!
# Numbers and columns in texts

Hexadecimal in the three forms that messages use, and padding to the width of a column.
-/

namespace EmmcLayout.Text

/-- The hexadecimal digits of `n`, in lower case and without a mark. -/
def hexDigits (n : Nat) : String :=
  String.ofList (Nat.toDigits 16 n)

/-- `s` with `fill` put in front until it is `width` characters long. -/
def padLeft (width : Nat) (fill : Char) (s : String) : String :=
  String.ofList (List.replicate (width - s.length) fill) ++ s

/-- `s` with blanks put behind until it is `width` characters long. -/
def padRight (width : Nat) (s : String) : String :=
  s ++ String.ofList (List.replicate (width - s.length) ' ')

/-- `n` in hexadecimal behind the mark `0x`. -/
def hex (n : Nat) : String :=
  "0x" ++ hexDigits n

/-- A 32-bit word as `0x` and all eight digits. -/
def hexWord (w : UInt32) : String :=
  "0x" ++ padLeft 8 '0' (hexDigits w.toNat)

/-- Bytes as two digits each, in brackets and set off by commas. -/
def hexList (b : Bytes) : String :=
  "[" ++ ", ".intercalate (b.map fun x => padLeft 2 '0' (hexDigits x.toNat)) ++ "]"

/-- A number set flush right in a column. -/
def column (width : Nat) (s : String) : String :=
  padLeft width ' ' s

end EmmcLayout.Text
