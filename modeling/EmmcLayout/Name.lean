import EmmcLayout.Error
import EmmcLayout.Text.Utf8

/-!
# Partition names

A name is at most 15 bytes of ASCII letters, digits, `_` and `-`.  On the medium it stands in a
field of 16 bytes behind which, or within which, a NUL closes it; as an argument it is a text.
-/

namespace EmmcLayout

/-- The length of a name field, closing NUL included. -/
def nameFieldLength : Nat := 16

namespace Name

/-- Whether a name may hold the byte. -/
def isNameByte (b : UInt8) : Bool :=
  (0x30 ≤ b && b ≤ 0x39) || (0x41 ≤ b && b ≤ 0x5A) || (0x61 ≤ b && b ≤ 0x7A) ||
    b == 0x5F || b == 0x2D

/-- How many bytes of `b` no name may hold. -/
def illegalCount (b : Bytes) : Nat :=
  b.countP fun x => !isNameByte x

/-- Refuses bytes that no name may hold. -/
def checkBytes (name : Bytes) : Except NameError Unit :=
  match illegalCount name with
  | 0 => .ok ()
  | count => .error (.illegalCharacters count)

/-- Checks a name field.  The name ends at the first NUL among the first 16 bytes; a shorter field
ends its name by ending.  An empty name passes. -/
def checkField (field : Bytes) : Except NameError Unit :=
  match Bytes.terminated? (field.take nameFieldLength) with
  | some name => checkBytes name
  | none => if nameFieldLength ≤ field.length then .error .unterminated else checkBytes field

/-- Checks a name given as a text, which must leave room for the closing NUL. -/
def check (name : String) : Except NameError Unit :=
  let bytes := Utf8.encode name
  if bytes = [] then .error .empty
  else if nameFieldLength ≤ bytes.length then .error (.tooLong bytes.length)
  else checkBytes bytes

end Name

end EmmcLayout
