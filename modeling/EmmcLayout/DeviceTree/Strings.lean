import EmmcLayout.Text.Column
import EmmcLayout.Text.Utf8

/-!
# The strings block

Property names, each closed by a NUL, are kept in one block and addressed by their offset.  A name
is found wherever it stands in front of a NUL, so the tail of a longer name serves as well:
`phandle` is found inside `linux,phandle`.  Names are only ever appended, which keeps every offset
good.
-/

namespace EmmcLayout.DeviceTree

/-- The names of the properties of a device tree. -/
structure StringsBlock where
  bytes : Bytes
  deriving DecidableEq

namespace StringsBlock

/-- The least offset at which `name` stands in front of a NUL.  The empty name stands at the first
NUL. -/
def find? (s : StringsBlock) (name : Bytes) : Option UInt32 := do
  let offset ← Bytes.findFrom (name ++ [0]) 0 s.bytes
  if offset < UInt32.size then some (UInt32.ofNat offset) else none

/-- The name at an offset, up to the next NUL. -/
def get? (s : StringsBlock) (offset : UInt32) : Option Bytes :=
  Bytes.terminated? (s.bytes.drop offset.toNat)

/-- Appends a name, whether or not it is there.  Returns its offset. -/
def append (s : StringsBlock) (name : Bytes) : UInt32 × StringsBlock :=
  (UInt32.ofNat s.bytes.length, ⟨s.bytes ++ name ++ [0]⟩)

/-- The offset of a name, which is appended when it cannot be found. -/
def intern (s : StringsBlock) (name : Bytes) : UInt32 × StringsBlock :=
  match s.find? name with
  | some offset => (offset, s)
  | none => s.append name

/-- The name at an offset as a text; an offset without a name is shown itself. -/
def nameText (s : StringsBlock) (offset : UInt32) : String :=
  match s.get? offset with
  | some name => Utf8.decodeLossy name
  | none => "<" ++ Text.hex offset.toNat ++ ">"

end StringsBlock

/-- The names of the properties that partitions use. -/
inductive PropertyName
  | parts
  | pname
  | size
  | mask
  | phandle
  | linuxPhandle
  deriving DecidableEq

/-- The name as a text. -/
def PropertyName.text : PropertyName → String
  | parts => "parts"
  | pname => "pname"
  | size => "size"
  | mask => "mask"
  | phandle => "phandle"
  | linuxPhandle => "linux,phandle"

/-- The name as it stands in the strings block. -/
def PropertyName.bytes (n : PropertyName) : Bytes :=
  Utf8.encode n.text

end EmmcLayout.DeviceTree
