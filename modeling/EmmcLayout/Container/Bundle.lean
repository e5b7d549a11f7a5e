import EmmcLayout.Container.Kind
import EmmcLayout.Journal
import EmmcLayout.Text.Column
import EmmcLayout.Text.Utf8

/-!
# Bundles of device trees

A bundle holds the device trees of several boards.  Its header gives a version and the number of
entries.  An entry is three identifiers, for the chip, the board and its variant, and the place of
its tree within the bundle.  The version gives the width of an identifier.

A bundle is read into its entries (`Bundle.ofBytes`), which give their trees (`Bundle.tree`), and is
written anew from as many trees (`Bundle.rebuild`).  Identifiers are written as they were read.
-/

namespace EmmcLayout

/-- An entry of a bundle. -/
structure BundleEntry where
  soc : String
  platform : String
  variant : String
  /-- The three identifiers as they are stored. -/
  rawId : Bytes
  offset : UInt32
  size : UInt32
  deriving DecidableEq

/-- The version and the entries of a bundle. -/
structure Bundle where
  version : UInt32
  entries : List BundleEntry
  deriving DecidableEq

namespace BundleEntry

/-- The name that an entry is shown under. -/
def target (e : BundleEntry) : String :=
  e.soc ++ "_" ++ e.platform ++ "_" ++ e.variant

/-- The bytes of an identifier, of which each group of four is stored from its last byte on.  Groups
of zeros and up to three bytes left over at the end do not count. -/
def identifierBytes : Bytes → Bytes
  | a :: b :: c :: d :: rest =>
    if a = 0 ∧ b = 0 ∧ c = 0 ∧ d = 0 then identifierBytes rest
    else d :: c :: b :: a :: identifierBytes rest
  | _ => []

/-- Whether a byte at the end of an identifier only fills it up. -/
def isFill (b : UInt8) : Bool :=
  b == 0x20 || b == 0

/-- The text of an identifier. -/
def identifierText (stored : Bytes) : String :=
  Utf8.decodeLossy ((identifierBytes stored).reverse.dropWhile isFill).reverse

end BundleEntry

namespace Bundle

/-- The length of the header. -/
def headerLength : Nat := 12

/-- The width of an identifier in bundles of a version. -/
def identifierWidth (version : UInt32) : Except FormatError Nat :=
  if version = 1 then .ok 4
  else if version = 2 then .ok 16
  else .error (.unsupportedMultiVersion version)

/-- The length of an entry. -/
def entryLength (width : Nat) : Nat :=
  3 * width + 8

/-! ## Reading -/

/-- Reads the entry with this index. -/
def readEntry (b : Bytes) (width index : Nat) : Except FormatError BundleEntry := do
  let base := headerLength + index * entryLength width
  let rawId ← Bytes.fetch b base (3 * width)
  let offset ← Bytes.fetchLE32 b (base + 3 * width)
  let size ← Bytes.fetchLE32 b (base + 3 * width + 4)
  if b.length < offset.toNat + size.toNat then throw (.entryOutOfRange index)
  let soc ← Bytes.cut rawId 0 width
  let platform ← Bytes.cut rawId width (2 * width)
  let variant ← Bytes.cut rawId (2 * width) rawId.length
  return {
    soc := BundleEntry.identifierText soc
    platform := BundleEntry.identifierText platform
    variant := BundleEntry.identifierText variant
    rawId, offset, size }

/-- Reads `count` entries from an index on. -/
def readEntries (b : Bytes) (width : Nat) : Nat → Nat → Logged FormatError (List BundleEntry)
  | 0, _ => pure []
  | count + 1, index => do
    let entry ← readEntry b width index
    Logged.debug ("multi-DTB entry " ++ toString index ++ ": " ++ entry.target ++ " at " ++
      Text.hex entry.offset.toNat ++ ", " ++ toString entry.size.toNat ++ " bytes")
    let others ← readEntries b width count (index + 1)
    return entry :: others

/-- Reads the header and the entries of a bundle. -/
def ofBytes (b : Bytes) : Logged FormatError Bundle := do
  let leading ← Bytes.fetch b 0 4
  if leading ≠ ContainerKind.bundleMagic then throw (.unrecognized leading)
  let version ← Bytes.fetchLE32 b 4
  let count ← Bytes.fetchLE32 b 8
  let width ← identifierWidth version
  let entries ← readEntries b width count.toNat 0
  return ⟨version, entries⟩

/-- Reads the entries of a bundle. -/
def entriesOfBytes (b : Bytes) : Logged FormatError (List BundleEntry) :=
  entries <$> ofBytes b

/-- The tree of the entry with this index, from the bytes that the bundle was read from. -/
def tree (bundle : Bundle) (b : Bytes) (index : Nat) : Except FormatError Bytes :=
  match bundle.entries[index]? with
  | none => .error (.entryOutOfRange index)
  | some entry => Bytes.fetch b entry.offset.toNat entry.size.toNat

/-! ## Writing -/

/-- An entry as it is written, for a tree of `size` bytes at `offset`. -/
def writeEntry (width : Nat) (e : BundleEntry) (offset size : Nat) : Bytes :=
  (ByteField.ofBytes (3 * width) e.rawId).bytes ++ Bytes.le32 (UInt32.ofNat offset) ++
    Bytes.le32 (UInt32.ofNat size)

/-- Lays trees out from `pos` on, each of them at a multiple of four.  Returns the entries and the
trees as they are written. -/
def layOut (width : Nat) : Nat → List (BundleEntry × Bytes) → Bytes × Bytes
  | _, [] => ([], [])
  | pos, (e, tree) :: rest =>
    let start := Bytes.align4 pos
    let (entries, trees) := layOut width (start + tree.length) rest
    (writeEntry width e start tree.length ++ entries, Bytes.zeros (start - pos) ++ tree ++ trees)

/-- A bundle of these trees, one for each entry. -/
def rebuild (bundle : Bundle) (trees : List Bytes) : Except FormatError Bytes := do
  let count := bundle.entries.length
  if trees.length ≠ count then throw (.entryOutOfRange (min trees.length count))
  let width ← identifierWidth bundle.version
  let (entries, contents) :=
    layOut width (headerLength + count * entryLength width) (bundle.entries.zip trees)
  return ContainerKind.bundleMagic ++ Bytes.le32 bundle.version ++
    Bytes.le32 (UInt32.ofNat count) ++ entries ++ contents

end Bundle

end EmmcLayout
