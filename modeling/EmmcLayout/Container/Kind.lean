import EmmcLayout.Bytes.Checked
import EmmcLayout.Gzip.Member

/-!
# Kinds of containers

What is kept in the place of a device tree is the tree itself, a bundle of several trees, or either
of them compressed.  The leading bytes tell which.
-/

namespace EmmcLayout

/-- What a container holds. -/
inductive ContainerKind
  /-- A device tree. -/
  | plain
  /-- A bundle of device trees. -/
  | bundle
  /-- Either, compressed. -/
  | compressed
  deriving DecidableEq

namespace ContainerKind

/-- The first four bytes of a device tree. -/
def plainMagic : Bytes := [0xD0, 0x0D, 0xFE, 0xED]

/-- The first four bytes of a bundle: `AML_`. -/
def bundleMagic : Bytes := [0x41, 0x4D, 0x4C, 0x5F]

/-- The kind of a container, by its first four bytes. -/
def ofBytes (b : Bytes) : Except FormatError ContainerKind := do
  let leading ← Bytes.fetch b 0 4
  if leading = plainMagic then return .plain
  else if leading = bundleMagic then return .bundle
  else if Gzip.isGzip leading then return .compressed
  else throw (.unrecognized leading)

end ContainerKind

end EmmcLayout
