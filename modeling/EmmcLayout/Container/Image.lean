import EmmcLayout.Container.Bundle
import EmmcLayout.Container.Codec
import EmmcLayout.DeviceTree.Replacement

/-!
# Images

An image is what is kept in the place of a device tree, unwrapped into the trees that it holds.  It
remembers how it was wrapped, so that it is written back the same way.

The partitions of an image are those of its first tree.  They are replaced in every tree, one after
the other; a tree whose partitions cannot be replaced ends that, and the trees before it stay
replaced.  The stack has room for the nodes of each of them.
-/

namespace EmmcLayout

/-- The trees of an image. -/
inductive ImageBody
  | plain (tree : Bytes)
  | bundle (bundle : Bundle) (trees : List Bytes)
  deriving DecidableEq

/-- The trees of an image, and whether it was compressed. -/
structure Image where
  compressed : Bool
  body : ImageBody
  deriving DecidableEq

namespace Image

/-- The most bytes that a compressed image may hold. -/
def maxInflatedLength : Nat := 0x1000000

/-! ## Reading -/

/-- The trees of a bundle. -/
def treesOf (bundle : Bundle) (b : Bytes) : Except FormatError (List Bytes) :=
  (List.range bundle.entries.length).mapM (bundle.tree b)

/-- Unwraps what is not compressed.  Bytes behind a tree are left out. -/
def loadBody (b : Bytes) : Logged FormatError ImageBody := do
  let kind ← ContainerKind.ofBytes b
  if kind = .bundle then
    let bundle ← Bundle.ofBytes b
    let trees ← treesOf bundle b
    return .bundle bundle trees
  else
    let tree ← DeviceTree.ofBytes b
    return .plain tree.bytes

/-- Unwraps an image; it must not be compressed twice. -/
def load (codec : Codec) (b : Bytes) : Logged FormatError Image := do
  let kind ← ContainerKind.ofBytes b
  if kind = .compressed then
    let content ← codec.decompress b maxInflatedLength
    let inner ← ContainerKind.ofBytes content
    if inner = .compressed then throw (.unrecognized (Gzip.magic ++ [0, 0]))
    let body ← loadBody content
    return ⟨true, body⟩
  else
    let body ← loadBody b
    return ⟨false, body⟩

/-- The kind of container that an image is written as. -/
def kind (image : Image) : ContainerKind :=
  match image.compressed, image.body with
  | true, _ => .compressed
  | false, .plain _ => .plain
  | false, .bundle _ _ => .bundle

/-- The trees of an image in order. -/
def trees (image : Image) : List Bytes :=
  match image.body with
  | .plain tree => [tree]
  | .bundle _ trees => trees

/-! ## Partitions -/

/-- The partitions of the tree in a byte string. -/
def partitionsOf (b : Bytes) : Logged FormatError DeviceTree.PartitionsNode := do
  let tree ← DeviceTree.ofBytes b
  DeviceTree.PartitionsNode.ofTree tree

/-- The partitions of every tree. -/
def allPartitions (image : Image) : Logged FormatError (List DeviceTree.PartitionsNode) :=
  image.trees.mapM partitionsOf

/-- Warns of a tree whose records differ from those of the first one. -/
def warnDifference {ε : Type} (records : List Record) (index : Nat) (other : List Record) :
    Logged ε Unit :=
  let differences := Record.compareLists records other
  if differences = 0 then pure ()
  else
    Logged.warn ("partitions of DTB entry " ++ toString index ++ " differ from entry 0 (code " ++
      Text.hex differences.toNat ++ ")")

/-- The partitions of the first tree.  Trees that differ from it are warned of. -/
def partitions (image : Image) : Logged FormatError DeviceTree.PartitionsNode := do
  match ← image.allPartitions with
  | [] => throw (.entryOutOfRange 0)
  | first :: others =>
    others.zipIdx.forM fun (other, i) => warnDifference first.records (i + 1) other.records
    return first

/-- Replaces the partitions of trees one after the other, up to the first one that fails.  Returns
the trees as they are then, and the records that each of them got. -/
def replaceEach (records : List Record) :
    List Bytes → List Bytes × Logged FormatError (List (List Record))
  | [] => ([], pure [])
  | tree :: rest =>
    let replacing := DeviceTree.replacePartitions tree records
    match replacing.result with
    | .error _ => (tree :: rest, (fun _ => []) <$> replacing)
    | .ok replaced =>
      let (others, outcome) := replaceEach records rest
      (replaced.bytes :: others, do
        let replaced ← replacing
        let assigned ← outcome
        return replaced.assigned :: assigned)

/-- Replaces the partitions of every tree.  Returns the image as it is then, also after a failure,
and the records that the first tree got. -/
def replacePartitions (image : Image) (records : List Record) :
    Image × Logged FormatError (List Record) :=
  match image.body with
  | .plain tree =>
    let replacing := DeviceTree.replacePartitions tree records
    match replacing.result with
    | .error _ => (image, DeviceTree.Replaced.assigned <$> replacing)
    | .ok replaced =>
      ({ image with body := .plain replaced.bytes },
        DeviceTree.Replaced.assigned <$> replacing)
  | .bundle bundle trees =>
    let (trees, outcome) := replaceEach records trees
    ({ image with body := .bundle bundle trees }, (·.headD []) <$> outcome)

/-! ## Writing -/

/-- The image without compression. -/
def bodyBytes (image : Image) : Except FormatError Bytes :=
  match image.body with
  | .plain tree => .ok tree
  | .bundle bundle trees => bundle.rebuild trees

/-- The image as it is written. -/
def toBytes (codec : Codec) (image : Image) : Except FormatError Bytes := do
  let body ← image.bodyBytes
  if image.compressed then codec.compress body else return body

end Image

end EmmcLayout
