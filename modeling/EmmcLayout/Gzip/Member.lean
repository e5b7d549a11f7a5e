import EmmcLayout.Error
import EmmcLayout.Gzip.Crc32
import EmmcLayout.Gzip.Inflate

/-!
# Gzip members

A member is compressed data between a header and a trailer.  The header is ten bytes and the
optional fields that its flags announce; the trailer is the checksum and the length of the content.
`decompress` reads the first member of a byte string and ignores what follows it; `compress` writes
one whose blocks hold their bytes as they are, in the place of a compressor that deflates.
-/

namespace EmmcLayout.Gzip

/-- The bytes that a member starts with. -/
def magic : Bytes := [0x1F, 0x8B]

/-- Whether a byte string starts the way a member does. -/
def isGzip (b : Bytes) : Bool :=
  magic.isPrefixOf b

/-! ## The header -/

/-- The optional fields of a header and its reserved bits, as bits of the flags. -/
inductive Flag
  | headerChecksum
  | extra
  | name
  | comment
  | reserved
  deriving DecidableEq

/-- The bits of a flag. -/
def Flag.bits : Flag → UInt8
  | .headerChecksum => 0x02
  | .extra => 0x04
  | .name => 0x08
  | .comment => 0x10
  | .reserved => 0xE0

/-- Whether a flag is set. -/
def Flag.isSet (flag : Flag) (flags : UInt8) : Bool :=
  flags &&& flag.bits != 0

/-- The longest text of a header. -/
def maxTextLength : Nat := 65535

/-- Leaves out a field that is written behind its length. -/
def skipExtra (b : Bytes) : Option Bytes := do
  let length ← Bytes.slice? b 0 2
  let stop := 2 + Bytes.ofLE length
  guard (stop ≤ b.length)
  return b.drop stop

/-- Leaves out a text and the NUL that closes it. -/
def skipText (b : Bytes) : Option Bytes := do
  let text ← Bytes.terminated? b
  guard (text.length ≤ maxTextLength)
  return b.drop (text.length + 1)

/-- Leaves out the checksum of a header, which is checked. -/
def skipHeaderChecksum (whole b : Bytes) : Option Bytes := do
  let recorded ← Bytes.slice? b 0 2
  let covered := whole.take (whole.length - b.length)
  guard (Bytes.ofLE recorded = (crc32 covered).toNat % UInt16.size)
  return b.drop 2

/-- Where the pieces that a member is read in are counted from, for a member whose extra field ends
at `extraEnd`.  A field that is still as long as a piece when the first one is used up is taken as a
whole, and pieces are counted from its end. -/
def pieceOrigin (extraEnd : Nat) : Nat :=
  if 2 * pieceLength ≤ extraEnd then extraEnd else 0

/-- The compressed data behind the header; `none` when that is malformed. -/
def skipHeader (whole : Bytes) : Option BitSource := do
  let fixed ← Bytes.slice? whole 0 10
  let flags := fixed.getD 3 0
  guard (fixed.take 3 = magic ++ [8] ∧ !Flag.reserved.isSet flags)
  let skip (flag : Flag) (field : Bytes → Option Bytes) (b : Bytes) : Option Bytes :=
    if flag.isSet flags then field b else some b
  let b ← skip .extra skipExtra (whole.drop 10)
  let origin := pieceOrigin (whole.length - b.length)
  let b ← skip .name skipText b
  let b ← skip .comment skipText b
  let b ← skip .headerChecksum (skipHeaderChecksum whole) b
  return .ofBytes ((whole.length - b.length - origin) % pieceLength) b

/-! ## The whole -/

/-- Whether a trailer belongs to a content. -/
def isTrailerOf (content trailer : Bytes) : Bool :=
  match Bytes.slice? trailer 0 4, Bytes.slice? trailer 4 4 with
  | some checksum, some length =>
    Bytes.ofLE checksum == (crc32 content).toNat &&
      Bytes.ofLE length == content.length % UInt32.size
  | _, _ => false

/-- The content of the first member, which may have up to `limit` bytes.  Content that is too long
is not read to its end, and then it does not matter what follows. -/
def decompress (b : Bytes) (limit : Nat) : Except FormatError Bytes :=
  match skipHeader b with
  | none => .error .corruptStream
  | some data =>
    let inflated := inflate limit data
    if limit < inflated.delivered then .error (.payloadTooLarge (limit + 1) limit)
    else
      match inflated.ending with
      | .complete trailer =>
        let content := inflated.output.bytes.toList
        if isTrailerOf content trailer then .ok content else .error .corruptStream
      | _ => .error .corruptStream

/-- The most bytes that a stored block holds. -/
def maxStoredLength : Nat := 65535

/-- A block that holds its bytes as they are. -/
def storedBlock (final : Bool) (b : Bytes) : Bytes :=
  UInt8.ofNat final.toNat :: Bytes.toLE 2 b.length ++ Bytes.toLE 2 (maxStoredLength - b.length) ++ b

/-- A byte string in blocks. -/
def storedBlocks (b : Bytes) : Bytes :=
  if b.length ≤ maxStoredLength then storedBlock true b
  else storedBlock false (b.take maxStoredLength) ++ storedBlocks (b.drop maxStoredLength)
termination_by b.length
decreasing_by
  simp only [List.length_drop, maxStoredLength] at *
  omega

/-- A member with this content, in stored blocks.  It stands in for the member that flate2 writes,
which is deflated: both inflate to the same content, from other bytes. -/
def compress (b : Bytes) : Bytes :=
  magic ++ [8, 0, 0, 0, 0, 0, 0, 0xFF] ++ storedBlocks b ++ Bytes.le32 (crc32 b) ++
    Bytes.toLE 4 b.length

end EmmcLayout.Gzip
