import EmmcLayout.Gzip.Member

/-!
# Codecs

A device tree may be kept compressed, on devices with gzip.  What is done with images holds for any
codec.  `Codec.gzip` is one of gzip that writes its content in stored blocks.
-/

namespace EmmcLayout

/-- A way to compress byte strings. -/
structure Codec where
  /-- The content of a compressed byte string, which may have up to so many bytes. -/
  decompress : Bytes → Nat → Except FormatError Bytes
  compress : Bytes → Except FormatError Bytes

/-- A codec of gzip.  It stands in for the one of flate2, whose compressor deflates: what it writes
inflates to the same content, from other bytes. -/
def Codec.gzip : Codec where
  decompress := Gzip.decompress
  compress b := .ok (Gzip.compress b)

end EmmcLayout
