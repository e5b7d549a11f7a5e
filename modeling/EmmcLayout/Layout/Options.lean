import EmmcLayout.Error

/-!
# Options of a layout

The gaps and the alignment that are used where an offset or a size is computed.
-/

namespace EmmcLayout

/-- The gaps and the alignment of a layout. -/
structure LayoutOptions where
  /-- The space left between the first and the second partition. -/
  gapReserved : UInt64 := 0x2000000
  /-- The space left between any two later partitions. -/
  gapPartition : UInt64 := 0x800000
  /-- What computed offsets and sizes are multiples of; zero asks for nothing. -/
  alignment : UInt64 := 0x1000
  deriving DecidableEq

/-- The size that stands for all the space left on the device. -/
def autofillSize : UInt64 := 0xFFFFFFFFFFFFFFFF

end EmmcLayout
