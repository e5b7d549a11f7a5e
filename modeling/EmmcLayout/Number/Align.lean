import EmmcLayout.Number.Word

/-!
# Alignment

Rounding a word to a multiple of another.  An alignment of zero asks for nothing.
-/

namespace EmmcLayout

/-- The least multiple of `alignment` that is not below `value`, unless it leaves the word. -/
def alignUp (value alignment : UInt64) : Option UInt64 :=
  if alignment = 0 then some value
  else
    let excess := value % alignment
    if excess = 0 then some value else Word.add? value (alignment - excess)

/-- The greatest multiple of `alignment` that is not above `value`. -/
def alignDown (value alignment : UInt64) : UInt64 :=
  if alignment = 0 then value else value - value % alignment

end EmmcLayout
