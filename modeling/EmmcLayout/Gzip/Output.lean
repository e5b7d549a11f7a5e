import EmmcLayout.Bytes

/-!
# Output of a decoder

A decoder keeps what it makes in a window, and hands it on when the window is full or when it waits
for a piece of its input.  What was not handed on when the data turns out to be corrupt is lost.

No more is handed on than was made: `handedOn_flushWindows_le`.
-/

namespace EmmcLayout.Gzip

/-- The size of the window. -/
def windowLength : Nat := 32768

/-- The bytes that were made. -/
structure Output where
  bytes : Array UInt8
  /-- How many of them were handed on. -/
  handedOn : Nat

namespace Output

/-- Nothing. -/
def empty : Output :=
  ⟨#[], 0⟩

/-- Hands everything on. -/
def flush (o : Output) : Output :=
  { o with handedOn := o.bytes.size }

/-- Hands everything on if reading took another piece, which shows in the number of those that are
untaken. -/
def flushOnRefill (untakenBefore untakenAfter : Nat) (o : Output) : Output :=
  if untakenAfter < untakenBefore then o.flush else o

/-- Hands on the windows that are full.  A window stays until there is a byte behind it. -/
def flushWindows (o : Output) : Output :=
  { o with handedOn := max o.handedOn ((o.bytes.size - 1) / windowLength * windowLength) }

/-- Makes a byte. -/
def push (o : Output) (byte : UInt8) : Output :=
  { o with bytes := o.bytes.push byte }

/-- Makes all bytes of `b`. -/
def append (o : Output) (b : Bytes) : Output :=
  { o with bytes := o.bytes ++ b }

/-- Makes `length` bytes, each of which repeats the one `distance` bytes before it.  Before the
first byte there are zeros. -/
def copyBack (distance : Nat) : Nat → Output → Output
  | 0, o => o
  | length + 1, o =>
    let size := o.bytes.size
    copyBack distance length
      (o.push (if distance ≤ size then o.bytes.getD (size - distance) 0 else 0))

theorem handedOn_flushWindows_le {o : Output} (h : o.handedOn ≤ o.bytes.size) :
    o.flushWindows.handedOn ≤ o.bytes.size := by
  have := Nat.div_mul_le_self (o.bytes.size - 1) windowLength
  simp only [flushWindows]
  omega

end Output

end EmmcLayout.Gzip
