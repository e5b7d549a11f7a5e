import EmmcLayout.Error

/-!
# Checked reads

Reading a part of a byte string that may be shorter than its format says.  A read that does not fit
names the offset and the length it wanted.  `cut` is for ranges that its caller has checked before;
its failure is an error of its own, so that "the check was right" is a statement about the answer.
-/

namespace EmmcLayout.Bytes

/-- The `len` bytes at `pos`, or the error that they are not there. -/
def fetch (b : Bytes) (pos len : Nat) : Except FormatError Bytes :=
  match slice? b pos len with
  | some part => .ok part
  | none => .error (.truncated pos len)

/-- The little-endian 32-bit word at `pos`. -/
def fetchLE32 (b : Bytes) (pos : Nat) : Except FormatError UInt32 :=
  (fetch b pos 4).map fun word => UInt32.ofNat (ofLE word)

/-- The little-endian 64-bit word at `pos`. -/
def fetchLE64 (b : Bytes) (pos : Nat) : Except FormatError UInt64 :=
  (fetch b pos 8).map fun word => UInt64.ofNat (ofLE word)

/-- The big-endian 32-bit word at `pos`. -/
def fetchBE32 (b : Bytes) (pos : Nat) : Except FormatError UInt32 :=
  (fetch b pos 4).map fun word => UInt32.ofNat (ofBE word)

/-- The bytes from `start` up to `stop`, a range that was checked before: failing means that the
check was wrong. -/
def cut (b : Bytes) (start stop : Nat) : Except FormatError Bytes :=
  if start ≤ stop ∧ stop ≤ b.length then .ok ((b.drop start).take (stop - start))
  else .error (.outOfRange start stop b.length)

/-- `b` with the bytes from `start` on overwritten by `part`, which must reach exactly to its end.
-/
def overwriteTail (b : Bytes) (start : Nat) (part : Bytes) : Except FormatError Bytes :=
  if start + part.length = b.length then .ok (b.take start ++ part)
  else .error (.outOfRange start (start + part.length) b.length)

end EmmcLayout.Bytes
