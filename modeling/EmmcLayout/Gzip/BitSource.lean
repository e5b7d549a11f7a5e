import EmmcLayout.Bytes

/-!
# Bits of a byte string

Compressed data is read bit by bit, the lowest bit of each byte first.  It comes in pieces, and a
piece is taken when the one before it is used up.

* `BitSource.ofBytes` cuts a byte string into pieces of `pieceLength` bytes, and nothing is lost
  (`alignedBytes_ofBytes`).
* Every bit that is read makes the source smaller (`bitsLeft_next`), which is why the readers built
  on it end.
-/

namespace EmmcLayout.Gzip

/-- The length of a piece. -/
def pieceLength : Nat := 32768

/-- Cuts a byte string into pieces. -/
def pieces (b : Bytes) : List Bytes :=
  if b = [] then [] else b.take pieceLength :: pieces (b.drop pieceLength)
termination_by b.length
decreasing_by
  have : 0 < b.length := List.length_pos_iff.2 ‹_›
  simp only [List.length_drop, pieceLength]
  omega

theorem flatten_pieces (b : Bytes) : (pieces b).flatten = b := by
  fun_induction pieces b with
  | case1 => rfl
  | case2 b hne ih => rw [List.flatten_cons, ih, List.take_append_drop]

/-- The bits that are still to be read: the lowest `held` bits of `byte`, those of `rest`, which is
left of the piece at hand, and those of the pieces behind it. -/
structure BitSource where
  byte : UInt8
  held : Nat
  rest : Bytes
  later : List Bytes

namespace BitSource

/-- All bits of a byte string that begins `offset` bytes into a piece. -/
def ofBytes (offset : Nat) (b : Bytes) : BitSource :=
  let first := pieceLength - offset
  ⟨0, 0, b.take first, pieces (b.drop first)⟩

/-- The number of pieces that nothing was taken of. -/
def untaken (s : BitSource) : Nat :=
  s.later.length

/-- The number of bits that are still to be read. -/
def bitsLeft (s : BitSource) : Nat :=
  s.held + 8 * (s.rest.length + s.later.flatten.length)

/-- Reads the lowest bit of the bytes `b`, or of the pieces behind them. -/
def nextOf : List Bytes → Bytes → Option (Bool × BitSource)
  | later, byte :: rest => some (byte &&& 1 = 1, ⟨byte >>> 1, 7, rest, later⟩)
  | piece :: later, [] => nextOf later piece
  | [], [] => none

/-- Reads one bit. -/
def next : BitSource → Option (Bool × BitSource)
  | ⟨byte, held + 1, rest, later⟩ => some (byte &&& 1 = 1, ⟨byte >>> 1, held, rest, later⟩)
  | ⟨_, 0, rest, later⟩ => nextOf later rest

/-- Reads a number of `n` bits, the lowest bit first. -/
def take : Nat → BitSource → Option (Nat × BitSource)
  | 0, s => some (0, s)
  | n + 1, s =>
    match s.next with
    | none => none
    | some (bit, s) =>
      match take n s with
      | none => none
      | some (value, s) => some (bit.toNat + 2 * value, s)

/-- Leaves out the rest of the byte that is being read. -/
def align (s : BitSource) : BitSource :=
  { s with held := 0 }

/-- The bytes behind the one that is being read. -/
def alignedBytes (s : BitSource) : Bytes :=
  s.rest ++ s.later.flatten

/-- Takes the next piece where that is `due` and no whole byte is left of the one at hand. -/
def refill (due : Bool) (s : BitSource) : BitSource :=
  match due, s.rest, s.later with
  | true, [], piece :: later => { s with rest := piece, later }
  | _, _, _ => s

theorem alignedBytes_ofBytes (offset : Nat) (b : Bytes) : (ofBytes offset b).alignedBytes = b := by
  simp [ofBytes, alignedBytes, flatten_pieces]

theorem bitsLeft_nextOf {later : List Bytes} {b : Bytes} {s : BitSource} {bit : Bool}
    (h : nextOf later b = some (bit, s)) :
    s.bitsLeft < 8 * (b.length + later.flatten.length) := by
  induction later generalizing b with
  | nil =>
    cases b with
    | nil => simp [nextOf] at h
    | cons byte rest =>
      simp only [nextOf, Option.some.injEq, Prod.mk.injEq] at h
      simp only [← h.2, bitsLeft, List.length_cons]
      omega
  | cons piece later ih =>
    cases b with
    | nil =>
      have := ih h
      simp only [List.length_nil, List.flatten_cons, List.length_append]
      omega
    | cons byte rest =>
      simp only [nextOf, Option.some.injEq, Prod.mk.injEq] at h
      simp only [← h.2, bitsLeft, List.length_cons]
      omega

theorem bitsLeft_next {s s' : BitSource} {bit : Bool} (h : s.next = some (bit, s')) :
    s'.bitsLeft < s.bitsLeft := by
  rcases s with ⟨byte, _ | held, rest, later⟩
  · have := bitsLeft_nextOf (show nextOf later rest = some (bit, s') from h)
    simp only [bitsLeft] at this ⊢
    omega
  · simp only [next, Option.some.injEq, Prod.mk.injEq] at h
    simp only [← h.2, bitsLeft]
    omega

theorem bitsLeft_take {n value : Nat} {s s' : BitSource} (h : s.take n = some (value, s')) :
    s'.bitsLeft ≤ s.bitsLeft := by
  induction n generalizing s s' value with
  | zero =>
    simp only [take, Option.some.injEq, Prod.mk.injEq] at h
    exact Nat.le_of_eq (congrArg bitsLeft h.2.symm)
  | succ n ih =>
    unfold take at h
    split at h
    · simp at h
    · rename_i bit s1 h1
      split at h
      · simp at h
      · rename_i v s2 h2
        have := bitsLeft_next h1
        have := ih h2
        simp only [Option.some.injEq, Prod.mk.injEq] at h
        rw [← h.2]
        omega

theorem bitsLeft_take_succ {n value : Nat} {s s' : BitSource}
    (h : s.take (n + 1) = some (value, s')) : s'.bitsLeft < s.bitsLeft := by
  unfold take at h
  split at h
  · simp at h
  · rename_i bit s1 h1
    split at h
    · simp at h
    · rename_i v s2 h2
      have := bitsLeft_next h1
      have := bitsLeft_take h2
      simp only [Option.some.injEq, Prod.mk.injEq] at h
      rw [← h.2]
      omega

theorem bitsLeft_align (s : BitSource) : s.align.bitsLeft ≤ s.bitsLeft := by
  simp only [align, bitsLeft]
  omega

@[simp] theorem bitsLeft_refill (due : Bool) (s : BitSource) :
    (s.refill due).bitsLeft = s.bitsLeft := by
  rcases s with ⟨byte, held, _ | ⟨x, rest⟩, _ | ⟨piece, later⟩⟩ <;> cases due <;>
    simp [refill, bitsLeft]

end BitSource

end EmmcLayout.Gzip
