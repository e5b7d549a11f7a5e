/-!
# Byte strings

Everything that lies on the medium is a list of bytes.  This file holds the fixed-width encodings
of numbers (little-endian for partition tables and trailers, big-endian for device trees), the
range-checked slice, texts closed by a NUL, and byte fields of a fixed length.

The number encodings go through `Nat`: `ofLE_toLE` says that reading takes back what writing put
down modulo the width, and `toLE_ofLE` that every byte string of that width is written by the
number it reads as.
-/

namespace EmmcLayout

/-- A string of bytes. -/
abbrev Bytes := List UInt8

namespace Bytes

/-! ## Numbers -/

/-- The number whose little-endian digits in base 256 are the given bytes. -/
def ofLE : Bytes → Nat
  | [] => 0
  | b :: rest => b.toNat + 256 * ofLE rest

/-- The lowest `width` base-256 digits of `n`, least significant first. -/
def toLE : Nat → Nat → Bytes
  | 0, _ => []
  | width + 1, n => UInt8.ofNat n :: toLE width (n / 256)

/-- The number whose big-endian digits in base 256 are the given bytes. -/
def ofBE (b : Bytes) : Nat :=
  ofLE b.reverse

/-- The lowest `width` base-256 digits of `n`, most significant first. -/
def toBE (width n : Nat) : Bytes :=
  (toLE width n).reverse

@[simp]
theorem length_toLE (width n : Nat) : (toLE width n).length = width := by
  induction width generalizing n with
  | zero => rfl
  | succ width ih => simp [toLE, ih]

@[simp]
theorem length_toBE (width n : Nat) : (toBE width n).length = width := by
  simp [toBE]

/-- One byte more holds 256 times as many numbers. -/
theorem shiftLeft_width_succ (width : Nat) : 1 <<< (8 * (width + 1)) = 256 * 1 <<< (8 * width) := by
  rw [Nat.one_shiftLeft, Nat.one_shiftLeft, Nat.mul_succ, Nat.pow_add, Nat.mul_comm]

theorem ofLE_toLE (width n : Nat) : ofLE (toLE width n) = n % 1 <<< (8 * width) := by
  induction width generalizing n with
  | zero => exact (Nat.mod_one n).symm
  | succ width ih =>
    have byte : (UInt8.ofNat n).toNat = n % 256 := by simp
    rw [toLE, ofLE, ih, byte, shiftLeft_width_succ, Nat.mod_mul]

theorem toLE_ofLE (b : Bytes) : toLE b.length (ofLE b) = b := by
  induction b with
  | nil => rfl
  | cons x rest ih =>
    have hx : x.toNat < 256 := x.toNat_lt
    have hdiv : (x.toNat + 256 * ofLE rest) / 256 = ofLE rest := by omega
    simp only [List.length_cons, toLE, ofLE, hdiv, ih]
    congr 1
    apply UInt8.toNat_inj.mp
    simp only [UInt8.toNat_ofNat']
    omega

theorem ofLE_lt (b : Bytes) : ofLE b < 1 <<< (8 * b.length) := by
  induction b with
  | nil => exact Nat.zero_lt_one
  | cons x rest ih =>
    have hx : x.toNat < 256 := x.toNat_lt
    rw [List.length_cons, shiftLeft_width_succ, ofLE]
    omega

theorem ofBE_toBE (width n : Nat) : ofBE (toBE width n) = n % 1 <<< (8 * width) := by
  simp [ofBE, toBE, ofLE_toLE]

theorem toBE_ofBE (b : Bytes) : toBE b.length (ofBE b) = b := by
  have h := toLE_ofLE b.reverse
  simp only [List.length_reverse] at h
  simp [toBE, ofBE, h]

/-- A 32-bit word as four little-endian bytes. -/
def le32 (w : UInt32) : Bytes := toLE 4 w.toNat

/-- A 64-bit word as eight little-endian bytes. -/
def le64 (w : UInt64) : Bytes := toLE 8 w.toNat

/-- A 32-bit word as four big-endian bytes. -/
def be32 (w : UInt32) : Bytes := toBE 4 w.toNat

/-- A 64-bit word as eight big-endian bytes. -/
def be64 (w : UInt64) : Bytes := toBE 8 w.toNat

/-- Adds the little-endian 32-bit words of a byte string to `sum`, modulo 2^32.  Up to three bytes
left over at the end do not count. -/
def addWords (sum : UInt32) : Bytes → UInt32
  | a :: b :: c :: d :: rest => addWords (sum + UInt32.ofNat (ofLE [a, b, c, d])) rest
  | _ => sum

/-- The sum of the little-endian 32-bit words of a byte string, modulo 2^32. -/
def wordSum (b : Bytes) : UInt32 :=
  addWords 0 b

/-! ## Parts of a byte string -/

/-- The `len` bytes at `pos`, when all of them lie within `b`. -/
def slice? (b : Bytes) (pos len : Nat) : Option Bytes :=
  if pos + len ≤ b.length then some ((b.drop pos).take len) else none

/-- `n` zero bytes. -/
def zeros (n : Nat) : Bytes :=
  List.replicate n 0

/-- `b` followed by as many zeros as it takes to reach `n` bytes. -/
def padTo (n : Nat) (b : Bytes) : Bytes :=
  b ++ zeros (n - b.length)

/-- The least multiple of four that is not below `n`. -/
def align4 (n : Nat) : Nat :=
  (n + 3) / 4 * 4

/-- The bytes before the first NUL, or all of them when there is none. -/
def untilNul (b : Bytes) : Bytes :=
  b.takeWhile (· ≠ 0)

/-- The bytes before the first NUL; `none` when there is none. -/
def terminated? (b : Bytes) : Option Bytes :=
  if 0 ∈ b then some (untilNul b) else none

/-- The smallest of the positions at or after `pos` at which `needle` stands in `b`, where `b`
itself starts at `pos`. -/
def findFrom (needle : Bytes) (pos : Nat) : Bytes → Option Nat
  | [] => if needle = [] then some pos else none
  | x :: rest =>
    if needle.isPrefixOf (x :: rest) then some pos else findFrom needle (pos + 1) rest

end Bytes

/-! ## Fields of a fixed length -/

/-- A byte string of exactly `n` bytes. -/
structure ByteField (n : Nat) where
  bytes : Bytes
  length_eq : bytes.length = n
  deriving DecidableEq

namespace ByteField

/-- The first `n` bytes of `b`, filled up with zeros when `b` is shorter. -/
def ofBytes (n : Nat) (b : Bytes) : ByteField n where
  bytes := (Bytes.padTo n b).take n
  length_eq := by
    simp only [Bytes.padTo, Bytes.zeros, List.length_take, List.length_append,
      List.length_replicate]
    omega

/-- A field of zeros. -/
def zero (n : Nat) : ByteField n where
  bytes := Bytes.zeros n
  length_eq := by simp [Bytes.zeros]

@[ext]
theorem ext {n : Nat} {a b : ByteField n} (h : a.bytes = b.bytes) : a = b := by
  cases a; cases b; simp_all

theorem bytes_ofBytes {n : Nat} {b : Bytes} (h : b.length = n) : (ofBytes n b).bytes = b := by
  subst h
  simp [ofBytes, Bytes.padTo, Bytes.zeros]

end ByteField

end EmmcLayout
