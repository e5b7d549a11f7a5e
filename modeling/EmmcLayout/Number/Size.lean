import EmmcLayout.Number.Literal

/-!
# Byte sizes as text

Two forms.  A *size literal* is exact and reads back: the decimal number of the largest unit that
divides the size.  A *human size* is what a report shows: the size as a binary double, divided by
1024 until it is below 1024, with two places.  Division by 1024 only moves the exponent, so the
human size is a number of at most 53 significant bits over a power of 1024, and both its two places
and its bit pattern are computed exactly.
-/

namespace EmmcLayout

/-- Takes out factors of 1024, one for each letter left, and names the last letter passed. -/
def SizeLiteral.reduce (value : Nat) (unit : Option Char) : List Char → Nat × Option Char
  | [] => (value, unit)
  | letter :: letters =>
    if value % 1024 = 0 then reduce (value / 1024) (some letter) letters else (value, unit)

/-- The exact literal of a size, in the largest unit that divides it, such as `36M`. -/
def sizeLiteral (size : UInt64) : String :=
  if size = 0 then "0"
  else
    match SizeLiteral.reduce size.toNat none Literal.sizeLetters with
    | (value, none) => toString value
    | (value, some letter) => toString value ++ letter.toString

/-- The size in hexadecimal behind `0x`. -/
def hexLiteral (size : UInt64) : String :=
  Text.hex size.toNat

/-- `num / den` rounded to a whole number, ties to the even one. -/
def roundDiv (num den : Nat) : Nat :=
  let q := num / den
  let r := num % den
  if den < 2 * r ∨ (den = 2 * r ∧ q % 2 = 1) then q + 1 else q

/-- `n` rounded to 53 significant bits, ties to even: the double nearest to it. -/
def roundToDouble (n : Nat) : Nat :=
  if n < 1 <<< 53 then n
  else
    let unit := 1 <<< (n.log2 - 52)
    roundDiv n unit * unit

/-- A size scaled for reading: `bytes` divided `power` times by 1024, where `bytes` has at most 53
significant bits. -/
structure HumanSize where
  bytes : Nat
  power : Nat
  deriving DecidableEq

namespace HumanSize

/-- The letters of the units, from plain bytes on. -/
def unitLetters : List Char := ['B', 'K', 'M', 'G', 'T', 'P', 'E', 'Z', 'Y']

/-- The greatest number of divisions, at most `limit`, that leaves at least one whole unit. -/
def fittingPower (bytes : Nat) : Nat → Nat
  | 0 => 0
  | limit + 1 => if 1 <<< (10 * (limit + 1)) ≤ bytes then limit + 1 else fittingPower bytes limit

/-- The size as a report shows it. -/
def ofSize (size : UInt64) : HumanSize :=
  let bytes := roundToDouble size.toNat
  ⟨bytes, fittingPower bytes (unitLetters.length - 1)⟩

/-- The letter of the unit. -/
def unit (h : HumanSize) : Char :=
  unitLetters.getD h.power 'B'

/-- The scaled value as the bit pattern of a double: the sign, eleven bits of exponent and 52 of
fraction. -/
def doubleBits (h : HumanSize) : UInt64 :=
  if h.bytes = 0 then 0
  else
    let top := h.bytes.log2
    let significand := if top ≤ 52 then h.bytes <<< (52 - top) else h.bytes >>> (top - 52)
    let exponent := top + 1023 - 10 * h.power
    UInt64.ofNat (exponent <<< 52 + (significand - 1 <<< 52))

/-- The value with two places, flush right in seven columns, and the letter of its unit. -/
def text (h : HumanSize) : String :=
  let hundredths := roundDiv (h.bytes * 100) (1 <<< (10 * h.power))
  let digits :=
    toString (hundredths / 100) ++ "." ++ Text.padLeft 2 '0' (toString (hundredths % 100))
  Text.column 7 digits ++ h.unit.toString

end HumanSize

/-- A size as reports print it, such as `   4.00M`. -/
def humanText (size : UInt64) : String :=
  (HumanSize.ofSize size).text

end EmmcLayout
