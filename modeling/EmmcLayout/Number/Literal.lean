import EmmcLayout.Error

/-!
# Number literals

A literal starts with the mark of its radix: `0x` or `0X` for hexadecimal, `0b` or `0B` for binary,
a `0` before another digit for octal, and no mark for decimal.  Its digits are the longest run that
the radix admits.  A byte size may end in one of the letters `K M G T P E`, in either case, for the
powers of 1024.
-/

namespace EmmcLayout

namespace Literal

/-- Why a text is not the literal of a number that fits. -/
inductive Fault
  | invalid
  | overflow
  deriving DecidableEq

/-- The radix of a literal, and what stands behind its mark.  A mark of two characters counts only
when something follows it. -/
def splitRadix : List Char → Nat × List Char
  | '0' :: 'x' :: c :: cs => (16, c :: cs)
  | '0' :: 'X' :: c :: cs => (16, c :: cs)
  | '0' :: 'b' :: c :: cs => (2, c :: cs)
  | '0' :: 'B' :: c :: cs => (2, c :: cs)
  | '0' :: c :: cs => if c.isDigit then (8, c :: cs) else (10, '0' :: c :: cs)
  | cs => (10, cs)

/-- The value of a digit of any radix up to 16. -/
def digitValue? (c : Char) : Option Nat :=
  if '0' ≤ c ∧ c ≤ '9' then some (c.toNat - '0'.toNat)
  else if 'a' ≤ c ∧ c ≤ 'f' then some (c.toNat - 'a'.toNat + 10)
  else if 'A' ≤ c ∧ c ≤ 'F' then some (c.toNat - 'A'.toNat + 10)
  else none

/-- Whether `c` is a digit of the radix. -/
def isDigitOf (radix : Nat) (c : Char) : Bool :=
  match digitValue? c with
  | some v => v < radix
  | none => false

/-- The number written by a run of digits. -/
def digitsValue (radix : Nat) (digits : List Char) : Nat :=
  digits.foldl (fun n c => n * radix + (digitValue? c).getD 0) 0

/-- The letters that may close a byte size; the letter at index `i` stands for 1024^(i + 1). -/
def sizeLetters : List Char := ['K', 'M', 'G', 'T', 'P', 'E']

/-- The power of 1024 that a letter, in either case, stands for. -/
def letterPower? (c : Char) : Option Nat :=
  (sizeLetters.idxOf? c.toUpper).map (· + 1)

/-- Reads an unsigned literal below 2^64, with a letter behind it when `lettered`.  Digits that
overflow are reported before anything that follows them. -/
def read (lettered : Bool) (cs : List Char) : Except Fault Nat :=
  let (radix, body) := splitRadix cs
  let digits := body.takeWhile (isDigitOf radix)
  let rest := body.dropWhile (isDigitOf radix)
  let value := digitsValue radix digits
  if digits.isEmpty then .error .invalid
  else if UInt64.size ≤ value then .error .overflow
  else
    match rest with
    | [] => .ok value
    | [c] =>
      match if lettered then letterPower? c else none with
      | none => .error .invalid
      | some power =>
        let bytes := value <<< (10 * power)
        if bytes < UInt64.size then .ok bytes else .error .overflow
    | _ => .error .invalid

/-- The error for a faulty literal. -/
def Fault.toError (literal : String) : Fault → GrammarError
  | .invalid => .invalidNumber literal
  | .overflow => .numberOverflow literal

end Literal

/-- Reads a byte size, such as `0x1000`, `512K` or `2g`. -/
def parseSize (literal : String) : Except GrammarError UInt64 :=
  match Literal.read true literal.toList with
  | .ok n => .ok (UInt64.ofNat n)
  | .error fault => .error (fault.toError literal)

/-- Reads a number below 2^32, without a letter. -/
def parseU32 (literal : String) : Except GrammarError UInt32 :=
  match Literal.read false literal.toList with
  | .ok n => if n < UInt32.size then .ok (UInt32.ofNat n) else .error (.numberOverflow literal)
  | .error fault => .error (fault.toError literal)

/-- Reads a number in the signed 64-bit range, with an optional sign and without a letter. -/
def parseI64 (literal : String) : Except GrammarError Int64 :=
  let (negative, body) :=
    match literal.toList with
    | '-' :: cs => (true, cs)
    | '+' :: cs => (false, cs)
    | cs => (false, cs)
  match Literal.read false body with
  | .error fault => .error (fault.toError literal)
  | .ok n =>
    if negative then
      if n ≤ Int64.minValue.toInt.natAbs then .ok (Int64.ofInt (-n))
      else .error (.numberOverflow literal)
    else if n ≤ Int64.maxValue.toInt.natAbs then .ok (Int64.ofNat n)
    else .error (.numberOverflow literal)

end EmmcLayout
