import EmmcLayout.Bytes

/-!
# UTF-8

Names are texts in arguments and bytes on the medium.  `Utf8.encode` goes one way; the other way is
total because names on the medium may hold anything: every longest piece that starts a character
but does not finish it becomes one replacement character, and so does every byte that cannot start
one.
-/

namespace EmmcLayout.Utf8

/-- The bytes of a text. -/
def encode (s : String) : Bytes :=
  s.toList.flatMap String.utf8EncodeChar

/-- The character that stands for undecodable bytes. -/
def replacement : Char := '\uFFFD'

/-- The six payload bits of a continuation byte. -/
def payload? (b : UInt8) : Option Nat :=
  if 0x80 ≤ b ∧ b ≤ 0xBF then some (b.toNat - 0x80) else none

/-- The range that the byte after the leading byte of a three- or four-byte character must lie in:
narrower than all continuation bytes where an overlong form, a surrogate or a value past 0x10FFFF
would follow. -/
def secondRange (lead : UInt8) : UInt8 × UInt8 :=
  if lead = 0xE0 then (0xA0, 0xBF)
  else if lead = 0xED then (0x80, 0x9F)
  else if lead = 0xF0 then (0x90, 0xBF)
  else if lead = 0xF4 then (0x80, 0x8F)
  else (0x80, 0xBF)

/-- Reads the continuation bytes that a character still needs.  Returns the character, or the
replacement when one is missing, and how many bytes were taken. -/
def finish (value used : Nat) : Nat → Bytes → Char × Nat
  | 0, _ => (Char.ofNat value, used)
  | _ + 1, [] => (replacement, used)
  | needed + 1, b :: rest =>
    match payload? b with
    | some bits => finish (value * 64 + bits) (used + 1) needed rest
    | none => (replacement, used)

/-- Reads the character that starts with `lead`.  Returns it with the number of bytes taken behind
the leading one. -/
def character (lead : UInt8) (rest : Bytes) : Char × Nat :=
  if lead < 0x80 then (Char.ofNat lead.toNat, 0)
  else if 0xC2 ≤ lead ∧ lead ≤ 0xDF then finish (lead.toNat - 0xC0) 0 1 rest
  else if 0xE0 ≤ lead ∧ lead ≤ 0xF4 then
    let (low, high) := secondRange lead
    let (value, needed) :=
      if lead < 0xF0 then (lead.toNat - 0xE0, 2) else (lead.toNat - 0xF0, 3)
    match rest with
    | [] => (replacement, 0)
    | second :: _ =>
      if low ≤ second ∧ second ≤ high then finish value 0 needed rest else (replacement, 0)
  else (replacement, 0)

/-- The characters of a byte string, undecodable pieces replaced. -/
def characters : Bytes → List Char
  | [] => []
  | lead :: rest =>
    let (c, used) := character lead rest
    c :: characters (rest.drop used)
termination_by b => b.length
decreasing_by
  simp only [List.length_drop, List.length_cons]
  omega

/-- The text of a byte string, undecodable pieces replaced. -/
def decodeLossy (b : Bytes) : String :=
  String.ofList (characters b)

end EmmcLayout.Utf8
