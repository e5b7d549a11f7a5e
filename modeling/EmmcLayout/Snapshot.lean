import EmmcLayout.Number.Size

/-!
# Snapshots

A layout written as the arguments that rebuild it, in three styles of number.
-/

namespace EmmcLayout

/-- The same arguments in three styles of number. -/
structure Snapshot where
  decimal : String
  hexadecimal : String
  human : String
  deriving DecidableEq

namespace Snapshot

/-- The size in plain decimal. -/
def decimalLiteral (size : UInt64) : String :=
  toString size.toNat

/-- Writes every item as one argument, in each style, and sets the arguments off by blanks. -/
def ofItems {α : Type} (items : List α) (argument : (UInt64 → String) → α → String) : Snapshot :=
  let join (literal : UInt64 → String) := " ".intercalate (items.map (argument literal))
  ⟨join decimalLiteral, join hexLiteral, join sizeLiteral⟩

/-- The three styles in order. -/
def styles (s : Snapshot) : List String :=
  [s.decimal, s.hexadecimal, s.human]

/-- The three styles, one a line. -/
def text (s : Snapshot) : String :=
  "\n".intercalate s.styles

/-- The number of lines of the text.  A line break at the end starts no further line. -/
def lineCount (s : Snapshot) : Nat :=
  let lines := s.text.toList.splitOn '\n'
  if lines.getLast? = some [] then lines.length - 1 else lines.length

/-- The arguments that a style consists of. -/
def arguments (style : String) : List String :=
  (style.toList.splitOn ' ').map String.ofList

end Snapshot

end EmmcLayout
